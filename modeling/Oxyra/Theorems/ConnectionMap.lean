import Oxyra.Logic.ConnectionMap

/-!
# The stem map over whole histories

* `stem_map`: over any sequence of calls the counters are exact, an update fills as many slots as it
  can without moving a stem that is still connected, and between updates the stem of a source stays.
* `update_reports_iff`: what `update` reports. A slot that an earlier update had to leave empty
  counts as replaced in every later one.
-/

namespace Oxyra

namespace ConnectionMap

variable {m m₀ : ConnectionMap} {rand : Nat → Nat} {outConnections : List Uuid} {stems : Nat}
  {current : List Uuid}

/-! ## Runs -/

theorem construct_sound (h : construct rand outConnections stems = some m) :
    m.Sound ∧ m.usageCount.length = stems ∧ m.Even := by
  unfold construct at h
  split at h
  · exact absurd h (by simp)
  obtain rfl := Option.some.inj h
  refine ⟨⟨.nil, by simp, ?_, ?_⟩, List.length_replicate, ⟨by simp, ?_⟩⟩
  · rw [List.length_replicate]
    split
    · exact List.length_take_le _ _
    · rw [(shuffleFrom_perm ..).length_eq]
      omega
  · intro i hi
    rw [List.length_replicate] at hi
    simp [hi]
  · intro i j _ _
    have hzero : ∀ i, (List.replicate stems 0).getD i 0 = 0 := by
      intro i
      rw [List.getD_eq_getElem?_getD, List.getElem?_replicate]
      split <;> rfl
    simp only [hzero]
    omega

theorem run_cons (c : Call) (calls : List Call) :
    m.run (c :: calls) = (m.call c).bind fun m => m.run calls := by
  rw [run, List.foldlM_cons]
  rfl

theorem call_sound (hm : m.Sound) (c : Call) :
    ∃ m', m.call c = some m' ∧ m'.Sound ∧ m'.usageCount.length = m.usageCount.length := by
  cases c with
  | update rand current =>
    refine ⟨_, rfl, hm.update rand current, ?_⟩
    rw [(m.update_frame rand current).2.1]
  | getStem r source =>
    obtain ⟨x, m', hget, hout, hsorted, houtcome⟩ := getStem_outcome hm r source
    refine ⟨m', ?_, houtcome.sound hm hout hsorted, houtcome.length_usageCount⟩
    rw [call, hget]
    rfl

theorem run_sound (calls : List Call) : ∀ {m : ConnectionMap}, m.Sound →
    ∃ m', m.run calls = some m' ∧ m'.Sound ∧ m'.usageCount.length = m.usageCount.length := by
  induction calls with
  | nil => exact fun {m} hm => ⟨m, rfl, hm, rfl⟩
  | cons c calls ih =>
    intro m hm
    obtain ⟨m₁, hcall, hm₁, hlen₁⟩ := call_sound hm c
    obtain ⟨m₂, hrun, hm₂, hlen₂⟩ := ih hm₁
    refine ⟨m₂, ?_, hm₂, hlen₂.trans hlen₁⟩
    rw [run_cons, hcall, Option.bind_some, hrun]

def Call.isGetStem : Call → Bool
  | .update _ _ => false
  | .getStem _ _ => true

/-- **What `get_stem` preserves, between updates.** -/
theorem run_getStem {P : ConnectionMap → Prop}
    (hP : ∀ {m m' : ConnectionMap} {source x : Uuid}, m.Sound → Outcome m source x m' →
      m'.outMapping = m.outMapping → P m → P m') (calls : List Call) :
    ∀ {m : ConnectionMap}, m.Sound → (∀ c ∈ calls, c.isGetStem = true) → P m →
      ∃ m', m.run calls = some m' ∧ m'.Sound ∧ P m' := by
  induction calls with
  | nil => exact fun {m} hm _ h => ⟨m, rfl, hm, h⟩
  | cons c calls ih =>
    intro m hm hcalls h
    rw [List.forall_mem_cons] at hcalls
    cases c with
    | update rand current => exact absurd hcalls.1 Bool.false_ne_true
    | getStem r source =>
      obtain ⟨x, m', hget, hout, hsorted, houtcome⟩ := getStem_outcome hm r source
      obtain ⟨m'', hrun, hm'', h''⟩ :=
        ih (houtcome.sound hm hout hsorted) hcalls.2 (hP hm houtcome hout h)
      refine ⟨m'', ?_, hm'', h''⟩
      rw [run_cons, call, hget, Option.map_some, Option.bind_some, hrun]

/-! ## The stem map -/

structure Exact (stems : Nat) (m : ConnectionMap) : Prop where
  sources : (m.inMapping.map Prod.fst).Nodup
  length : m.usageCount.length = stems
  usage : ∀ i < stems, m.usageCount[i]? = some (m.inMapping.countP fun p => p.2 = i)

theorem Sound.exact (hm : m.Sound) (hlen : m.usageCount.length = stems) : m.Exact stems := by
  refine ⟨?_, hlen, fun i hi => ?_⟩
  · rw [List.Nodup, List.pairwise_map]
    refine hm.sorted.imp fun {a b} hlt heq => ?_
    rw [heq] at hlt
    exact absurd hlt (lt_irrefl _)
  · rw [getElem?_eq_getD (hlen ▸ hi), hm.counted i (hlen ▸ hi)]

/-- The stems after an update to the connections `current`. A stem has one slot unless the map was
built from a list that names it twice; then it keeps the first. -/
structure Updated (stems : Nat) (m : ConnectionMap) (current : List Uuid) (m' : ConnectionMap) :
    Prop where
  distinct : (live m'.outMapping).Nodup
  given : ∀ x ∈ live m'.outMapping, x ∈ current
  number : (live m'.outMapping).length = min stems current.length
  stays : ∀ (i : Nat) (x : Uuid), m.outMapping[i]? = some x → x ∉ m.outMapping.take i →
    x ∈ current → m'.outMapping[i]? = some x

theorem update_updated (hm : m.Sound) (hlen : m.usageCount.length = stems) (rand : Nat → Nat)
    (hnodup : current.Nodup) (hnil : nilUuid ∉ current) :
    Updated stems m current (m.update rand current).2 := by
  have hkept := kept_spec (m := m) hnil
  have hfilled := filled_spec (m := m) rand hnil
  have hcurrent := hkept.perm.trans (perm_sortIds current)
  obtain ⟨rest, hrest⟩ := hfilled.perm
  have hall := hrest.trans hcurrent
  rw [update_eq rand hnil]
  refine ⟨?_, fun x hx => hall.mem_iff.mp (List.mem_append_left _ hx), ?_,
    fun i x hx hfirst hmem => ?_⟩
  · exact (List.nodup_append.mp (hall.nodup_iff.mpr hnodup)).1
  · have hroom := hm.room
    rw [hfilled.count (hkept.length_eq.trans_le hroom), hlen, ← hcurrent.length_eq,
      List.length_append]
  · have hkeep : (m.kept current).1[i]? = some x :=
      keepLoop_keeps m.outMapping (sorted_sortIds current) hx hfirst
        ((perm_sortIds current).mem_iff.mpr hmem)
    obtain ⟨y, hy, hsame, -⟩ := hfilled.slots i x hkeep
    have hlive : x ≠ nilUuid := fun h => hnil (h ▸ hmem)
    rw [hy, hsame hlive]

/-- The connections of an update are distinct, and none is nil. -/
def Call.Distinct : Call → Prop
  | .update _ current => current.Nodup ∧ nilUuid ∉ current
  | .getStem _ _ => True

theorem construct_nodup (h : construct rand outConnections stems = some m)
    (hnodup : outConnections.Nodup) : (live m.outMapping).Nodup := by
  unfold construct at h
  split at h
  · exact absurd h (by simp)
  obtain rfl := Option.some.inj h
  refine List.Nodup.filter _ ?_
  split
  · exact ((shuffleFrom_perm ..).nodup_iff.mpr hnodup).sublist (List.take_sublist _ _)
  · exact (shuffleFrom_perm ..).nodup_iff.mpr hnodup

theorem run_nodup (calls : List Call) : ∀ {m m' : ConnectionMap}, m.Sound →
    (∀ c ∈ calls, c.Distinct) → (live m.outMapping).Nodup → m.run calls = some m' →
    (live m'.outMapping).Nodup := by
  induction calls with
  | nil =>
    intro m m' _ _ h hrun
    obtain rfl := Option.some.inj hrun
    exact h
  | cons c calls ih =>
    intro m m' hm hcalls h hrun
    rw [List.forall_mem_cons] at hcalls
    cases c with
    | update rand current =>
      exact ih (hm.update rand current) hcalls.2
        (update_updated hm rfl rand hcalls.1.1 hcalls.1.2).distinct hrun
    | getStem r source =>
      obtain ⟨x, m₁, hget, hout, hsorted, houtcome⟩ := getStem_outcome hm r source
      rw [run_cons, call, hget, Option.map_some, Option.bind_some] at hrun
      exact ih (houtcome.sound hm hout hsorted) hcalls.2 (hout ▸ h) hrun

/-- **The stem map.** Of a map after any sequence of calls, with any random choices: the counters
are exact; the stems are distinct; an update keeps what it can and fills what it can; the stem of
a source stays until the next update and is nil exactly if no slot is in use; and before any
update the slots in use are used evenly. -/
theorem stem_map (h₀ : construct rand outConnections stems = some m₀) (calls : List Call) :
    ∃ m, m₀.run calls = some m ∧ m.Exact stems ∧
      (outConnections.Nodup → (∀ c ∈ calls, c.Distinct) → (live m.outMapping).Nodup) ∧
      (∀ (rand : Nat → Nat) (current : List Uuid), current.Nodup → nilUuid ∉ current →
        Updated stems m current (m.update rand current).2) ∧
      (∀ (r : Nat) (source : Uuid), ∃ x m', m.getStem r source = some (x, m') ∧
        (x = nilUuid ↔ live m.outMapping = []) ∧
        ∀ later : List Call, (∀ c ∈ later, c.isGetStem = true) → ∀ r' : Nat,
          ∃ m'' m''', m'.run later = some m'' ∧ m''.getStem r' source = some (x, m''')) ∧
      ((∀ c ∈ calls, c.isGetStem = true) → ∀ i j, LiveAt m.outMapping i →
        LiveAt m.outMapping j → m.usageCount.getD i 0 ≤ m.usageCount.getD j 0 + 1) := by
  obtain ⟨hm₀, hlen₀, heven⟩ := construct_sound h₀
  obtain ⟨m, hrun, hm, hlen⟩ := run_sound calls hm₀
  have hstems := hlen.trans hlen₀
  refine ⟨m, hrun, hm.exact hstems, fun hnodup hcalls => ?_, fun rand current hnodup hnil =>
    update_updated hm hstems rand hnodup hnil, fun r source => ?_, fun hcalls => ?_⟩
  · exact run_nodup calls hm₀ hcalls (construct_nodup h₀ hnodup) hrun
  · obtain ⟨x, m', hget, hout, hsorted, houtcome⟩ := getStem_outcome hm r source
    have hanswers := houtcome.answers hout
    refine ⟨x, m', hget, ?_, fun later hlater r' => ?_⟩
    · rw [hanswers.eq_nil_iff, hout, live_eq_nil]
    · obtain ⟨m'', hrun', hm'', hstill⟩ := run_getStem
        (P := fun m => Answers m source x) (fun _ hstep hout h => h.step hstep hout) later
        (houtcome.sound hm hout hsorted) hlater hanswers
      obtain ⟨y, m''', hget', -, -, houtcome'⟩ := getStem_outcome hm'' r' source
      obtain rfl := hstill.eq houtcome' hm''
      exact ⟨m'', m''', hrun', hget'⟩
  · obtain ⟨m', hrun', -, heven'⟩ := run_getStem (P := Even)
      (fun hm hstep hout h => h.step hm hstep hout) calls hm₀ hcalls heven
    obtain rfl := Option.some.inj (hrun.symm.trans hrun')
    exact heven'.balanced

/-- A map of two stems, one of which is held by the source 7. -/
theorem stem_map_two :
    construct (fun _ => 0) [1, 2, 3] 2 ≠ none ∧
      ∃ m, (⟨[1, 2], [], [0, 0]⟩ : ConnectionMap).run [.getStem 0 7] = some m ∧ m.Exact 2 := by
  have h₀ : construct (fun _ => 0) [1, 2, 3] 2 = some ⟨[1, 2], [], [0, 0]⟩ := by decide +kernel
  obtain ⟨m, hrun, hexact, -⟩ := stem_map h₀ [.getStem 0 7]
  exact ⟨by rw [h₀]; simp, m, hrun, hexact⟩

/-! ## What `update` reports -/

theorem keepLoop_all (outMap : List Uuid) :
    ∀ {current : List Uuid}, (current.Pairwise fun a b => a.toNat ≤ b.toNat) →
      nilUuid ∉ current → (live outMap).Perm current →
      (keepLoop outMap current).1 = outMap ∧ (keepLoop outMap current).2.1 = [] := by
  induction outMap with
  | nil =>
    intro current _ _ hperm
    exact ⟨rfl, List.nil_perm.mp hperm⟩
  | cons x outMap ih =>
    intro current hsorted hnil hperm
    rw [live_cons] at hperm
    unfold keepLoop
    rcases search_current hsorted x with ⟨hmem, hat, herase⟩ | ⟨hmem, hat⟩
    · have hx : x ≠ nilUuid := fun h => hnil (h ▸ hmem)
      rw [if_neg hx] at hperm
      obtain ⟨hout, hcand⟩ := ih (hsorted.sublist (List.eraseIdx_sublist current
        (lowerBound BitVec.toNat current x.toNat)))
        (fun h => hnil (herase.mem_iff.mp (.tail _ h)))
        (List.Perm.cons_inv (hperm.trans herase.symm))
      rw [if_pos hat]
      exact ⟨congrArg (x :: ·) hout, hcand⟩
    · rw [if_neg hat]
      by_cases hx : x = nilUuid
      · rw [if_pos hx] at hperm
        obtain ⟨hout, hcand⟩ := ih hsorted hnil hperm
        exact ⟨by rw [hx]; exact congrArg (nilUuid :: ·) hout, hcand⟩
      · rw [if_neg hx] at hperm
        exact absurd (hperm.mem_iff.mp List.mem_cons_self) hmem

theorem Kept.eq_of_forall {outMap : List Uuid} {r : List Uuid × List Uuid × Bool}
    (h : Kept outMap current r)
    (hgone : ∀ (i : Nat) (x : Uuid), outMap[i]? = some x → r.1[i]? = some nilUuid →
      x ∉ r.2.1 → x = nilUuid) :
    r.1 = outMap := by
  obtain ⟨hlen, hslots⟩ := List.forall₂_iff_get.mp h.slots
  refine List.ext_getElem hlen.symm fun i hi hi' => ?_
  rcases hslots i hi' hi with heq | ⟨hdead, hnot⟩
  · exact heq
  · rw [List.get_eq_getElem] at hdead hnot
    rw [hdead]
    refine (hgone i _ (List.getElem?_eq_getElem hi') ?_ hnot).symm
    rw [List.getElem?_eq_getElem hi, hdead]

theorem filled_eq_of_nil_mem (hm : m.Sound) (rand : Nat → Nat) (hnil : nilUuid ∉ current)
    (hfree : nilUuid ∈ (m.kept current).1) :
    m.filled rand current = m.outMapping ↔
      nilUuid ∈ m.outMapping ∧ (live m.outMapping).Perm current := by
  have hkept := kept_spec (m := m) hnil
  have hfilled := filled_spec (m := m) rand hnil
  constructor
  · intro hsame
    have hout : (m.kept current).1 = m.outMapping := by
      refine hkept.eq_of_forall fun i x hx hdead hnot => ?_
      obtain ⟨y, hy, -, hfrom⟩ := hfilled.slots i nilUuid hdead
      rw [hsame, hx, Option.some.injEq] at hy
      rw [← hy] at hfrom
      exact hfrom.resolve_right hnot
    rw [hout] at hfree
    refine ⟨hfree, ?_⟩
    -- with a free slot, a candidate would have been used
    have hcount := hfilled.count (hkept.length_eq.trans_le hm.room)
    rw [hsame, hout] at hcount
    have hfew : (live m.outMapping).length < m.outMapping.length :=
      List.length_filter_lt_length_iff_exists.mpr ⟨nilUuid, hfree, by simp⟩
    have hroom := hm.room
    have hnone : (m.kept current).2.1 = [] := List.length_eq_zero_iff.mp (by omega)
    have hperm := hkept.perm.trans (perm_sortIds current)
    rwa [hnone, List.append_nil, hout] at hperm
  · rintro ⟨-, hperm⟩
    obtain ⟨hout, hnone⟩ := keepLoop_all m.outMapping (sorted_sortIds current)
      (fun h => hnil ((perm_sortIds current).mem_iff.mp h))
      (hperm.trans (perm_sortIds current).symm)
    have hout' : (m.kept current).1 = m.outMapping := hout
    have hnone' : (m.kept current).2.1 = [] := hnone
    unfold filled
    rw [hout', hnone']
    cases m.usageCount.length <;> rfl

theorem filled_ne_of_nil_not_mem (rand : Nat → Nat) (hnil : nilUuid ∉ current)
    (hout : (m.kept current).1 = m.outMapping) (hfull : nilUuid ∉ m.outMapping) :
    m.outMapping.length < (m.filled rand current).length ↔
      m.filled rand current ≠ m.outMapping := by
  have hfilled := filled_spec (m := m) rand hnil
  constructor
  · intro hlt heq
    rw [heq] at hlt
    exact lt_irrefl _ hlt
  · intro hne
    by_contra hle
    refine hne (List.ext_getElem? fun i => ?_)
    by_cases hi : i < m.outMapping.length
    · have hx := List.getElem?_eq_getElem hi
      have hlive : m.outMapping[i] ≠ nilUuid := fun h => hfull (h ▸ List.getElem_mem hi)
      obtain ⟨y, hy, hsame, -⟩ := hfilled.slots i _ (by rw [hout]; exact hx)
      rw [hy, hx, hsame hlive]
    · rw [List.getElem?_eq_none (by omega), List.getElem?_eq_none (by omega)]

/-- **What `update` reports**: that the list of stems has changed, unless a slot was empty before
and the stems in use are the connections given. Then nothing changes and `update` reports a
change. -/
theorem update_reports_iff (h₀ : construct rand outConnections stems = some m₀)
    (calls : List Call) (hrun : m₀.run calls = some m) (rand' : Nat → Nat) {current : List Uuid}
    (hnil : nilUuid ∉ current) :
    ((m.update rand' current).1 = true ↔ (m.update rand' current).2.outMapping ≠ m.outMapping) ↔
      ¬ (nilUuid ∈ m.outMapping ∧ (live m.outMapping).Perm current) := by
  obtain ⟨m', hrun', hm, -⟩ := run_sound calls (construct_sound h₀).1
  obtain rfl := Option.some.inj (hrun.symm.trans hrun')
  have hkept := kept_spec (m := m) hnil
  rw [update_eq rand' hnil]
  dsimp only
  by_cases hfree : nilUuid ∈ (m.kept current).1
  · rw [hkept.replaced.mpr hfree, Bool.true_or, ← filled_eq_of_nil_mem hm rand' hnil hfree]
    simp
  · have hout : (m.kept current).1 = m.outMapping :=
      hkept.eq_of_forall fun i x _ hdead _ => absurd (List.mem_of_getElem? hdead) hfree
    have hflag : (m.kept current).2.2 = false := by
      rw [← Bool.not_eq_true, hkept.replaced]
      exact hfree
    rw [hout] at hfree
    rw [hflag, Bool.false_or, decide_eq_true_iff, hout,
      filled_ne_of_nil_not_mem rand' hnil hout hfree]
    simp [hfree]

/-- Two stems are wanted and one of the connections is lost. -/
def oneLost : ConnectionMap := ⟨[1, nilUuid], [], [0, 0]⟩

theorem update_reports_iff_lost :
    (oneLost.update (fun _ => 0) [1, 3]).1 = true ∧
      (oneLost.update (fun _ => 0) [1, 3]).2.outMapping = [1, 3] ∧
      ((oneLost.update (fun _ => 0) [1, 3]).1 = true ↔
        (oneLost.update (fun _ => 0) [1, 3]).2.outMapping ≠ oneLost.outMapping) := by
  have h₀ : construct (fun _ => 0) [1, 2] 2 = some ⟨[1, 2], [], [0, 0]⟩ := by decide +kernel
  have hrun : (⟨[1, 2], [], [0, 0]⟩ : ConnectionMap).run [.update (fun _ => 0) [1]] =
      some oneLost := by decide +kernel
  refine ⟨by decide +kernel, by decide +kernel,
    (update_reports_iff h₀ _ hrun (fun _ => 0) (by decide)).mpr ?_⟩
  rintro ⟨-, hperm⟩
  exact absurd hperm.length_eq (by decide)

/-- The slot of a lost connection is reported as a change by every update that cannot fill it. -/
theorem update_reports_unchanged :
    construct (fun _ => 0) [1, 2] 2 = some ⟨[1, 2], [], [0, 0]⟩ ∧
      (⟨[1, 2], [], [0, 0]⟩ : ConnectionMap).run [.update (fun _ => 0) [1]] = some oneLost ∧
      oneLost.update (fun _ => 0) [1] = (true, oneLost) := by
  decide +kernel

end ConnectionMap

end Oxyra
