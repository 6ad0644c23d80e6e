import Oxyra.Core.ConnectionMap

/-!
# The steps of the stem map

* `select_stem` gives a least used slot among those in use (`selectStem_spec`).
* `get_stem` either finds its source at a live slot, or takes the source out of the map, if it is
  there, and enters it at such a slot (`getStem_outcome`). All that holds between updates follows
  from that.
* `update` keeps the stems that are still connected where they are and fills the other slots while
  there are connections left (`keepLoop_kept`, `fillLoop_filled`).
-/

namespace Oxyra

variable {current outMap : List Uuid} {i : Nat} {l rest : List (Uuid × Nat)} {usage : List Nat}

def LiveAt (outMap : List Uuid) (i : Nat) : Prop := ∃ x, outMap[i]? = some x ∧ x ≠ nilUuid

theorem LiveAt.lt (h : LiveAt outMap i) : i < outMap.length := by
  obtain ⟨x, hx, -⟩ := h
  exact (List.getElem?_eq_some_iff.mp hx).1

/-! ## `select_stem` -/

/-- After the loop has seen the slots `P`: the choices are those of them with the lowest usage. -/
structure Best (usage : List Nat) (P : Nat → Prop) (s : Option Nat × List Nat) : Prop where
  sound : ∀ i ∈ s.2, P i ∧ s.1 = some (usage.getD i 0)
  least : ∀ i, P i → ∃ v, s.1 = some v ∧ v ≤ usage.getD i 0
  some_choice : ∀ v, s.1 = some v → s.2 ≠ []

theorem Best.congr {P Q : Nat → Prop} {s : Option Nat × List Nat} (h : Best usage P s)
    (hPQ : ∀ i, P i ↔ Q i) : Best usage Q s := by
  obtain rfl : P = Q := funext fun i => propext (hPQ i)
  exact h

theorem Best.step {P : Nat → Prop} {lowest : Option Nat} {choices : List Nat}
    (h : Best usage P (lowest, choices)) (location : Nat) :
    Best usage (fun i => P i ∨ i = location)
      (if lowest.all (usage.getD location 0 < ·) then (some (usage.getD location 0), [location])
      else if lowest = some (usage.getD location 0) then (lowest, choices ++ [location])
      else (lowest, choices)) := by
  generalize hcount : usage.getD location 0 = count
  split
  · -- a new lowest usage
    rename_i hlow
    refine ⟨?_, ?_, by simp⟩
    · intro i hi
      obtain rfl : i = location := by simpa using hi
      exact ⟨.inr rfl, by rw [hcount]⟩
    · rintro i (hi | rfl)
      · obtain ⟨v, hv, hle⟩ := h.least i hi
        dsimp only at hv
        rw [hv, Option.all_some, decide_eq_true_iff] at hlow
        exact ⟨count, rfl, by omega⟩
      · exact ⟨count, rfl, hcount.ge⟩
  · rename_i hlow
    split
    · rename_i heq
      refine ⟨?_, ?_, by simp⟩
      · intro i hi
        rcases List.mem_append.mp hi with hi | hi
        · exact ⟨.inl (h.sound i hi).1, (h.sound i hi).2⟩
        · obtain rfl : i = location := by simpa using hi
          exact ⟨.inr rfl, by rw [hcount, heq]⟩
      · rintro i (hi | rfl)
        · exact h.least i hi
        · exact ⟨count, heq, hcount.ge⟩
    · rename_i hne
      refine ⟨fun i hi => ⟨.inl (h.sound i hi).1, (h.sound i hi).2⟩, ?_, h.some_choice⟩
      rintro i (hi | rfl)
      · exact h.least i hi
      · cases hl : lowest with
        | none => simp [hl] at hlow
        | some v =>
          rw [hl, Option.all_some, decide_eq_true_iff] at hlow
          exact ⟨v, rfl, by omega⟩

theorem best_selectLoop (usage : List Nat) (outMap : List Uuid) :
    ∀ {location : Nat} {P : Nat → Prop} {s : Option Nat × List Nat}, Best usage P s →
      Best usage (fun i => P i ∨ ∃ k, i = location + k ∧ LiveAt outMap k)
        (selectLoop usage outMap location s) := by
  induction outMap with
  | nil =>
    intro location P s h
    exact h.congr fun i => by simp [LiveAt]
  | cons out outMap ih =>
    rintro location P ⟨lowest, choices⟩ h
    have hsplit : ∀ i, (∃ k, i = location + k ∧ LiveAt (out :: outMap) k) ↔
        (i = location ∧ out ≠ nilUuid) ∨ ∃ k, i = location + 1 + k ∧ LiveAt outMap k := by
      intro i
      constructor
      · rintro ⟨k, rfl, x, hx, hlive⟩
        cases k with
        | zero =>
          obtain rfl : out = x := by simpa using hx
          exact .inl ⟨rfl, hlive⟩
        | succ k => exact .inr ⟨k, by omega, x, by simpa using hx, hlive⟩
      · rintro (⟨rfl, hlive⟩ | ⟨k, rfl, x, hx, hlive⟩)
        · exact ⟨0, rfl, out, rfl, hlive⟩
        · exact ⟨k + 1, by omega, x, by simpa using hx, hlive⟩
    unfold selectLoop
    split
    · rename_i hdead
      refine (ih h).congr fun i => ?_
      rw [hsplit]
      simp [hdead]
    · rename_i hlive
      refine (ih (h.step location)).congr fun i => ?_
      rw [hsplit]
      simp [hlive, or_assoc]

/-- **`select_stem`** gives a least used slot in use, and fails only if none is in use. -/
theorem selectStem_spec (r : Nat) (hroom : outMap.length ≤ usage.length) :
    (selectStem r usage outMap = none ∧ ∀ i, ¬ LiveAt outMap i) ∨
      ∃ i, selectStem r usage outMap = some i ∧ LiveAt outMap i ∧
        ∀ j, LiveAt outMap j → usage.getD i 0 ≤ usage.getD j 0 := by
  have hbest : Best usage (LiveAt outMap) (selectLoop usage outMap 0 (none, [])) := by
    have hnone : Best usage (fun _ => False) (none, []) := ⟨by simp, by simp, by simp⟩
    exact (best_selectLoop usage outMap hnone).congr fun i => by simp
  have hchosen : ∀ i ∈ (selectLoop usage outMap 0 (none, [])).2, LiveAt outMap i ∧
      ∀ j, LiveAt outMap j → usage.getD i 0 ≤ usage.getD j 0 := by
    intro i hi
    obtain ⟨hlive, hlow⟩ := hbest.sound i hi
    refine ⟨hlive, fun j hj => ?_⟩
    obtain ⟨v, hv, hle⟩ := hbest.least j hj
    rw [hlow, Option.some.injEq] at hv
    omega
  unfold selectStem
  rw [if_neg (by omega)]
  dsimp only
  split
  · rename_i hnil
    refine .inl ⟨rfl, fun i hi => ?_⟩
    obtain ⟨v, hv, -⟩ := hbest.least i hi
    exact hbest.some_choice v hv hnil
  · rename_i choice hone
    exact .inr ⟨choice, rfl, hchosen choice (by simp [hone])⟩
  · rename_i hne _
    have hpos := List.length_pos_iff.mpr hne
    have hlt := Nat.mod_lt r hpos
    exact .inr ⟨_, List.getElem?_eq_getElem hlt, hchosen _ (List.getElem_mem hlt)⟩

namespace ConnectionMap

variable {m m' : ConnectionMap} {r : Nat} {source x : Uuid}

/-! ## `get_stem` -/

/-- `usage` holds the number of entries of `inMapping` for each slot. -/
def Counted (inMapping : List (Uuid × Nat)) (usage : List Nat) : Prop :=
  ∀ i < usage.length, usage.getD i 0 = inMapping.countP fun p => p.2 = i

/-- What holds of every map. -/
structure Sound (m : ConnectionMap) : Prop where
  sorted : m.inMapping.Pairwise fun a b => a.1.toNat < b.1.toNat
  slots : ∀ p ∈ m.inMapping, p.2 < m.outMapping.length
  room : m.outMapping.length ≤ m.usageCount.length
  counted : Counted m.inMapping m.usageCount

theorem Counted.perm {l' : List (Uuid × Nat)} (h : Counted l usage) (hperm : l'.Perm l) :
    Counted l' usage := by
  intro i hi
  rw [h i hi, hperm.countP_eq]

theorem getD_set {l : List Nat} {j v : Nat} (hi : i < l.length) :
    (l.set i v).getD j 0 = if i = j then v else l.getD j 0 := by
  rw [List.getD_eq_getElem?_getD, List.getElem?_set, List.getD_eq_getElem?_getD]
  split
  · rfl
  · rfl

theorem Counted.cons (h : Counted l usage) {index : Nat} (hi : index < usage.length)
    (source : Uuid) :
    Counted ((source, index) :: l) (usage.set index (usage.getD index 0 + 1)) := by
  intro j hj
  rw [List.length_set] at hj
  rw [getD_set hi, List.countP_cons]
  by_cases hij : index = j
  · subst hij
    rw [if_pos rfl, h index hi]
    simp
  · rw [if_neg hij, h j hj]
    simp [hij]

theorem Counted.of_cons {slot : Nat} (h : Counted ((source, slot) :: l) usage)
    (hi : slot < usage.length) :
    Counted l (usage.set slot (usage.getD slot 0 - 1)) := by
  intro j hj
  rw [List.length_set] at hj
  have hcount := h j hj
  rw [List.countP_cons] at hcount
  rw [getD_set hi]
  by_cases hij : slot = j
  · subst hij
    simp only [decide_true, if_true] at hcount ⊢
    omega
  · simpa [hij] using hcount

theorem getElem?_eq_getD {l : List Nat} (hi : i < l.length) :
    l[i]? = some (l.getD i 0) := by
  rw [List.getD_eq_getElem _ _ hi, List.getElem?_eq_getElem hi]

/-- What `get_stem` does with a source that has no slot, or none any more: `rest` are the other
sources and `usage` is their number at each slot. -/
inductive Placed (outMap : List Uuid) (rest : List (Uuid × Nat)) (usage : List Nat)
    (source x : Uuid) (m' : ConnectionMap) : Prop where
  | refused (hx : x = nilUuid) (hdead : ∀ i, ¬ LiveAt outMap i) (hin : m'.inMapping.Perm rest)
      (husage : m'.usageCount = usage)
  | entered (index : Nat) (hlive : LiveAt outMap index)
      (hleast : ∀ j, LiveAt outMap j → usage.getD index 0 ≤ usage.getD j 0)
      (hx : outMap[index]? = some x) (hin : m'.inMapping.Perm ((source, index) :: rest))
      (husage : m'.usageCount = usage.set index (usage.getD index 0 + 1))

/-- **What `get_stem` can do.** -/
inductive Outcome (m : ConnectionMap) (source x : Uuid) (m' : ConnectionMap) : Prop where
  | held (slot : Nat) (hmem : (source, slot) ∈ m.inMapping) (hx : m.outMapping[slot]? = some x)
      (hlive : x ≠ nilUuid) (heq : m' = m)
  | unmapped (hfree : ∀ p ∈ m.inMapping, p.1 ≠ source)
      (h : Placed m.outMapping m.inMapping m.usageCount source x m')
  | remapped (slot : Nat) (rest : List (Uuid × Nat))
      (hin : m.inMapping.Perm ((source, slot) :: rest))
      (hdead : m.outMapping[slot]? = some nilUuid)
      (h : Placed m.outMapping rest
        (m.usageCount.set slot (m.usageCount.getD slot 0 - 1)) source x m')

theorem assign_eq {inMapping : List (Uuid × Nat)} {index : Nat}
    (hroom : m.outMapping.length ≤ m.usageCount.length) (hx : m.outMapping[index]? = some x) :
    m.assign inMapping index = some (x,
      { m with
        inMapping := inMapping
        usageCount := m.usageCount.set index (m.usageCount.getD index 0 + 1) }) := by
  have hlt := (List.getElem?_eq_some_iff.mp hx).1
  unfold assign
  rw [getElem?_eq_getD (show index < m.usageCount.length by omega), hx]
  rfl

theorem getStem_outcome (hm : m.Sound) (r : Nat) (source : Uuid) :
    ∃ x m', m.getStem r source = some (x, m') ∧ m'.outMapping = m.outMapping ∧
      (m'.inMapping.Pairwise fun a b => a.1.toNat < b.1.toNat) ∧ Outcome m source x m' := by
  unfold getStem
  dsimp only
  cases hfound : LowerBound.found (fun p : Uuid × Nat => p.1.toNat) m.inMapping source.toNat with
  | none =>
    have hfree := LowerBound.ne_of_found_eq_none (hm.sorted.imp le_of_lt) hfound
    have hfree' : ∀ p ∈ m.inMapping, p.1 ≠ source := fun p hp h => hfree p hp (by rw [h])
    rcases selectStem_spec r hm.room with ⟨hsel, hdead⟩ | ⟨index, hsel, hlive, hleast⟩
    · rw [hsel]
      exact ⟨_, _, rfl, rfl, hm.sorted, .unmapped hfree' (.refused rfl hdead (.refl _) rfl)⟩
    · obtain ⟨x, hx, -⟩ := id hlive
      rw [hsel]
      dsimp only
      rw [assign_eq hm.room hx]
      exact ⟨_, _, rfl, rfl,
        @LowerBound.pairwise_insertIdx _ _ _ (fun p : Uuid × Nat => p.1.toNat) _ (source, index)
          hm.sorted hfree,
        .unmapped hfree' (.entered index hlive hleast hx
          (List.perm_insertIdx _ _ LowerBound.le_length) rfl)⟩
  | some p =>
    obtain ⟨s, slot⟩ := p
    obtain ⟨hat, hkey⟩ := LowerBound.found_eq_some.mp hfound
    obtain rfl : s = source := BitVec.eq_of_toNat_eq hkey
    have hmem := List.mem_of_getElem? hat
    have hslot : slot < m.outMapping.length := hm.slots _ hmem
    have hroom := hm.room
    dsimp only
    rw [List.getElem?_eq_getElem hslot, Option.bind_eq_bind, Option.bind_some]
    split
    · -- the stem is gone: the source is taken out and placed anew
      rename_i hdead
      rw [getElem?_eq_getD (show slot < m.usageCount.length by omega), Option.bind_eq_bind,
        Option.bind_some]
      obtain ⟨hlt, hget⟩ := List.getElem?_eq_some_iff.mp hat
      have hperm := List.getElem_cons_eraseIdx_perm hlt
      rw [hget] at hperm
      have hslotDead : m.outMapping[slot]? = some nilUuid := by
        rw [List.getElem?_eq_getElem hslot, hdead]
      have hroom' : m.outMapping.length ≤
          (m.usageCount.set slot (m.usageCount.getD slot 0 - 1)).length := by
        rw [List.length_set]
        exact hroom
      rcases selectStem_spec r hroom' with ⟨hsel, hnone⟩ | ⟨index, hsel, hlive, hleast⟩
      · rw [hsel]
        exact ⟨_, _, rfl, rfl, hm.sorted.sublist (List.eraseIdx_sublist ..),
          .remapped slot _ hperm.symm hslotDead (.refused rfl hnone (.refl _) rfl)⟩
      · obtain ⟨x, hx, -⟩ := id hlive
        rw [hsel]
        dsimp only
        rw [@assign_eq ⟨m.outMapping, m.inMapping, m.usageCount.set slot
          (m.usageCount.getD slot 0 - 1)⟩ x _ index hroom' hx]
        exact ⟨_, _, rfl, rfl,
          @LowerBound.pairwise_set _ _ _ (fun p : Uuid × Nat => p.1.toNat) _ (s, index) _ _
            hm.sorted hat rfl,
          .remapped slot _ hperm.symm hslotDead (.entered index hlive hleast hx
            (List.set_perm_cons_eraseIdx hlt _) rfl)⟩
    · rename_i hlive
      exact ⟨_, _, rfl, rfl, hm.sorted, .held slot hmem (List.getElem?_eq_getElem hslot) hlive rfl⟩

theorem Placed.counted (h : Placed outMap rest usage source x m') (hcount : Counted rest usage)
    (hroom : outMap.length ≤ usage.length) : Counted m'.inMapping m'.usageCount := by
  cases h with
  | refused hx hdead hin husage => exact husage ▸ hcount.perm hin
  | entered index hlive hleast hx hin husage =>
    have hlt := hlive.lt
    exact husage ▸ (hcount.cons (by omega) source).perm hin

theorem Placed.length_usageCount (h : Placed outMap rest usage source x m') :
    m'.usageCount.length = usage.length := by
  cases h with
  | refused hx hdead hin husage => rw [husage]
  | entered index hlive hleast hx hin husage => rw [husage, List.length_set]

theorem Placed.slots (h : Placed outMap rest usage source x m')
    (hrest : ∀ p ∈ rest, p.2 < outMap.length) :
    ∀ p ∈ m'.inMapping, p.2 < outMap.length := by
  intro p hp
  cases h with
  | refused hx hdead hin husage => exact hrest p (hin.mem_iff.mp hp)
  | entered index hlive hleast hx hin husage =>
    rcases List.mem_cons.mp (hin.mem_iff.mp hp) with rfl | hp
    · exact hlive.lt
    · exact hrest p hp

theorem Outcome.length_usageCount (h : Outcome m source x m') :
    m'.usageCount.length = m.usageCount.length := by
  cases h with
  | held slot hmem hx hlive heq => rw [heq]
  | unmapped hfree h => exact h.length_usageCount
  | remapped slot rest hin hdead h => rw [h.length_usageCount, List.length_set]

theorem Outcome.sound (h : Outcome m source x m') (hm : m.Sound)
    (hout : m'.outMapping = m.outMapping)
    (hsorted : m'.inMapping.Pairwise fun a b => a.1.toNat < b.1.toNat) : m'.Sound := by
  have hroom : m'.outMapping.length ≤ m'.usageCount.length := by
    rw [hout, h.length_usageCount]
    exact hm.room
  cases h with
  | held slot hmem hx hlive heq => exact heq ▸ hm
  | unmapped hfree h =>
    exact ⟨hsorted, hout ▸ h.slots hm.slots, hroom, h.counted hm.counted hm.room⟩
  | remapped slot rest hin hdead h =>
    have hlt := (List.getElem?_eq_some_iff.mp hdead).1
    have hle := hm.room
    refine ⟨hsorted, hout ▸ h.slots fun p hp => hm.slots p (hin.mem_iff.mpr (.tail _ hp)), hroom,
      h.counted ((hm.counted.perm hin.symm).of_cons (by omega)) ?_⟩
    rw [List.length_set]
    exact hle

/-! ## Between updates -/

/-- The stem of `source`, as it stays until the next update. -/
inductive Answers (m : ConnectionMap) (source x : Uuid) : Prop where
  | at (slot : Nat) (hmem : (source, slot) ∈ m.inMapping) (hx : m.outMapping[slot]? = some x)
      (hlive : x ≠ nilUuid)
  | none (hx : x = nilUuid) (hdead : ∀ i, ¬ LiveAt m.outMapping i)

theorem Sound.slot_unique (hm : m.Sound) {j : Nat} (hi : (source, i) ∈ m.inMapping)
    (hj : (source, j) ∈ m.inMapping) : i = j :=
  congrArg Prod.snd (@LowerBound.eq_of_key_eq _ _ _ (fun p : Uuid × Nat => p.1.toNat) _ _ _
    hm.sorted hi hj rfl)

theorem Placed.answers (h : Placed outMap rest usage source x m') (hout : m'.outMapping = outMap) :
    Answers m' source x := by
  cases h with
  | refused hx hdead hin husage => exact .none hx (hout ▸ hdead)
  | entered index hlive hleast hx hin husage =>
    obtain ⟨y, hy, hne⟩ := hlive
    obtain rfl : y = x := Option.some.inj (hy.symm.trans hx)
    exact .at index (hin.mem_iff.mpr List.mem_cons_self) (hout ▸ hx) hne

theorem Outcome.answers (h : Outcome m source x m') (hout : m'.outMapping = m.outMapping) :
    Answers m' source x := by
  cases h with
  | held slot hmem hx hlive heq => exact heq ▸ .at slot hmem hx hlive
  | unmapped hfree h => exact h.answers hout
  | remapped slot rest hin hdead h => exact h.answers hout

theorem Placed.subset (h : Placed outMap rest usage source x m') : rest ⊆ m'.inMapping := by
  intro p hp
  cases h with
  | refused hx hdead hin husage => exact hin.mem_iff.mpr hp
  | entered index hlive hleast hx hin husage => exact hin.mem_iff.mpr (.tail _ hp)

theorem Outcome.mem_of_live {s : Uuid} {slot : Nat} (h : Outcome m source x m')
    (hmem : (s, slot) ∈ m.inMapping) (hlive : LiveAt m.outMapping slot) :
    (s, slot) ∈ m'.inMapping := by
  cases h with
  | held slot' hmem' hx hlive' heq => exact heq ▸ hmem
  | unmapped hfree h => exact h.subset hmem
  | remapped slot' rest hin hdead h =>
    rcases List.mem_cons.mp (hin.mem_iff.mp hmem) with heq | hrest
    · -- the slot of the source that is placed anew is dead
      obtain ⟨-, rfl⟩ := Prod.mk.inj heq
      obtain ⟨y, hy, hne⟩ := hlive
      exact absurd (Option.some.inj (hy.symm.trans hdead)) hne
    · exact h.subset hrest

theorem Answers.step {s y : Uuid} (h : Answers m s x) (hstep : Outcome m source y m')
    (hout : m'.outMapping = m.outMapping) : Answers m' s x := by
  cases h with
  | «at» slot hmem hx hlive =>
    exact .at slot (hstep.mem_of_live hmem ⟨x, hx, hlive⟩) (hout ▸ hx) hlive
  | none hx hdead => exact .none hx (hout ▸ hdead)

theorem Placed.eq_nil (h : Placed outMap rest usage source x m') (hdead : ∀ i, ¬ LiveAt outMap i) :
    x = nilUuid := by
  cases h with
  | refused hx _ hin husage => exact hx
  | entered index hlive hleast hx hin husage => exact absurd hlive (hdead index)

theorem Answers.eq {y : Uuid} (h : Answers m source x) (hstep : Outcome m source y m')
    (hm : m.Sound) : y = x := by
  cases h with
  | «at» slot hmem hx hlive =>
    cases hstep with
    | held slot' hmem' hy _ heq =>
      obtain rfl := hm.slot_unique hmem hmem'
      exact Option.some.inj (hy.symm.trans hx)
    | unmapped hfree _ => exact absurd rfl (hfree _ hmem)
    | remapped slot' rest hin hdead h =>
      obtain rfl := hm.slot_unique hmem (hin.mem_iff.mpr List.mem_cons_self)
      exact absurd (Option.some.inj (hx.symm.trans hdead)) hlive
  | none hx hdead =>
    rw [hx]
    cases hstep with
    | held slot hmem hy hlive _ => exact absurd ⟨y, hy, hlive⟩ (hdead slot)
    | unmapped _ h => exact h.eq_nil hdead
    | remapped _ _ _ _ h => exact h.eq_nil hdead

theorem Answers.eq_nil_iff (h : Answers m source x) :
    x = nilUuid ↔ ∀ i, ¬ LiveAt m.outMapping i := by
  cases h with
  | «at» slot hmem hx hlive =>
    exact ⟨fun h => absurd h hlive, fun h => absurd ⟨x, hx, hlive⟩ (h slot)⟩
  | none hx hdead => exact ⟨fun _ => hdead, fun _ => hx⟩

/-- Before any update: every source is at a live slot, and the live slots are used evenly. -/
structure Even (m : ConnectionMap) : Prop where
  live : ∀ p ∈ m.inMapping, LiveAt m.outMapping p.2
  balanced : ∀ i j, LiveAt m.outMapping i → LiveAt m.outMapping j →
    m.usageCount.getD i 0 ≤ m.usageCount.getD j 0 + 1

theorem Even.step (h : m.Even) (hm : m.Sound) (hstep : Outcome m source x m')
    (hout : m'.outMapping = m.outMapping) : m'.Even := by
  cases hstep with
  | held slot hmem hx hlive heq => exact heq ▸ h
  | remapped slot rest hin hdead _ =>
    obtain ⟨y, hy, hne⟩ := h.live _ (hin.mem_iff.mpr List.mem_cons_self)
    exact absurd (Option.some.inj (hy.symm.trans hdead)) hne
  | unmapped hfree hplaced =>
    cases hplaced with
    | refused hx hdead hin husage =>
      exact ⟨fun p hp => hout ▸ h.live p (hin.mem_iff.mp hp), by
        rw [hout, husage]
        exact h.balanced⟩
    | entered index hlive hleast hx hin husage =>
      have hlt : index < m.usageCount.length := hlive.lt.trans_le hm.room
      constructor
      · intro p hp
        rw [hout]
        rcases List.mem_cons.mp (hin.mem_iff.mp hp) with rfl | hp
        · exact hlive
        · exact h.live p hp
      · intro i j hi hj
        rw [hout] at hi hj
        rw [husage, getD_set hlt, getD_set hlt]
        have hij := h.balanced i j hi hj
        have hj' := hleast j hj
        split <;> split <;> grind

/-! ## `update` -/

def live (outMap : List Uuid) : List Uuid := outMap.filter (· ≠ nilUuid)

theorem live_cons (x : Uuid) (outMap : List Uuid) :
    live (x :: outMap) = if x = nilUuid then live outMap else x :: live outMap := by
  unfold live
  rw [List.filter_cons]
  by_cases h : x = nilUuid <;> simp [h]

theorem mem_live : x ∈ live outMap ↔ x ∈ outMap ∧ x ≠ nilUuid := by
  simp [live]

theorem live_eq_nil : live outMap = [] ↔ ∀ i, ¬ LiveAt outMap i := by
  rw [List.eq_nil_iff_forall_not_mem]
  constructor
  · rintro h i ⟨x, hx, hne⟩
    exact h x (mem_live.mpr ⟨List.mem_of_getElem? hx, hne⟩)
  · intro h x hx
    obtain ⟨hmem, hne⟩ := mem_live.mp hx
    obtain ⟨i, hi, rfl⟩ := List.mem_iff_getElem.mp hmem
    exact h i ⟨_, List.getElem?_eq_getElem hi, hne⟩

theorem search_current (hsorted : current.Pairwise fun a b => a.toNat ≤ b.toNat) (x : Uuid) :
    (x ∈ current ∧ current[lowerBound BitVec.toNat current x.toNat]? = some x ∧
        (x :: current.eraseIdx (lowerBound BitVec.toNat current x.toNat)).Perm current) ∨
      x ∉ current ∧ current[lowerBound BitVec.toNat current x.toNat]? ≠ some x := by
  by_cases hat : current[lowerBound BitVec.toNat current x.toNat]? = some x
  · obtain ⟨hlt, hget⟩ := List.getElem?_eq_some_iff.mp hat
    have hperm := List.getElem_cons_eraseIdx_perm hlt
    rw [hget] at hperm
    exact .inl ⟨List.mem_of_getElem? hat, hat, hperm⟩
  · refine .inr ⟨fun hmem => ?_, hat⟩
    cases hfound : LowerBound.found BitVec.toNat current x.toNat with
    | none => exact LowerBound.ne_of_found_eq_none hsorted hfound x hmem rfl
    | some y =>
      obtain ⟨hy, hkey⟩ := LowerBound.found_eq_some.mp hfound
      obtain rfl : y = x := BitVec.eq_of_toNat_eq hkey
      exact hat hy

/-- What the first loop leaves: the kept stems and the candidates share out the connections, and a
stem that is not kept is no candidate. -/
structure Kept (outMap current : List Uuid) (r : List Uuid × List Uuid × Bool) : Prop where
  perm : (live r.1 ++ r.2.1).Perm current
  slots : List.Forall₂ (fun x y => y = x ∨ y = nilUuid ∧ x ∉ r.2.1) outMap r.1
  replaced : r.2.2 = true ↔ nilUuid ∈ r.1

theorem keepLoop_kept (outMap : List Uuid) :
    ∀ {current : List Uuid}, (current.Pairwise fun a b => a.toNat ≤ b.toNat) →
      nilUuid ∉ current → Kept outMap current (keepLoop outMap current) := by
  induction outMap with
  | nil =>
    intro current _ _
    exact ⟨.refl _, .nil, by simp [keepLoop]⟩
  | cons x outMap ih =>
    intro current hsorted hnil
    unfold keepLoop
    rcases search_current hsorted x with ⟨hmem, hat, hperm⟩ | ⟨hmem, hat⟩
    · have hx : x ≠ nilUuid := fun h => hnil (h ▸ hmem)
      have hrest := ih (hsorted.sublist (List.eraseIdx_sublist current
        (lowerBound BitVec.toNat current x.toNat)))
        fun h => hnil (hperm.mem_iff.mp (.tail _ h))
      rw [if_pos hat]
      refine ⟨?_, .cons (.inl rfl) hrest.slots, ?_⟩
      · rw [live_cons, if_neg hx]
        exact (hrest.perm.cons x).trans hperm
      · rw [List.mem_cons, ← hrest.replaced]
        simp [hx.symm]
    · have hrest := ih hsorted hnil
      rw [if_neg hat]
      refine ⟨?_, .cons (.inr ⟨rfl, fun h => hmem ?_⟩) hrest.slots, by simp⟩
      · rw [live_cons, if_pos rfl]
        exact hrest.perm
      · exact hrest.perm.mem_iff.mp (List.mem_append_right _ h)

theorem Kept.length_eq {r : List Uuid × List Uuid × Bool} (h : Kept outMap current r) :
    r.1.length = outMap.length :=
  h.slots.length_eq.symm

/-- A stem that is still connected keeps its slot, the first if it has several. -/
theorem keepLoop_keeps (outMap : List Uuid) :
    ∀ {current : List Uuid} {i : Nat}, (current.Pairwise fun a b => a.toNat ≤ b.toNat) →
      outMap[i]? = some x → x ∉ outMap.take i → x ∈ current →
      (keepLoop outMap current).1[i]? = some x := by
  induction outMap with
  | nil => simp
  | cons y outMap ih =>
    intro current i hsorted hx hfirst hmem
    unfold keepLoop
    cases i with
    | zero =>
      obtain rfl : y = x := by simpa using hx
      rcases search_current hsorted y with ⟨-, hat, -⟩ | ⟨hnot, -⟩
      · rw [if_pos hat]
        rfl
      · exact absurd hmem hnot
    | succ i =>
      rw [List.take_succ_cons, List.mem_cons, not_or] at hfirst
      rw [List.getElem?_cons_succ] at hx
      rcases search_current hsorted y with ⟨-, hat, hperm⟩ | ⟨-, hat⟩
      · rw [if_pos hat, List.getElem?_cons_succ]
        refine ih (hsorted.sublist (List.eraseIdx_sublist ..)) hx hfirst.2 ?_
        exact (List.mem_cons.mp (hperm.mem_iff.mpr hmem)).resolve_left hfirst.1
      · rw [if_neg hat, List.getElem?_cons_succ]
        exact ih hsorted hx hfirst.2 hmem

/-- What the second loop leaves, with `n` slots to fill. -/
structure Filled (n : Nat) (outMap current filled : List Uuid) : Prop where
  slots : ∀ (i : Nat) (x : Uuid), outMap[i]? = some x → ∃ y, filled[i]? = some y ∧
    (x ≠ nilUuid → y = x) ∧ (y = x ∨ y ∈ current)
  perm : ∃ rest, (live filled ++ rest).Perm (live outMap ++ current)
  count : outMap.length ≤ n →
    (live filled).length = min n ((live outMap).length + current.length)

theorem length_live_le (outMap : List Uuid) : (live outMap).length ≤ outMap.length :=
  List.length_filter_le ..

theorem filled_self {n : Nat} : Filled n outMap [] outMap := by
  refine ⟨fun i x hx => ⟨x, hx, fun _ => rfl, .inl rfl⟩, ⟨[], .refl _⟩, fun h => ?_⟩
  have hle := length_live_le outMap
  rw [List.length_nil, Nat.add_zero]
  omega

theorem fillLoop_filled (rand : Nat → Nat) (n : Nat) :
    ∀ {i : Nat} {outMap current : List Uuid}, nilUuid ∉ current →
      Filled n outMap current (fillLoop rand n i outMap current) := by
  induction n with
  | zero =>
    intro i outMap current _
    refine ⟨fun i x hx => ⟨x, hx, fun _ => rfl, .inl rfl⟩, ⟨current, .refl _⟩, fun h => ?_⟩
    have hle := length_live_le outMap
    rw [fillLoop]
    omega
  | succ n ih =>
    intro i outMap current hnil
    unfold fillLoop
    cases hdraw : draw (rand i) current with
    | none =>
      rw [draw_eq_none.mp hdraw]
      exact filled_self
    | some d =>
      obtain ⟨drawn, rest⟩ := d
      have hperm := draw_perm hdraw
      have hlen : current.length = rest.length + 1 := hperm.length_eq.symm
      have hmem : drawn ∈ current := hperm.mem_iff.mp List.mem_cons_self
      have hdrawn : drawn ≠ nilUuid := fun h => hnil (h ▸ hmem)
      have hrest : nilUuid ∉ rest := fun h => hnil (hperm.mem_iff.mp (.tail _ h))
      dsimp only
      cases outMap with
      | nil =>
        obtain ⟨-, ⟨left, hleft⟩, hcount⟩ := @ih (i + 1) [] rest hrest
        dsimp only
        refine ⟨by simp, ⟨left, ?_⟩, fun _ => ?_⟩
        · rw [live_cons, if_neg hdrawn]
          exact (hleft.cons drawn).trans hperm
        · have := hcount (by simp)
          rw [live_cons, if_neg hdrawn, List.length_cons, this, hlen]
          simp [live]
      | cons out outMap =>
        dsimp only
        by_cases hout : out = nilUuid
        · obtain ⟨hslots, ⟨left, hleft⟩, hcount⟩ := @ih (i + 1) outMap rest hrest
          rw [if_pos hout]
          refine ⟨?_, ⟨left, ?_⟩, fun h => ?_⟩
          · intro j x hx
            cases j with
            | zero =>
              obtain rfl : out = x := by simpa using hx
              exact ⟨drawn, rfl, fun h => absurd hout h, .inr hmem⟩
            | succ j =>
              obtain ⟨y, hy, hkeep, hfrom⟩ := hslots j x (by simpa using hx)
              exact ⟨y, by simpa using hy, hkeep,
                hfrom.imp_right fun h => hperm.mem_iff.mp (.tail _ h)⟩
          · rw [live_cons, if_neg hdrawn, live_cons, if_pos hout]
            refine (hleft.cons drawn).trans ?_
            exact List.perm_middle.symm.trans (hperm.append_left _)
          · have := hcount (Nat.le_of_succ_le_succ h)
            rw [live_cons, if_neg hdrawn, live_cons, if_pos hout, List.length_cons, this, hlen]
            omega
        · obtain ⟨hslots, ⟨left, hleft⟩, hcount⟩ := @ih (i + 1) outMap current hnil
          rw [if_neg hout]
          refine ⟨?_, ⟨left, ?_⟩, fun h => ?_⟩
          · intro j x hx
            cases j with
            | zero =>
              obtain rfl : out = x := by simpa using hx
              exact ⟨out, rfl, fun _ => rfl, .inl rfl⟩
            | succ j => simpa using hslots j x (by simpa using hx)
          · rw [live_cons, if_neg hout, live_cons, if_neg hout]
            exact hleft.cons out
          · have := hcount (Nat.le_of_succ_le_succ h)
            rw [live_cons, if_neg hout, live_cons, if_neg hout, List.length_cons,
              List.length_cons, this]
            omega

theorem fillLoop_full (rand : Nat → Nat) (n : Nat) :
    ∀ {i : Nat} {outMap current : List Uuid}, nilUuid ∉ outMap → n ≤ outMap.length →
      fillLoop rand n i outMap current = outMap := by
  induction n with
  | zero => exact fun _ _ => rfl
  | succ n ih =>
    intro i outMap current hnil hlen
    unfold fillLoop
    cases draw (rand i) current with
    | none => rfl
    | some d =>
      cases outMap with
      | nil => exact absurd hlen (by simp)
      | cons out outMap =>
        rw [List.mem_cons, not_or] at hnil
        dsimp only
        rw [if_neg (Ne.symm hnil.1), ih hnil.2 (Nat.le_of_succ_le_succ hlen)]

theorem length_fillLoop (rand : Nat → Nat) (n : Nat) :
    ∀ {i : Nat} {outMap current : List Uuid},
      outMap.length ≤ (fillLoop rand n i outMap current).length ∧
        (outMap.length ≤ n → (fillLoop rand n i outMap current).length ≤ n) := by
  induction n with
  | zero => exact ⟨le_rfl, fun h => h⟩
  | succ n ih =>
    intro i outMap current
    unfold fillLoop
    cases draw (rand i) current with
    | none => exact ⟨le_rfl, fun h => h⟩
    | some d =>
      cases outMap with
      | nil =>
        have h := @ih (i + 1) [] d.2
        simp only [List.length_nil, List.length_cons, Nat.zero_le, true_and,
          forall_const] at h ⊢
        omega
      | cons out outMap =>
        have h := @ih (i + 1) outMap d.2
        have h' := @ih (i + 1) outMap current
        dsimp only
        split <;> simp only [List.length_cons] <;> omega

theorem length_keepLoop (outMap : List Uuid) :
    ∀ {current : List Uuid}, (keepLoop outMap current).1.length = outMap.length := by
  induction outMap with
  | nil => intro current; rfl
  | cons x outMap ih =>
    intro current
    unfold keepLoop
    dsimp only
    split <;> exact congrArg (· + 1) ih

theorem sorted_sortIds (ids : List Uuid) :
    (sortIds ids).Pairwise fun a b => a.toNat ≤ b.toNat := by
  have htotal : Std.Total fun a b : Uuid => a.toNat ≤ b.toNat := ⟨fun a b => Nat.le_total _ _⟩
  have htrans : IsTrans Uuid fun a b => a.toNat ≤ b.toNat := ⟨fun _ _ _ => Nat.le_trans⟩
  exact List.pairwise_insertionSort _ ids

theorem perm_sortIds (ids : List Uuid) : (sortIds ids).Perm ids := List.perm_insertionSort _ ids

/-- The stems, the candidates and the flag after the first loop of `update`. -/
def kept (m : ConnectionMap) (current : List Uuid) : List Uuid × List Uuid × Bool :=
  keepLoop m.outMapping (sortIds current)

def filled (m : ConnectionMap) (rand : Nat → Nat) (current : List Uuid) : List Uuid :=
  fillLoop rand m.usageCount.length 0 (m.kept current).1 (m.kept current).2.1

theorem kept_spec (hnil : nilUuid ∉ current) :
    Kept m.outMapping (sortIds current) (m.kept current) :=
  keepLoop_kept m.outMapping (sorted_sortIds current)
    fun h => hnil ((perm_sortIds current).mem_iff.mp h)

theorem Kept.nil_not_mem {r : List Uuid × List Uuid × Bool} (h : Kept outMap current r)
    (hnil : nilUuid ∉ current) : nilUuid ∉ r.2.1 :=
  fun hmem => hnil (h.perm.mem_iff.mp (List.mem_append_right _ hmem))

theorem filled_spec (rand : Nat → Nat) (hnil : nilUuid ∉ current) :
    Filled m.usageCount.length (m.kept current).1 (m.kept current).2.1 (m.filled rand current) :=
  fillLoop_filled rand _ ((kept_spec hnil).nil_not_mem fun h =>
    hnil ((perm_sortIds current).mem_iff.mp h))

theorem update_eq (rand : Nat → Nat) (hnil : nilUuid ∉ current) :
    m.update rand current =
      ((m.kept current).2.2 ||
          decide ((m.kept current).1.length < (m.filled rand current).length),
        { m with outMapping := m.filled rand current }) := by
  have heq : m.update rand current =
      if !(m.kept current).2.2 && (m.kept current).1.length = m.usageCount.length then
        (false, { m with outMapping := (m.kept current).1 })
      else
        ((m.kept current).2.2 ||
            decide ((m.kept current).1.length < (m.filled rand current).length),
          { m with outMapping := m.filled rand current }) := rfl
  rw [heq]
  split
  · rename_i hearly
    rw [Bool.and_eq_true, Bool.not_eq_true', decide_eq_true_iff] at hearly
    have hfull : nilUuid ∉ (m.kept current).1 := by
      rw [← (kept_spec hnil).replaced, hearly.1]
      exact Bool.false_ne_true
    have hsame : m.filled rand current = (m.kept current).1 :=
      fillLoop_full rand _ hfull hearly.2.ge
    rw [hsame, hearly.1]
    simp
  · rfl

/-- Whatever the connections, `update` changes the stems only, and their number grows up to the
number wanted. -/
theorem update_frame (rand : Nat → Nat) (current : List Uuid) :
    (m.update rand current).2.inMapping = m.inMapping ∧
      (m.update rand current).2.usageCount = m.usageCount ∧
      m.outMapping.length ≤ (m.update rand current).2.outMapping.length ∧
      (m.outMapping.length ≤ m.usageCount.length →
        (m.update rand current).2.outMapping.length ≤ m.usageCount.length) := by
  have hkept : (m.kept current).1.length = m.outMapping.length := length_keepLoop _
  have hfilled := @length_fillLoop rand m.usageCount.length 0 (m.kept current).1
    (m.kept current).2.1
  unfold update
  dsimp only
  split
  · exact ⟨rfl, rfl, hkept.ge, fun h => hkept.trans_le h⟩
  · exact ⟨rfl, rfl, hkept ▸ hfilled.1, fun h => hfilled.2 (hkept.trans_le h)⟩

theorem Sound.update (hm : m.Sound) (rand : Nat → Nat) (current : List Uuid) :
    (m.update rand current).2.Sound := by
  obtain ⟨hin, husage, hgrow, hroom⟩ := m.update_frame rand current
  refine ⟨hin ▸ hm.sorted, fun p hp => ?_, husage ▸ hroom hm.room, ?_⟩
  · rw [hin] at hp
    exact (hm.slots p hp).trans_le hgrow
  · rw [hin, husage]
    exact hm.counted

end ConnectionMap

end Oxyra
