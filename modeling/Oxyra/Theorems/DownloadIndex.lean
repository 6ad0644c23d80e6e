import Oxyra.Theorems.Reservation

/-!
# The index of the download queue

`requested_hashes` and `have_blocks` shadow the hashes of the spans: what has been
asked for, and what has arrived. They are kept up separately, and three things can
take them out of step.

* A hash that two spans carry is forgotten when one of them goes.
* `set_span_hashes` notes new hashes as requested only. On a span whose blocks have
  arrived they ought to be noted as arrived too.
* `add_blocks` notes the hashes it takes over as arrived even if it was handed no
  blocks, and the span then still counts as scheduled.

`IndexCallOk` rules them out call by call, and `index_exact` says that nothing else
can go wrong: along any history of such calls both indices are exact.
-/

namespace Oxyra

namespace BlockQueue

variable {β : Type} {q : BlockQueue β} {a : ReserveArgs} {start n : UInt64} {hashes : List Hash}
  {connectionId : Uuid} {addr : String} {h : Hash}

/-! ## What has arrived -/

theorem haveHash_iff : q.haveHash h = true ↔ h ∈ q.haveBlocks.map Prod.fst := by
  unfold haveHash
  induction q.haveBlocks with
  | nil => simp
  | cons r l ih =>
    rw [List.lookup_cons]
    by_cases hr : h = r.1
    · simp [hr]
    · simp [beq_eq_false_iff_ne.mpr hr, hr, ih]

theorem haveHash_eraseWhere {p : Span β → Bool} :
    (q.eraseWhere p).haveHash h = true ↔
      q.haveHash h = true ∧ ∀ s ∈ q.spans, p s = true → h ∉ s.hashes := by
  rw [haveHash_iff, haveHash_iff]
  simp only [eraseWhere, OrderedSet.mem_def, List.mem_map, List.mem_filter, List.mem_flatMap,
    decide_eq_true_eq, not_exists, not_and]
  constructor
  · rintro ⟨r, ⟨hr, hgone⟩, rfl⟩
    exact ⟨⟨r, hr, rfl⟩, fun s hs hp => hgone s ⟨hs, hp⟩⟩
  · rintro ⟨⟨r, hr, rfl⟩, hgone⟩
    exact ⟨r, ⟨hr, fun s hs => hgone s hs.1 hs.2⟩, rfl⟩

theorem haveHash_setSpanHashes {s : Span β} (hs : s ∈ q.spans) :
    (q.setSpanHashes s.startBlockHeight s.connectionId hashes).haveHash h = true ↔
      q.haveHash h = true ∧ h ∉ s.hashes := by
  obtain ⟨hit, honly, heq⟩ := setSpanHashes_of_mem hs hashes
  rw [heq]
  refine haveHash_eraseWhere.trans
    (and_congr_right fun _ => ⟨fun hg => hg s hs ((honly s hs).mpr rfl), ?_⟩)
  intro hh z hz hhit
  rwa [(honly z hz).mp hhit]

/-! ## One call -/

/-- Both indices are exact, and every hash has one span. -/
structure Tracked (q : BlockQueue β) : Prop extends Exclusive q where
  arrived : ∀ h, q.haveHash h = true ↔ ∃ s ∈ q.spans, s.blocks ≠ [] ∧ h ∈ s.hashes

theorem tracked_empty : Tracked ({} : BlockQueue β) :=
  ⟨exclusive_empty, by simp [haveHash]⟩

theorem Tracked.eraseWhere (hq : Tracked q) (p : Span β → Bool) : Tracked (q.eraseWhere p) := by
  refine ⟨hq.toExclusive.eraseWhere p, fun h => ?_⟩
  rw [haveHash_eraseWhere, hq.arrived]
  constructor
  · rintro ⟨⟨s, hs, hfilled, hh⟩, hgone⟩
    refine ⟨s, mem_eraseWhere.mpr ⟨hs, ?_⟩, hfilled, hh⟩
    by_contra hp
    exact hgone s hs (by simpa using hp) hh
  · rintro ⟨s, hs, hfilled, hh⟩
    obtain ⟨hs, hp⟩ := mem_eraseWhere.mp hs
    refine ⟨⟨s, hs, hfilled, hh⟩, fun s' hs' hp' hh' => ?_⟩
    rw [hq.disjoint s hs s' hs' h hh hh', hp'] at hp
    exact absurd hp (by simp)

theorem Tracked.insert (hq : Tracked q) {s : Span β} (hs : s.hashes = []) :
    Tracked { q with spans := q.spans.insert s } := by
  refine ⟨hq.toExclusive.insert hs, fun h => (hq.arrived h).trans ⟨?_, ?_⟩⟩
  · rintro ⟨y, hy, hfilled, hh⟩
    exact ⟨y, OrderedSet.mem_insert.mpr (.inl hy), hfilled, hh⟩
  · rintro ⟨y, hy, hfilled, hh⟩
    rcases OrderedSet.mem_insert.mp hy with hy | ⟨rfl, -⟩
    · exact ⟨y, hy, hfilled, hh⟩
    · rw [hs] at hh
      exact absurd hh (by simp)

/-- Hashes may be given to a span that is still scheduled, if nobody has been asked
for them or the span has them already. -/
def GiveOk (q : BlockQueue β) (start : UInt64) (connectionId : Uuid) (hashes : List Hash) : Prop :=
  ∀ s ∈ q.spans, s.startBlockHeight = start ∧ s.connectionId = connectionId →
    (∀ h ∈ hashes, q.requested h = true → h ∈ s.hashes) ∧ (s.blocks ≠ [] → hashes = [])

theorem Tracked.setSpanHashes (hq : Tracked q) (hok : GiveOk q start connectionId hashes) :
    Tracked (q.setSpanHashes start connectionId hashes) := by
  refine ⟨hq.toExclusive.setSpanHashes fun s hs hhit => (hok s hs hhit).1, fun h => ?_⟩
  by_cases hhit : ∃ s ∈ q.spans, s.startBlockHeight = start ∧ s.connectionId = connectionId
  · obtain ⟨s, hs, hhit⟩ := hhit
    obtain ⟨-, hfilled⟩ := hok s hs hhit
    obtain ⟨rfl, rfl⟩ := hhit
    rw [haveHash_setSpanHashes hs, hq.arrived]
    constructor
    · rintro ⟨⟨y, hy, hy', hh⟩, hnot⟩
      refine ⟨y, (mem_setSpanHashes_of_mem hs).mpr (.inl ⟨hy, ?_⟩), hy', hh⟩
      rintro rfl
      exact hnot hh
    · rintro ⟨y, hy, hy', hh⟩
      rcases (mem_setSpanHashes_of_mem hs).mp hy with ⟨hy, hne⟩ | rfl
      · exact ⟨⟨y, hy, hy', hh⟩, fun hh' => hne (hq.disjoint y hy s hs h hh hh')⟩
      · -- a span whose blocks have arrived is given nothing
        rw [show hashes = [] from hfilled hy'] at hh
        exact absurd hh (by simp)
  · rw [setSpanHashes_of_miss hhit]
    exact hq.arrived h

/-- Blocks are handed in, or there are no hashes to take over. -/
def FillOk (q : BlockQueue β) (height : UInt64) (bcel : List β) : Prop :=
  bcel = [] → ∀ s ∈ q.spans, s.startBlockHeight = height → s.hashes = []

theorem Tracked.addBlocks (hq : Tracked q) {height : UInt64} {bcel : List β}
    (hok : FillOk q height bcel) : Tracked (q.addBlocks height bcel connectionId addr) := by
  refine ⟨hq.toExclusive.addBlocks height bcel, fun h => ?_⟩
  unfold BlockQueue.addBlocks removeSpan
  dsimp only
  generalize hs : (Span.mk height [] bcel connectionId (UInt64.ofNat bcel.length) addr) = s
  have hempty : s.hashes = [] := by rw [← hs]
  have hstart : s.startBlockHeight = height := by rw [← hs]
  have hconn : s.connectionId = connectionId := by rw [← hs]
  have hblocks : s.blocks = bcel := by rw [← hs]
  have hinserted := (hq.eraseWhere fun z => decide (z.startBlockHeight = height)).insert hempty
  cases hf : q.spans.find? fun z => decide (z.startBlockHeight = height) with
  | none => exact hinserted.arrived h
  | some old =>
    obtain ⟨hold, hheight⟩ := OrderedSet.mem_of_find? hf
    have hheight : old.startBlockHeight = height := by simpa using hheight
    dsimp only [Option.map_some]
    rw [← hstart, ← hconn]
    rw [← hstart] at hinserted
    generalize hq₁ : q.eraseWhere (fun z => decide (z.startBlockHeight = s.startBlockHeight))
      = q₁ at hinserted
    have hin : s ∈ q₁.spans.insert s := by
      refine OrderedSet.mem_insert.mpr (.inr ⟨rfl, fun z hz hkey => ?_⟩)
      rw [← hq₁] at hz
      have hmiss := (OrderedSet.mem_filter.mp hz).2
      exact absurd (Span.key_inj.mp hkey) (by simpa using hmiss)
    rw [haveHash_setSpanHashes hin, hempty]
    -- what had arrived before, and the hashes that are taken over
    have hnoted : ∀ have' : List (Hash × UInt64), have' = q₁.haveBlocks ++
        (old.hashes.zipIdx.filter fun (r : Hash × Nat) => (q₁.haveBlocks.lookup r.1).isNone).map
          (fun (r : Hash × Nat) => (r.1, s.startBlockHeight + UInt64.ofNat r.2)) →
        (h ∈ have'.map Prod.fst ↔ h ∈ q₁.haveBlocks.map Prod.fst ∨ h ∈ old.hashes) := by
      rintro _ rfl
      rw [List.map_append, List.mem_append]
      constructor
      · rintro (hh | hh)
        · exact .inl hh
        · simp only [List.map_map, List.mem_map, List.mem_filter, Function.comp_apply] at hh
          obtain ⟨r, ⟨hr, -⟩, rfl⟩ := hh
          exact .inr (List.fst_mem_of_mem_zipIdx hr)
      · rintro (hh | hh)
        · exact .inl hh
        · by_cases hknown : h ∈ q₁.haveBlocks.map Prod.fst
          · exact .inl hknown
          · right
            obtain ⟨i, hi⟩ : ∃ i, (h, i) ∈ old.hashes.zipIdx := by
              obtain ⟨i, hi, rfl⟩ := List.mem_iff_getElem.mp hh
              exact ⟨i, List.mk_mem_zipIdx_iff_getElem?.mpr (by simp [hi])⟩
            simp only [List.map_map, List.mem_map, List.mem_filter, Function.comp_apply]
            refine ⟨(h, i), ⟨hi, ?_⟩, rfl⟩
            rw [← haveHash_iff, Bool.not_eq_true] at hknown
            simpa [haveHash] using hknown
    rw [haveHash_iff, hnoted _ rfl, ← haveHash_iff]
    have hbefore := hinserted.arrived h
    constructor
    · rintro ⟨hh | hh, -⟩
      · obtain ⟨y, hy, hfilled, hh⟩ := hbefore.mp hh
        refine ⟨y, (mem_setSpanHashes_of_mem hin).mpr (.inl ⟨hy, ?_⟩), hfilled, hh⟩
        rintro rfl
        rw [hempty] at hh
        exact absurd hh (by simp)
      · refine ⟨_, (mem_setSpanHashes_of_mem hin).mpr (.inr rfl), ?_, hh⟩
        intro hnone
        have hnone : bcel = [] := hblocks.symm.trans hnone
        rw [hok hnone old hold hheight] at hh
        exact absurd hh (by simp)
    · rintro ⟨y, hy, hfilled, hh⟩
      rcases (mem_setSpanHashes_of_mem hin).mp hy with ⟨hy, -⟩ | rfl
      · exact ⟨.inl (hbefore.mpr ⟨y, hy, hfilled, hh⟩), by simp⟩
      · exact ⟨.inr hh, by simp⟩

/-- The stretch of a reservation may be given to the span it lands on: a new one if
nothing starts there. -/
def ReserveGives (q : BlockQueue β) (a : ReserveArgs) : Prop :=
  ∀ n, Longest a (a.place q) n →
    ((∀ s ∈ q.spans, s.startBlockHeight ≠ a.heightOf (a.place q)) →
      ∀ h ∈ a.stretch (a.place q) n, q.requested h = false) ∧
    GiveOk q (a.heightOf (a.place q)) a.connectionId (a.stretch (a.place q) n)

theorem Tracked.reserveSpan (hq : Tracked q) (hok : ReserveGives q a) :
    Tracked (q.reserveSpan a).2 := by
  unfold BlockQueue.reserveSpan
  cases hp : q.planSpan a with
  | none => exact hq
  | some r =>
    obtain ⟨start, hashes⟩ := r
    obtain ⟨rfl, hlong, hstretch, -⟩ := planSpan_some hp
    obtain ⟨hnew, hgive⟩ := hok _ hlong
    rw [← hstretch] at hnew hgive
    refine (hq.insert rfl).setSpanHashes fun s hs hhit => ?_
    rcases mem_addScheduled.mp hs with hs | ⟨rfl, hfree⟩
    · exact hgive s hs hhit
    · refine ⟨fun h hh hr => ?_, fun hfilled => absurd rfl hfilled⟩
      have hr : q.requested h = true := hr
      rw [hnew hfree h hh] at hr
      exact absurd hr (by simp)

/-! ## Histories -/

def IndexCallOk (q : BlockQueue β) : QueueCall β → Prop
  | .addBlocks height bcel _ _ => FillOk q height bcel
  | .reserveSpan a => ReserveGives q a
  | .setSpanHashes startHeight connectionId hashes => GiveOk q startHeight connectionId hashes
  | _ => True

/-- Every call of a history meets its condition in the queue it is made on. -/
def IndexCallsOk (q : BlockQueue β) : List (QueueCall β) → Prop
  | [] => True
  | c :: calls => IndexCallOk q c ∧ IndexCallsOk (q.call c) calls

theorem Tracked.call (hq : Tracked q) {c : QueueCall β} (hok : IndexCallOk q c) :
    Tracked (q.call c) := by
  cases c with
  | addBlocks height bcel connectionId addr => exact hq.addBlocks hok
  | addScheduled height nblocks connectionId addr =>
    unfold BlockQueue.call
    dsimp only
    split
    · exact hq
    · exact hq.insert rfl
  | reserveSpan a => exact hq.reserveSpan hok
  | setSpanHashes startHeight connectionId hashes => exact hq.setSpanHashes hok
  | removeSpan startBlockHeight => exact hq.eraseWhere _
  | removeSpans connectionId startBlockHeight => exact hq.eraseWhere _
  | flushSpans connectionId all => exact hq.eraseWhere _
  | flushStaleSpans liveConnections => exact hq.eraseWhere _
  | getNextSpan filled => exact hq

theorem Tracked.calls {calls : List (QueueCall β)} (hq : Tracked q)
    (hok : IndexCallsOk q calls) : Tracked (calls.foldl BlockQueue.call q) := by
  induction calls generalizing q with
  | nil => exact hq
  | cons c calls ih => exact ih (hq.call hok.1) hok.2

/-- **The index matches the spans.** After any history whose calls meet their
conditions, `requested` is true of exactly the hashes that some span carries, and
`have` of exactly those that some filled span carries. -/
theorem index_exact (calls : List (QueueCall β)) (hok : IndexCallsOk ({} : BlockQueue β) calls)
    (h : Hash) :
    ((calls.foldl BlockQueue.call {}).requested h = true ↔
      ∃ s ∈ (calls.foldl BlockQueue.call ({} : BlockQueue β)).spans, h ∈ s.hashes) ∧
    ((calls.foldl BlockQueue.call {}).haveHash h = true ↔
      ∃ s ∈ (calls.foldl BlockQueue.call ({} : BlockQueue β)).spans,
        s.blocks ≠ [] ∧ h ∈ s.hashes) :=
  have htracked := tracked_empty.calls hok
  ⟨htracked.indexed h, htracked.arrived h⟩

/-- A span is reserved and then filled: its first hash is then requested and there. -/
theorem index_exact_filled :
    let q := [QueueCall.reserveSpan (announced 1 2 [11, 12]), .addBlocks 1 [(), ()] 1 ""].foldl
      BlockQueue.call ({} : BlockQueue Unit)
    q.haveHash 11 = true ∧ ∃ s ∈ q.spans, s.blocks ≠ [] ∧ (11 : Hash) ∈ s.hashes := by
  have hok : IndexCallsOk ({} : BlockQueue Unit)
      [.reserveSpan (announced 1 2 [11, 12]), .addBlocks 1 [(), ()] 1 ""] :=
    ⟨fun n _ => ⟨fun _ h _ => rfl, fun s hs => absurd hs (by simp)⟩,
      fun hnone => absurd hnone (by simp), trivial⟩
  have hhave : ([QueueCall.reserveSpan (announced 1 2 [11, 12]), .addBlocks 1 [(), ()] 1 ""].foldl
      BlockQueue.call ({} : BlockQueue Unit)).haveHash 11 = true := by
    decide +kernel
  exact ⟨hhave, (index_exact _ hok 11).2.mp hhave⟩

/-- **Two peers on overlapping branches.** The second is given a hash that the first
one is fetching. When the first goes away the hash is forgotten, although the span
of the second still carries it. -/
theorem index_loses_shared_hash :
    let q := [QueueCall.reserveSpan (announced 1 2 [11, 12]),
      .reserveSpan (announced 2 4 [13, 12, 14]), .flushSpans 1 true].foldl
      BlockQueue.call ({} : BlockQueue Unit)
    q.requested 12 = false ∧ ∃ s ∈ q.spans, (12 : Hash) ∈ s.hashes := by
  decide +kernel

end BlockQueue

end Oxyra
