import Oxyra.Core.BlockQueue

/-!
# Reserving a span

`reserve_span` hands a peer a stretch of blocks to fetch and notes it down. Two
things can go wrong with the note.

* Spans are told apart by their first height only. Where another span starts at
  the height that was chosen, `insert` does nothing, and the hashes are then set
  on that other span or on none.
* Only a leading run of requested hashes is skipped. A hash further on may belong
  to a span that another peer is working on.

`Recordable` rules out both, and `reservation_recorded_iff` says that nothing else
can go wrong. The second part of it is about whole histories: as long as every
call leaves each hash with one span, the index of requested hashes is exact, and
a reservation is recorded if the start is free and no hash of the stretch is
requested.
-/

namespace Oxyra

namespace BlockQueue

variable {β : Type} {q : BlockQueue β} {a : ReserveArgs} {start n : UInt64} {hashes : List Hash}
  {connectionId : Uuid} {addr : String} {s y : Span β}

/-! ## The stretch

Which part of the announced list a reservation is about, said without the loops. -/

/-- The height of the hash at position `i` of the announced list. -/
def ReserveArgs.heightOf (a : ReserveArgs) (i : Nat) : UInt64 := a.hashesStart + UInt64.ofNat i

/-- The position of the first hash from `i` on that has not been requested. -/
def ReserveArgs.openFrom (a : ReserveArgs) (q : BlockQueue β) (i : Nat) : Nat :=
  i + (a.blockHashes.drop i).findIdx fun (x : Hash × UInt64) => !q.requested x.1

/-- The position where the stretch starts: the first hash not yet requested or, if
the peer has pruned that block, the first such hash of its next stripe. -/
def ReserveArgs.place (a : ReserveArgs) (q : BlockQueue β) : Nat :=
  a.openFrom q (a.jump (a.heightOf (a.openFrom q 0)) - a.hashesStart).toNat

def ReserveArgs.stretch (a : ReserveArgs) (i n : Nat) : List Hash :=
  ((a.blockHashes.drop i).take n).map Prod.fst

/-- `n` is the longest run of wanted heights from position `i` on that fits. -/
structure Longest (a : ReserveArgs) (i n : Nat) : Prop where
  pos : 0 < n
  fits : i + n ≤ a.blockHashes.length
  atMost : n ≤ a.maxBlocks.toNat
  wanted : ∀ k < n, a.wanted (a.heightOf i) (a.heightOf (i + k)) = true
  stops : i + n = a.blockHashes.length ∨ n = a.maxBlocks.toNat ∨
    a.wanted (a.heightOf i) (a.heightOf (i + n)) = false

theorem Longest.unique {i m n : Nat} (hm : Longest a i m) (hn : Longest a i n) : m = n := by
  have key : ∀ {m n : Nat}, Longest a i m → Longest a i n → ¬ m < n := by
    intro m n hm hn hlt
    have hw := hn.wanted m hlt
    have h1 := hn.fits
    have h2 := hn.atMost
    rcases hm.stops with h | h | h
    · omega
    · omega
    · rw [h] at hw
      exact absurd hw (by simp)
  have h1 := key hm hn
  have h2 := key hn hm
  omega

/-! ## The plan -/

theorem skipRequested_eq (l : List (Hash × UInt64)) :
    skipRequested q.requested l
      = l.findIdx fun (x : Hash × UInt64) => !q.requested x.1 := by
  induction l with
  | nil => rfl
  | cons x l ih =>
    rw [skipRequested, List.findIdx_cons, ih]
    cases q.requested x.1 <;> rfl

theorem collectSpan_spec (wanted : UInt64 → Bool) (maxBlocks start : UInt64)
    (l : List (Hash × UInt64)) (k : Nat) (hk : k + l.length < 2 ^ 64) :
    let c := collectSpan wanted maxBlocks start l (UInt64.ofNat k)
    c = (l.map Prod.fst).take c.length ∧ c.length ≤ l.length ∧
      (c ≠ [] → k + c.length ≤ maxBlocks.toNat) ∧
      (∀ i < c.length, wanted (start + UInt64.ofNat (k + i)) = true) ∧
      (c.length = l.length ∨ maxBlocks.toNat ≤ k + c.length ∨
        wanted (start + UInt64.ofNat (k + c.length)) = false) := by
  induction l generalizing k with
  | nil => simp [collectSpan]
  | cons x l ih =>
    have hlt : UInt64.ofNat k < maxBlocks ↔ k < maxBlocks.toNat := by
      rw [UInt64.lt_iff_toNat_lt, UInt64.toNat_ofNat', Nat.mod_eq_of_lt (by omega)]
    have hsucc : UInt64.ofNat k + 1 = UInt64.ofNat (k + 1) := by simp
    rw [List.length_cons] at hk
    unfold collectSpan
    split
    · rename_i hgo
      rw [Bool.and_eq_true, decide_eq_true_iff, hlt] at hgo
      rw [hsucc]
      obtain ⟨h1, h2, h3, h4, h5⟩ := ih (k + 1) (by omega)
      generalize collectSpan wanted maxBlocks start l (UInt64.ofNat (k + 1)) = c at h1 h2 h3 h4 h5
      refine ⟨by simpa using h1, by simpa using h2, fun _ => ?_, ?_, ?_⟩
      · rw [List.length_cons]
        by_cases hc : c = []
        · rw [hc, List.length_nil]
          omega
        · have := h3 hc
          omega
      · intro i hi
        rw [List.length_cons] at hi
        cases i with
        | zero => exact hgo.2
        | succ i =>
          have := h4 i (by omega)
          rwa [show k + 1 + i = k + (i + 1) from by omega] at this
      · rw [List.length_cons, List.length_cons,
          show k + (c.length + 1) = k + 1 + c.length from by omega]
        rcases h5 with h | h | h
        · exact .inl (by omega)
        · exact .inr (.inl (by omega))
        · exact .inr (.inr h)
    · rename_i hstop
      rw [Bool.and_eq_true, decide_eq_true_iff, hlt, not_and_or, Bool.not_eq_true] at hstop
      refine ⟨rfl, by simp, fun h => absurd rfl h, fun i hi => absurd hi (by simp), .inr ?_⟩
      exact hstop.imp (fun h => by simpa using h) fun h => h

/-- **What the plan consists of**: the longest stretch at its place. -/
theorem planSpan_some (h : q.planSpan a = some (start, hashes)) :
    start = a.heightOf (a.place q) ∧ Longest a (a.place q) hashes.length ∧
      hashes = a.stretch (a.place q) hashes.length ∧ a.blockHashes.length < 2 ^ 64 := by
  unfold planSpan at h
  split at h
  · exact absurd h (by simp)
  split at h
  · exact absurd h (by simp)
  rename_i hfit
  dsimp only at h
  rw [skipRequested_eq, skipRequested_eq] at h
  split at h
  · exact absurd h (by simp)
  have hfirst : a.hashesStart + UInt64.ofNat (a.blockHashes.findIdx fun x => !q.requested x.1)
      = a.heightOf (a.openFrom q 0) := by
    rw [ReserveArgs.heightOf, ReserveArgs.openFrom, List.drop_zero, Nat.zero_add]
  rw [hfirst] at h
  generalize hj : a.jump (a.heightOf (a.openFrom q 0)) = first at h
  have hplace : a.place q = (first - a.hashesStart).toNat
      + (a.blockHashes.drop (first - a.hashesStart).toNat).findIdx
          fun x => !q.requested x.1 := by
    rw [ReserveArgs.place, hj, ReserveArgs.openFrom]
  have hstart : first + UInt64.ofNat
      ((a.blockHashes.drop (first - a.hashesStart).toNat).findIdx fun x => !q.requested x.1)
      = a.heightOf (a.place q) := by
    rw [hplace, ReserveArgs.heightOf, UInt64.ofNat_add, UInt64.ofNat_toNat]
    grind
  rw [hstart, List.drop_drop, ← hplace] at h
  split at h
  · exact absurd h (by simp)
  rename_i hne
  obtain ⟨rfl, hc⟩ := Prod.mk.inj (Option.some.inj h)
  have hlast := a.lastBlockHeight.toNat_lt
  have hlen : (a.blockHashes.drop (a.place q)).length = a.blockHashes.length - a.place q :=
    List.length_drop
  obtain ⟨h1, h2, h3, h4, h5⟩ := collectSpan_spec (a.wanted (a.heightOf (a.place q))) a.maxBlocks
    (a.heightOf (a.place q)) (a.blockHashes.drop (a.place q)) 0 (by omega)
  have hzero : UInt64.ofNat 0 = 0 := rfl
  rw [hzero, hc] at h1 h2 h3 h4 h5
  rw [hc] at hne
  simp only [Nat.zero_add] at h3 h4 h5
  have hpos := List.length_pos_iff.mpr hne
  have hat : ∀ k, a.heightOf (a.place q) + UInt64.ofNat k = a.heightOf (a.place q + k) := by
    intro k
    rw [ReserveArgs.heightOf, ReserveArgs.heightOf, UInt64.ofNat_add, UInt64.add_assoc]
  refine ⟨rfl, ⟨hpos, by omega, h3 hne, fun k hk => ?_, ?_⟩, ?_, by omega⟩
  · rw [← hat]
    exact h4 k hk
  · rw [← hat]
    have hmax := h3 hne
    rcases h5 with h | h | h
    · exact .inl (by omega)
    · exact .inr (.inl (by omega))
    · exact .inr (.inr h)
  · rw [ReserveArgs.stretch, List.map_take]
    exact h1

def ReserveArgs.reserved (a : ReserveArgs) (r : UInt64 × UInt64) : List Hash :=
  a.stretch (r.1 - a.hashesStart).toNat r.2.toNat

theorem reserveSpan_some (hn : (q.reserveSpan a).1.2 ≠ 0) :
    ∃ hashes, Longest a (a.place q) hashes.length ∧
      hashes = a.stretch (a.place q) hashes.length ∧
      (q.reserveSpan a).1 = (a.heightOf (a.place q), UInt64.ofNat hashes.length) ∧
      a.reserved (q.reserveSpan a).1 = hashes ∧
      (q.reserveSpan a).2 =
        (q.addScheduled (a.heightOf (a.place q)) (UInt64.ofNat hashes.length) a.connectionId
          a.addr).setSpanHashes (a.heightOf (a.place q)) a.connectionId hashes := by
  unfold reserveSpan at hn ⊢
  cases hp : q.planSpan a with
  | none => simp [hp] at hn
  | some r =>
    obtain ⟨start, hashes⟩ := r
    obtain ⟨rfl, hlong, hstretch, hlen⟩ := planSpan_some hp
    have hfits := hlong.fits
    have hplace : (a.heightOf (a.place q) - a.hashesStart).toNat = a.place q := by
      rw [ReserveArgs.heightOf, UInt64.add_comm, UInt64.add_sub_cancel, UInt64.toNat_ofNat',
        Nat.mod_eq_of_lt (by omega)]
    have hcount : (UInt64.ofNat hashes.length).toNat = hashes.length := by
      rw [UInt64.toNat_ofNat', Nat.mod_eq_of_lt (by omega)]
    refine ⟨hashes, hlong, hstretch, rfl, ?_, rfl⟩
    rw [ReserveArgs.reserved, hplace, hcount]
    exact hstretch.symm

/-! ## The note -/

theorem mem_setSpanHashes :
    y ∈ (q.setSpanHashes start connectionId hashes).spans ↔
      (y ∈ q.spans ∧ ¬ (y.startBlockHeight = start ∧ y.connectionId = connectionId)) ∨
        ∃ s ∈ q.spans, (s.startBlockHeight = start ∧ s.connectionId = connectionId) ∧
          y = { s with hashes := hashes } := by
  unfold setSpanHashes
  dsimp only
  cases hf : q.spans.find? fun s =>
      decide (s.startBlockHeight = start) && decide (s.connectionId = connectionId) with
  | none =>
    have hno := OrderedSet.find?_eq_none.mp hf
    simp only [Bool.and_eq_false_iff, decide_eq_false_iff_not] at hno
    constructor
    · intro hy
      exact .inl ⟨hy, fun h => (hno y hy).elim (fun h1 => h1 h.1) fun h2 => h2 h.2⟩
    · rintro (⟨hy, -⟩ | ⟨s, hs, h, -⟩)
      · exact hy
      · exact absurd h fun h => (hno s hs).elim (fun h1 => h1 h.1) fun h2 => h2 h.2
  | some s =>
    obtain ⟨hs, hhit⟩ := OrderedSet.mem_of_find? hf
    have hhit' : s.startBlockHeight = start ∧ s.connectionId = connectionId := by
      simpa using hhit
    dsimp only
    rw [OrderedSet.mem_insert]
    unfold eraseWhere
    simp only [OrderedSet.mem_filter, Bool.not_eq_true', Bool.and_eq_false_iff,
      decide_eq_false_iff_not, ← not_and_or]
    refine or_congr_right ?_
    constructor
    · rintro ⟨rfl, -⟩
      exact ⟨s, hs, hhit', rfl⟩
    · rintro ⟨s', hs', hhit'', rfl⟩
      have hsame : s' = s := OrderedSet.eq_of_key_eq hs' hs
        (Span.key_inj.mpr (hhit''.1.trans hhit'.1.symm))
      refine ⟨by rw [hsame], ?_⟩
      rintro z ⟨hz, hmiss⟩ hkey
      -- no other span starts there
      have hzs : z = s := OrderedSet.eq_of_key_eq hz hs hkey
      exact hmiss (hzs ▸ hhit')

theorem mem_setSpanHashes_of_mem (hs : s ∈ q.spans) :
    y ∈ (q.setSpanHashes s.startBlockHeight s.connectionId hashes).spans ↔
      (y ∈ q.spans ∧ y ≠ s) ∨ y = { s with hashes := hashes } := by
  have hsame : ∀ z ∈ q.spans, z.startBlockHeight = s.startBlockHeight → z = s :=
    fun z hz hz' => OrderedSet.eq_of_key_eq hz hs (Span.key_inj.mpr hz')
  rw [mem_setSpanHashes]
  constructor
  · rintro (⟨hy, hmiss⟩ | ⟨z, hz, hzhit, rfl⟩)
    · refine .inl ⟨hy, ?_⟩
      rintro rfl
      exact hmiss ⟨rfl, rfl⟩
    · rw [hsame z hz hzhit.1]
      exact .inr rfl
  · rintro (⟨hy, hne⟩ | rfl)
    · exact .inl ⟨hy, fun h => hne (hsame y hy h.1)⟩
    · exact .inr ⟨s, hs, ⟨rfl, rfl⟩, rfl⟩

/-- What is set where the span is there: the one span that is hit is taken out and put back. -/
theorem setSpanHashes_of_mem (hs : s ∈ q.spans) (hashes : List Hash) :
    ∃ hit : Span β → Bool, (∀ z ∈ q.spans, hit z = true ↔ z = s) ∧
      q.setSpanHashes s.startBlockHeight s.connectionId hashes = { q.eraseWhere hit with
        spans := (q.eraseWhere hit).spans.insert { s with hashes := hashes }
        requestedHashes := hashes ++ (q.eraseWhere hit).requestedHashes } := by
  let hit : Span β → Bool := fun z => decide (z.startBlockHeight = s.startBlockHeight) &&
    decide (z.connectionId = s.connectionId)
  have hone : ∀ z ∈ q.spans, hit z = true → z.key = s.key := fun z _ hhit =>
    Span.key_inj.mpr (by simpa [hit] using And.left (Bool.and_eq_true_iff.mp hhit))
  have hself : hit s = true := by simp [hit]
  refine ⟨hit, fun z hz => ⟨fun hhit => OrderedSet.eq_of_key_eq hz hs (hone z hz hhit), ?_⟩, ?_⟩
  · rintro rfl
    exact hself
  · have hfind : q.spans.find? (fun z => decide (z.startBlockHeight = s.startBlockHeight) &&
        decide (z.connectionId = s.connectionId)) = some s :=
      OrderedSet.find?_eq_some hs hself hone
    unfold setSpanHashes
    dsimp only
    rw [hfind]

theorem setSpanHashes_of_miss (hmiss : ¬ ∃ s ∈ q.spans, s.startBlockHeight = start ∧
    s.connectionId = connectionId) : q.setSpanHashes start connectionId hashes = q := by
  have hnone : (q.spans.find? fun s => decide (s.startBlockHeight = start) &&
      decide (s.connectionId = connectionId)) = none := by
    refine OrderedSet.find?_eq_none.mpr fun s hs => ?_
    by_contra hhit
    exact hmiss ⟨s, hs, by simpa using hhit⟩
  unfold setSpanHashes
  dsimp only
  rw [hnone]

theorem mem_addScheduled :
    y ∈ (q.addScheduled start n connectionId addr).spans ↔ y ∈ q.spans ∨
      y = { startBlockHeight := start, connectionId := connectionId, nblocks := n
            origin := addr } ∧ ∀ z ∈ q.spans, z.startBlockHeight ≠ start := by
  unfold addScheduled
  rw [OrderedSet.mem_insert]
  refine or_congr_right (and_congr_right fun _ => forall_congr' fun z => forall_congr' fun _ => ?_)
  rw [Ne, Span.key_inj]

/-- A reservation as it should stand after the call: a span of the connection with
exactly these hashes, none of which another span carried before. -/
structure Recorded (q : BlockQueue β) (a : ReserveArgs) (r : (UInt64 × UInt64) × BlockQueue β) :
    Prop where
  span : ∃ s ∈ r.2.spans, s.startBlockHeight = r.1.1 ∧ s.connectionId = a.connectionId ∧
    s.nblocks = r.1.2 ∧ s.hashes = a.reserved r.1
  fresh : ∀ s ∈ q.spans, ¬ (s.startBlockHeight = r.1.1 ∧ s.connectionId = a.connectionId) →
    ∀ h ∈ a.reserved r.1, h ∉ s.hashes

/-- A span that starts at the height of position `i`, if there is one, is the
connection's own and has `n` blocks. -/
def StartFree (q : BlockQueue β) (a : ReserveArgs) (i n : Nat) : Prop :=
  ∀ s ∈ q.spans, s.startBlockHeight = a.heightOf i →
    s.connectionId = a.connectionId ∧ s.nblocks = UInt64.ofNat n

/-- The stretch can be noted down: its start is free, and no span that starts
elsewhere carries one of its hashes. -/
def Recordable (q : BlockQueue β) (a : ReserveArgs) : Prop :=
  ∀ n, Longest a (a.place q) n → StartFree q a (a.place q) n ∧
    ∀ s ∈ q.spans, s.startBlockHeight ≠ a.heightOf (a.place q) →
      ∀ h ∈ a.stretch (a.place q) n, h ∉ s.hashes

theorem recorded_iff (hn : (q.reserveSpan a).1.2 ≠ 0) :
    Recorded q a (q.reserveSpan a) ↔ Recordable q a := by
  obtain ⟨hashes, hlong, hstretch, hr, hres, hq⟩ := reserveSpan_some hn
  constructor
  · rintro ⟨⟨y, hy, hy1, hy2, hy3, -⟩, hfresh⟩ n hn
    obtain rfl := hlong.unique hn
    rw [hres, hr] at hfresh
    rw [hr] at hy1 hy3
    rw [← hstretch]
    -- the span found after the call shows what stood at its height before
    have hown : StartFree q a (a.place q) hashes.length := by
      intro s hs hstart
      rw [hq, mem_setSpanHashes] at hy
      rcases hy with ⟨-, hmiss⟩ | ⟨s', hs', hhit, rfl⟩
      · exact absurd ⟨hy1, hy2⟩ hmiss
      · rcases mem_addScheduled.mp hs' with hs' | ⟨-, hfree⟩
        · obtain rfl : s = s' := OrderedSet.eq_of_key_eq hs hs'
            (Span.key_inj.mpr (hstart.trans hhit.1.symm))
          exact ⟨hhit.2, hy3⟩
        · exact absurd hstart (hfree s hs)
    exact ⟨hown, fun s hs hne => hfresh s hs fun h => hne h.1⟩
  · intro hrec
    obtain ⟨hown, hother⟩ := hrec _ hlong
    rw [← hstretch] at hother
    refine ⟨?_, ?_⟩
    · rw [hres, hq, hr]
      by_cases htaken : ∃ s ∈ q.spans, s.startBlockHeight = a.heightOf (a.place q)
      · obtain ⟨s, hs, hstart⟩ := htaken
        obtain ⟨hconn, hlen⟩ := hown s hs hstart
        exact ⟨{ s with hashes := hashes }, mem_setSpanHashes.mpr (.inr ⟨s,
          mem_addScheduled.mpr (.inl hs), ⟨hstart, hconn⟩, rfl⟩), hstart, hconn, hlen, rfl⟩
      · have hfree : ∀ z ∈ q.spans, z.startBlockHeight ≠ a.heightOf (a.place q) :=
          fun z hz hstart => htaken ⟨z, hz, hstart⟩
        exact ⟨_, mem_setSpanHashes.mpr (.inr ⟨_, mem_addScheduled.mpr (.inr ⟨rfl, hfree⟩),
          ⟨rfl, rfl⟩, rfl⟩), rfl, rfl, rfl, rfl⟩
    · rw [hres, hr]
      intro s hs hmiss
      exact hother s hs fun hstart => hmiss ⟨hstart, (hown s hs hstart).1⟩

/-! ## Histories -/

/-- The index of requested hashes is exact, and every hash has one span. -/
structure Exclusive (q : BlockQueue β) : Prop where
  indexed : ∀ h, q.requested h = true ↔ ∃ s ∈ q.spans, h ∈ s.hashes
  disjoint : ∀ s ∈ q.spans, ∀ s' ∈ q.spans, ∀ h ∈ s.hashes, h ∈ s'.hashes → s = s'

theorem exclusive_empty : Exclusive ({} : BlockQueue β) :=
  ⟨by simp [requested], by simp⟩

theorem requested_eraseWhere {p : Span β → Bool} {h : Hash} :
    (q.eraseWhere p).requested h = true ↔
      q.requested h = true ∧ ∀ s ∈ q.spans, p s = true → h ∉ s.hashes := by
  simp [requested, eraseWhere, OrderedSet.mem_def]

theorem mem_eraseWhere {p : Span β → Bool} :
    s ∈ (q.eraseWhere p).spans ↔ s ∈ q.spans ∧ p s = false := by
  unfold eraseWhere
  rw [OrderedSet.mem_filter, Bool.not_eq_true']

theorem Exclusive.eraseWhere (hq : Exclusive q) (p : Span β → Bool) :
    Exclusive (q.eraseWhere p) := by
  constructor
  · intro h
    rw [requested_eraseWhere, hq.indexed]
    constructor
    · rintro ⟨⟨s, hs, hh⟩, hgone⟩
      refine ⟨s, mem_eraseWhere.mpr ⟨hs, ?_⟩, hh⟩
      by_contra hp
      exact hgone s hs (by simpa using hp) hh
    · rintro ⟨s, hs, hh⟩
      obtain ⟨hs, hp⟩ := mem_eraseWhere.mp hs
      refine ⟨⟨s, hs, hh⟩, fun s' hs' hp' hh' => ?_⟩
      -- the one span that carries `h` stays
      rw [hq.disjoint s hs s' hs' h hh hh', hp'] at hp
      exact absurd hp (by simp)
  · intro s hs s' hs'
    exact hq.disjoint s (mem_eraseWhere.mp hs).1 s' (mem_eraseWhere.mp hs').1

theorem requested_setSpanHashes (hs : s ∈ q.spans) {h : Hash} :
    (q.setSpanHashes s.startBlockHeight s.connectionId hashes).requested h = true ↔
      h ∈ hashes ∨ q.requested h = true ∧ h ∉ s.hashes := by
  obtain ⟨hit, honly, heq⟩ := setSpanHashes_of_mem hs hashes
  have herase := @requested_eraseWhere β q hit h
  rw [requested, decide_eq_true_iff] at herase
  rw [heq, requested, decide_eq_true_iff, List.mem_append, herase]
  refine or_congr_right (and_congr_right fun _ => ⟨fun hg => hg s hs ((honly s hs).mpr rfl), ?_⟩)
  intro hh z hz hhit
  rwa [(honly z hz).mp hhit]

/-- Giving the span `s` the hashes `hashes` keeps the index exact if those of them
that are requested are its own. -/
theorem Exclusive.rehash {q' : BlockQueue β} (hq : Exclusive q) (hs : s ∈ q.spans)
    (hspans : ∀ y, y ∈ q'.spans ↔ (y ∈ q.spans ∧ y ≠ s) ∨ y = { s with hashes := hashes })
    (hrequested : ∀ h, q'.requested h = true ↔ h ∈ hashes ∨ q.requested h = true ∧ h ∉ s.hashes)
    (hown : ∀ h ∈ hashes, q.requested h = true → h ∈ s.hashes) : Exclusive q' := by
  -- a span other than `s` carries none of the new hashes
  have hother : ∀ y ∈ q.spans, y ≠ s → ∀ h ∈ y.hashes, h ∉ hashes := by
    intro y hy hne h hh hnew
    have hreq := (hq.indexed h).mpr ⟨y, hy, hh⟩
    exact hne (hq.disjoint y hy s hs h hh (hown h hnew hreq))
  constructor
  · intro h
    rw [hrequested, hq.indexed]
    constructor
    · rintro (hnew | ⟨⟨y, hy, hh⟩, hnot⟩)
      · exact ⟨_, (hspans _).mpr (.inr rfl), hnew⟩
      · refine ⟨y, (hspans y).mpr (.inl ⟨hy, ?_⟩), hh⟩
        rintro rfl
        exact hnot hh
    · rintro ⟨y, hy, hh⟩
      rcases (hspans y).mp hy with ⟨hy, hne⟩ | rfl
      · exact .inr ⟨⟨y, hy, hh⟩, fun hh' => hne (hq.disjoint y hy s hs h hh hh')⟩
      · exact .inl hh
  · intro y hy y' hy' h hh hh'
    rcases (hspans y).mp hy with ⟨hy, hne⟩ | rfl <;>
      rcases (hspans y').mp hy' with ⟨hy', hne'⟩ | rfl
    · exact hq.disjoint y hy y' hy' h hh hh'
    · exact absurd hh' (hother y hy hne h hh)
    · exact absurd hh (hother y' hy' hne' h hh')
    · rfl

/-- `set_span_hashes` is called with hashes that nobody has been asked for, or that
the span has already. -/
def SetOk (q : BlockQueue β) (start : UInt64) (connectionId : Uuid) (hashes : List Hash) : Prop :=
  ∀ s ∈ q.spans, s.startBlockHeight = start ∧ s.connectionId = connectionId →
    ∀ h ∈ hashes, q.requested h = true → h ∈ s.hashes

theorem Exclusive.setSpanHashes (hq : Exclusive q) (hok : SetOk q start connectionId hashes) :
    Exclusive (q.setSpanHashes start connectionId hashes) := by
  by_cases hhit : ∃ s ∈ q.spans, s.startBlockHeight = start ∧ s.connectionId = connectionId
  · obtain ⟨s, hs, hhit⟩ := hhit
    have hown := hok s hs hhit
    obtain ⟨rfl, rfl⟩ := hhit
    exact hq.rehash hs (fun _ => mem_setSpanHashes_of_mem hs) (fun _ => requested_setSpanHashes hs)
      hown
  · rwa [setSpanHashes_of_miss hhit]

theorem Exclusive.insert (hq : Exclusive q) (hs : s.hashes = []) :
    Exclusive { q with spans := q.spans.insert s } := by
  have hold : ∀ y ∈ q.spans.insert s, ∀ h ∈ y.hashes, y ∈ q.spans := by
    intro y hy h hh
    rcases OrderedSet.mem_insert.mp hy with hy | ⟨rfl, -⟩
    · exact hy
    · rw [hs] at hh
      exact absurd hh (by simp)
  constructor
  · intro h
    refine (hq.indexed h).trans ⟨?_, ?_⟩
    · rintro ⟨y, hy, hh⟩
      exact ⟨y, OrderedSet.mem_insert.mpr (.inl hy), hh⟩
    · rintro ⟨y, hy, hh⟩
      exact ⟨y, hold y hy h hh, hh⟩
  · intro y hy y' hy' h hh hh'
    exact hq.disjoint y (hold y hy h hh) y' (hold y' hy' h hh') h hh hh'

theorem Exclusive.addBlocks (hq : Exclusive q) (height : UInt64) (bcel : List β) :
    Exclusive (q.addBlocks height bcel connectionId addr) := by
  unfold BlockQueue.addBlocks removeSpan
  dsimp only
  generalize hs : (Span.mk height [] bcel connectionId (UInt64.ofNat bcel.length) addr) = s
  have hempty : s.hashes = [] := by rw [← hs]
  have hstart : s.startBlockHeight = height := by rw [← hs]
  have hconn : s.connectionId = connectionId := by rw [← hs]
  have herase := hq.eraseWhere fun z => decide (z.startBlockHeight = height)
  cases hf : q.spans.find? fun z => decide (z.startBlockHeight = height) with
  | none => exact herase.insert hempty
  | some old =>
    obtain ⟨hold, -⟩ := OrderedSet.mem_of_find? hf
    dsimp only [Option.map_some]
    rw [← hstart, ← hconn]
    rw [← hstart] at herase hf
    have hin : s ∈ ((q.eraseWhere fun z => decide (z.startBlockHeight
        = s.startBlockHeight)).spans.insert s) := by
      refine OrderedSet.mem_insert.mpr (.inr ⟨rfl, fun z hz hkey => ?_⟩)
      have hmiss := (OrderedSet.mem_filter.mp hz).2
      exact absurd (Span.key_inj.mp hkey) (by simpa using hmiss)
    -- the hashes of the span that was replaced pass to the new one
    refine (herase.insert hempty).rehash hin (fun _ => mem_setSpanHashes_of_mem hin)
      (fun h => (requested_setSpanHashes hin).trans ?_) fun h hh hreq => ?_
    · rw [hempty]
      simp [requested]
    · have hgone := (requested_eraseWhere.mp hreq).2 old hold (OrderedSet.mem_of_find? hf).2
      exact absurd hh hgone

/-! ## Runs -/

/-- The calls that change a queue, and `get_next_span`, which does not. -/
inductive QueueCall (β : Type) where
  | addBlocks (height : UInt64) (bcel : List β) (connectionId : Uuid) (addr : String)
  | addScheduled (height nblocks : UInt64) (connectionId : Uuid) (addr : String)
  | reserveSpan (a : ReserveArgs)
  | setSpanHashes (startHeight : UInt64) (connectionId : Uuid) (hashes : List Hash)
  | removeSpan (startBlockHeight : UInt64)
  | removeSpans (connectionId : Uuid) (startBlockHeight : UInt64)
  | flushSpans (connectionId : Uuid) (all : Bool)
  | flushStaleSpans (liveConnections : List Uuid)
  | getNextSpan (filled : Bool)

/-- The queue after a call. `add_blocks` throws on a scheduled span of no blocks. -/
def call (q : BlockQueue β) : QueueCall β → BlockQueue β
  | .addBlocks height bcel connectionId addr => q.addBlocks height bcel connectionId addr
  | .addScheduled height nblocks connectionId addr =>
    if nblocks = 0 then q else q.addScheduled height nblocks connectionId addr
  | .reserveSpan a => (q.reserveSpan a).2
  | .setSpanHashes startHeight connectionId hashes =>
    q.setSpanHashes startHeight connectionId hashes
  | .removeSpan startBlockHeight => (q.removeSpan startBlockHeight).2
  | .removeSpans connectionId startBlockHeight => q.removeSpans connectionId startBlockHeight
  | .flushSpans connectionId all => q.flushSpans connectionId all
  | .flushStaleSpans liveConnections => q.flushStaleSpans liveConnections
  | .getNextSpan _ => q

/-- The start of the stretch is free and none of its hashes is requested. -/
def ReserveOk (q : BlockQueue β) (a : ReserveArgs) : Prop :=
  ∀ n, Longest a (a.place q) n → StartFree q a (a.place q) n ∧
    ∀ h ∈ a.stretch (a.place q) n, q.requested h = false

def CallOk (q : BlockQueue β) : QueueCall β → Prop
  | .reserveSpan a => ReserveOk q a
  | .setSpanHashes startHeight connectionId hashes => SetOk q startHeight connectionId hashes
  | _ => True

/-- Every call of a history meets its condition in the queue it is made on. -/
def CallsOk (q : BlockQueue β) : List (QueueCall β) → Prop
  | [] => True
  | c :: calls => CallOk q c ∧ CallsOk (q.call c) calls

theorem ReserveOk.recordable (hq : Exclusive q) (hok : ReserveOk q a) : Recordable q a := by
  intro n hn
  obtain ⟨hfree, hreq⟩ := hok n hn
  refine ⟨hfree, fun s hs _ h hh hcarried => ?_⟩
  have := (hq.indexed h).mpr ⟨s, hs, hcarried⟩
  rw [hreq h hh] at this
  exact absurd this (by simp)

theorem Exclusive.reserveSpan (hq : Exclusive q) (hok : ReserveOk q a) :
    Exclusive (q.reserveSpan a).2 := by
  unfold BlockQueue.reserveSpan
  cases hp : q.planSpan a with
  | none => exact hq
  | some r =>
    obtain ⟨start, hashes⟩ := r
    obtain ⟨rfl, hlong, hstretch, -⟩ := planSpan_some hp
    have hreq := (hok _ hlong).2
    rw [← hstretch] at hreq
    refine (hq.insert rfl).setSpanHashes fun _ _ _ h hh hr => ?_
    have hr : q.requested h = true := hr
    rw [hreq h hh] at hr
    exact absurd hr (by simp)

theorem Exclusive.call (hq : Exclusive q) {c : QueueCall β} (hok : CallOk q c) :
    Exclusive (q.call c) := by
  cases c with
  | addBlocks height bcel connectionId addr => exact hq.addBlocks height bcel
  | addScheduled height nblocks connectionId addr =>
    unfold BlockQueue.call
    dsimp only
    split
    · exact hq
    · exact hq.insert rfl
  | reserveSpan a => exact hq.reserveSpan hok
  | setSpanHashes startHeight connectionId hashes => exact hq.setSpanHashes hok
  | removeSpan startBlockHeight => exact hq.eraseWhere _
  | removeSpans connectionId startBlockHeight => exact hq.eraseWhere _
  | flushSpans connectionId all => exact hq.eraseWhere _
  | flushStaleSpans liveConnections => exact hq.eraseWhere _
  | getNextSpan filled => exact hq

theorem Exclusive.calls {calls : List (QueueCall β)} (hq : Exclusive q)
    (hok : CallsOk q calls) : Exclusive (calls.foldl BlockQueue.call q) := by
  induction calls generalizing q with
  | nil => exact hq
  | cons c calls ih => exact ih (hq.call hok.1) hok.2

/-- **When a reservation is recorded.** On any queue, if and only if its stretch is
`Recordable`. And at the end of any history in which hashes are given only to the
span that has them or may have them, whenever the start of the stretch is free and
none of its hashes is requested. -/
theorem reservation_recorded_iff {β : Type} :
    (∀ (q : BlockQueue β) (a : ReserveArgs), (q.reserveSpan a).1.2 ≠ 0 →
      (Recorded q a (q.reserveSpan a) ↔ Recordable q a)) ∧
    ∀ (calls : List (QueueCall β)) (q : BlockQueue β), CallsOk ({} : BlockQueue β) calls →
      q = calls.foldl BlockQueue.call {} → ∀ a : ReserveArgs, ReserveOk q a →
        (q.reserveSpan a).1.2 ≠ 0 → Recorded q a (q.reserveSpan a) := by
  refine ⟨fun q a hn => recorded_iff hn, ?_⟩
  rintro calls q hcalls rfl a hok hn
  exact (recorded_iff hn).mpr (hok.recordable (exclusive_empty.calls hcalls))

/-! ## Two peers -/

/-- A peer on connection `connectionId` that announces `hashes` up to `last`. -/
def announced (connectionId : Uuid) (last : UInt64) (hashes : List Hash) : ReserveArgs :=
  { firstBlockHeight := 1, lastBlockHeight := last, maxBlocks := 2, connectionId := connectionId
    blockchainHeight := last + 1, blockHashes := hashes.map fun h => (h, 1) }

/-- The queue after a first peer has been given heights 1 and 2. -/
def firstReserved : BlockQueue Unit :=
  [QueueCall.reserveSpan (announced 1 2 [11, 12])].foldl BlockQueue.call {}

/-- A second peer on the same branch, which knows two more blocks, is given those. -/
theorem reservation_recorded_second :
    (firstReserved.reserveSpan (announced 2 4 [11, 12, 13, 14])).1 = (3, 2) ∧
      Recorded firstReserved (announced 2 4 [11, 12, 13, 14])
        (firstReserved.reserveSpan (announced 2 4 [11, 12, 13, 14])) := by
  have hn : (firstReserved.reserveSpan (announced 2 4 [11, 12, 13, 14])).1 = (3, 2) := by
    decide +kernel
  have hfirst : CallOk ({} : BlockQueue Unit) (.reserveSpan (announced 1 2 [11, 12])) :=
    fun n _ => ⟨fun s hs => absurd hs (by simp), fun h _ => rfl⟩
  have hstart : ∀ s ∈ firstReserved.spans.entries, s.startBlockHeight ≠
      (announced 2 4 [11, 12, 13, 14]).heightOf
        ((announced 2 4 [11, 12, 13, 14]).place firstReserved) := by
    decide +kernel
  have hfree : ((announced 2 4 [11, 12, 13, 14]).blockHashes.drop
      ((announced 2 4 [11, 12, 13, 14]).place firstReserved)).all
        (fun x => !firstReserved.requested x.1) = true := by
    decide +kernel
  refine ⟨hn, (reservation_recorded_iff (β := Unit)).2
    [.reserveSpan (announced 1 2 [11, 12])] firstReserved ⟨hfirst, trivial⟩ rfl _
    (fun n _ => ⟨fun s hs heq => absurd heq (hstart s hs), fun h hh => ?_⟩) ?_⟩
  · obtain ⟨x, hx, rfl⟩ := List.mem_map.mp hh
    simpa using List.all_eq_true.mp hfree x (List.mem_of_mem_take hx)
  · rw [hn]
    decide

/-- **Two peers on different branches.** The second is told to fetch heights 1 and 2
too, and the queue keeps no note of it. -/
theorem reservation_unrecorded :
    (firstReserved.reserveSpan (announced 2 2 [21, 22])).1 = (1, 2) ∧
      (∀ s ∈ (firstReserved.reserveSpan (announced 2 2 [21, 22])).2.spans, s.connectionId ≠ 2) ∧
      ¬ Recorded firstReserved (announced 2 2 [21, 22])
        (firstReserved.reserveSpan (announced 2 2 [21, 22])) := by
  have hlost : ∀ s ∈ (firstReserved.reserveSpan (announced 2 2 [21, 22])).2.spans.entries,
      s.connectionId ≠ 2 := by
    decide +kernel
  refine ⟨by decide +kernel, hlost, ?_⟩
  rintro ⟨⟨s, hs, -, hconn, -⟩, -⟩
  exact hlost s hs hconn

end BlockQueue

end Oxyra
