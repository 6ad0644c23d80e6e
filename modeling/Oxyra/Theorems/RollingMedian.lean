import Oxyra.Lib.SortedSplit
import Oxyra.Logic.RollingMedian

/-!
# The rolling median is the median of the last values

* `Placed`: the positions of the indexes in use are those around the median, `pos` is the inverse of
  `heap` on them, and the other indexes are where `clear` put them. Every operation keeps it.
* `ordered_insert`: an insertion keeps both heaps in order, wherever the value it replaces stands.
* `Holds`: the circular queue holds the last values inserted.
* `rolling_median_iff`: for every sequence of insertions and clears the class returns the ordinary
  median of the window, exactly when the memory it asks for has room for its arrays.
-/

namespace Oxyra

open SideHeap

namespace RollingMedian

variable {m : RollingMedian} {side : Side} {a k : Nat} {v : UInt64} {N : Nat} {l : List UInt64}

/-! ## Positions -/

/-- The positions of the two heaps and the median between them. -/
def InUse (m : RollingMedian) (x : Int) : Prop :=
  -(m.maxCt : Int) ≤ x ∧ x ≤ m.minCt

theorem inUse_at (ha : a ≤ m.count side) : m.InUse (side.at a) := by
  cases side <;> simp only [InUse, Side.at, count] at ha ⊢ <;> omega

/-- What the counts and tables say of each other. -/
structure Placed (m : RollingMedian) : Prop where
  sz_le : m.sz ≤ m.N
  minCt : m.minCt = (m.sz - 1) / 2
  maxCt : m.maxCt = m.sz / 2
  idx_lt : m.idx < m.N
  filling : m.sz < m.N → m.idx = m.sz
  heap_pos : ∀ k, k < m.N → m.heap (m.pos k) = k
  used : ∀ x, m.InUse x → 0 < m.sz → m.heap x < m.sz ∧ m.pos (m.heap x) = x
  inUse : ∀ k, k < m.sz → m.InUse (m.pos k)
  fresh : ∀ k, m.sz ≤ k → k < m.N → m.pos k = fillPosition k

theorem pos_mmexchange (m : RollingMedian) (x y : Int) (k : Nat) :
    (m.mmexchange x y).pos k =
      if k = m.heap x then y else if k = m.heap y then x else m.pos k := by
  by_cases hxy : x = y
  · subst hxy
    simp only [mmexchange, Function.update_apply, ite_self]
  · simp only [mmexchange, Function.update_apply, if_true, if_neg hxy]

theorem Placed.mmexchange {x y : Int} (h : m.Placed) (hsz : 0 < m.sz) (hx : m.InUse x)
    (hy : m.InUse y) : (m.mmexchange x y).Placed := by
  have hinv : ∀ z, m.InUse z → m.pos (m.heap z) = z := fun z hz => (h.used z hz hsz).2
  refine ⟨h.sz_le, h.minCt, h.maxCt, h.idx_lt, h.filling, ?_, ?_, ?_, ?_⟩
  · intro k hk
    rw [heap_mmexchange, pos_mmexchange]
    have hback := h.heap_pos k hk
    by_cases hkx : k = m.heap x
    · rw [if_pos hkx, if_pos rfl, hkx]
    · by_cases hky : k = m.heap y
      · rw [if_neg hkx, if_pos hky]
        by_cases hxy : x = y
        · rw [if_pos hxy, hky, hxy]
        · rw [if_neg hxy, if_pos rfl]
          exact hky.symm
      · rw [if_neg hkx, if_neg hky, if_neg fun heq => hky (by rw [← heq, hback]),
          if_neg fun heq => hkx (by rw [← heq, hback]), hback]
  · intro z hz _
    rw [heap_mmexchange, pos_mmexchange]
    have hne : ∀ z', m.InUse z' → z ≠ z' → m.heap z ≠ m.heap z' := fun z' hz' hne heq =>
      hne (by rw [← hinv z hz, heq, hinv z' hz'])
    by_cases hzy : z = y
    · rw [if_pos hzy, if_pos rfl]
      exact ⟨(h.used x hx hsz).1, hzy.symm⟩
    · rw [if_neg hzy]
      by_cases hzx : z = x
      · rw [if_pos hzx, if_neg (hzx ▸ (hne y hy hzy).symm), if_pos rfl]
        exact ⟨(h.used y hy hsz).1, hzx.symm⟩
      · rw [if_neg hzx, if_neg (hne x hx hzx), if_neg (hne y hy hzy)]
        exact h.used z hz hsz
  · intro k hk
    rw [pos_mmexchange]
    split_ifs
    · exact hy
    · exact hx
    · exact h.inUse k hk
  · intro k hle hk
    have hx' := (h.used x hx hsz).1
    have hy' := (h.used y hy hsz).1
    rw [pos_mmexchange, if_neg, if_neg]
    · exact h.fresh k hle hk
    · exact fun heq => absurd hle (by change ¬ m.sz ≤ k; omega)
    · exact fun heq => absurd hle (by change ¬ m.sz ≤ k; omega)

theorem kept_placed : Kept Placed := by
  intro m side a ha hin h
  have hsz : 0 < m.sz := by
    have := h.minCt
    have := h.maxCt
    cases side <;> simp only [count] at hin <;> omega
  have hself := inUse_at hin
  have hparent := @inUse_at m side (a / 2) (by omega)
  cases side
  · exact h.mmexchange hsz hself hparent
  · exact h.mmexchange hsz hparent hself

/-! ## A value enters -/

/-- The object with the new value at the place of the oldest, before it is put in order. -/
def enter (m : RollingMedian) (v : UInt64) : RollingMedian :=
  { m with
    data := Function.update m.data m.idx v
    idx := (m.idx + 1) % m.N
    sz := Min.min (m.sz + 1) m.N
    minCt := (Min.min (m.sz + 1) m.N - 1) / 2
    maxCt := Min.min (m.sz + 1) m.N / 2 }

theorem fillPosition_cases (n : Nat) :
    (n % 2 = 1 ∧ fillPosition n = -((n / 2 + 1 : Nat) : Int)) ∨
      (n % 2 = 0 ∧ fillPosition n = (n / 2 : Nat)) := by
  unfold fillPosition
  rcases Nat.mod_two_eq_zero_or_one n with h | h
  · rw [if_neg (by omega)]
    exact .inr ⟨h, by omega⟩
  · rw [if_pos h]
    exact .inl ⟨h, by omega⟩

theorem Placed.enter (h : m.Placed) (v : UInt64) : (m.enter v).Placed := by
  have hle := h.sz_le
  have hidx := h.idx_lt
  have hmin := h.minCt
  have hmax := h.maxCt
  rcases Nat.lt_or_ge m.sz m.N with hlt | hge
  · -- one more index is in use, the next of the fill pattern
    have hsz : Min.min (m.sz + 1) m.N = m.sz + 1 := by omega
    have hpos := h.fresh m.sz le_rfl hlt
    have hheap := h.heap_pos m.sz hlt
    have huse : ∀ x, (m.enter v).InUse x → (0 < m.sz ∧ m.InUse x) ∨ x = fillPosition m.sz := by
      intro x hx
      simp only [InUse, RollingMedian.enter, hsz, hmin, hmax] at hx ⊢
      rcases fillPosition_cases m.sz with ⟨_, hfill⟩ | ⟨_, hfill⟩ <;> rw [hfill] <;> omega
    have hold : ∀ x, m.InUse x → (m.enter v).InUse x := by
      intro x hx
      simp only [InUse, RollingMedian.enter, hsz, hmin, hmax] at hx ⊢
      omega
    refine ⟨by simp only [RollingMedian.enter]; omega, rfl, rfl, Nat.mod_lt _ (by omega), ?_,
      h.heap_pos, ?_, ?_, ?_⟩
    · intro hless
      simp only [RollingMedian.enter, hsz, h.filling hlt] at hless ⊢
      exact Nat.mod_eq_of_lt hless
    · intro x hx _
      simp only [RollingMedian.enter, hsz]
      rcases huse x hx with ⟨hpositive, hx⟩ | rfl
      · exact ⟨by have := (h.used x hx hpositive).1; omega, (h.used x hx hpositive).2⟩
      · rw [← hpos, hheap]
        exact ⟨by omega, rfl⟩
    · intro k hk
      simp only [RollingMedian.enter, hsz] at hk
      rcases Nat.lt_or_ge k m.sz with hk' | hk'
      · exact hold _ (h.inUse k hk')
      · obtain rfl : k = m.sz := by omega
        show (m.enter v).InUse (m.pos m.sz)
        rw [hpos]
        simp only [InUse, RollingMedian.enter, hsz]
        rcases fillPosition_cases m.sz with ⟨_, hfill⟩ | ⟨_, hfill⟩ <;> rw [hfill] <;> omega
    · intro k hk hkN
      simp only [RollingMedian.enter, hsz] at hk
      exact h.fresh k (by omega) hkN
  · have hsz : Min.min (m.sz + 1) m.N = m.sz := by omega
    have huse : ∀ x, (m.enter v).InUse x ↔ m.InUse x := by
      intro x
      simp only [InUse, RollingMedian.enter, hsz, hmin, hmax]
    refine ⟨by simp only [RollingMedian.enter]; omega, rfl, rfl, Nat.mod_lt _ (by omega), ?_,
      h.heap_pos, ?_, ?_, ?_⟩
    · intro hless
      simp only [RollingMedian.enter, hsz] at hless
      omega
    · intro x hx hpositive
      simp only [RollingMedian.enter, hsz] at hpositive ⊢
      exact h.used x ((huse x).mp hx) hpositive
    · intro k hk
      simp only [RollingMedian.enter, hsz] at hk
      exact (huse _).mpr (h.inUse k hk)
    · intro k hk hkN
      simp only [RollingMedian.enter, hsz] at hk
      exact h.fresh k hk hkN

theorem Placed.entry (h : m.Placed) (v : UInt64) :
    m.pos m.idx = 0 ∨
      ∃ side a, 1 ≤ a ∧ a ≤ (m.enter v).count side ∧ m.pos m.idx = side.at a := by
  have hused : m.idx < (m.enter v).sz := by
    have := h.idx_lt
    have := h.filling
    simp only [RollingMedian.enter]
    omega
  have hin : (m.enter v).InUse (m.pos m.idx) := (h.enter v).inUse m.idx hused
  unfold InUse at hin
  rcases lt_trichotomy (m.pos m.idx) 0 with hneg | hzero | hpos
  · exact .inr ⟨.max, (m.pos m.idx).natAbs, by omega, by simp only [count]; omega,
      by simp only [Side.at]; omega⟩
  · exact .inl hzero
  · exact .inr ⟨.min, (m.pos m.idx).natAbs, by omega, by simp only [count]; omega,
      by simp only [Side.at]; omega⟩

/-- The counts after it: unchanged when the queue is full, and otherwise one more on the side where
the value enters, at its end. -/
theorem Placed.enter_counts (h : m.Placed) (v : UInt64) :
    (m.sz = m.N → ∀ side, (m.enter v).count side = m.count side) ∧
      (m.sz < m.N → m.pos m.idx = 0 → m.sz = 0) ∧
      (m.sz < m.N → ∀ side a, 1 ≤ a → m.pos m.idx = side.at a →
        a = m.count side + 1 ∧ (m.enter v).count side = m.count side + 1 ∧
          (m.enter v).count side.other = m.count side.other) := by
  have hmin := h.minCt
  have hmax := h.maxCt
  have hfill : m.sz < m.N → m.pos m.idx = fillPosition m.sz := fun hlt => by
    rw [h.filling hlt, h.fresh m.sz le_rfl hlt]
  refine ⟨fun hfull side => ?_, fun hlt hzero => ?_, fun hlt side a ha hat => ?_⟩
  · cases side <;> simp only [count, RollingMedian.enter, hmin, hmax] <;> omega
  · rw [hfill hlt] at hzero
    rcases fillPosition_cases m.sz with ⟨_, heq⟩ | ⟨_, heq⟩ <;> rw [heq] at hzero <;> omega
  · rw [hfill hlt] at hat
    rcases fillPosition_cases m.sz with ⟨_, heq⟩ | ⟨_, heq⟩ <;> rw [heq] at hat <;> cases side <;>
      simp only [Side.at, Side.other, count, RollingMedian.enter, hmin, hmax] at hat ⊢ <;> omega

theorem enter_eq (hmin : m.minCt = (m.enter v).minCt) (hmax : m.maxCt = (m.enter v).maxCt) :
    { m with
      data := Function.update m.data m.idx v
      idx := (m.idx + 1) % m.N
      sz := Min.min (m.sz + 1) m.N } = m.enter v := by
  simp only [RollingMedian.enter] at hmin hmax ⊢
  rw [← hmin, ← hmax]

/-- **`insert`, on either side**: down if the queue was full and the new value belongs farther away
than the old one, otherwise up. -/
theorem insert_side (h : m.Placed) (v : UInt64) (ha : 1 ≤ a)
    (hle : a ≤ (m.enter v).count side) (hat : m.pos m.idx = side.at a) :
    m.insert v =
      if m.sz = m.N ∧ m.key side m.idx < (m.enter v).key side m.idx then
        sortDown side ((m.enter v).count side) (2 * a) (m.enter v)
      else (m.enter v).settle side a := by
  obtain ⟨hfull, -, hgrow⟩ := h.enter_counts v
  have hmin := h.minCt
  have hmax := h.maxCt
  have hszle := h.sz_le
  cases side with
  | min =>
    have hpositive : m.pos m.idx > 0 := by rw [hat]; simp only [Side.at]; omega
    have hnat : (m.pos m.idx).natAbs = a := by rw [hat]; rfl
    have hother : (m.enter v).count .max ≠ 0 := by
      simp only [count, RollingMedian.enter] at hle ⊢
      omega
    rw [← settleMin_eq hother]
    unfold RollingMedian.insert
    dsimp only
    rw [if_pos hpositive, hnat]
    rcases Nat.lt_or_ge m.sz m.N with hlt | hge
    · obtain ⟨-, hcount, hcount'⟩ := hgrow hlt .min a ha hat
      simp only [Side.other, count] at hcount hcount'
      have hroom : m.minCt < (m.N - 1) / 2 := by
        simp only [RollingMedian.enter] at hcount
        omega
      rw [if_pos hroom, if_neg fun hboth => by omega]
      simp only [RollingMedian.enter] at hcount hcount' ⊢
      rw [hcount, hcount']
    · have heq : m.sz = m.N := by omega
      have hcount := hfull heq .min
      have hcount' := hfull heq .max
      rw [if_neg (by omega), enter_eq hcount.symm hcount'.symm]
      by_cases hgt : v > m.data m.idx
      · have hfar : m.key .min m.idx < (m.enter v).key .min m.idx := by
          simpa [key, RollingMedian.enter, ← UInt64.lt_iff_toNat_lt] using hgt
        rw [if_pos hgt, if_pos ⟨heq, hfar⟩]
        rfl
      · rw [if_neg hgt, if_neg fun hboth => hgt ?_]
        simpa [key, RollingMedian.enter, ← UInt64.lt_iff_toNat_lt] using hboth.2
  | max =>
    have hnegative : m.pos m.idx < 0 := by rw [hat]; simp only [Side.at]; omega
    have hnat : (m.pos m.idx).natAbs = a := by rw [hat]; simp only [Side.at]; omega
    rw [← settleMax_eq]
    unfold RollingMedian.insert
    dsimp only
    rw [if_neg (by omega), if_pos hnegative, hnat]
    rcases Nat.lt_or_ge m.sz m.N with hlt | hge
    · obtain ⟨-, hcount, hcount'⟩ := hgrow hlt .max a ha hat
      simp only [Side.other, count] at hcount hcount'
      have hroom : m.maxCt < m.N / 2 := by
        simp only [RollingMedian.enter] at hcount
        omega
      rw [if_pos hroom, if_neg fun hboth => by omega]
      simp only [RollingMedian.enter] at hcount hcount' ⊢
      rw [hcount, hcount']
    · have heq : m.sz = m.N := by omega
      have hcount := hfull heq .min
      have hcount' := hfull heq .max
      rw [if_neg (by omega), enter_eq hcount.symm hcount'.symm]
      by_cases hlt : v < m.data m.idx
      · have hfar : m.key .max m.idx < (m.enter v).key .max m.idx := by
          simpa [key, RollingMedian.enter, ← UInt64.lt_iff_toNat_lt] using hlt
        rw [if_pos hlt, if_pos ⟨heq, hfar⟩]
        rfl
      · rw [if_neg hlt, if_neg fun hboth => hlt ?_]
        simpa [key, RollingMedian.enter, ← UInt64.lt_iff_toNat_lt] using hboth.2

theorem insert_median (h : m.Placed) (v : UInt64) (hzero : m.pos m.idx = 0) :
    m.insert v = (m.enter v).settleMedian := by
  obtain ⟨hfull, hfirst, -⟩ := h.enter_counts v
  have hcounts : m.minCt = (m.enter v).minCt ∧ m.maxCt = (m.enter v).maxCt := by
    rcases Nat.lt_or_ge m.sz m.N with hlt | hge
    · have := hfirst hlt hzero
      have := h.minCt
      have := h.maxCt
      simp only [RollingMedian.enter]
      omega
    · have heq : m.sz = m.N := le_antisymm h.sz_le hge
      exact ⟨(hfull heq .min).symm, (hfull heq .max).symm⟩
  unfold RollingMedian.insert
  rw [if_neg (by omega), if_neg (by omega), enter_eq hcounts.1 hcounts.2]

/-! ## The order -/

theorem Placed.key_enter (h : m.Placed) (v : UInt64) {x : Nat} (hx : x ≤ (m.enter v).count side)
    (hne : m.pos m.idx ≠ side.at x) (side' : Side) :
    (m.enter v).key side' (m.view side x) = m.key side' (m.view side x) := by
  have hsz : 0 < (m.enter v).sz := by
    have := h.idx_lt
    simp only [RollingMedian.enter]
    omega
  have hother : m.view side x ≠ m.idx := fun heq =>
    hne (by rw [← heq]; exact ((h.enter v).used _ (inUse_at hx) hsz).2)
  cases side' <;> simp [key, RollingMedian.enter, Function.update_of_ne hother]

/-- **An insertion keeps both orders.** -/
theorem ordered_insert (h : m.Placed) (ho : ∀ side, m.Ordered side) (v : UInt64) :
    ∀ side, (m.insert v).Ordered side := by
  obtain ⟨hfull, hfirst, hgrow⟩ := h.enter_counts v
  have hszle := h.sz_le
  rcases h.entry v with hzero | ⟨side, a, ha, hle, hat⟩
  · -- at the median: what is next to it is in order through the old one
    have hsame : ∀ side x, 1 ≤ x → x ≤ (m.enter v).count side → ∀ side',
        (m.enter v).key side' (m.view side x) = m.key side' (m.view side x) :=
      fun side x hx hle => h.key_enter v hle
        (by rw [hzero, ← side.at_zero, ne_eq, Side.at_inj]; omega)
    have hcount : ∀ side x, 1 ≤ x → x ≤ (m.enter v).count side → x ≤ m.count side := by
      intro side x hx hle
      rcases Nat.lt_or_ge m.sz m.N with hlt | hge
      · have := hfirst hlt hzero
        cases side <;> simp only [count, RollingMedian.enter] at hle <;> omega
      · rwa [← hfull (by omega)]
    rw [insert_median h v hzero]
    refine ordered_settleMedian (fun side a ha hle => ?_) (fun hnone => ?_) fun hone => ?_
    · change (m.enter v).key side (m.view side (a / 2)) ≤ (m.enter v).key side (m.view side a)
      rw [hsame side a (by omega) hle, hsame side (a / 2) (by omega) (by omega)]
      exact ho side a (by omega) (hcount side a (by omega) hle)
    · simp only [count, RollingMedian.enter] at hnone ⊢
      omega
    · change (m.enter v).key .min (m.view .max 1) ≤ (m.enter v).key .min (m.view .min 1)
      have hone' : 1 ≤ (m.enter v).count .max := by
        simp only [count, RollingMedian.enter] at hone ⊢
        omega
      rw [hsame .max 1 le_rfl hone', hsame .min 1 le_rfl hone]
      have hbelow := ho .max 1 le_rfl (hcount .max 1 le_rfl hone')
      have habove := ho .min 1 le_rfl (hcount .min 1 le_rfl hone)
      rw [show 1 / 2 = 0 from rfl, view_zero] at hbelow habove
      simp only [key] at hbelow habove ⊢
      omega
  · have hsame : ∀ x, x ≤ (m.enter v).count side → x ≠ a →
        (m.enter v).key side (m.view side x) = m.key side (m.view side x) :=
      fun x hx hne => h.key_enter v hx (by rw [hat, ne_eq, Side.at_inj]; omega) side
    have hother : (m.enter v).Ordered side.other := by
      have hcount : (m.enter v).count side.other = m.count side.other := by
        rcases Nat.lt_or_ge m.sz m.N with hlt | hge
        · exact (hgrow hlt side a ha hat).2.2
        · exact hfull (by omega) side.other
      unfold Ordered
      rw [hcount]
      refine Heap.congr (ho side.other) fun x hx => h.key_enter v (by rw [hcount]; exact hx) ?_ _
      rw [hat]
      rcases Nat.eq_zero_or_pos x with rfl | hx
      · rw [Side.at_zero, ← side.at_zero, ne_eq, Side.at_inj]
        omega
      · exact Side.at_ne_other hx
    rw [insert_side h v ha hle hat]
    have hboth : ∀ {m' : RollingMedian}, m'.Ordered side → m'.Ordered side.other →
        ∀ side, m'.Ordered side := by
      intro m' hthis hthat side'
      cases side <;> cases side' <;> assumption
    have hself : m.view side a = m.idx := by
      unfold view
      rw [← hat, h.heap_pos m.idx h.idx_lt]
    rcases Nat.lt_or_ge m.sz m.N with hlt | hge
    · rw [if_neg fun hboth => by omega]
      obtain ⟨hend, hcount, -⟩ := hgrow hlt side a ha hat
      have hup : UpFrom ((m.enter v).key side) ((m.enter v).count side) a (m.view side) := by
        rw [hcount, hend]
        exact Heap.upFrom_last (ho side) fun x hx => hsame x (by omega) (by omega)
      exact hboth (ordered_settle hle ha hup hother).1 (ordered_settle hle ha hup hother).2
    · have heq : m.sz = m.N := by omega
      have hheap : Heap (m.key side) ((m.enter v).count side) (m.view side) := by
        rw [hfull heq]
        exact ho side
      split
      · rename_i hfar
        have hdown : DownFrom ((m.enter v).key side) ((m.enter v).count side) a (m.view side) :=
          hheap.downFrom hsame ha hle (by rw [hself]; exact hfar.2.le)
        obtain ⟨hre, hview⟩ := @view_sortDown side ((m.enter v).count side) (2 * a) (m.enter v)
        obtain ⟨hroot, hframe⟩ := @sortDown_frame side (2 * a) ((m.enter v).count side) (by omega)
          (m.enter v)
        refine hboth ?_ (hother.frame hre hroot hframe)
        unfold Ordered
        rw [hre.key, hre.count, hview]
        exact heap_siftDown _ ha hdown (by omega)
      · rename_i hnear
        have hup : UpFrom ((m.enter v).key side) ((m.enter v).count side) a (m.view side) :=
          hheap.upFrom hsame hle (by rw [hself]; exact not_lt.mp fun hlt => hnear ⟨heq, hlt⟩)
        exact hboth (ordered_settle hle ha hup hother).1 (ordered_settle hle ha hup hother).2

theorem Kept.insert {P : RollingMedian → Prop} (hP : Kept P) (h : m.Placed) (v : UInt64)
    (henter : P (m.enter v)) : P (m.insert v) := by
  rcases h.entry v with hzero | ⟨side, a, ha, hle, hat⟩
  · rw [insert_median h v hzero, settleMedian_eq]
    have hfirst : P (if (m.enter v).maxCt ≠ 0 then (m.enter v).lift .max else m.enter v) := by
      split
      · rename_i hmax
        exact Kept.lift hP (Nat.one_le_iff_ne_zero.mpr hmax) henter
      · exact henter
    generalize (if (m.enter v).maxCt ≠ 0 then (m.enter v).lift .max else m.enter v) = m' at *
    split
    · rename_i hmin
      exact Kept.lift hP (Nat.one_le_iff_ne_zero.mpr hmin) hfirst
    · exact hfirst
  · rw [insert_side h v ha hle hat]
    split
    · exact sortDown_induction (fun ha hin h => hP (by omega) hin h) _ (by omega) henter
    · exact Kept.settle hP hle henter

/-! ## The window -/

/-- The queue holds the last of the values `l`, the oldest of them at `idx` when it is full. -/
structure Holds (m : RollingMedian) (l : List UInt64) : Prop where
  sz : m.sz = min l.length m.N
  value : ∀ j, j < m.sz →
    l[l.length - m.sz + j]? = some (m.data ((m.idx + (m.N - m.sz) + j) % m.N))

theorem Holds.enter (hh : m.Holds l) (h : m.Placed) (v : UInt64) :
    (m.enter v).Holds (l ++ [v]) := by
  have hsz := hh.sz
  have hidx := h.idx_lt
  have hszle := h.sz_le
  refine ⟨by simp only [RollingMedian.enter, List.length_append, List.length_singleton]; omega,
    fun j hj => ?_⟩
  simp only [RollingMedian.enter, List.length_append, List.length_singleton,
    Function.update_apply] at hj ⊢
  rcases Nat.lt_or_ge m.sz m.N with hlt | hge
  · -- not full: the values lie in order from index 0
    have hlen : l.length = m.sz := by omega
    have hat : m.idx = m.sz := h.filling hlt
    have hmin : min (m.sz + 1) m.N = m.sz + 1 := by omega
    have hcell : ((m.idx + 1) % m.N + (m.N - (m.sz + 1)) + j) % m.N = j := by
      rw [hmin] at hj
      rcases Nat.lt_or_ge (m.sz + 1) m.N with hroom | hlast
      · rw [hat, Nat.mod_eq_of_lt hroom, show m.sz + 1 + (m.N - (m.sz + 1)) + j = m.N + j by omega,
          Nat.add_mod_left, Nat.mod_eq_of_lt (by omega)]
      · rw [hat, show m.sz + 1 = m.N by omega, Nat.mod_self, Nat.sub_self, Nat.zero_add,
          Nat.mod_eq_of_lt (by omega)]
    rw [hmin, hcell, show l.length + 1 - (m.sz + 1) + j = j by omega]
    rcases Nat.lt_or_ge j m.sz with hj' | hj'
    · have hold := hh.value j hj'
      rw [hat, show m.sz + (m.N - m.sz) + j = m.N + j by omega, Nat.add_mod_left,
        Nat.mod_eq_of_lt (by omega), show l.length - m.sz + j = j by omega] at hold
      rw [List.getElem?_append_left (by omega), hold, if_neg (by omega)]
    · obtain rfl : j = m.sz := by omega
      rw [if_pos hat.symm, List.getElem?_append_right (by omega), hlen, Nat.sub_self]
      rfl
  · have heq : m.sz = m.N := by omega
    have hmin : min (m.sz + 1) m.N = m.N := by omega
    have hcell : ((m.idx + 1) % m.N + (m.N - m.N) + j) % m.N = (m.idx + (j + 1)) % m.N := by
      rw [Nat.sub_self, Nat.add_zero, Nat.mod_add_mod,
        show m.idx + 1 + j = m.idx + (j + 1) by omega]
    rw [hmin] at hj ⊢
    rw [hcell, show l.length + 1 - m.N + j = l.length - m.N + (j + 1) by omega]
    rcases Nat.lt_or_ge (j + 1) m.N with hj' | hj'
    · have hold := hh.value (j + 1) (by omega)
      rw [heq, Nat.sub_self, Nat.add_zero m.idx] at hold
      have hne : (m.idx + (j + 1)) % m.N ≠ m.idx := by
        rcases Nat.lt_or_ge (m.idx + (j + 1)) m.N with hin | hout
        · rw [Nat.mod_eq_of_lt hin]
          omega
        · rw [Nat.mod_eq_sub_mod hout, Nat.mod_eq_of_lt (by omega)]
          omega
      rw [List.getElem?_append_left (by omega), hold, if_neg hne]
    · obtain rfl : j = m.N - 1 := by omega
      rw [show m.N - 1 + 1 = m.N by omega, Nat.add_mod_right, Nat.mod_eq_of_lt hidx, if_pos rfl,
        List.getElem?_append_right (by omega), show l.length - m.N + m.N - l.length = 0 by omega]
      rfl

/-- What it holds is the end of the list, and nothing else of it matters. -/
theorem holds_iff : m.Holds l ↔ m.sz = (l.rtake m.N).length ∧
    ∀ j, j < m.sz →
      (l.rtake m.N)[j]? = some (m.data ((m.idx + (m.N - m.sz) + j) % m.N)) := by
  have hlen : (l.rtake m.N).length = min l.length m.N := by
    rw [List.rtake, List.length_drop]
    omega
  have hcell : m.sz = min l.length m.N → ∀ j, (l.rtake m.N)[j]? = l[l.length - m.sz + j]? := by
    intro hsz j
    rw [List.rtake, List.getElem?_drop, show l.length - m.N = l.length - m.sz by omega]
  rw [hlen]
  constructor
  · exact fun hh => ⟨hh.sz, fun j hj => (hcell hh.sz j).trans (hh.value j hj)⟩
  · exact fun hh => ⟨hh.1, fun j hj => (hcell hh.1 j).symm.trans (hh.2 j hj)⟩

theorem Holds.rearranged {m' : RollingMedian} (hh : m.Holds l) (hre : Rearranged m m') :
    m'.Holds l := by
  constructor
  · rw [hre.sz, hre.N]
    exact hh.sz
  · rw [hre.sz, hre.N, hre.idx, hre.data]
    exact hh.value

/-! ## The median -/

/-- The positions in use, from the far end of the one side to that of the other. -/
def positions (m : RollingMedian) : List Int :=
  (List.range m.maxCt).map (fun a => Side.max.at (a + 1)) ++
    0 :: (List.range m.minCt).map (fun a => Side.min.at (a + 1))

theorem mem_positions {x : Int} (hx : x ∈ m.positions) : m.InUse x := by
  simp only [positions, List.mem_append, List.mem_cons, List.mem_map, List.mem_range] at hx
  rcases hx with ⟨a, ha, rfl⟩ | rfl | ⟨a, ha, rfl⟩ <;> simp only [InUse, Side.at] <;> omega

theorem nodup_positions : m.positions.Nodup := by
  have hrange : ∀ (n : Nat) (side : Side),
      ((List.range n).map fun a => side.at (a + 1)).Nodup := fun n side =>
    List.nodup_range.map fun a b heq => by
      have := Side.at_inj.mp heq
      omega
  refine List.nodup_append.mpr ⟨hrange _ .max, List.nodup_cons.mpr ⟨?_, hrange _ .min⟩, ?_⟩
  · simp only [List.mem_map, Side.at]
    rintro ⟨a, -, heq⟩
    omega
  · intro x hx y hy
    simp only [List.mem_map, List.mem_cons, Side.at] at hx hy
    obtain ⟨a, -, rfl⟩ := hx
    rcases hy with rfl | ⟨b, -, rfl⟩ <;> omega

theorem perm_range_of_nodup {n : Nat} {l : List Nat} (hnodup : l.Nodup) (hlt : ∀ k ∈ l, k < n)
    (hlen : l.length = n) : l.Perm (List.range n) :=
  (hnodup.subperm fun k hk => List.mem_range.mpr (hlt k hk)).perm_of_length_le
    (by rw [List.length_range, hlen])

theorem Placed.perm_range (h : m.Placed) (hsz : 0 < m.sz) :
    (m.positions.map m.heap).Perm (List.range m.sz) := by
  refine perm_range_of_nodup ?_ ?_ ?_
  · refine nodup_positions.map_on fun x hx y hy heq => ?_
    rw [← (h.used x (mem_positions hx) hsz).2, heq, (h.used y (mem_positions hy) hsz).2]
  · intro k hk
    obtain ⟨x, hx, rfl⟩ := List.mem_map.mp hk
    exact (h.used x (mem_positions hx) hsz).1
  · have := h.minCt
    have := h.maxCt
    simp only [positions, List.length_map, List.length_append, List.length_range, List.length_cons]
    omega

theorem Placed.perm_window (h : m.Placed) (hh : m.Holds l) (hsz : 0 < m.sz) :
    (l.rtake m.N).Perm ((m.positions.map m.heap).map m.data) := by
  have hcells : ((List.range m.sz).map fun j => (m.idx + (m.N - m.sz) + j) % m.N).Perm
      (List.range m.sz) := by
    have hszle := h.sz_le
    rcases Nat.lt_or_ge m.sz m.N with hlt | hge
    · rw [h.filling hlt]
      refine List.Perm.of_eq ((List.map_congr_left fun j hj => ?_).trans (List.map_id _))
      have := List.mem_range.mp hj
      rw [show m.sz + (m.N - m.sz) + j = m.N + j by omega, Nat.add_mod_left,
        Nat.mod_eq_of_lt (by omega)]
      rfl
    · have heq : m.sz = m.N := by omega
      refine perm_range_of_nodup (List.nodup_range.map_on fun i hi j hj hij => ?_) ?_ (by simp)
      · have hmod : i ≡ j [MOD m.N] := Nat.ModEq.add_left_cancel' _ hij
        exact hmod.eq_of_lt_of_lt (heq ▸ List.mem_range.mp hi) (heq ▸ List.mem_range.mp hj)
      · intro k hk
        obtain ⟨j, -, rfl⟩ := List.mem_map.mp hk
        rw [heq]
        exact Nat.mod_lt _ (by omega)
  have hwindow : l.rtake m.N =
      ((List.range m.sz).map fun j => (m.idx + (m.N - m.sz) + j) % m.N).map m.data := by
    obtain ⟨hlen, hcells⟩ := holds_iff.mp hh
    refine List.ext_getElem? fun j => ?_
    rw [List.getElem?_map, List.getElem?_map]
    rcases Nat.lt_or_ge j m.sz with hj | hj
    · rw [hcells j hj, List.getElem?_range hj]
      rfl
    · rw [List.getElem?_eq_none (by omega), List.getElem?_eq_none (by simpa using hj)]
      rfl
  rw [hwindow]
  exact (hcells.trans (h.perm_range hsz).symm).map m.data

theorem median_words_eq (v : List UInt64) :
    median v = if v.length % 2 = 1 then (v.insertionSort (· ≤ ·)).getD (v.length / 2) 0
      else getMid ((v.insertionSort (· ≤ ·)).getD (v.length / 2 - 1) 0)
        ((v.insertionSort (· ≤ ·)).getD (v.length / 2) 0) := by
  unfold median
  split
  · decide
  · simp
  · rfl

theorem getMid_comm (a b : UInt64) : getMid a b = getMid b a := by
  unfold getMid
  rw [UInt64.add_comm (a / 2), UInt64.add_comm (a - _)]

/-- **With both heaps in order the class returns the median of the window.** -/
theorem medianOf_eq (h : m.Placed) (ho : ∀ side, m.Ordered side) (hh : m.Holds l) (hsz : 0 < m.sz) :
    m.medianOf = median (l.rtake m.N) := by
  have hperm := h.perm_window hh hsz
  have hlen : (l.rtake m.N).length = m.sz := by
    rw [hperm.length_eq, List.length_map, (h.perm_range hsz).length_eq, List.length_range]
  let small := (List.range m.maxCt).map fun a => (m.data (m.view .max (a + 1))).toNat
  let large := (List.range m.minCt).map fun a => (m.data (m.view .min (a + 1))).toNat
  have hsplit : ((l.rtake m.N).map UInt64.toNat).Perm
      (small ++ (m.data (m.heap 0)).toNat :: large) := by
    refine (hperm.map UInt64.toNat).trans (List.Perm.of_eq ?_)
    simp only [positions, small, large, List.map_append, List.map_cons, List.map_map]
    rfl
  have hsmall : ∀ x ∈ small, x ≤ (m.data (m.heap 0)).toNat := by
    intro x hx
    obtain ⟨a, ha, rfl⟩ := List.mem_map.mp hx
    have := (ho .max).root_le (a + 1) (List.mem_range.mp ha)
    rw [view_zero] at this
    simp only [key] at this
    omega
  have hlarge : ∀ x ∈ large, (m.data (m.heap 0)).toNat ≤ x := by
    intro x hx
    obtain ⟨a, ha, rfl⟩ := List.mem_map.mp hx
    have := (ho .min).root_le (a + 1) (List.mem_range.mp ha)
    rw [view_zero] at this
    simp only [key] at this
    omega
  have hcount : small.length = m.maxCt := by simp [small]
  have hpivot : ((l.rtake m.N).insertionSort (· ≤ ·)).getD m.maxCt 0 = m.data (m.heap 0) := by
    refine UInt64.toNat_inj.mp ?_
    rw [toNat_getD, map_toNat_sorted, ← hcount]
    exact SortedSplit.sorted_at_pivot hsplit hsmall hlarge 0
  have hmin := h.minCt
  have hmax := h.maxCt
  rw [median_words_eq, hlen, ← hmax, hpivot]
  unfold medianOf
  by_cases hodd : m.sz % 2 = 1
  · rw [if_pos hodd, if_neg (by omega)]
  · -- an even number: the greatest of the small values is next to the median
    have hone : 0 < m.maxCt := by omega
    have htop : ((l.rtake m.N).insertionSort (· ≤ ·)).getD (m.maxCt - 1) 0 =
        m.data (m.heap (-1)) := by
      refine UInt64.toNat_inj.mp ?_
      rw [toNat_getD, map_toNat_sorted, ← hcount]
      refine SortedSplit.sorted_before_pivot hsplit hsmall hlarge ?_ ?_ 0
      · exact List.mem_map.mpr ⟨0, List.mem_range.mpr hone, rfl⟩
      · intro x hx
        obtain ⟨a, ha, rfl⟩ := List.mem_map.mp hx
        have hle := (ho .max).one_le (a + 1) (by omega) (List.mem_range.mp ha)
        simp only [key] at hle
        exact Int.ofNat_le.mp (neg_le_neg_iff.mp hle)
    rw [if_neg hodd, if_pos (by omega), htop, getMid_comm]

/-! ## Clear -/

theorem fillPosition_inj {j k : Nat} (h : fillPosition j = fillPosition k) : j = k := by
  rcases fillPosition_cases j with ⟨_, hj⟩ | ⟨_, hj⟩ <;>
    rcases fillPosition_cases k with ⟨_, hk⟩ | ⟨_, hk⟩ <;> rw [hj, hk] at h <;> omega

theorem clearLoop_spec (M : Nat) (n : Nat) : ∀ (m : RollingMedian),
    (∀ k, n ≤ k → k < M → m.pos k = fillPosition k ∧ m.heap (fillPosition k) = k) →
    (∀ k, k < M → (clearLoop n m).pos k = fillPosition k ∧
      (clearLoop n m).heap (fillPosition k) = k) ∧ Rearranged m (clearLoop n m) := by
  induction n with
  | zero => exact fun m hdone => ⟨fun k hk => hdone k (Nat.zero_le k) hk, .refl m⟩
  | succ n ih =>
    intro m hdone
    unfold clearLoop
    obtain ⟨hall, hre⟩ := ih
      { m with
        pos := Function.update m.pos n (fillPosition n)
        heap := Function.update m.heap (Function.update m.pos n (fillPosition n) n) n }
      (fun k hle hk => by
        rw [Function.update_self]
        by_cases hkn : k = n
        · rw [hkn]
          exact ⟨Function.update_self .., Function.update_self ..⟩
        · dsimp only
          rw [Function.update_of_ne hkn,
            Function.update_of_ne fun heq => hkn (fillPosition_inj heq)]
          exact hdone k (by omega) hk)
    exact ⟨hall, ⟨hre.N, hre.data, hre.idx, hre.minCt, hre.maxCt, hre.sz⟩⟩

/-- The state between operations: the invariants, and the values of the queue. -/
structure Tracks (N : Nat) (m : RollingMedian) (l : List UInt64) : Prop where
  N : m.N = N
  placed : m.Placed
  ordered : ∀ side, m.Ordered side
  holds : m.Holds l

theorem tracks_clear (hN : 1 ≤ m.N) : Tracks m.N m.clear [] := by
  unfold clear
  obtain ⟨hall, hre⟩ := clearLoop_spec m.N m.N { m with idx := 0, minCt := 0, maxCt := 0, sz := 0 }
    fun k hle hk => by omega
  have hsz := hre.sz
  have hidx := hre.idx
  have hNs := hre.N
  have hmin := hre.minCt
  have hmax := hre.maxCt
  dsimp only at hsz hidx hNs hmin hmax
  generalize clearLoop m.N _ = c at *
  refine ⟨hNs, ⟨by omega, by omega, by omega, by omega, by omega, fun k hk => ?_,
    fun x _ hpos => by omega, fun k hk => by omega, fun k _ hk => (hall k (hNs ▸ hk)).1⟩, ?_,
    ⟨by simp [hsz], fun j hj => by omega⟩⟩
  · rw [(hall k (hNs ▸ hk)).1]
    exact (hall k (hNs ▸ hk)).2
  · intro side a ha hle
    cases side <;> simp only [count] at hle <;> omega

theorem Tracks.insert (h : Tracks N m l) (v : UInt64) :
    Tracks N (m.insert v) (l ++ [v]) := by
  have hre := Kept.insert (kept_rearranged (m.enter v)) h.placed v (.refl _)
  exact ⟨hre.N.trans h.N, Kept.insert kept_placed h.placed v (h.placed.enter v),
    ordered_insert h.placed h.ordered v, (h.holds.enter h.placed v).rearranged hre⟩

theorem Tracks.foldl_insert (h : Tracks N m l) (ws : List UInt64) :
    Tracks N (ws.foldl RollingMedian.insert m) (l ++ ws) := by
  induction ws generalizing m l with
  | nil => rwa [List.append_nil]
  | cons w ws ih => simpa using ih (h.insert w)

theorem Tracks.congr {l' : List UInt64} (h : Tracks N m l) (heq : l.rtake N = l'.rtake N) :
    Tracks N m l' := by
  refine ⟨h.N, h.placed, h.ordered, holds_iff.mpr ?_⟩
  have hh := holds_iff.mp h.holds
  rwa [h.N, heq, ← h.N] at hh

theorem Tracks.size_eq (h : Tracks N m l) :
    m.size = min l.length N := by
  rw [size, h.holds.sz, h.N]

theorem Tracks.medianOf_eq (h : Tracks N m l) (hN : 1 ≤ N) (hl : l ≠ []) :
    m.medianOf = median (l.rtake N) := by
  have hpos := List.length_pos_iff.mpr hl
  have hsz : 0 < m.sz := by
    rw [h.holds.sz, h.N]
    omega
  rw [RollingMedian.medianOf_eq h.placed h.ordered h.holds hsz, h.N]

/-! ## Runs -/

inductive Op where
  | insert (v : UInt64)
  | clear

def step (m : RollingMedian) : Op → RollingMedian
  | .insert v => m.insert v
  | .clear => m.clear

def inserted (ops : List Op) : List UInt64 :=
  ops.foldl (fun l op => match op with | .insert v => l ++ [v] | .clear => []) []

theorem tracks_run (hN : 1 ≤ N) (hm : Tracks N m []) (ops : List Op) :
    Tracks N (ops.foldl step m) (inserted ops) := by
  induction ops using List.reverseRecOn with
  | nil => exact hm
  | append_singleton ops op ih =>
    unfold inserted at ih ⊢
    rw [List.foldl_append, List.foldl_append]
    cases op with
    | insert v => exact ih.insert v
    | clear =>
      have hclear := tracks_clear (m := ops.foldl step m) (by rw [ih.N]; exact hN)
      rw [ih.N] at hclear
      exact hclear

theorem construct_eq (memory : Nat → UInt64) (N : Nat) :
    construct memory N = if 16 * N < 2 ^ 31 then
      some (clear { N := N, data := memory, pos := fun _ => 0, heap := fun _ => 0 }) else none := by
  unfold construct toInt32
  dsimp only
  split_ifs <;> first | rfl | omega

theorem tracks_construct {memory : Nat → UInt64} (hN : 1 ≤ N) (h : construct memory N = some m) :
    Tracks N m [] := by
  rw [construct_eq] at h
  split at h
  · obtain rfl := Option.some.inj h
    exact tracks_clear
      (m := { N := N, data := memory, pos := fun _ => 0, heap := fun _ => 0 }) hN
  · cases h

/-- **The class returns the median of the last `N` values inserted since the last clear, and their
number, exactly when `16 * N` bytes can be asked for in an `int`.** -/
theorem rolling_median_iff {N : Nat} (hN : 1 ≤ N) :
    (∀ (memory : Nat → UInt64) (ops : List Op), inserted ops ≠ [] →
      ∃ m, construct memory N = some m ∧
        (ops.foldl step m).medianOf = median ((inserted ops).rtake N) ∧
        (ops.foldl step m).size = min (inserted ops).length N) ↔ 16 * N < 2 ^ 31 := by
  constructor
  · intro hall
    obtain ⟨m, hm, -⟩ := hall (fun _ => 0) [.insert 0] (by decide)
    by_contra hlarge
    rw [construct_eq, if_neg hlarge] at hm
    cases hm
  · intro hroom memory ops hops
    obtain ⟨m, hm⟩ : ∃ m, construct memory N = some m := ⟨_, by rw [construct_eq, if_pos hroom]⟩
    have hrun := tracks_run hN (tracks_construct hN hm) ops
    refine ⟨m, hm, ?_⟩
    exact ⟨hrun.medianOf_eq hN hops, hrun.size_eq⟩

theorem rolling_median_iff_three :
    ∃ m, construct (fun _ => 0) 3 = some m ∧
      ([Op.insert 9, .insert 4, .clear, .insert 1, .insert 8, .insert 6, .insert 2].foldl
        step m).medianOf = 6 := by
  obtain ⟨m, hm, hmedian, -⟩ := (rolling_median_iff (show 1 ≤ 3 by decide)).mpr (by decide)
    (fun _ => 0) [.insert 9, .insert 4, .clear, .insert 1, .insert 8, .insert 6, .insert 2]
    (by decide)
  exact ⟨m, hm, hmedian.trans (by decide)⟩

/-- Two gigabytes are a negative `int`. -/
theorem rolling_median_unallocated : construct (fun _ => 0) (2 ^ 27) = none := by
  rw [construct_eq, if_neg (by decide)]

end RollingMedian

end Oxyra
