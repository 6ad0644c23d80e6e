import Oxyra.Lib.SideHeap
import Oxyra.Core.RollingMedian

/-!
# The loops of the rolling median

* `view side` is one side of the heap as a function of the distance from the median, `key side` the
  order it is kept in. On the view, `sortDown` and `sortUp` are the sifts of `SideHeap`
  (`view_sortDown`, `view_sortUp`); the other side is left alone.
* `Placed` says that `pos` is the inverse of `heap` and which indexes are in use. Exchanges of
  positions in use keep it, and with them both loops.
-/

namespace Oxyra

open SideHeap

variable {P : RollingMedian → Prop} {m' : RollingMedian}

theorem Side.at_inj {side : Side} {a b : Nat} : side.at a = side.at b ↔ a = b := by
  cases side <;> simp [Side.at]

theorem Side.at_zero (side : Side) : side.at 0 = 0 := by
  cases side <;> rfl

def Side.other : Side → Side
  | .min => .max
  | .max => .min

theorem Side.at_ne_other {side : Side} {a b : Nat} (hb : 1 ≤ b) : side.at a ≠ side.other.at b := by
  cases side <;> simp only [Side.at, Side.other] <;> omega

namespace RollingMedian

variable {m : RollingMedian} {side : Side} {a b i n : Nat}

/-- One side of the heap, by the distance from the median. -/
def view (m : RollingMedian) (side : Side) : Nat → Nat :=
  fun a => m.heap (side.at a)

/-- The order of one side: least key at the median. -/
def key (m : RollingMedian) : Side → Nat → ℤ
  | .min, k => (m.data k).toNat
  | .max, k => -((m.data k).toNat : ℤ)

theorem key_other (m : RollingMedian) (side : Side) (k : Nat) :
    m.key side.other k = -m.key side k := by
  cases side <;> simp [Side.other, key]

theorem view_zero (m : RollingMedian) (side : Side) : m.view side 0 = m.heap 0 := by
  rw [view, Side.at_zero]

theorem nearer_iff : m.nearer side a b = true ↔
    m.key side (m.view side a) < m.key side (m.view side b) := by
  cases side <;> simp [nearer, mmless, key, view, Side.at, UInt64.lt_iff_toNat_lt]

def exchange (m : RollingMedian) : Side → Nat → Nat → RollingMedian
  | .min, a, b => m.mmexchange a b
  | .max, a, b => m.mmexchange (-b) (-a)

theorem cmpExch_eq (m : RollingMedian) (side : Side) (a b : Nat) :
    m.cmpExch side a b =
      if m.nearer side a b then (true, m.exchange side a b) else (false, m) := by
  cases side <;> rfl

/-- Two objects that differ in the arrangement only. -/
structure Rearranged (m m' : RollingMedian) : Prop where
  N : m'.N = m.N
  data : m'.data = m.data
  idx : m'.idx = m.idx
  minCt : m'.minCt = m.minCt
  maxCt : m'.maxCt = m.maxCt
  sz : m'.sz = m.sz

theorem Rearranged.refl (m : RollingMedian) : Rearranged m m := ⟨rfl, rfl, rfl, rfl, rfl, rfl⟩

theorem Rearranged.trans {m'' : RollingMedian} (h : Rearranged m m') (h' : Rearranged m' m'') :
    Rearranged m m'' :=
  ⟨h'.N.trans h.N, h'.data.trans h.data, h'.idx.trans h.idx, h'.minCt.trans h.minCt,
    h'.maxCt.trans h.maxCt, h'.sz.trans h.sz⟩

theorem Rearranged.key (h : Rearranged m m') (side : Side) :
    m'.key side = m.key side := by
  funext k
  cases side <;> simp [RollingMedian.key, h.data]

theorem Rearranged.count (h : Rearranged m m') (side : Side) :
    m'.count side = m.count side := by
  cases side
  · exact h.minCt
  · exact h.maxCt

theorem rearranged_exchange (m : RollingMedian) (side : Side) (a b : Nat) :
    Rearranged m (m.exchange side a b) := by
  cases side <;> exact ⟨rfl, rfl, rfl, rfl, rfl, rfl⟩

theorem heap_mmexchange (m : RollingMedian) (i j x : Int) :
    (m.mmexchange i j).heap x =
      if x = j then m.heap i else if x = i then m.heap j else m.heap x := by
  simp only [mmexchange, Function.update_apply]

theorem view_exchange (m : RollingMedian) (side : Side) (a b : Nat) :
    (m.exchange side a b).view side = swap (m.view side) a b := by
  funext x
  cases side
  · simp only [exchange, view, Side.at, heap_mmexchange, swap, Nat.cast_inj]
    split_ifs <;> simp_all
  · simp only [exchange, view, Side.at, heap_mmexchange, swap, neg_inj, Nat.cast_inj]

theorem view_exchange_other (m : RollingMedian) (side : Side) (a b : Nat) {x : Nat} (hx : 1 ≤ x) :
    (m.exchange side a b).view side.other x = m.view side.other x := by
  have ha := @Side.at_ne_other side a x hx
  have hb := @Side.at_ne_other side b x hx
  cases side
  · exact (heap_mmexchange m a b _).trans ((if_neg hb.symm).trans (if_neg ha.symm))
  · exact (heap_mmexchange m (-b) (-a) _).trans ((if_neg ha.symm).trans (if_neg hb.symm))

/-! ## Down -/

theorem leastChild_eq (m : RollingMedian) (side : Side) (i : Nat) :
    (if i < m.count side && m.nearer side (i + 1) i then i + 1 else i) =
      leastChild (m.key side) (m.count side) (m.view side) i := by
  unfold leastChild
  simp only [Bool.and_eq_true, decide_eq_true_eq, nearer_iff]

/-- **On its side, `sortDown` is the sift.** -/
theorem view_sortDown (fuel : Nat) : ∀ (i : Nat) (m : RollingMedian),
    Rearranged m (sortDown side fuel i m) ∧ (sortDown side fuel i m).view side =
      siftDown (m.key side) (m.count side) fuel i (m.view side) := by
  induction fuel with
  | zero => exact fun i m => ⟨.refl m, rfl⟩
  | succ fuel ih =>
    intro i m
    unfold sortDown siftDown
    by_cases hin : i ≤ m.count side
    · rw [if_pos hin, if_pos hin]
      dsimp only
      rw [leastChild_eq, cmpExch_eq]
      generalize leastChild (m.key side) (m.count side) (m.view side) i = c
      by_cases hlt : m.key side (m.view side c) < m.key side (m.view side (c / 2))
      · rw [if_pos (nearer_iff.mpr hlt), if_pos hlt]
        have hex := rearranged_exchange m side c (c / 2)
        obtain ⟨hre, hview⟩ := ih (2 * c) (m.exchange side c (c / 2))
        rw [hex.key, hex.count, view_exchange] at hview
        exact ⟨hex.trans hre, hview⟩
      · rw [if_neg (mt nearer_iff.mp hlt), if_neg hlt]
        exact ⟨.refl m, rfl⟩
    · rw [if_neg hin, if_neg hin]
      exact ⟨.refl m, rfl⟩

theorem sortDown_induction
    (hP : ∀ {m : RollingMedian} {a : Nat}, 2 ≤ a → a ≤ m.count side → P m →
      P (m.exchange side a (a / 2)))
    (fuel : Nat) :
    ∀ {i : Nat} {m : RollingMedian}, 2 ≤ i → P m → P (sortDown side fuel i m) := by
  induction fuel with
  | zero => exact fun _ h => h
  | succ fuel ih =>
    intro i m hi h
    unfold sortDown
    by_cases hin : i ≤ m.count side
    · rw [if_pos hin]
      dsimp only
      rw [leastChild_eq, cmpExch_eq]
      have hc : 2 ≤ leastChild (m.key side) (m.count side) (m.view side) i ∧
          leastChild (m.key side) (m.count side) (m.view side) i ≤ m.count side := by
        unfold leastChild
        split <;> omega
      generalize leastChild (m.key side) (m.count side) (m.view side) i = c at hc
      split
      · exact ih (by omega) (hP hc.1 hc.2 h)
      · exact h
    · rw [if_neg hin]
      exact h

theorem sortDown_frame (fuel : Nat) (hi : 2 ≤ i) (m : RollingMedian) :
    (sortDown side fuel i m).heap 0 = m.heap 0 ∧
      ∀ x, 1 ≤ x → (sortDown side fuel i m).view side.other x = m.view side.other x := by
  refine sortDown_induction (P := fun m' => m'.heap 0 = m.heap 0 ∧
    ∀ x, 1 ≤ x → m'.view side.other x = m.view side.other x) ?_ fuel hi ⟨rfl, fun _ _ => rfl⟩
  rintro m' a ha - ⟨hzero, hother⟩
  refine ⟨?_, fun x hx => (view_exchange_other m' side a (a / 2) hx).trans (hother x hx)⟩
  rw [← view_zero _ side, view_exchange, swap_other _ (by omega) (by omega), view_zero, hzero]

/-! ## Up -/

/-- **On its side, `sortUp` is the sift.** -/
theorem view_sortUp (fuel : Nat) : ∀ (i : Nat) (m : RollingMedian),
    Rearranged m (sortUp side fuel i m).2 ∧
      ((sortUp side fuel i m).1, (sortUp side fuel i m).2.view side) =
        siftUp (m.key side) fuel i (m.view side) := by
  induction fuel with
  | zero => exact fun i m => ⟨.refl m, rfl⟩
  | succ fuel ih =>
    intro i m
    unfold sortUp siftUp
    by_cases hi : i > 0
    · rw [if_pos hi]
      rw [cmpExch_eq]
      by_cases hlt : m.key side (m.view side i) < m.key side (m.view side (i / 2))
      · simp only [if_pos (nearer_iff.mpr hlt), if_pos (And.intro hi hlt), if_true]
        have hex := rearranged_exchange m side i (i / 2)
        obtain ⟨hre, hview⟩ := ih (i / 2) (m.exchange side i (i / 2))
        rw [hex.key, view_exchange] at hview
        exact ⟨hex.trans hre, hview⟩
      · simp only [if_neg (mt nearer_iff.mp hlt), hlt, and_false, if_false, Bool.false_eq_true]
        exact ⟨.refl m, trivial⟩
    · rw [if_neg hi, if_neg fun h => hi h.1]
      exact ⟨.refl m, rfl⟩

theorem sortUp_induction
    (hP : ∀ {m : RollingMedian} {a : Nat}, 1 ≤ a → a ≤ m.count side → P m →
      P (m.exchange side a (a / 2)))
    (fuel : Nat) :
    ∀ {i : Nat} {m : RollingMedian}, i ≤ m.count side → P m → P (sortUp side fuel i m).2 := by
  induction fuel with
  | zero => exact fun _ h => h
  | succ fuel ih =>
    intro i m hin h
    unfold sortUp
    by_cases hi : i > 0
    · rw [if_pos hi]
      rw [cmpExch_eq]
      split
      · refine ih ?_ (hP hi hin h)
        rw [(rearranged_exchange m side i (i / 2)).count]
        omega
      · exact h
    · rw [if_neg hi]
      exact h

theorem sortUp_frame (fuel : Nat) (m : RollingMedian) (hi : i ≤ m.count side) :
    ∀ x, 1 ≤ x → (sortUp side fuel i m).2.view side.other x = m.view side.other x := by
  refine sortUp_induction (P := fun m' => ∀ x, 1 ≤ x →
    m'.view side.other x = m.view side.other x) ?_ fuel hi fun _ _ => rfl
  intro m' a _ _ h x hx
  exact (view_exchange_other m' side a (a / 2) hx).trans (h x hx)

/-! ## The median and one side -/

/-- Exchanges the median with what is next to it, if that belongs there, and moves the old median
down. -/
def lift (m : RollingMedian) (side : Side) : RollingMedian :=
  let r := m.cmpExch side 1 0
  if r.1 then sortDown side (r.2.count side) (2 * 1) r.2 else r.2

/-- Moves an item up, and into the other side if it passed the median. -/
def settle (m : RollingMedian) (side : Side) (p : Nat) : RollingMedian :=
  let up := sortUp side p p m
  if up.1 = 0 ∧ up.2.count side.other ≠ 0 then up.2.lift side.other else up.2

/-- A property that exchanges within a side keep, the median included. -/
def Kept (P : RollingMedian → Prop) : Prop :=
  ∀ {m : RollingMedian} {side : Side} {a : Nat}, 1 ≤ a → a ≤ m.count side → P m →
    P (m.exchange side a (a / 2))

theorem Kept.lift (hP : Kept P) (hone : 1 ≤ m.count side) (h : P m) :
    P (m.lift side) := by
  unfold RollingMedian.lift
  rw [cmpExch_eq]
  split
  · exact sortDown_induction (fun ha hin h => hP (by omega) hin h) _ (by omega) (hP le_rfl hone h)
  · exact h

theorem Kept.settle (hP : Kept P) (hin : i ≤ m.count side) (h : P m) :
    P (m.settle side i) := by
  unfold RollingMedian.settle
  have hup : P (sortUp side i i m).2 :=
    sortUp_induction (fun ha hin h => hP ha hin h) _ hin h
  dsimp only
  split
  · rename_i hother
    exact hP.lift (by omega) hup
  · exact hup

theorem kept_rearranged (m : RollingMedian) : Kept (Rearranged m) :=
  fun _ _ h => h.trans (rearranged_exchange _ _ _ _)

theorem rearranged_lift (hone : 1 ≤ m.count side) : Rearranged m (m.lift side) :=
  Kept.lift (kept_rearranged m) hone (.refl m)

def Ordered (m : RollingMedian) (side : Side) : Prop :=
  Heap (m.key side) (m.count side) (m.view side)

theorem Ordered.frame (ho : m.Ordered side) (hre : Rearranged m m') (hzero : m'.heap 0 = m.heap 0)
    (hview : ∀ x, 1 ≤ x → m'.view side x = m.view side x) :
    m'.Ordered side := by
  unfold Ordered
  rw [hre.key, hre.count]
  refine Heap.congr ho fun x _ => ?_
  rcases Nat.eq_zero_or_pos x with rfl | hx
  · rw [view_zero, view_zero, hzero]
  · rw [hview x hx]

/-- The same where the median is another one, which is still in order with the side. -/
theorem ordered_of_median
    (htail : ∀ a, 2 ≤ a → a ≤ m.count side →
      m.key side (m.view side (a / 2)) ≤ m.key side (m.view side a))
    (hre : Rearranged m m') (hview : ∀ x, 1 ≤ x → m'.view side x = m.view side x)
    (hroot : 1 ≤ m.count side → m.key side (m'.heap 0) ≤ m.key side (m.view side 1)) :
    m'.Ordered side := by
  unfold Ordered
  rw [hre.key, hre.count]
  intro a ha han
  rw [hview a ha]
  by_cases hone : a = 1
  · subst hone
    rw [show 1 / 2 = 0 from rfl, view_zero]
    exact hroot han
  · rw [hview (a / 2) (by omega)]
    exact htail a (by omega) han

/-- **`lift` orders its side.** Either nothing moves, or what was next to the median is the median
now; the other side stays. -/
theorem lift_spec
    (htail : ∀ a, 2 ≤ a → a ≤ m.count side →
      m.key side (m.view side (a / 2)) ≤ m.key side (m.view side a)) :
    (m.lift side).Ordered side ∧
      (m.lift side = m ∨
        (m.key side (m.view side 1) < m.key side (m.heap 0) ∧
          (m.lift side).heap 0 = m.view side 1)) ∧
      ∀ x, 1 ≤ x → (m.lift side).view side.other x = m.view side.other x := by
  unfold lift
  rw [cmpExch_eq]
  by_cases hlt : m.key side (m.view side 1) < m.key side (m.view side 0)
  · simp only [if_pos (nearer_iff.mpr hlt), if_true]
    have hex := rearranged_exchange m side 1 0
    rw [hex.count]
    obtain ⟨hre, hview⟩ := @view_sortDown side (m.count side) (2 * 1) (m.exchange side 1 0)
    obtain ⟨hzero, hother⟩ := @sortDown_frame side (2 * 1) (m.count side) (by omega)
      (m.exchange side 1 0)
    rw [hex.key, hex.count, view_exchange] at hview
    refine ⟨?_, .inr ⟨by rwa [view_zero] at hlt, ?_⟩, fun x hx =>
      (hother x hx).trans (view_exchange_other m side 1 0 hx)⟩
    · unfold Ordered
      rw [(hex.trans hre).key, (hex.trans hre).count, hview]
      refine heap_siftDown _ le_rfl ⟨fun a ha han hne => ?_, fun a ha han hone => ?_⟩ (by omega)
      · -- above the moved median, and beside it
        by_cases hself : a = 1
        · rw [hself, swap_left, show 1 / 2 = 0 from rfl, swap_right]
          exact hlt.le
        · rw [swap_other _ hself (by omega), swap_other _ hne (by omega)]
          exact htail a (by omega) han
      · rw [show 1 / 2 = 0 from rfl, swap_right, swap_other _ (by omega) (by omega)]
        have := htail a (by omega) han
        rwa [hone] at this
    · rw [hzero, ← view_zero _ side, view_exchange, swap_right]
  · simp only [if_neg (mt nearer_iff.mp hlt), Bool.false_eq_true, if_false]
    refine ⟨ordered_of_median htail (.refl m) (fun _ _ => rfl) fun _ => ?_, .inl trivial,
      fun _ _ => trivial⟩
    rw [← view_zero m side]
    exact not_lt.mp hlt

/-- **`settle` restores both orders** around an item that came nearer to the median. -/
theorem ordered_settle (hin : i ≤ m.count side) (hi : 1 ≤ i)
    (hup : UpFrom (m.key side) (m.count side) i (m.view side)) (hother : m.Ordered side.other) :
    (m.settle side i).Ordered side ∧ (m.settle side i).Ordered side.other := by
  obtain ⟨hre, hview⟩ := @view_sortUp side i i m
  have hstays := sortUp_frame i m hin
  obtain ⟨hheap, -, hroot, hone⟩ := heap_siftUp i hin le_rfl hup
  rw [← hview] at hheap hroot hone
  unfold settle
  generalize hresult : sortUp side i i m = up at *
  dsimp only at *
  have hside : up.2.Ordered side := by
    unfold Ordered
    rw [hre.key, hre.count]
    exact hheap
  rw [view_zero, view_zero] at hroot
  by_cases hzero : up.1 = 0
  · have htail : ∀ a, 2 ≤ a → a ≤ up.2.count side.other →
        up.2.key side.other (up.2.view side.other (a / 2)) ≤
          up.2.key side.other (up.2.view side.other a) := by
      intro a ha han
      rw [hre.key, hstays a (by omega), hstays (a / 2) (by omega)]
      rw [hre.count] at han
      exact hother a (by omega) han
    by_cases hcount : up.2.count side.other = 0
    · rw [if_neg fun h => h.2 hcount]
      exact ⟨hside, fun a ha han => by omega⟩
    · rw [if_pos ⟨hzero, hcount⟩]
      have hmem := rearranged_lift (m := up.2) (show 1 ≤ up.2.count side.other by omega)
      obtain ⟨hlifted, hmedian, hframe⟩ := lift_spec htail
      refine ⟨?_, hlifted⟩
      rcases hmedian with hsame | ⟨-, hmoved⟩
      · rw [hsame]
        exact hside
      · -- the new median was on the other side of the old one, which is next to it now
        have hback : side.other.other = side := by cases side <;> rfl
        rw [hback] at hframe
        refine ordered_of_median (fun a ha han => hside a (by omega) han) hmem hframe fun _ => ?_
        have hnext := hother 1 le_rfl (by rw [← hre.count]; omega)
        rw [show 1 / 2 = 0 from rfl, view_zero, key_other, key_other] at hnext
        rw [hmoved, hone hzero hi, hstays 1 le_rfl, hre.key, view_zero]
        omega
  · rw [if_neg fun h => hzero h.1]
    exact ⟨hside, hother.frame hre (hroot hzero) hstays⟩

theorem settleMin_eq (hmax : m.count .max ≠ 0) : m.settleMin i = m.settle .min i := by
  have hcount : (sortUp .min i i m).2.count .max ≠ 0 := by
    rwa [(view_sortUp i i m).1.count .max]
  unfold settleMin settle minSortUp
  simp only [Side.other, hcount, ne_eq, not_false_eq_true, and_true, decide_eq_true_eq]
  rfl

theorem settleMax_eq : m.settleMax i = m.settle .max i := by
  unfold settleMax settle maxSortUp
  simp only [Side.other, Bool.and_eq_true, decide_eq_true_eq]
  rfl

theorem settleMedian_eq : m.settleMedian =
    (if (if m.maxCt ≠ 0 then m.lift .max else m).minCt ≠ 0 then
      (if m.maxCt ≠ 0 then m.lift .max else m).lift .min
    else if m.maxCt ≠ 0 then m.lift .max else m) := by
  have hmax : ∀ m : RollingMedian,
      (if (m.maxSortUp 1).1 then (m.maxSortUp 1).2.maxSortDown 1 else (m.maxSortUp 1).2) =
        m.lift .max := by
    intro m
    unfold maxSortUp lift maxSortDown
    simp only [sortUp, cmpExch_eq]
    by_cases hnear : m.nearer .max 1 0 = true
    · simp [hnear, count]
    · simp [hnear]
  have hmin : ∀ m : RollingMedian,
      (if (m.minSortUp 1).1 then (m.minSortUp 1).2.minSortDown 1 else (m.minSortUp 1).2) =
        m.lift .min := by
    intro m
    unfold minSortUp lift minSortDown
    simp only [sortUp, cmpExch_eq]
    by_cases hnear : m.nearer .min 1 0 = true
    · simp [hnear, count]
    · simp [hnear]
  unfold settleMedian
  simp only [hmax, hmin]

/-- **A new median**: with what is next to it on the two sides in order, both orders are
restored. -/
theorem ordered_settleMedian
    (htail : ∀ side a, 2 ≤ a → a ≤ m.count side →
      m.key side (m.view side (a / 2)) ≤ m.key side (m.view side a))
    (hcounts : m.count .max = 0 → m.count .min = 0)
    (hcross : 1 ≤ m.count .min → m.key .min (m.view .max 1) ≤ m.key .min (m.view .min 1)) :
    ∀ side, m.settleMedian.Ordered side := by
  rw [settleMedian_eq]
  by_cases hmax : m.maxCt = 0
  · have hmin : m.minCt = 0 := hcounts hmax
    simp only [hmax, hmin, ne_eq, not_true_eq_false, if_false]
    intro side a ha han
    cases side <;> simp only [count] at han <;> omega
  · simp only [if_pos hmax]
    have hone : 1 ≤ m.count .max := Nat.one_le_iff_ne_zero.mpr hmax
    have hre := rearranged_lift hone
    obtain ⟨hlifted, hmedian, hframe⟩ := lift_spec (htail .max)
    simp only [Side.other] at hframe
    have htail' : ∀ a, 2 ≤ a → a ≤ (m.lift .max).count .min →
        (m.lift .max).key .min ((m.lift .max).view .min (a / 2)) ≤
          (m.lift .max).key .min ((m.lift .max).view .min a) := by
      intro a ha han
      rw [hre.key, hframe a (by omega), hframe (a / 2) (by omega)]
      rw [hre.count] at han
      exact htail .min a ha han
    by_cases hmin : (m.lift .max).minCt = 0
    · rw [if_neg fun h => h hmin]
      intro side
      cases side
      · exact fun a ha han => by simp only [count] at han; omega
      · exact hlifted
    · rw [if_pos hmin]
      have hmin' : 1 ≤ (m.lift .max).count .min := Nat.one_le_iff_ne_zero.mpr hmin
      have hre' := rearranged_lift hmin'
      obtain ⟨hlifted', hmedian', hframe'⟩ := lift_spec htail'
      have hnext := hcross (by rw [← hre.count]; exact hmin')
      intro side
      cases side
      · exact hlifted'
      · rcases hmedian' with hsame' | ⟨hlt', hmoved'⟩
        · rw [hsame']
          exact hlifted
        · -- the median of the first line was not moved in from the other side
          rw [hre.key, hframe 1 le_rfl] at hlt'
          rcases hmedian with hsame | ⟨-, hmoved⟩
          · refine ordered_of_median (fun a ha han => hlifted a (by omega) han) hre' hframe'
              fun _ => ?_
            rw [hmoved', hsame]
            simp only [key] at hnext ⊢
            omega
          · rw [hmoved] at hlt'
            omega

end RollingMedian

end Oxyra
