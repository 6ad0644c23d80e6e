import Mathlib

/-!
# One side of a two-sided heap

A function from positions to items, ordered by a key: position 0 is the root, its only child is 1,
and the children of a position `a ≥ 1` are `2 a` and `2 a + 1`, so that `a / 2` is above every
`a ≥ 1`. A two-sided heap shares the root between two of these.
-/

namespace SideHeap

variable {ι κ : Type} [LinearOrder κ] (key : ι → κ)

def swap (h : Nat → ι) (a b : Nat) : Nat → ι :=
  fun x => if x = a then h b else if x = b then h a else h x

/-- In order up to position `n`. -/
def Heap (n : Nat) (h : Nat → ι) : Prop :=
  ∀ a, 1 ≤ a → a ≤ n → key (h (a / 2)) ≤ key (h a)

/-- The child with the least key, of the children at `c` and behind it. -/
def leastChild (n : Nat) (h : Nat → ι) (c : Nat) : Nat :=
  if c < n ∧ key (h (c + 1)) < key (h c) then c + 1 else c

/-- Moves an item down; `c` is the position of the first child. -/
def siftDown (n : Nat) : Nat → Nat → (Nat → ι) → Nat → ι
  | 0, _, h => h
  | fuel + 1, c, h =>
    if c ≤ n then
      let c := leastChild key n h c
      if key (h c) < key (h (c / 2)) then siftDown n fuel (2 * c) (swap h c (c / 2)) else h
    else h

/-- Moves the item at `i` up; the position where it ends and the arrangement. -/
def siftUp : Nat → Nat → (Nat → ι) → Nat × (Nat → ι)
  | 0, i, h => (i, h)
  | fuel + 1, i, h =>
    if 0 < i ∧ key (h i) < key (h (i / 2)) then siftUp fuel (i / 2) (swap h i (i / 2))
    else (i, h)

/-- What moving down from `i` needs: order but for the children of `i`, and these in order with
what is above `i`. -/
structure DownFrom (n i : Nat) (h : Nat → ι) : Prop where
  off : ∀ a, 1 ≤ a → a ≤ n → a / 2 ≠ i → key (h (a / 2)) ≤ key (h a)
  below : ∀ a, 1 ≤ a → a ≤ n → a / 2 = i → key (h (i / 2)) ≤ key (h a)

/-- What moving up from `i` needs: order but for `i` itself, and its children in order with what is
above it. -/
structure UpFrom (n i : Nat) (h : Nat → ι) : Prop where
  off : ∀ a, 1 ≤ a → a ≤ n → a ≠ i → key (h (a / 2)) ≤ key (h a)
  below : ∀ a, 1 ≤ i → a ≤ n → a / 2 = i → key (h (i / 2)) ≤ key (h a)

variable {key} {n i c : Nat} {h : Nat → ι}

theorem swap_left (h : Nat → ι) (a b : Nat) : swap h a b a = h b := if_pos rfl

theorem swap_right (h : Nat → ι) (a b : Nat) : swap h a b b = h a := by
  unfold swap
  split
  · rename_i heq
    rw [heq]
  · exact if_pos rfl

theorem swap_other (h : Nat → ι) {a b x : Nat} (ha : x ≠ a) (hb : x ≠ b) : swap h a b x = h x := by
  rw [swap, if_neg ha, if_neg hb]

/-! ## Down -/

theorem leastChild_spec (key : ι → κ) (h : Nat → ι) (hin : 2 * i ≤ n) :
    leastChild key n h (2 * i) / 2 = i ∧ leastChild key n h (2 * i) ≤ n ∧
      2 * i ≤ leastChild key n h (2 * i) ∧
      ∀ a, a ≤ n → a / 2 = i → key (h (leastChild key n h (2 * i))) ≤ key (h a) := by
  unfold leastChild
  split
  · rename_i hright
    refine ⟨by omega, by omega, by omega, fun a ha hai => ?_⟩
    rcases (show a = 2 * i ∨ a = 2 * i + 1 by omega) with rfl | rfl
    · exact hright.2.le
    · exact le_rfl
  · rename_i hleft
    refine ⟨by omega, by omega, by omega, fun a ha hai => ?_⟩
    rcases (show a = 2 * i ∨ a = 2 * i + 1 by omega) with rfl | rfl
    · exact le_rfl
    · exact not_lt.mp fun hlt => hleft ⟨by omega, hlt⟩

theorem DownFrom.step (hd : DownFrom key n i h) (hi : 1 ≤ i) (hc : c / 2 = i) (hcn : c ≤ n)
    (hleast : ∀ a, a ≤ n → a / 2 = i → key (h c) ≤ key (h a)) (hlt : key (h c) < key (h i)) :
    DownFrom key n c (swap h c i) := by
  have hci : c ≠ i := by omega
  constructor
  · intro a ha han hac
    by_cases hparent : a / 2 = i
    · -- a child of the position the item leaves
      rw [hparent, swap_right]
      by_cases hself : a = c
      · rw [hself, swap_left]
        exact hlt.le
      · rw [swap_other h hself (by omega)]
        exact hleast a han hparent
    · rw [swap_other h hac hparent]
      by_cases hai : a = i
      · subst hai
        rw [swap_right]
        exact hd.below c (by omega) hcn hc
      · rw [swap_other h (by omega) hai]
        exact hd.off a ha han hparent
  · intro a ha han hac
    rw [hc, swap_right, swap_other h (by omega) (by omega), ← hac]
    exact hd.off a ha han (by omega)

theorem DownFrom.stop (hd : DownFrom key n i h)
    (hchildren : ∀ a, 1 ≤ a → a ≤ n → a / 2 = i → key (h i) ≤ key (h a)) : Heap key n h := by
  intro a ha han
  by_cases hparent : a / 2 = i
  · rw [hparent]
    exact hchildren a ha han hparent
  · exact hd.off a ha han hparent

/-- **Moving down restores the order.** -/
theorem heap_siftDown (fuel : Nat) : ∀ {i : Nat} {h : Nat → ι}, 1 ≤ i → DownFrom key n i h →
    n < 2 * i + fuel → Heap key n (siftDown key n fuel (2 * i) h) := by
  induction fuel with
  | zero =>
    intro i h hi hd hfuel
    exact hd.stop fun a _ han hai => by omega
  | succ fuel ih =>
    intro i h hi hd hfuel
    unfold siftDown
    by_cases hin : 2 * i ≤ n
    · obtain ⟨hparent, hcn, hle, hleast⟩ := leastChild_spec key h hin
      rw [if_pos hin]
      dsimp only
      generalize leastChild key n h (2 * i) = c at *
      rw [hparent]
      by_cases hlt : key (h c) < key (h i)
      · rw [if_pos hlt]
        exact ih (by omega) (hd.step hi hparent hcn hleast hlt) (by omega)
      · rw [if_neg hlt]
        exact hd.stop fun a _ han hai => (not_lt.mp hlt).trans (hleast a han hai)
    · rw [if_neg hin]
      exact hd.stop fun a _ han hai => by omega

/-! ## Up -/

theorem UpFrom.step (hu : UpFrom key n i h) (hi : 1 ≤ i) (hin : i ≤ n)
    (hlt : key (h i) < key (h (i / 2))) : UpFrom key n (i / 2) (swap h i (i / 2)) := by
  have hne : i / 2 ≠ i := by omega
  constructor
  · intro a ha han hai
    by_cases hself : a = i
    · rw [hself, swap_left, swap_right]
      exact hlt.le
    · rw [swap_other h hself hai]
      by_cases hparent : a / 2 = i
      · rw [hparent, swap_left]
        exact hu.below a hi han hparent
      · by_cases hsibling : a / 2 = i / 2
        · rw [hsibling, swap_right]
          have := hu.off a ha han hself
          rw [hsibling] at this
          exact hlt.le.trans this
        · rw [swap_other h hparent hsibling]
          exact hu.off a ha han hself
  · intro a hpos han hai
    have habove := hu.off (i / 2) hpos (by omega) hne
    rw [swap_other h (by omega) (by omega)]
    by_cases hself : a = i
    · rw [hself, swap_left]
      exact habove
    · have := hu.off a (by omega) han hself
      rw [hai] at this
      rw [swap_other h hself (by omega)]
      exact habove.trans this

theorem UpFrom.stop (hu : UpFrom key n i h) (hi : 1 ≤ i → key (h (i / 2)) ≤ key (h i)) :
    Heap key n h := by
  intro a ha han
  by_cases hai : a = i
  · subst hai
    exact hi ha
  · exact hu.off a ha han hai

/-- **Moving up restores the order**, and what happens at the root: it stays unless the item gets
there, and then it is at position 1. -/
theorem heap_siftUp (fuel : Nat) : ∀ {i : Nat} {h : Nat → ι}, i ≤ n → i ≤ fuel →
    UpFrom key n i h →
    Heap key n (siftUp key fuel i h).2 ∧
      (siftUp key fuel i h).2 (siftUp key fuel i h).1 = h i ∧
      ((siftUp key fuel i h).1 ≠ 0 → (siftUp key fuel i h).2 0 = h 0) ∧
      ((siftUp key fuel i h).1 = 0 → 1 ≤ i → (siftUp key fuel i h).2 1 = h 0) := by
  induction fuel with
  | zero =>
    intro i h hin hfuel hu
    obtain rfl : i = 0 := by omega
    exact ⟨hu.stop fun h0 => by omega, rfl, fun h0 => absurd rfl h0, fun _ h0 => by omega⟩
  | succ fuel ih =>
    intro i h hin hfuel hu
    unfold siftUp
    by_cases hmove : 0 < i ∧ key (h i) < key (h (i / 2))
    · rw [if_pos hmove]
      obtain ⟨hheap, hitem, hroot, hone⟩ := ih (by omega) (by omega)
        (hu.step hmove.1 hin hmove.2)
      refine ⟨hheap, hitem.trans (swap_right h _ _), fun hne => ?_, fun hzero _ => ?_⟩
      · -- the item has not reached the root, so it was not just below it
        rw [hroot hne]
        by_cases hhalf : i / 2 = 0
        · exfalso
          apply hne
          rw [hhalf]
          cases fuel <;> simp [siftUp]
        · exact swap_other h (by omega) (by omega)
      · by_cases hhalf : i / 2 = 0
        · obtain rfl : i = 1 := by omega
          have hend : siftUp key fuel 0 (swap h 1 0) = (0, swap h 1 0) := by
            cases fuel <;> simp [siftUp]
          show (siftUp key fuel 0 (swap h 1 0)).2 1 = h 0
          rw [hend]
          exact swap_left h 1 0
        · rw [hone hzero (by omega)]
          exact swap_other h (by omega) (by omega)
    · rw [if_neg hmove]
      refine ⟨hu.stop fun hpos => not_lt.mp fun hlt => hmove ⟨hpos, hlt⟩, rfl, fun _ => rfl,
        fun hzero hpos => ?_⟩
      omega

/-! ## One key changes -/

section Change

variable {key' : ι → κ}

theorem Heap.congr {h' : Nat → ι} (hh : Heap key n h)
    (hsame : ∀ x, x ≤ n → key' (h' x) = key (h x)) : Heap key' n h' := by
  intro a ha han
  rw [hsame a han, hsame (a / 2) (by omega)]
  exact hh a ha han

theorem Heap.upFrom (hh : Heap key n h) (hsame : ∀ x, x ≤ n → x ≠ i → key' (h x) = key (h x))
    (hin : i ≤ n) (hle : key' (h i) ≤ key (h i)) : UpFrom key' n i h := by
  constructor
  · intro a ha han hai
    rw [hsame a han hai]
    by_cases hparent : a / 2 = i
    · rw [hparent]
      have := hh a ha han
      rw [hparent] at this
      exact hle.trans this
    · rw [hsame (a / 2) (by omega) hparent]
      exact hh a ha han
  · intro a hi han hai
    rw [hsame (i / 2) (by omega) (by omega), hsame a han (by omega)]
    have := hh a (by omega) han
    rw [hai] at this
    exact (hh i hi hin).trans this

theorem Heap.upFrom_last (hh : Heap key n h) (hsame : ∀ x, x ≤ n → key' (h x) = key (h x)) :
    UpFrom key' (n + 1) (n + 1) h := by
  constructor
  · intro a ha han hai
    rw [hsame a (by omega), hsame (a / 2) (by omega)]
    exact hh a ha (by omega)
  · intro a hi han hai
    omega

theorem Heap.downFrom (hh : Heap key n h) (hsame : ∀ x, x ≤ n → x ≠ i → key' (h x) = key (h x))
    (hi : 1 ≤ i) (hin : i ≤ n) (hle : key (h i) ≤ key' (h i)) : DownFrom key' n i h := by
  constructor
  · intro a ha han hparent
    rw [hsame (a / 2) (by omega) hparent]
    by_cases hai : a = i
    · rw [hai]
      exact (hh i hi hin).trans hle
    · rw [hsame a han hai]
      exact hh a ha han
  · intro a ha han hai
    rw [hsame (i / 2) (by omega) (by omega), hsame a han (by omega)]
    have := hh a ha han
    rw [hai] at this
    exact (hh i hi hin).trans this

end Change

theorem Heap.root_le (hh : Heap key n h) : ∀ a, a ≤ n → key (h 0) ≤ key (h a) := by
  intro a
  induction a using Nat.strongRecOn with
  | ind a ih =>
    intro han
    by_cases ha : a = 0
    · rw [ha]
    · exact (ih (a / 2) (by omega) (by omega)).trans (hh a (by omega) han)

theorem Heap.one_le (hh : Heap key n h) : ∀ a, 1 ≤ a → a ≤ n → key (h 1) ≤ key (h a) := by
  intro a
  induction a using Nat.strongRecOn with
  | ind a ih =>
    intro ha han
    by_cases hone : a = 1
    · rw [hone]
    · exact (ih (a / 2) (by omega) (by omega) (by omega)).trans (hh a ha han)

end SideHeap
