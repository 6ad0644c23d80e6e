import Mathlib.Data.Finset.Insert
import Mathlib.Logic.Function.Basic

/-!
# Walking along the cycles of a map

The cycles of an injective map are walked one after the other, and the points passed are
kept. A walk from `i` is at a point that was not passed, and it can come back to a point
it passed at `i` only.
-/

namespace Cycles

variable {ι : Type} (f : ι → ι)

/-- Each point passed was come to from another. -/
def Closed (passed : Finset ι) : Prop := ∀ j ∈ passed, ∃ k ∈ passed, f k = j

/-- A walk that began at `i` is at `c`. -/
structure Walk (passed : Finset ι) (i c : ι) : Prop where
  fresh : c ∉ passed
  came : c = i ∨ ∃ k ∈ passed, f k = c
  back : ∀ j ∈ passed, j ≠ i → ∃ k ∈ passed, f k = j

variable {f} {passed : Finset ι} {i c : ι}

theorem Walk.start (h : Closed f passed) (hi : i ∉ passed) : Walk f passed i i :=
  ⟨hi, .inl rfl, fun j hj _ => h j hj⟩

variable [DecidableEq ι]

theorem Walk.reached (h : Walk f passed i c) {j : ι} (hj : j ∈ insert c passed) (hne : j ≠ i) :
    ∃ k ∈ passed, f k = j := by
  rcases Finset.mem_insert.mp hj with rfl | hj
  · exact h.came.resolve_left hne
  · exact h.back j hj hne

theorem Walk.next_fresh (hf : Function.Injective f) (h : Walk f passed i c) (hne : f c ≠ i) :
    f c ∉ insert c passed := by
  intro hmem
  obtain ⟨k, hk, heq⟩ := h.reached hmem hne
  exact h.fresh (hf heq ▸ hk)

theorem Walk.next (hf : Function.Injective f) (h : Walk f passed i c) (hne : f c ≠ i) :
    Walk f (insert c passed) i (f c) where
  fresh := h.next_fresh hf hne
  came := .inr ⟨c, Finset.mem_insert_self c passed, rfl⟩
  back j hj hji := by
    obtain ⟨k, hk, heq⟩ := h.reached hj hji
    exact ⟨k, Finset.mem_insert_of_mem hk, heq⟩

theorem Walk.close (h : Walk f passed i c) (heq : f c = i) : Closed f (insert c passed) := by
  intro j hj
  by_cases hji : j = i
  · exact ⟨c, Finset.mem_insert_self c passed, heq.trans hji.symm⟩
  · obtain ⟨k, hk, hkj⟩ := h.reached hj hji
    exact ⟨k, Finset.mem_insert_of_mem hk, hkj⟩

end Cycles
