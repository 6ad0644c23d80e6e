import Mathlib

/-!
# Walks with growing strides

A walk over the positions `1 .. size` makes single steps at first and then steps that
double, until it is past the end. Sampling a long list this way takes few samples, and
whatever position is wanted, the next sample is not much farther: within the single steps
it is the position itself, and beyond them it is less than twice as far
(`find?_strides`).
-/

namespace Strides

variable (dense size : Nat) {i offset stride : Nat}

/-- The positions from `offset` on that lie below `size`, after `i` steps, with the last
stride. -/
def strides : Nat → (i stride offset : Nat) → List Nat
  | 0, _, _, _ => []
  | fuel + 1, i, stride, offset =>
    if offset < size then
      offset ::
        if i < dense then strides fuel (i + 1) stride (offset + 1)
        else strides fuel (i + 1) (stride * 2) (offset + stride * 2)
    else []

variable {dense size}

/-- Where a walk that started at 1 can stand: among the single steps, or beyond them with
a stride that reaches as far as all the steps before it. -/
def Stands (dense i stride offset : Nat) : Prop :=
  i ≤ dense ∧ stride = 1 ∧ offset = i + 1 ∨
    dense ≤ i ∧ 1 ≤ stride ∧ offset + 1 = dense + 2 * stride

theorem Stands.single (h : Stands dense i stride offset) (hi : i < dense) :
    Stands dense (i + 1) stride (offset + 1) := by
  unfold Stands at *
  omega

theorem Stands.double (h : Stands dense i stride offset) (hi : ¬ i < dense) :
    Stands dense (i + 1) (stride * 2) (offset + stride * 2) := by
  unfold Stands at *
  omega

theorem mem_strides_bounds {fuel x : Nat} (h : x ∈ strides dense size fuel i stride offset) :
    offset ≤ x ∧ x < size := by
  induction fuel generalizing i stride offset with
  | zero => cases h
  | succ fuel ih =>
    unfold strides at h
    split at h
    · rename_i hlt
      rcases List.mem_cons.mp h with rfl | h
      · exact ⟨Nat.le_refl _, hlt⟩
      · split at h
        all_goals
          have := ih h
          omega
    · cases h

theorem strides_increasing (fuel : Nat) (hs : 1 ≤ stride) :
    (strides dense size fuel i stride offset).Pairwise (· < ·) := by
  induction fuel generalizing i stride offset with
  | zero => exact .nil
  | succ fuel ih =>
    unfold strides
    split
    · split
      · refine List.pairwise_cons.mpr ⟨fun x hx => ?_, ih hs⟩
        have := mem_strides_bounds hx
        omega
      · refine List.pairwise_cons.mpr ⟨fun x hx => ?_, ih (by omega)⟩
        have := mem_strides_bounds hx
        omega
    · exact .nil

/-- **The first sample at or beyond a position.** The end of the list is the last
sample. -/
theorem find?_strides (fuel : Nat) {d : Nat} (h : Stands dense i stride offset)
    (hfuel : size ≤ offset + fuel) (hd : offset ≤ d) (hsize : d ≤ size) :
    ∃ f, (strides dense size fuel i stride offset ++ [size]).find? (fun x => d ≤ x) = some f ∧
      d ≤ f ∧ f ≤ size ∧ (d ≤ dense + 1 → f = d) ∧
      (dense + 1 < d → f + (dense + 1) ≤ 2 * d) := by
  induction fuel generalizing i stride offset with
  | zero =>
    obtain rfl : d = size := by omega
    refine ⟨d, by simp [strides], le_rfl, le_rfl, fun _ => rfl, fun hlt => by omega⟩
  | succ fuel ih =>
    unfold strides
    split
    · rename_i hlt
      by_cases hhere : d = offset
      · refine ⟨offset, by simp [hhere], hhere.le, hlt.le, fun _ => hhere.symm, fun hlt => ?_⟩
        omega
      · have hskip : decide (d ≤ offset) = false := decide_eq_false (by omega)
        rw [List.cons_append, List.find?_cons, hskip]
        dsimp only
        split
        · rename_i hi
          exact ih (h.single hi) (by omega) (by omega)
        · rename_i hi
          have hnext := h.double hi
          have hstride : 1 ≤ stride := by unfold Stands at h; omega
          by_cases hreach : offset + stride * 2 ≤ d
          · exact ih hnext (by omega) hreach
          · -- the position lies inside the stride: the sample is at its end
            have hfar : offset + stride * 2 + (dense + 1) ≤ 2 * d := by
              unfold Stands at h
              omega
            have hdense : dense + 1 < d := by unfold Stands at h; omega
            by_cases hend : offset + stride * 2 < size
            · cases fuel with
              | zero => omega
              | succ fuel =>
                refine ⟨offset + stride * 2, ?_, by omega, by omega, by omega, fun _ => hfar⟩
                unfold strides
                rw [if_pos hend, List.cons_append, List.find?_cons,
                  decide_eq_true (by omega : d ≤ offset + stride * 2)]
            · refine ⟨size, ?_, hsize, le_rfl, by omega, by omega⟩
              have hnone : strides dense size fuel (i + 1) (stride * 2) (offset + stride * 2) =
                  [] := by
                cases fuel with
                | zero => rfl
                | succ fuel => rw [strides, if_neg hend]
              simp [hnone, hsize]
    · obtain rfl : d = size := by omega
      exact ⟨d, by simp, le_rfl, le_rfl, fun _ => rfl, fun hlt => by omega⟩

end Strides
