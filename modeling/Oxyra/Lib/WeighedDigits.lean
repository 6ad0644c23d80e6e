import Mathlib

/-!
# Digits with their weight

A number written as the sum of its digits other than zero, each times its power of the base: the
summands grow strictly (`pairwise_weigh`), and each is the digit of the number at its place
(`exists_digit_of_mem_weigh`).
-/

namespace WeighedDigits

variable {b i x : Nat} {ds : List Nat}

/-- The digits other than zero, from the lowest on, which has the weight `b ^ i`. -/
def weigh (b : Nat) : Nat → List Nat → List Nat
  | _, [] => []
  | i, d :: ds => (if d ≠ 0 then [d * b ^ i] else []) ++ weigh b (i + 1) ds

theorem mem_weigh_cons {d : Nat} :
    x ∈ weigh b i (d :: ds) ↔ (d ≠ 0 ∧ x = d * b ^ i) ∨ x ∈ weigh b (i + 1) ds := by
  rw [weigh, List.mem_append]
  refine or_congr ?_ Iff.rfl
  by_cases h : d = 0 <;> simp [h]

theorem sum_weigh (b i : Nat) (ds : List Nat) : (weigh b i ds).sum = Nat.ofDigits b ds * b ^ i := by
  induction ds generalizing i with
  | nil => simp [weigh, Nat.ofDigits]
  | cons d ds ih =>
    have hhead : (if d ≠ 0 then [d * b ^ i] else []).sum = d * b ^ i := by
      by_cases h : d = 0 <;> simp [h]
    rw [weigh, List.sum_append, hhead, ih, Nat.ofDigits_cons, Nat.pow_succ]
    ring

theorem le_of_mem_weigh (hb : 0 < b) (hx : x ∈ weigh b i ds) : b ^ i ≤ x := by
  induction ds generalizing i with
  | nil => exact absurd hx List.not_mem_nil
  | cons d ds ih =>
    rcases mem_weigh_cons.mp hx with ⟨hd, rfl⟩ | hx
    · exact Nat.le_mul_of_pos_left _ (Nat.pos_of_ne_zero hd)
    · exact (Nat.pow_le_pow_right hb (Nat.le_succ i)).trans (ih hx)

/-- **The summands grow strictly.** -/
theorem pairwise_weigh (hb : 0 < b) (hds : ∀ d ∈ ds, d < b) : (weigh b i ds).Pairwise (· < ·) := by
  induction ds generalizing i with
  | nil => exact List.Pairwise.nil
  | cons d ds ih =>
    rw [weigh]
    refine List.pairwise_append.mpr ⟨?_, ih fun d' hd' => hds d' (List.mem_cons_of_mem _ hd'), ?_⟩
    · by_cases h : d = 0 <;> simp [h]
    · intro x hx y hy
      have hxd : x = d * b ^ i := by
        by_cases h : d = 0 <;> simp [h] at hx ⊢
        exact hx
      calc x = d * b ^ i := hxd
        _ < b * b ^ i := Nat.mul_lt_mul_of_pos_right (hds d List.mem_cons_self) (Nat.pow_pos hb)
        _ = b ^ (i + 1) := by rw [Nat.pow_succ, Nat.mul_comm]
        _ ≤ y := le_of_mem_weigh hb hy

/-- **Every summand is a digit of the number at its place.** -/
theorem exists_digit_of_mem_weigh (hb : 0 < b) (hds : ∀ d ∈ ds, d < b) (hx : x ∈ weigh b i ds) :
    ∃ j, Nat.ofDigits b ds / b ^ j % b ≠ 0 ∧ x = Nat.ofDigits b ds / b ^ j % b * b ^ (i + j) := by
  induction ds generalizing i with
  | nil => exact absurd hx List.not_mem_nil
  | cons d ds ih =>
    have hd := hds d List.mem_cons_self
    have hlow : Nat.ofDigits b (d :: ds) % b = d := by
      rw [Nat.ofDigits_cons, Nat.add_mul_mod_self_left, Nat.mod_eq_of_lt hd]
    have hhigh : Nat.ofDigits b (d :: ds) / b = Nat.ofDigits b ds := by
      rw [Nat.ofDigits_cons, Nat.add_mul_div_left _ _ hb, Nat.div_eq_of_lt hd, Nat.zero_add]
    rcases mem_weigh_cons.mp hx with ⟨hne, rfl⟩ | hx
    · refine ⟨0, ?_, ?_⟩ <;> rw [Nat.pow_zero, Nat.div_one, hlow]
      · exact hne
      · rfl
    · obtain ⟨j, hne, rfl⟩ := ih (fun d' hd' => hds d' (List.mem_cons_of_mem _ hd')) hx
      have hshift : Nat.ofDigits b (d :: ds) / b ^ (j + 1) = Nat.ofDigits b ds / b ^ j := by
        rw [Nat.pow_succ', ← Nat.div_div_eq_div_mul, hhigh]
      refine ⟨j + 1, ?_, ?_⟩ <;> rw [hshift]
      · exact hne
      · rw [Nat.add_right_comm, Nat.add_assoc]

end WeighedDigits
