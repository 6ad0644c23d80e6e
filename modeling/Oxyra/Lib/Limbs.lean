import Mathlib

/-!
# Numbers in limbs

The number whose limbs of `w` bits are given by their index, the lowest first.
-/

namespace Limbs

/-! ## Three-way comparison -/

/-- `-1`, `0` or `1`, as the first number is below, equal to or above the second. -/
def threeWay (a b : Nat) : Int := if a < b then -1 else if b < a then 1 else 0

theorem threeWay_nonpos_iff (a b : Nat) : threeWay a b ≤ 0 ↔ a ≤ b := by
  rw [threeWay]
  split_ifs <;> omega

theorem threeWay_eq_zero_iff (a b : Nat) : threeWay a b = 0 ↔ a = b := by
  rw [threeWay]
  split_ifs <;> simp <;> omega

theorem threeWay_eq_one_iff (a b : Nat) : threeWay a b = 1 ↔ b < a := by
  rw [threeWay]
  split_ifs <;> simp <;> omega

theorem threeWay_neg_iff (a b : Nat) : threeWay a b < 0 ↔ a < b := by
  rw [threeWay]
  split_ifs <;> omega

theorem threeWay_swap (a b : Nat) : threeWay b a = -threeWay a b := by
  rw [threeWay, threeWay]
  split_ifs <;> omega

theorem threeWay_mul_add {m r s : Nat} (a b : Nat) (hr : r < m) (hs : s < m) :
    threeWay (a * m + r) (b * m + s) =
      if a < b then -1 else if b < a then 1 else threeWay r s := by
  have step : ∀ {x y r s : Nat}, x < y → r < m → x * m + r < y * m + s := by
    intro x y r s hxy hr
    calc x * m + r < x * m + m := Nat.add_lt_add_left hr _
      _ = (x + 1) * m := by ring
      _ ≤ y * m := Nat.mul_le_mul_right m hxy
      _ ≤ y * m + s := Nat.le_add_right _ _
  rcases Nat.lt_trichotomy a b with hab | rfl | hab
  · rw [if_pos hab, threeWay, if_pos (step hab hr)]
  · rw [if_neg (Nat.lt_irrefl a), if_neg (Nat.lt_irrefl a), threeWay, threeWay]
    simp only [Nat.add_lt_add_iff_left]
  · rw [if_neg (Nat.lt_asymm hab), if_pos hab, threeWay, if_neg (Nat.lt_asymm (step hab hs)),
      if_pos (step hab hs)]

/-! ## Limbs -/

variable {w : Nat} {v v' : Nat → BitVec w} {k n : Nat}

/-- The number of the `k` lowest limbs. -/
def value (v : Nat → BitVec w) : Nat → Nat
  | 0 => 0
  | k + 1 => (v k).toNat * 2 ^ (w * k) + value v k

theorem value_congr (h : ∀ i < k, v i = v' i) : value v k = value v' k := by
  induction k with
  | zero => rfl
  | succ k ih =>
    rw [value, value, h k (Nat.lt_succ_self k), ih fun i hi => h i (Nat.lt_succ_of_lt hi)]

theorem value_lt (v : Nat → BitVec w) (k : Nat) : value v k < 2 ^ (w * k) := by
  induction k with
  | zero => exact Nat.one_pos
  | succ k ih =>
    have hlimb : (v k).toNat + 1 ≤ 2 ^ w := (v k).isLt
    calc value v (k + 1) < (v k).toNat * 2 ^ (w * k) + 2 ^ (w * k) :=
          Nat.add_lt_add_left ih _
      _ = ((v k).toNat + 1) * 2 ^ (w * k) := by ring
      _ ≤ 2 ^ w * 2 ^ (w * k) := Nat.mul_le_mul_right _ hlimb
      _ = 2 ^ (w * (k + 1)) := by rw [← Nat.pow_add, Nat.mul_succ, Nat.add_comm]

theorem value_ofNat_shift (x k : Nat) :
    value (fun i => BitVec.ofNat w (x >>> (w * i))) k = x % 2 ^ (w * k) := by
  induction k with
  | zero => exact (Nat.mod_one x).symm
  | succ k ih =>
    rw [value, ih, BitVec.toNat_ofNat, Nat.shiftRight_eq_div_pow, Nat.mul_succ, Nat.pow_add,
      Nat.mod_mul]
    ring

/-- The `n` most significant bits of `k` limbs. -/
def top (v : Nat → BitVec w) (k n : Nat) : Nat := value v k / 2 ^ (w * k - n)

theorem top_zero (v : Nat → BitVec w) (k : Nat) : top v k 0 = 0 :=
  Nat.div_eq_of_lt (value_lt v k)

theorem top_lt (v : Nat → BitVec w) (h : n ≤ w * k) : top v k n < 2 ^ n := by
  refine Nat.div_lt_of_lt_mul ?_
  rw [← Nat.pow_add, Nat.sub_add_cancel h]
  exact value_lt v k

theorem top_of_le (v : Nat → BitVec w) (k : Nat) (h : n ≤ w) :
    top v (k + 1) n = (v k).toNat / 2 ^ (w - n) := by
  have hpow : 2 ^ (w * (k + 1) - n) = 2 ^ (w * k) * 2 ^ (w - n) := by
    rw [← Nat.pow_add, Nat.mul_succ, Nat.add_sub_assoc h]
  have hdiv : value v (k + 1) / 2 ^ (w * k) = (v k).toNat := by
    rw [value, Nat.add_comm, Nat.add_mul_div_right _ _ (Nat.two_pow_pos _),
      Nat.div_eq_of_lt (value_lt v k), Nat.zero_add]
  rw [top, hpow, ← Nat.div_div_eq_div_mul, hdiv]

theorem top_add (v : Nat → BitVec w) (h : n ≤ w * k) :
    top v (k + 1) (w + n) = (v k).toNat * 2 ^ n + top v k n := by
  have hexp : w * (k + 1) - (w + n) = w * k - n := by
    rw [Nat.mul_succ]
    omega
  have hpow : 2 ^ (w * k) = 2 ^ n * 2 ^ (w * k - n) := by
    rw [← Nat.pow_add, Nat.add_sub_cancel' h]
  rw [top, top, hexp, value, hpow, ← Nat.mul_assoc, Nat.add_comm,
    Nat.add_mul_div_right _ _ (Nat.two_pow_pos _), Nat.add_comm]

theorem toNat_and_not_low (x : BitVec w) {s : Nat} (hs : s < w) :
    (x &&& ~~~((1#w <<< s) - 1#w)).toNat = x.toNat / 2 ^ s * 2 ^ s := by
  have hlt : 2 ^ s < 2 ^ w := Nat.pow_lt_pow_right (by decide) hs
  have hpos : 0 < 2 ^ s := Nat.two_pow_pos s
  have hone : (1#w).toNat = 1 :=
    (BitVec.toNat_ofNat 1 w).trans (Nat.mod_eq_of_lt (Nat.one_lt_two_pow (by omega)))
  have hshift : (1#w <<< s).toNat = 2 ^ s := by
    rw [BitVec.toNat_shiftLeft, hone, Nat.one_shiftLeft, Nat.mod_eq_of_lt hlt]
  have hmask : ((1#w <<< s) - 1#w).toNat = 2 ^ s - 1 := by
    rw [BitVec.toNat_sub_of_le (by rw [BitVec.le_def, hone, hshift]; exact hpos), hshift, hone]
  refine Nat.eq_of_testBit_eq fun i => ?_
  rw [BitVec.toNat_and, Nat.testBit_and, BitVec.toNat_not, hmask,
    ← Nat.shiftRight_eq_div_pow, ← Nat.shiftLeft_eq, Nat.testBit_shiftLeft,
    Nat.testBit_shiftRight]
  have hnot : 2 ^ w - 1 - (2 ^ s - 1) = 2 ^ w - (2 ^ s - 1 + 1) := by omega
  rw [hnot, Nat.testBit_two_pow_sub_succ (by omega), Nat.testBit_two_pow_sub_one]
  by_cases hi : s ≤ i
  · rw [Nat.add_sub_cancel' hi]
    by_cases hw : i < w
    · simp [hi, hw, Nat.not_lt.mpr hi]
    · have hfalse : x.toNat.testBit i = false :=
        Nat.testBit_lt_two_pow (Nat.lt_of_lt_of_le x.isLt
          (Nat.pow_le_pow_right (by decide) (Nat.not_lt.mp hw)))
      simp [hfalse]
  · simp [hi, Nat.not_le.mp hi]

end Limbs
