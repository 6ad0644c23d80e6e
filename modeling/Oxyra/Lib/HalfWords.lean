import Mathlib

/-!
# Words in halves

A 64-bit word is split into two halves of 32 bits and put together again, and a product of two
words is the sum of the four products of their halves. Multiplications that compute both words of a
product from 64-bit operations are verified with these facts.
-/

namespace HalfWords

def low (a : UInt64) : UInt64 := a &&& 0xFFFFFFFF

def high (a : UInt64) : UInt64 := a >>> 32

theorem toNat_low (a : UInt64) : (low a).toNat = a.toNat % 2 ^ 32 := by
  rw [low, UInt64.toNat_and]
  exact Nat.and_two_pow_sub_one_eq_mod a.toNat 32

theorem toNat_high (a : UInt64) : (high a).toNat = a.toNat / 2 ^ 32 := by
  rw [high, UInt64.toNat_shiftRight]
  exact Nat.shiftRight_eq_div_pow a.toNat 32

theorem toNat_low_lt (a : UInt64) : (low a).toNat < 2 ^ 32 := by
  rw [toNat_low]
  omega

theorem toNat_high_lt (a : UInt64) : (high a).toNat < 2 ^ 32 := by
  have h := a.toNat_lt
  rw [toNat_high]
  omega

theorem toNat_shiftUp (a : UInt64) : (a <<< 32).toNat = a.toNat % 2 ^ 32 * 2 ^ 32 := by
  rw [UInt64.toNat_shiftLeft, show (32 : UInt64).toNat % 64 = 32 from rfl, Nat.shiftLeft_eq]
  omega

theorem toNat_join (high : UInt64) {low : UInt64} (h : low.toNat < 2 ^ 32) :
    (high <<< 32 ||| low).toNat = high.toNat % 2 ^ 32 * 2 ^ 32 + low.toNat := by
  rw [UInt64.toNat_or, toNat_shiftUp, Nat.mul_comm, Nat.two_pow_add_eq_or_of_lt h]

theorem toNat_carry (a b : UInt64) :
    (if a + b < a then (1 : UInt64) else 0).toNat = (a.toNat + b.toNat) / 2 ^ 64 := by
  have ha := a.toNat_lt
  have hb := b.toNat_lt
  simp only [UInt64.lt_iff_toNat_lt, UInt64.toNat_add]
  split
  · show 1 = _
    omega
  · show 0 = _
    omega

theorem toNat_mul_halves {a b : UInt64} (ha : a.toNat < 2 ^ 32) (hb : b.toNat < 2 ^ 32) :
    (a * b).toNat = a.toNat * b.toNat ∧ a.toNat * b.toNat ≤ 2 ^ 64 - 2 * 2 ^ 32 + 1 := by
  have hle : a.toNat * b.toNat ≤ 2 ^ 64 - 2 * 2 ^ 32 + 1 :=
    calc a.toNat * b.toNat ≤ (2 ^ 32 - 1) * (2 ^ 32 - 1) := Nat.mul_le_mul (by omega) (by omega)
      _ = 2 ^ 64 - 2 * 2 ^ 32 + 1 := by norm_num
  exact ⟨by rw [UInt64.toNat_mul, Nat.mod_eq_of_lt (by omega)], hle⟩

/-- **A product by halves**: the four products of halves, which fit in words, and what they add up
to. -/
theorem mul_eq_halves (x y : UInt64) :
    x.toNat * y.toNat = (high x * high y).toNat * 2 ^ 64 +
        ((high x * low y).toNat + (low x * high y).toNat) * 2 ^ 32 + (low x * low y).toNat ∧
      (high x * high y).toNat ≤ 2 ^ 64 - 2 * 2 ^ 32 + 1 ∧
      (high x * low y).toNat ≤ 2 ^ 64 - 2 * 2 ^ 32 + 1 ∧
      (low x * high y).toNat ≤ 2 ^ 64 - 2 * 2 ^ 32 + 1 ∧
      (low x * low y).toNat ≤ 2 ^ 64 - 2 * 2 ^ 32 + 1 := by
  obtain ⟨hhh, hhh'⟩ := toNat_mul_halves (toNat_high_lt x) (toNat_high_lt y)
  obtain ⟨hhl, hhl'⟩ := toNat_mul_halves (toNat_high_lt x) (toNat_low_lt y)
  obtain ⟨hlh, hlh'⟩ := toNat_mul_halves (toNat_low_lt x) (toNat_high_lt y)
  obtain ⟨hll, hll'⟩ := toNat_mul_halves (toNat_low_lt x) (toNat_low_lt y)
  have hx : x.toNat = 2 ^ 32 * (high x).toNat + (low x).toNat := by
    rw [toNat_high, toNat_low, Nat.div_add_mod]
  have hy : y.toNat = 2 ^ 32 * (high y).toNat + (low y).toNat := by
    rw [toNat_high, toNat_low, Nat.div_add_mod]
  rw [hhh, hhl, hlh, hll]
  refine ⟨?_, hhh', hhl', hlh', hll'⟩
  calc x.toNat * y.toNat
      = (2 ^ 32 * (high x).toNat + (low x).toNat) * (2 ^ 32 * (high y).toNat + (low y).toNat) := by
        rw [hx, hy]
    _ = _ := by ring

end HalfWords
