import Mathlib

/-!
# Sums of machine words

Accumulator loops over 64-bit words, against sums of natural numbers. A loop
`acc += f x` is the ring sum of its terms (`foldl_add`), a ring sum is the
natural sum reduced modulo 2^64 (`toNat_sum`), and a loop that watches for wrap
(`addsWithoutWrap`) passes exactly when the natural sum fits.
-/

namespace WordSum

variable {α : Type}

theorem foldl_add (f : α → UInt64) (acc : UInt64) (l : List α) :
    l.foldl (fun acc x => acc + f x) acc = acc + (l.map f).sum := by
  induction l generalizing acc with
  | nil => simp
  | cons x l ih => simp [ih, add_assoc]

def natSum (l : List UInt64) : Nat := (l.map UInt64.toNat).sum

@[simp] theorem natSum_nil : natSum [] = 0 := rfl

@[simp] theorem natSum_cons (x : UInt64) (l : List UInt64) :
    natSum (x :: l) = x.toNat + natSum l := by simp [natSum]

@[simp] theorem natSum_append (l l' : List UInt64) :
    natSum (l ++ l') = natSum l + natSum l' := by simp [natSum]

theorem toNat_sum (l : List UInt64) : l.sum.toNat = natSum l % 2 ^ 64 := by
  induction l with
  | nil => rfl
  | cons x l ih =>
    rw [List.sum_cons, UInt64.toNat_add, ih, natSum_cons]
    omega

theorem toNat_sum_of_lt {l : List UInt64} (h : natSum l < 2 ^ 64) : l.sum.toNat = natSum l := by
  rw [toNat_sum, Nat.mod_eq_of_lt h]

theorem sum_eq_zero_iff (l : List UInt64) : l.sum = 0 ↔ natSum l % 2 ^ 64 = 0 := by
  rw [← toNat_sum, ← UInt64.toNat_inj]
  rfl

/-- A loop that stops when an addition wraps. -/
def addsWithoutWrap (money : UInt64) : List UInt64 → Bool
  | [] => true
  | x :: rest => if money > x + money then false else addsWithoutWrap (money + x) rest

theorem addsWithoutWrap_iff (money : UInt64) (l : List UInt64) :
    addsWithoutWrap money l = true ↔ money.toNat + natSum l < 2 ^ 64 := by
  induction l generalizing money with
  | nil => simpa [addsWithoutWrap] using money.toNat_lt
  | cons x l ih =>
    have hx := x.toNat_lt
    have hm := money.toNat_lt
    have hadd : (x + money).toNat = (x.toNat + money.toNat) % 2 ^ 64 := UInt64.toNat_add _ _
    unfold addsWithoutWrap
    rw [natSum_cons]
    split
    · -- the check fires: the addition has wrapped, so the sum is too large
      rename_i hgt
      have : (x + money).toNat < money.toNat := hgt
      simp only [Bool.false_eq_true, false_iff]
      omega
    · rename_i hle
      have hle' : money.toNat ≤ (x + money).toNat := Nat.le_of_not_lt hle
      have hsum : (money + x).toNat = money.toNat + x.toNat := by
        rw [UInt64.toNat_add]
        omega
      rw [ih, hsum, Nat.add_assoc]

theorem le_max_right (a b : UInt64) : b ≤ max a b := by
  rw [show max a b = if a ≤ b then b else a from rfl]
  split
  · exact UInt64.le_refl b
  · rename_i h
    exact UInt64.le_of_lt (UInt64.not_le.mp h)

/-- Twice a word is even, so it is not the largest one. -/
theorem mul_two_lt_max (w : UInt64) : w * 2 < 18446744073709551615 := by
  rw [UInt64.lt_iff_toNat_lt, UInt64.toNat_mul]
  simp only [UInt64.reduceToNat]
  omega

theorem toNat_mul_two {w : UInt64} (h : w.toNat < 2 ^ 63) : (w * 2).toNat = 2 * w.toNat := by
  rw [UInt64.toNat_mul]
  simp only [UInt64.reduceToNat]
  omega

end WordSum
