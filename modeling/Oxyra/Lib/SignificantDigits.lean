import Mathlib

/-!
# Rounding up to significant digits

The numbers that have at most `d` significant digits in base `b`, and the least of them from a
number on. A number with more digits is cut behind the first `d`; if anything other than zeros is
cut off, the part that is kept goes up by one (`roundsUp_cut`).
-/

namespace SignificantDigits

variable {b d k n head tail r s : Nat}

/-- `n` is written with at most `d` digits, and zeros. -/
def Few (b d n : Nat) : Prop := ∃ m e, m < b ^ d ∧ n = m * b ^ e

/-- `r` is the least such number that is not below `n`. -/
def RoundsUp (b d n r : Nat) : Prop := IsLeast {m | n ≤ m ∧ Few b d m} r

theorem roundsUp_self (h : Few b d n) : RoundsUp b d n n :=
  ⟨⟨Nat.le_refl n, h⟩, fun _ hm => hm.1⟩

/-- **Cut behind the first digits, a number goes up to the next one.** -/
theorem roundsUp_cut (hb : 1 < b) (hd : 0 < d) (hn : n = head * b ^ k + tail) (htail : 0 < tail)
    (hcut : tail < b ^ k) (hhead : head < b ^ d) (hlead : b ^ (d + k - 1) ≤ n) :
    RoundsUp b d n ((head + 1) * b ^ k) := by
  have hpos : 0 < b ^ k := Nat.pow_pos (by omega)
  refine ⟨⟨?_, ?_⟩, ?_⟩
  · rw [hn, Nat.add_mul, Nat.one_mul]
    omega
  · rcases Nat.lt_or_ge (head + 1) (b ^ d) with hlt | hge
    · exact ⟨head + 1, k, hlt, rfl⟩
    · -- a carry out of the first digit
      refine ⟨1, d + k, Nat.one_lt_pow hd.ne' hb, ?_⟩
      rw [Nat.one_mul, Nat.pow_add, show head + 1 = b ^ d by omega]
  · rintro m ⟨hm, c, e, hc, rfl⟩
    rcases Nat.lt_or_ge e k with hek | hke
    · -- too few zeros: then the number is shorter than `n`
      have hshort : c * b ^ e < b ^ (d + k - 1) :=
        calc c * b ^ e < b ^ d * b ^ e := Nat.mul_lt_mul_of_pos_right hc (Nat.pow_pos (by omega))
          _ = b ^ (d + e) := (Nat.pow_add b d e).symm
          _ ≤ b ^ (d + k - 1) := Nat.pow_le_pow_right (by omega) (by omega)
      omega
    · obtain ⟨j, rfl⟩ := Nat.exists_eq_add_of_le hke
      have hsplit : c * b ^ (k + j) = c * b ^ j * b ^ k := by rw [Nat.pow_add]; ring
      have hlt : head * b ^ k < c * b ^ j * b ^ k := by omega
      rw [hsplit]
      exact Nat.mul_le_mul_right _ (Nat.lt_of_mul_lt_mul_right hlt)

theorem RoundsUp.unique (hr : RoundsUp b d n r) (hs : RoundsUp b d n s) : r = s :=
  IsLeast.unique hr hs

theorem RoundsUp.mono {n' : Nat} (hr : RoundsUp b d n r) (hs : RoundsUp b d n' s) (h : n ≤ n') :
    r ≤ s :=
  hr.2 ⟨h.trans hs.1.1, hs.1.2⟩

theorem RoundsUp.again (hr : RoundsUp b d n r) : RoundsUp b d r r := roundsUp_self hr.1.2

end SignificantDigits
