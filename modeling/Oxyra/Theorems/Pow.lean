import Oxyra.Core.DifficultyWords

/-!
# The proof-of-work check is exact

* Both multiplications give the two words of the product (`mul_spec`).
* With that, the carry chain of `check_hash_64` is the one of the abstract test over numbers, and
  the 512-bit product of `check_hash_128` does not wrap.
* `check_hash_exact`: a hash passes exactly if its product with the difficulty is below 2^256.
-/

namespace Oxyra.Words

open HalfWords

structure IsProduct (a b : UInt64) (r : UInt64 × UInt64) : Prop where
  low : r.1.toNat = a.toNat * b.toNat % 2 ^ 64
  high : r.2.toNat = a.toNat * b.toNat / 2 ^ 64

theorem mul128_spec (x y : UInt64) : IsProduct x y (mul128 x y) := by
  obtain ⟨hprod, hac, had, hbc, hbd⟩ := mul_eq_halves x y
  unfold mul128
  dsimp only
  generalize high x * high y = ac at *
  generalize high x * low y = ad at *
  generalize low x * high y = bc at *
  generalize low x * low y = bd at *
  constructor
  · rw [hprod, UInt64.toNat_add, toNat_shiftUp, UInt64.toNat_add]
    omega
  · dsimp only
    rw [hprod]
    have hlow : ((ad + bc) <<< 32).toNat = (ad.toNat + bc.toNat) % 2 ^ 32 * 2 ^ 32 := by
      rw [toNat_shiftUp, UInt64.toNat_add]
      omega
    simp only [UInt64.toNat_add, toNat_high, toNat_shiftUp (if _ then _ else _), toNat_carry, hlow]
    omega

theorem mulPortable_spec (x y : UInt64) : IsProduct x y (mulPortable x y) := by
  obtain ⟨hprod, hhh, hhl, hlh, hll⟩ := mul_eq_halves x y
  unfold mulPortable
  dsimp only
  generalize high x * high y = hh at *
  generalize high x * low y = hl at *
  generalize low x * high y = lh at *
  generalize low x * low y = ll at *
  constructor
  · rw [hprod, toNat_join _ (toNat_low_lt _)]
    simp only [UInt64.toNat_add, toNat_low, toNat_high]
    omega
  · dsimp only
    rw [hprod, UInt64.or_comm, toNat_join _ (toNat_low_lt _)]
    simp only [UInt64.toNat_add, toNat_low, toNat_high]
    omega

/-- **Both multiplications are exact.** -/
theorem mul_spec (p : Platform) (x y : UInt64) : IsProduct x y (mul p x y) := by
  cases p with
  | x86 => exact mul128_spec x y
  | other => exact mulPortable_spec x y

/-! ## The carry chain -/

theorem toNat_word (h : Hash) (i : Nat) : (word h i).toNat = hashWord h i := by
  show (h.extractLsb' (64 * i) 64).toNat = _
  rw [BitVec.extractLsb'_toNat, Nat.shiftRight_eq_div_pow]
  rfl

theorem cadd_eq (a b : UInt64) : cadd a b = Oxyra.cadd a.toNat b.toNat := by
  simp only [cadd, Oxyra.cadd, UInt64.lt_iff_toNat_lt, UInt64.toNat_add]

theorem cadc_eq (a b : UInt64) (c : Bool) : cadc a b c = Oxyra.cadc a.toNat b.toNat c := by
  have hmax : a + b = 0xFFFFFFFFFFFFFFFF ↔ (a.toNat + b.toNat) % 2 ^ 64 = 2 ^ 64 - 1 := by
    rw [← UInt64.toNat_inj, UInt64.toNat_add]
    rfl
  simp only [cadc, Oxyra.cadc, UInt64.lt_iff_toNat_lt, UInt64.toNat_add, hmax]

theorem checkHash64_eq (p : Platform) (h : Hash) (d : UInt64) :
    checkHash64 p h d = Oxyra.checkHash64 h d.toNat := by
  have hlow : ∀ i, (mul p (word h i) d).1.toNat = hashWord h i * d.toNat % 2 ^ 64 := fun i => by
    rw [(mul_spec p (word h i) d).low, toNat_word]
  have hhigh : ∀ i, (mul p (word h i) d).2.toNat = hashWord h i * d.toNat / 2 ^ 64 := fun i => by
    rw [(mul_spec p (word h i) d).high, toNat_word]
  have htop : (mul p (word h 3) d).2 ≠ 0 ↔ hashWord h 3 * d.toNat / 2 ^ 64 ≠ 0 := by
    rw [← hhigh, Ne, Ne, ← UInt64.toNat_inj]
    rfl
  simp only [checkHash64, Oxyra.checkHash64, htop, cadd_eq, cadc_eq, hlow, hhigh]

/-! ## The wide product -/

theorem toNat_shiftIn {n : Nat} {x : BitVec n} {w : UInt64}
    (h : x.toNat * 2 ^ 64 + w.toNat < 2 ^ n) :
    (x <<< 64 ||| w.toBitVec.setWidth n).toNat = x.toNat * 2 ^ 64 + w.toNat := by
  have hset : (w.toBitVec.setWidth n).toNat = w.toNat := by
    rw [BitVec.toNat_setWidth, UInt64.toNat_toBitVec]
    exact Nat.mod_eq_of_lt (lt_of_le_of_lt (Nat.le_add_left _ _) h)
  have hshift : (x <<< 64).toNat = x.toNat * 2 ^ 64 := by
    rw [BitVec.toNat_shiftLeft, Nat.shiftLeft_eq]
    exact Nat.mod_eq_of_lt (lt_of_le_of_lt (Nat.le_add_right _ _) h)
  rw [BitVec.toNat_or, hset, hshift, Nat.mul_comm, Nat.two_pow_add_eq_or_of_lt w.toNat_lt]

theorem lt_pow_512 {n k : Nat} (h : n < 2 ^ k) (hk : k ≤ 512) : n < 2 ^ 512 :=
  lt_of_lt_of_le h (Nat.pow_le_pow_right (Nat.succ_pos 1) hk)

theorem horner_words {w3 w2 w1 w0 : Nat} (h3 : w3 < 2 ^ 64) (h2 : w2 < 2 ^ 64) (h1 : w1 < 2 ^ 64)
    (h0 : w0 < 2 ^ 64) :
    w3 < 2 ^ 256 ∧ w3 * 2 ^ 64 + w2 < 2 ^ 256 ∧ (w3 * 2 ^ 64 + w2) * 2 ^ 64 + w1 < 2 ^ 256 ∧
      ((w3 * 2 ^ 64 + w2) * 2 ^ 64 + w1) * 2 ^ 64 + w0 < 2 ^ 256 ∧
      ((w3 * 2 ^ 64 + w2) * 2 ^ 64 + w1) * 2 ^ 64 + w0 =
        w0 + w1 * 2 ^ 64 + w2 * 2 ^ 128 + w3 * 2 ^ 192 := by
  refine ⟨?_, ?_, ?_, ?_, ?_⟩ <;> omega

theorem toNat_hashVal (h : Hash) : (hashVal h).toNat = h.toNat := by
  have hw : ∀ i, (word h i).toNat < 2 ^ 64 := fun i => (word h i).toNat_lt
  obtain ⟨b3, b2, b1, b0, hsum⟩ := horner_words (hw 3) (hw 2) (hw 1) (hw 0)
  have hzero : (0 : BitVec 512).toNat = 0 := @BitVec.toNat_zero 512
  have s3 : ((0 : BitVec 512) <<< 64 ||| (word h 3).toBitVec.setWidth 512).toNat =
      (word h 3).toNat := by
    rw [toNat_shiftIn]
    · rw [hzero, Nat.zero_mul, Nat.zero_add]
    · rw [hzero, Nat.zero_mul, Nat.zero_add]
      exact lt_pow_512 b3 (by decide)
  have s2 := @toNat_shiftIn 512 _ (word h 2) (by rw [s3]; exact lt_pow_512 b2 (by decide))
  rw [s3] at s2
  have s1 := @toNat_shiftIn 512 _ (word h 1) (by rw [s2]; exact lt_pow_512 b1 (by decide))
  rw [s2] at s1
  have s0 := @toNat_shiftIn 512 _ (word h 0) (by rw [s1]; exact lt_pow_512 b0 (by decide))
  rw [s1, hsum, toNat_word, toNat_word, toNat_word, toNat_word, ← hashWord_sum] at s0
  exact s0

theorem checkHash128_iff (h : Hash) (d : BitVec 128) :
    checkHash128 h d = true ↔ h.toNat * d.toNat < 2 ^ 256 := by
  have hprod : h.toNat * d.toNat < 2 ^ 512 := by
    have hlt : h.toNat * d.toNat < 2 ^ 256 * 2 ^ 128 := Nat.mul_lt_mul'' h.isLt d.isLt
    rw [← Nat.pow_add] at hlt
    exact lt_pow_512 hlt (by decide)
  have hd : d.toNat < 2 ^ 512 := lt_pow_512 d.isLt (by decide)
  have hmax : (BitVec.ofNat 512 (2 ^ 256 - 1)).toNat = 2 ^ 256 - 1 := by
    rw [BitVec.toNat_ofNat]
    exact Nat.mod_eq_of_lt (lt_pow_512 (by norm_num : 2 ^ 256 - 1 < 2 ^ 256) (by decide))
  have hmul : (hashVal h * d.setWidth 512).toNat = h.toNat * d.toNat := by
    rw [BitVec.toNat_mul, toNat_hashVal, BitVec.toNat_setWidth, Nat.mod_eq_of_lt hd,
      Nat.mod_eq_of_lt hprod]
  rw [checkHash128, decide_eq_true_eq, BitVec.le_def, hmul, hmax]
  exact Nat.le_sub_one_iff_lt (by norm_num)

theorem checkHash64_iff (p : Platform) (h : Hash) (d : UInt64) :
    checkHash64 p h d = true ↔ h.toNat * d.toNat < 2 ^ 256 := by
  rw [checkHash64_eq]
  exact Oxyra.checkHash64_iff h d.toNat_lt

theorem checkHash_iff (p : Platform) (h : Hash) (d : BitVec 128) :
    checkHash p h d = true ↔ h.toNat * d.toNat < 2 ^ 256 := by
  unfold checkHash
  split
  · rename_i hle
    have hd : (⟨d.setWidth 64⟩ : UInt64).toNat = d.toNat := by
      show (d.setWidth 64).toNat = _
      rw [BitVec.toNat_setWidth]
      exact Nat.mod_eq_of_lt (Nat.lt_succ_of_le (BitVec.le_def.mp hle))
    rw [checkHash64_iff, hd]
  · exact checkHash128_iff h d

/-- **The proof-of-work check is exact.** On every platform, for every hash and every 128-bit
difficulty, the check passes exactly if their product is below 2^256. Where a difficulty fits in 64
bits, both paths agree. -/
theorem check_hash_exact (p : Platform) :
    (∀ (h : Hash) (d : BitVec 128), checkHash p h d = true ↔ h.toNat * d.toNat < 2 ^ 256) ∧
    ∀ (h : Hash) (d : UInt64), checkHash64 p h d = checkHash128 h (d.toBitVec.setWidth 128) := by
  refine ⟨checkHash_iff p, fun h d => ?_⟩
  have hd : (d.toBitVec.setWidth 128).toNat = d.toNat := by
    have := d.toNat_lt
    rw [BitVec.toNat_setWidth, UInt64.toNat_toBitVec]
    exact Nat.mod_eq_of_lt (by omega)
  rw [Bool.eq_iff_iff, checkHash64_iff, checkHash128_iff, hd]

end Oxyra.Words
