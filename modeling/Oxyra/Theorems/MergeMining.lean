import Oxyra.Core.MergeMining

/-!
# The depth of merge mining is read back

The loop finds a width of at most eight bits for the number of chains, and the three fields
of the word do not overlap. So they are read back, and no two pairs share a word.
-/

namespace Oxyra.MergeMining

theorem countBits_spec (n nBits : Nat) {top : Nat} (htop : n ≤ 2 ^ top) (hle : nBits ≤ top) :
    n ≤ 2 ^ countBits n nBits ∧ nBits ≤ countBits n nBits ∧ countBits n nBits ≤ top := by
  fun_induction countBits n nBits with
  | case1 nBits hlt ih =>
    have hne : nBits ≠ top := by
      rintro rfl
      omega
    obtain ⟨hfits, hlow, hhigh⟩ := ih (by omega)
    exact ⟨hfits, by omega, hhigh⟩
  | case2 nBits hge => exact ⟨by omega, le_rfl, hle⟩

theorem or_shiftLeft {low i : Nat} (hlow : low < 2 ^ i) (high : Nat) :
    low ||| high <<< i = low + 2 ^ i * high := by
  rw [Nat.or_comm, Nat.shiftLeft_eq, Nat.mul_comm, ← Nat.two_pow_add_eq_or_of_lt hlow, Nat.add_comm]

section Fields

variable {n nonce nBits : UInt32} {b : Nat}

theorem toNat_low (hbits : nBits.toNat = b + 1) (hb : b < 8) (hpos : 1 ≤ n)
    (hfits : n.toNat ≤ 2 ^ (b + 1)) :
    ((nBits - (1 : UInt32)) ||| ((n - (1 : UInt32)) <<< (3 : UInt32))).toNat =
      b + 2 ^ 3 * (n.toNat - 1) := by
  have hpow : 2 ^ (b + 1) ≤ 2 ^ 8 := Nat.pow_le_pow_right (by decide) hb
  have hone : (1 : UInt32).toNat = 1 := rfl
  have hwidth : (nBits - 1).toNat = b := by
    rw [UInt32.toNat_sub_of_le _ _ (UInt32.le_iff_toNat_le.mpr (by omega)), hbits, hone,
      Nat.add_sub_cancel]
  rw [UInt32.toNat_or, hwidth, UInt32.toNat_shiftLeft, UInt32.toNat_sub_of_le _ _ hpos, hone,
    show (3 : UInt32).toNat % 32 = 3 from rfl, Nat.shiftLeft_eq,
    Nat.mod_eq_of_lt (a := (n.toNat - 1) * 2 ^ 3) (by omega), ← Nat.shiftLeft_eq, or_shiftLeft hb]

theorem toNat_shift (hbits : nBits.toNat = b + 1) (hb : b < 8) :
    ((3 : UInt32) + nBits).toUInt64.toNat % 64 = 3 + (b + 1) := by
  rw [UInt32.toNat_toUInt64, UInt32.toNat_add, hbits, show (3 : UInt32).toNat = 3 from rfl]
  omega

theorem toNat_fields (hbits : nBits.toNat = b + 1) (hb : b < 8) (hpos : 1 ≤ n)
    (hfits : n.toNat ≤ 2 ^ (b + 1)) :
    (((nBits - (1 : UInt32)) ||| ((n - (1 : UInt32)) <<< (3 : UInt32))).toUInt64 |||
        nonce.toUInt64 <<< ((3 : UInt32) + nBits).toUInt64).toNat =
      b + 2 ^ 3 * ((n.toNat - 1) + 2 ^ (b + 1) * nonce.toNat) := by
  have hpos' : 1 ≤ n.toNat := UInt32.le_iff_toNat_le.mp hpos
  have hlow : b + 2 ^ 3 * (n.toNat - 1) < 2 ^ (3 + (b + 1)) := by
    rw [Nat.pow_add]
    omega
  have hhigh : nonce.toNat * 2 ^ (3 + (b + 1)) < 2 ^ 64 :=
    calc nonce.toNat * 2 ^ (3 + (b + 1))
        < 2 ^ 32 * 2 ^ (3 + (b + 1)) := Nat.mul_lt_mul_of_pos_right nonce.toNat_lt
          (Nat.two_pow_pos _)
      _ ≤ 2 ^ 32 * 2 ^ 11 := Nat.mul_le_mul_left _ (Nat.pow_le_pow_right (by decide) (by omega))
      _ ≤ 2 ^ 64 := by decide
  rw [UInt64.toNat_or, UInt32.toNat_toUInt64, toNat_low hbits hb hpos hfits,
    UInt64.toNat_shiftLeft, toNat_shift hbits hb, UInt32.toNat_toUInt64, Nat.shiftLeft_eq,
    Nat.mod_eq_of_lt hhigh, ← Nat.shiftLeft_eq, or_shiftLeft hlow, Nat.pow_add]
  ring

theorem decodeMmDepth_eq {depth : UInt64} (hb : b < 8) (hpos : 1 ≤ n)
    (hfits : n.toNat ≤ 2 ^ (b + 1))
    (h : depth.toNat = b + 2 ^ 3 * ((n.toNat - 1) + 2 ^ (b + 1) * nonce.toNat)) :
    decodeMmDepth depth = (true, n, nonce) := by
  have hpos' : 1 ≤ n.toNat := UInt32.le_iff_toNat_le.mp hpos
  have hpow : 2 ^ (b + 1) ≤ 2 ^ 8 := Nat.pow_le_pow_right (by decide) hb
  have hbits : ((1 : UInt32) + (depth &&& 7).toUInt32).toNat = b + 1 := by
    have hmod : depth.toNat &&& 7 = b := by
      rw [Nat.and_two_pow_sub_one_eq_mod _ 3, h]
      omega
    rw [UInt32.toNat_add, UInt64.toNat_toUInt32, UInt64.toNat_and,
      show (7 : UInt64).toNat = 7 from rfl, hmod, show (1 : UInt32).toNat = 1 from rfl]
    omega
  rw [decodeMmDepth]
  generalize (1 : UInt32) + (depth &&& 7).toUInt32 = nBits at hbits
  have hmask : ((1 : UInt64) <<< nBits.toUInt64 - 1).toNat = 2 ^ (b + 1) - 1 := by
    have hone : ((1 : UInt64) <<< nBits.toUInt64).toNat = 2 ^ (b + 1) := by
      rw [UInt64.toNat_shiftLeft, UInt32.toNat_toUInt64, hbits,
        Nat.mod_eq_of_lt (show b + 1 < 64 by omega), show (1 : UInt64).toNat = 1 from rfl,
        Nat.one_shiftLeft]
      exact Nat.mod_eq_of_lt (by omega)
    have hle : (1 : UInt64) ≤ (1 : UInt64) <<< nBits.toUInt64 :=
      UInt64.le_iff_toNat_le.mpr (hone ▸ Nat.one_le_two_pow)
    rw [UInt64.toNat_sub_of_le _ _ hle, hone]
    rfl
  have hrest : depth.toNat / 2 ^ 3 = (n.toNat - 1) + 2 ^ (b + 1) * nonce.toNat := by
    omega
  have hlt : n.toNat - 1 < 2 ^ (b + 1) := by omega
  have hchains : (1 + (depth >>> (3 : UInt64) &&& ((1 : UInt64) <<< nBits.toUInt64 - 1))).toNat =
      n.toNat := by
    rw [UInt64.toNat_add, UInt64.toNat_and, hmask, Nat.and_two_pow_sub_one_eq_mod,
      UInt64.toNat_shiftRight, show (3 : UInt64).toNat % 64 = 3 from rfl,
      Nat.shiftRight_eq_div_pow, hrest, Nat.add_mul_mod_self_left, Nat.mod_eq_of_lt hlt,
      show (1 : UInt64).toNat = 1 from rfl]
    omega
  have hnonce : (depth >>> ((3 : UInt32) + nBits).toUInt64).toNat = nonce.toNat := by
    rw [UInt64.toNat_shiftRight, toNat_shift hbits hb, Nat.shiftRight_eq_div_pow, Nat.pow_add,
      ← Nat.div_div_eq_div_mul, hrest, Nat.add_mul_div_left _ _ (Nat.two_pow_pos _),
      Nat.div_eq_of_lt hlt, Nat.zero_add]
  have hword {x : UInt64} {y : UInt32} (hxy : x.toNat = y.toNat) : x.toUInt32 = y := by
    rw [← UInt32.toNat_inj, UInt64.toNat_toUInt32, hxy, Nat.mod_eq_of_lt y.toNat_lt]
  rw [hword hchains, hword hnonce]

theorem encodeMmDepth_spec (nonce : UInt32) (hpos : 1 ≤ n) (hle : n ≤ 256) :
    ∃ depth, encodeMmDepth n nonce = .ok depth ∧ decodeMmDepth depth = (true, n, nonce) := by
  have hle' : n.toNat ≤ 2 ^ 8 := UInt32.le_iff_toNat_le.mp hle
  have hpos' : n > 0 := UInt32.lt_iff_toNat_lt.mpr (UInt32.le_iff_toNat_le.mp hpos)
  obtain ⟨hfits, hlow, hhigh⟩ := countBits_spec n.toNat 1 hle' (by decide)
  obtain ⟨b, hb⟩ := Nat.exists_eq_add_of_le' hlow
  rw [hb] at hfits hhigh
  have hbits : (UInt32.ofNat (countBits n.toNat 1)).toNat = b + 1 := by
    rw [hb, UInt32.toNat_ofNat', Nat.mod_eq_of_lt (by omega)]
  refine ⟨_, by rw [encodeMmDepth, if_neg (not_not_intro hpos'), if_neg (not_not_intro hle)], ?_⟩
  exact decodeMmDepth_eq hhigh hpos hfits (toNat_fields hbits hhigh hpos hfits)

end Fields

/-- **The number of chains and the nonce are read back from the depth**, and no other
pair is written as the same depth. -/
theorem mm_depth_codec (n nonce : UInt32) (hpos : 1 ≤ n) (hle : n ≤ 256) :
    ∃ depth, encodeMmDepth n nonce = .ok depth ∧ decodeMmDepth depth = (true, n, nonce) ∧
      ∀ n' nonce', 1 ≤ n' → n' ≤ 256 → encodeMmDepth n' nonce' = .ok depth →
        n' = n ∧ nonce' = nonce := by
  obtain ⟨depth, henc, hdec⟩ := encodeMmDepth_spec nonce hpos hle
  refine ⟨depth, henc, hdec, fun n' nonce' hpos' hle' henc' => ?_⟩
  obtain ⟨depth', hother, hdec'⟩ := encodeMmDepth_spec nonce' hpos' hle'
  obtain rfl : depth' = depth := Except.ok.inj (hother.symm.trans henc')
  have heq := hdec'.symm.trans hdec
  exact ⟨congrArg (·.2.1) heq, congrArg (·.2.2) heq⟩

/-- Three chains take two bits. -/
theorem mm_depth_codec_three :
    ∃ depth, encodeMmDepth 3 5 = .ok depth ∧ decodeMmDepth depth = (true, 3, 5) ∧
      ∀ n' nonce', 1 ≤ n' → n' ≤ 256 → encodeMmDepth n' nonce' = .ok depth →
        n' = 3 ∧ nonce' = 5 :=
  mm_depth_codec 3 5 (by decide) (by decide)

end Oxyra.MergeMining
