import Oxyra.Core.Fee
import Oxyra.Logic.Regtest

/-!
# The suggested fee

Once coins exist the block reward is zero, and the two sides of the fee rule
part: every formula of the estimator is a multiple of the reward, so it suggests
nothing, while the verifier never asks for less than one unit per byte.
-/

namespace Oxyra

/-! ## The verifier without a reward -/

theorem baseRewardOf_ne_zero {agc : UInt64} (h : agc ≠ 0) : baseRewardOf agc = 0 := by
  simp [baseRewardOf, h]

@[simp] theorem getDynamicBaseFee_zero (medianBlockWeight : UInt64) :
    getDynamicBaseFee 0 medianBlockWeight = 1 := by
  simp [getDynamicBaseFee]

theorem quantizeFee_eq_zero_iff (fee : UInt64) :
    quantizeFee fee = 0 ↔ fee = 0 ∨ 2 ^ 64 < fee.toNat + getFeeQuantizationMask.toNat := by
  have hlt := fee.toNat_lt
  simp only [← UInt64.toNat_inj, quantizeFee, getFeeQuantizationMask, UInt64.toNat_mul,
    UInt64.toNat_div, UInt64.toNat_sub, UInt64.toNat_add, UInt64.toNat_ofNat]
  norm_num
  omega

theorem sub_div_fifty_eq_zero_iff (n : UInt64) : n - n / 50 = 0 ↔ n = 0 := by
  have hle : n / 50 ≤ n := by
    rw [UInt64.le_iff_toNat_le, UInt64.toNat_div]
    exact Nat.div_le_self _ _
  have hfifty : (n / 50).toNat = n.toNat / 50 := UInt64.toNat_div n 50
  rw [← UInt64.toNat_inj, ← UInt64.toNat_inj, UInt64.toNat_sub_of_le _ _ hle, hfifty]
  change n.toNat - n.toNat / 50 = 0 ↔ n.toNat = 0
  omega

theorem feeEnough_zero_iff (median txWeight : UInt64) :
    feeEnough 0 median txWeight 0 = true ↔ quantizeFee txWeight = 0 := by
  simp [feeEnough, sub_div_fifty_eq_zero_iff]

/-! ## The estimator without a reward -/

theorem divide?_zero {b q : UInt64} (h : divide? 0 b = some q) : q = 0 := by
  unfold divide? at h
  split at h
  · cases h
  · simpa using h.symm

/-- **Without a reward the estimator suggests nothing**, four times, whenever it
answers. -/
theorem estimate_zero {mnw mlw : UInt64} {fees : List UInt64}
    (h : getDynamicBaseFeeEstimate2021Scaling 0 mnw mlw = some fees) :
    fees = [0, 0, 0, 0] := by
  simp only [getDynamicBaseFeeEstimate2021Scaling, zero_mul, mul_zero, Option.bind_eq_bind,
    Option.bind_eq_some_iff] at h
  obtain ⟨fl, hfl, fn, hfn, fm, hfm, fh, hfh, hround⟩ := h
  cases divide?_zero hfl
  cases divide?_zero hfn
  cases divide?_zero hfm
  rw [mul_zero, zero_mul] at hfh
  cases divide?_zero hfh
  have hmax : max (0 : UInt64) 0 = 0 := by decide
  have hzero : roundMoneyUp 0 feeRoundingPlaces = some 0 := by decide
  simpa [hmax, hzero] using hround.symm

namespace Blockchain

variable {e : Env} {s : Blockchain} {graceBlocks : Nat} {fees : List UInt64}

theorem estimate_of_coins (hcoins : s.chain.topAlreadyGeneratedCoins ≠ 0)
    (h : s.getDynamicBaseFeeEstimate2021Scaling e graceBlocks = some fees) :
    fees = [0, 0, 0, 0] := by
  simp only [getDynamicBaseFeeEstimate2021Scaling, getBlockReward_eq,
    baseRewardOf_ne_zero hcoins, Option.getD_some] at h
  split at h
  · exact estimate_zero h
  · cases h

theorem checkFee_of_coins (hcoins : s.chain.topAlreadyGeneratedCoins ≠ 0)
    (txWeight fee : UInt64) :
    s.checkFee e txWeight fee =
      feeEnough 0 (min (s.weights.limit / 2) s.weights.longTermEffectiveMedian)
        txWeight fee := by
  simp only [checkFee, getBlockReward_eq, baseRewardOf_ne_zero hcoins]

/-- **The suggested fee is never enough for a transaction of a real weight.**
On a chain with coins, paying `txWeight` times any suggested fee, rounded up to
the mask, passes the fee check exactly for the weights so close to the end of
the 64-bit range that the verifier's own rounding wraps to nothing. -/
theorem suggested_fee_passes_iff (e : Env) (s : Blockchain) (graceBlocks : Nat)
    (fees : List UInt64) (txWeight : UInt64)
    (hcoins : s.chain.topAlreadyGeneratedCoins ≠ 0) (hweight : 1 ≤ txWeight)
    (hfees : s.getDynamicBaseFeeEstimate2021Scaling e graceBlocks = some fees) :
    (∀ fee ∈ fees, txWeight.toNat * fee.toNat < 2 ^ 63 →
      s.checkFee e txWeight (quantizeFee (txWeight * fee)) = true) ↔
    2 ^ 64 < txWeight.toNat + getFeeQuantizationMask.toNat := by
  have hne : txWeight ≠ 0 := by
    rintro rfl
    exact absurd hweight (by decide)
  have hnothing : quantizeFee 0 = 0 := by decide
  have hpass : s.checkFee e txWeight 0 = true ↔
      2 ^ 64 < txWeight.toNat + getFeeQuantizationMask.toNat := by
    rw [checkFee_of_coins hcoins, feeEnough_zero_iff, quantizeFee_eq_zero_iff]
    simp [hne]
  rw [estimate_of_coins hcoins hfees, ← hpass]
  simp [hnothing]

def funded : Blockchain :=
  ({} : Blockchain).withGenesis (regtest firstVersion) (regtestGenesis 1 [moneySupply]) {}

theorem suggested_fee_passes_wrapped :
    funded.getDynamicBaseFeeEstimate2021Scaling (regtest (schedule 1 [])) 10
        = some [0, 0, 0, 0] ∧
      funded.checkFee (regtest (schedule 1 [])) (UInt64.ofNat (2 ^ 64 - 1))
        (quantizeFee (UInt64.ofNat (2 ^ 64 - 1) * 0)) = true := by
  have hfees : funded.getDynamicBaseFeeEstimate2021Scaling (regtest (schedule 1 [])) 10
      = some [0, 0, 0, 0] := by
    decide +kernel
  refine ⟨hfees, (suggested_fee_passes_iff _ funded 10 _ (UInt64.ofNat (2 ^ 64 - 1))
    ?_ ?_ hfees).mpr ?_ 0 (by simp) ?_⟩ <;> decide +kernel

/-- **A suggested fee that is refused.** After the genesis block the suggestions
for ten grace blocks are nothing, and a transaction of weight 3000 that pays
nothing is told to pay 9800 at least. -/
theorem suggested_fee_refused :
    funded.chain.length = 1 ∧ funded.chain.topAlreadyGeneratedCoins = moneySupply ∧
      funded.getDynamicBaseFeeEstimate2021Scaling (regtest (schedule 1 [])) 10
        = some [0, 0, 0, 0] ∧
      quantizeFee (3000 * 0) = 0 ∧
      funded.checkFee (regtest (schedule 1 [])) 3000 (quantizeFee (3000 * 0)) = false ∧
      funded.checkFee (regtest (schedule 1 [])) 3000 9799 = false ∧
      funded.checkFee (regtest (schedule 1 [])) 3000 9800 = true := by
  refine ⟨?_, ?_, ?_, ?_, ?_, ?_, ?_⟩ <;> decide +kernel

end Blockchain

end Oxyra
