import Oxyra.Core.Blockchain

/-!
# Fees (`blockchain.cpp`)

* The verifier: `getDynamicBaseFee` is the least fee per byte, and `checkFee`
  asks a transaction for that much, rounded up to the quantization mask, less
  two percent.
* The estimator: `getDynamicBaseFeeEstimate2021Scaling` suggests four fees per
  byte, from its own medians and its own formulas.

The estimator multiplies in 64 bits and divides by products that may have
wrapped to zero. A division by zero and a throw are both `none`.
-/

namespace Oxyra

def dynamicFeeReferenceTransactionWeight : UInt64 := 3000

def feeRoundingPlaces : Nat := 2

def blockRewardOverestimate : UInt64 := 10 * 1000000000000

/-- `get_fee_quantization_mask`: the twelve decimals of a coin less the eight
that a fee may use. -/
def getFeeQuantizationMask : UInt64 := 10000

/-- A fee rounded up to a multiple of the mask, in 64 bits. -/
def quantizeFee (fee : UInt64) : UInt64 :=
  (fee + getFeeQuantizationMask - 1) / getFeeQuantizationMask * getFeeQuantizationMask

/-! ## The verifier -/

/-- `get_dynamic_base_fee`. The product and the two divisions are done in 128
bits, where nothing wraps. -/
def getDynamicBaseFee (blockReward medianBlockWeight : UInt64) : UInt64 :=
  let median := max medianBlockWeight fullRewardZoneV5
  let lo := UInt64.ofNat
    (blockReward.toNat * dynamicFeeReferenceTransactionWeight.toNat /
      median.toNat / median.toNat)
  let lo := lo - lo / 20
  if lo = 0 then 1 else lo

/-- The comparison at the end of `check_fee`. -/
def feeEnough (baseReward median txWeight fee : UInt64) : Bool :=
  let neededFee := quantizeFee (txWeight * getDynamicBaseFee baseReward median)
  !decide (fee < neededFee - neededFee / 50)

def Blockchain.checkFee (e : Env) (s : Blockchain) (txWeight fee : UInt64) : Bool :=
  let median := s.weights.limit / 2
  match getBlockReward median 1 s.chain.topAlreadyGeneratedCoins (s.hfVersion e) with
  | none => false
  | some baseReward =>
    feeEnough baseReward (min median s.weights.longTermEffectiveMedian) txWeight fee

/-! ## Rounding to significant digits -/

/-- The decimal digits of an amount, as `snprintf` writes them. -/
def decimalDigits (amount : UInt64) : List Nat :=
  if amount = 0 then [0] else (Nat.digits 10 amount.toNat).reverse

/-- The bumping loop of `round_money_up`: one is added to the last digit and
carried through the nines. The flag says that the carry went past the first. -/
def bumpDigits : List Nat → List Nat × Bool
  | [] => ([], true)
  | d :: ds =>
    let r := bumpDigits ds
    if r.2 then (if d = 9 then (0 :: r.1, true) else ((d + 1) :: r.1, false))
    else (d :: r.1, false)

/-- The text `round_money_up` reads back. -/
def roundDigits (significantDigits : Nat) (buf : List Nat) : List Nat :=
  let rest := buf.drop significantDigits
  if rest.any (· ≠ 0) then
    let r := bumpDigits (buf.take significantDigits)
    (if r.2 then 1 :: r.1 else r.1) ++ rest.map fun _ => 0
  else buf

/-- `round_money_up`: it throws without digits to keep, and where the rounded
amount does not fit. -/
def roundMoneyUp (amount : UInt64) (significantDigits : Nat) : Option UInt64 :=
  if significantDigits = 0 then none
  else
    let ull := Nat.ofDigits 10 (roundDigits significantDigits (decimalDigits amount)).reverse
    if 2 ^ 64 ≤ ull then none
    else if ull = 0 ∧ amount ≠ 0 then none
    else some (UInt64.ofNat ull)

/-! ## The estimator -/

/-- A 64-bit division. -/
def divide? (a b : UInt64) : Option UInt64 :=
  if b = 0 then none else some (a / b)

/-- `get_dynamic_base_fee_estimate_2021_scaling` of a reward and two medians,
under the source's names. -/
def getDynamicBaseFeeEstimate2021Scaling (baseReward mnw mlw : UInt64) :
    Option (List UInt64) := do
  let mfw := min mnw mlw
  let reference := dynamicFeeReferenceTransactionWeight
  let fl ← divide? (baseReward * reference) (mfw * mfw)
  let fn ← divide? (4 * baseReward * reference) (mfw * mfw)
  let fm ← divide? (16 * baseReward * reference) (fullRewardZoneV5 * mfw)
  let fh ← divide? (4 * fm * mfw) (32 * reference * mnw / fullRewardZoneV5)
  [fl, fn, fm, max (4 * fm) fh].mapM (roundMoneyUp · feeRoundingPlaces)

namespace Blockchain

variable (e : Env) (s : Blockchain)

/-- `Mlw_penalty_free_zone_for_wallet`: the long-term median with the grace
blocks rolled in empty. -/
def walletLongTermMedian (graceBlocks : Nat) : UInt64 :=
  let rm := (List.replicate graceBlocks 0).foldl (rollIn e) s.weights.cacheWindow
  max (median rm) fullRewardZoneV5

/-- `Mnw`: the short-term median with the grace blocks empty, between the
long-term median and fifty times it. -/
def walletShortTermMedian (graceBlocks : Nat) : UInt64 :=
  let weights := s.getLastNBlocksWeights (100 - graceBlocks) ++ List.replicate graceBlocks 0
  min (max (median weights) (s.walletLongTermMedian e graceBlocks))
    (50 * s.walletLongTermMedian e graceBlocks)

def getDynamicBaseFeeEstimate2021Scaling (graceBlocks : Nat) : Option (List UInt64) :=
  if graceBlocks ≤ rewardBlocksWindow then
    let baseReward :=
      (getBlockReward (s.weights.limit / 2) 1 s.chain.topAlreadyGeneratedCoins
        (s.hfVersion e)).getD blockRewardOverestimate
    Oxyra.getDynamicBaseFeeEstimate2021Scaling baseReward
      (s.walletShortTermMedian e graceBlocks) (s.walletLongTermMedian e graceBlocks)
  else none

end Blockchain

end Oxyra
