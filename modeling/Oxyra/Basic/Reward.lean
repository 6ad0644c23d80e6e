import Oxyra.Basic.Types

/-!
# The emission rule (`cryptonote_basic_impl.cpp`)

* `getBlockReward` is the fork's schedule: the whole supply to the block that
  finds nothing generated, nothing to any other. The weights it is handed are
  not looked at and it never fails.
* `decomposeAmountIntoDigits` and `isValidDecomposedAmount` are the two sides
  of the denomination rule of the early versions.
-/

namespace Oxyra

def getMinBlockWeight (version : Nat) : UInt64 :=
  if version < 2 then fullRewardZoneV1
  else if version < 5 then fullRewardZoneV2
  else fullRewardZoneV5

/-- `get_block_reward`: the result is `none` where the source returns false,
which it never does. -/
def getBlockReward (_medianWeight _currentBlockWeight alreadyGeneratedCoins : UInt64)
    (_version : Nat) : Option UInt64 :=
  if alreadyGeneratedCoins ≥ moneySupply then some 0
  else if alreadyGeneratedCoins = 0 then some moneySupply
  else some 0

/-- The reward as a function of the coins generated so far. -/
def baseRewardOf (alreadyGeneratedCoins : UInt64) : UInt64 :=
  if alreadyGeneratedCoins = 0 then moneySupply else 0

theorem getBlockReward_eq (medianWeight currentBlockWeight agc : UInt64) (version : Nat) :
    getBlockReward medianWeight currentBlockWeight agc version = some (baseRewardOf agc) := by
  unfold getBlockReward baseRewardOf
  by_cases h0 : agc = 0
  · -- nothing generated yet: zero is below the supply, so the second branch pays it
    subst h0
    decide
  · simp [h0]

@[simp] theorem baseRewardOf_zero : baseRewardOf 0 = moneySupply := rfl

/-- The loop of `is_valid_decomposed_amount`: divide out trailing zeros. A
non-zero 64-bit amount has fewer than 20 of them. -/
def stripTrailingZeros : Nat → UInt64 → UInt64
  | 0, amount => amount
  | fuel + 1, amount =>
    if amount % 10 = 0 then stripTrailingZeros fuel (amount / 10) else amount

/-- `is_valid_decomposed_amount`: one leading digit, then zeros. -/
def isValidDecomposedAmount (amount : UInt64) : Bool :=
  if amount = 0 then false
  else decide (stripTrailingZeros 20 amount < 10)

/-- The loop of `decompose_amount_into_digits`, with the chunks handed out so
far. A 64-bit amount has at most 20 digits. -/
def decomposeLoop (dustThreshold : UInt64) :
    Nat → (amount dust order : UInt64) → (isDustHandled : Bool) → List UInt64 → List UInt64
  | 0, _, dust, _, isDustHandled, outs =>
    if !isDustHandled && dust ≠ 0 then outs ++ [dust] else outs
  | fuel + 1, amount, dust, order, isDustHandled, outs =>
    if amount = 0 then
      if !isDustHandled && dust ≠ 0 then outs ++ [dust] else outs
    else
      let chunk := (amount % 10) * order
      if dust + chunk ≤ dustThreshold then
        decomposeLoop dustThreshold fuel (amount / 10) (dust + chunk) (order * 10)
          isDustHandled outs
      else
        let handleDust := !isDustHandled && dust ≠ 0
        let outs := if handleDust then outs ++ [dust] else outs
        let outs := if chunk ≠ 0 then outs ++ [chunk] else outs
        decomposeLoop dustThreshold fuel (amount / 10) dust (order * 10)
          (isDustHandled || handleDust) outs

/-- `decompose_amount_into_digits` with both handlers appending to one list,
as `construct_miner_tx` calls it. -/
def decomposeAmountIntoDigits (amount dustThreshold : UInt64) : List UInt64 :=
  if amount = 0 then [] else decomposeLoop dustThreshold 20 amount 0 1 false []

end Oxyra
