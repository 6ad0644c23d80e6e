import Mathlib

/-!
# Protocol constants (`cryptonote_config.h`)

The compile-time constants the modelled functions read, under the source's
names in camel case. Amounts and weights are 64-bit words, as in the source;
heights, times and hard-fork versions are plain numbers, since no modelled
computation lets them wrap.
-/

namespace Oxyra

/-- `MONEY_SUPPLY`: three billion coins of 10^12 atomic units, all of them
created by the genesis block. -/
def moneySupply : UInt64 := 3000000000000000000

/-- `CRYPTONOTE_MAX_BLOCK_NUMBER`: an `unlock_time` below this is a height. -/
def maxBlockNumber : Nat := 500000000

def minedMoneyUnlockWindow : Nat := 60

/-- `CRYPTONOTE_BLOCK_FUTURE_TIME_LIMIT`, in seconds. -/
def blockFutureTimeLimit : Nat := 60 * 60 * 2

/-- `CRYPTONOTE_DEFAULT_TX_SPENDABLE_AGE`, in blocks. -/
def defaultTxSpendableAge : Nat := 3

/-- `BLOCKCHAIN_TIMESTAMP_CHECK_WINDOW`, in blocks. -/
def timestampCheckWindow : Nat := 60

/-! ## Block weight -/

def fullRewardZoneV1 : UInt64 := 20000

def fullRewardZoneV2 : UInt64 := 60000

def fullRewardZoneV5 : UInt64 := 300000

def rewardBlocksWindow : Nat := 100

/-- `CRYPTONOTE_SHORT_TERM_BLOCK_WEIGHT_SURGE_FACTOR` -/
def shortTermSurgeFactor : UInt64 := 50

def coinbaseBlobReservedSize : UInt64 := 600

def defaultDustThreshold : UInt64 := 2000000000

def baseRewardClampThreshold : UInt64 := 100000000

def bulletproofMaxOutputs : Nat := 16

/-- `std::numeric_limits<size_t>::max()` -/
def sizeMax : Nat := 2 ^ 64 - 1

/-! ## Difficulty -/

/-- `DIFFICULTY_TARGET_V1`, in seconds. -/
def difficultyTargetV1 : Nat := 60

/-- `DIFFICULTY_TARGET_V2`, in seconds. -/
def difficultyTargetV2 : Nat := 120

/-- `DIFFICULTY_WINDOW`, in blocks. -/
def difficultyWindow : Nat := 720

/-- `DIFFICULTY_LAG`, in blocks. -/
def difficultyLag : Nat := 15

/-- `DIFFICULTY_CUT`: timestamps dropped at each end after sorting. -/
def difficultyCut : Nat := 60

def difficultyBlocksCount : Nat := difficultyWindow + difficultyLag

/-! ## Hard-fork versions at which a rule starts -/

/-- `HF_VERSION_MIN_V2_COINBASE_TX` -/
def hfMinV2CoinbaseTx : Nat := 12

/-- `HF_VERSION_REJECT_SIGS_IN_COINBASE` -/
def hfRejectSigsInCoinbase : Nat := 12

/-- `HF_VERSION_EFFECTIVE_SHORT_TERM_MEDIAN_IN_PENALTY` -/
def hfEffectiveShortTermMedian : Nat := 12

/-- `HF_VERSION_EXACT_COINBASE` -/
def hfExactCoinbase : Nat := 13

/-- `HF_VERSION_VIEW_TAGS` -/
def hfViewTags : Nat := 15

/-- `HF_VERSION_LONG_TERM_BLOCK_WEIGHT` -/
def hfLongTermBlockWeight : Nat := 10

/-- `HF_VERSION_2021_SCALING` -/
def hf2021Scaling : Nat := 15

/-- `HF_VERSION_ENFORCE_MIN_AGE` -/
def hfEnforceMinAge : Nat := 12

/-- `HF_VERSION_DETERMINISTIC_UNLOCK_TIME` -/
def hfDeterministicUnlockTime : Nat := 13

end Oxyra
