import Oxyra.Lib.Stripes
import Oxyra.Basic.Config

/-!
# Pruning seeds and heights (`pruning.h`, `pruning.cpp`)

A pruned node keeps one stripe of the blocks and the blocks near the tip. Within the limits that
`get_next_unpruned_block_height` checks, no operation on heights comes near the width of its type,
so that heights, seeds and stripes are numbers here. The sum that the other functions form of an
unchecked height wraps.
-/

namespace Oxyra.Pruning

def logStripesShift : Nat := 7

def logStripesMask : Nat := 0x7

def stripeShift : Nat := 0

def stripeMask : Nat := 0x7f

def stripeSize : Nat := 4096

/-- `CRYPTONOTE_PRUNING_LOG_STRIPES` -/
def defaultLogStripes : Nat := 3

def tipBlocks : Nat := 5500

/-- `get_pruning_log_stripes(pruning_seed)` -/
def getPruningLogStripes (pruningSeed : Nat) : Nat :=
  (pruningSeed >>> logStripesShift) &&& logStripesMask

/-- `get_pruning_stripe(pruning_seed)` -/
def seedStripe (pruningSeed : Nat) : Nat :=
  if pruningSeed = 0 then 0 else 1 + ((pruningSeed >>> stripeShift) &&& stripeMask)

/-- `make_pruning_seed`, which throws on a stripe or a number of stripes out of range. -/
def makePruningSeed (stripe logStripes : Nat) : Option Nat :=
  if logStripes ≤ logStripesMask ∧ stripe > 0 ∧ stripe ≤ 1 <<< logStripes then
    some ((logStripes <<< logStripesShift) ||| ((stripe - 1) <<< stripeShift))
  else none

/-- `get_pruning_stripe(block_height, blockchain_height, log_stripes)` -/
def getPruningStripe (blockHeight blockchainHeight logStripes : Nat) : Nat :=
  if (blockHeight + tipBlocks) % 2 ^ 64 ≥ blockchainHeight then 0
  else ((blockHeight / stripeSize) &&& ((1 <<< logStripes) - 1)) + 1

def hasUnprunedBlock (blockHeight blockchainHeight pruningSeed : Nat) : Bool :=
  let stripe := seedStripe pruningSeed
  if stripe = 0 then true
  else
    let blockStripe :=
      getPruningStripe blockHeight blockchainHeight (getPruningLogStripes pruningSeed)
    blockStripe = 0 || blockStripe = stripe

/-- `get_next_unpruned_block_height`. A failed check returns `block_height`. -/
def getNextUnprunedBlockHeight (blockHeight blockchainHeight pruningSeed : Nat) : Nat :=
  if blockHeight > maxBlockNumber + 1 then blockHeight
  else if blockchainHeight > maxBlockNumber + 1 then blockHeight
  else
    let stripe := seedStripe pruningSeed
    if stripe = 0 then blockHeight
    else if blockHeight + tipBlocks ≥ blockchainHeight then blockHeight
    else
      let seedLogStripes := getPruningLogStripes pruningSeed
      let logStripes := if seedLogStripes ≠ 0 then seedLogStripes else defaultLogStripes
      let mask := (1 <<< logStripes) - 1
      let blockPruningStripe := ((blockHeight / stripeSize) &&& mask) + 1
      if blockPruningStripe = stripe then blockHeight
      else
        let cycles := (blockHeight / stripeSize) >>> logStripes
        let cycleStart := cycles + if stripe > blockPruningStripe then 0 else 1
        let h := cycleStart * (stripeSize <<< logStripes) + (stripe - 1) * stripeSize
        if h + tipBlocks > blockchainHeight then
          if blockchainHeight < tipBlocks then 0 else blockchainHeight - tipBlocks
        else if h < blockHeight then blockHeight
        else h

/-- `get_next_pruned_block_height`. It throws where `make_pruning_seed` does. -/
def getNextPrunedBlockHeight (blockHeight blockchainHeight pruningSeed : Nat) : Option Nat :=
  let stripe := seedStripe pruningSeed
  if stripe = 0 then some blockchainHeight
  else if (blockHeight + tipBlocks) % 2 ^ 64 ≥ blockchainHeight then some blockchainHeight
  else
    let seedLogStripes := getPruningLogStripes pruningSeed
    let logStripes := if seedLogStripes ≠ 0 then seedLogStripes else defaultLogStripes
    let mask := (1 <<< logStripes) - 1
    let blockPruningSeed := ((blockHeight / stripeSize) &&& mask) + 1
    if blockPruningSeed ≠ stripe then some blockHeight
    else
      let nextStripe := 1 + (blockPruningSeed &&& mask)
      (makePruningSeed nextStripe logStripes).map fun seed =>
        getNextUnprunedBlockHeight blockHeight blockchainHeight seed

end Oxyra.Pruning
