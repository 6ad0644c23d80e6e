import Oxyra.Core.MinerTx
import Oxyra.Core.TxPool
import Oxyra.Core.TxInputs

/-!
# The state of `Blockchain` and its derived values (`blockchain.cpp`)

* `Blockchain` gathers the database (main chain, alternative blocks, version
  table), the pool, the hard-fork object and the member variables that cache
  something.
* `getDifficultyForNextBlock` with its two caches, and the stateless
  computation it caches (`difficultyFor`).
* The block-weight medians and limits with their rolling window.
-/

namespace Oxyra

/-! ## State -/

/-- A row of the alternative-block table, also `block_extended_info`. -/
structure AltBlock where
  id : Hash
  bl : Block
  height : Nat
  cumulativeWeight : UInt64
  cumulativeDifficulty : Nat
  alreadyGeneratedCoins : UInt64
deriving DecidableEq, Repr

structure BlockVerificationContext where
  addedToMainChain : Bool := false
  verifivationFailed : Bool := false
  markedAsOrphaned : Bool := false
  alreadyExists : Bool := false
  partialBlockReward : Bool := false
  badPow : Bool := false
  missingTxs : Bool := false
deriving DecidableEq, Repr

/-- `pool_supplement`: the transactions that came with a block. -/
structure PoolSupplement where
  txsByTxid : List (Hash × Transaction) := []
  nicVerifiedHfVersion : Nat := 0
deriving DecidableEq, Repr

/-- The members behind `get_difficulty_for_next_block`. -/
structure DifficultyCache where
  topHash : Hash := nullHash
  nextBlock : Nat := 1
  /-- `m_timestamps_and_difficulties_height` -/
  height : Nat := 0
  /-- `m_reset_timestamps_and_difficulties_height` -/
  reset : Bool := true
  timestamps : List Nat := []
  difficulties : List Nat := []
deriving DecidableEq, Repr

/-- The members behind the block-weight limit. The rolling median is kept as
the window it is the median of. -/
structure WeightState where
  limit : UInt64 := 0
  median : UInt64 := 0
  longTermEffectiveMedian : UInt64 := 0
  cacheTipHash : Hash := nullHash
  cacheWindow : List UInt64 := []
deriving DecidableEq, Repr

/-- The `m_btc` members: the template handed out last. -/
structure BlockTemplateCache where
  b : Block
  address : AccountPublicAddress
  nonce : List UInt8
  difficulty : Nat
  height : Nat
  expectedReward : UInt64
  cumulativeWeight : UInt64
  seedHeight : Nat
  seedHash : Hash
  poolCookie : Nat

structure Blockchain where
  chain : Chain := []
  altBlocks : List AltBlock := []
  hfVersions : Nat → Nat := fun _ => 0
  hf : HardFork := {}
  pool : TxPool := {}
  invalidBlocks : List Hash := []
  diff : DifficultyCache := {}
  weights : WeightState := {}
  btc : Option BlockTemplateCache := none
  /-- How often the clock has been read. -/
  reads : Nat := 0

namespace Blockchain

variable (e : Env) (s : Blockchain)

/-- `m_db->height()` -/
def height : Nat := s.chain.length

def tailId : Hash := s.chain.tailId e

/-- `get_current_hard_fork_version` -/
def hfVersion : Nat := s.hf.getCurrentVersion e.forks

/-- `time(NULL)`, for the call that is going on. -/
def now : Nat := e.clock s.reads

/-- The state once a call has read the clock. -/
def ticked : Blockchain :=
  { s with reads := s.reads + 1 }

def getAltBlock (id : Hash) : Option AltBlock :=
  Keyed.find? AltBlock.id s.altBlocks id

/-- `have_block`: on the main chain, alternative or known to be invalid. -/
def haveBlock (id : Hash) : Bool :=
  s.chain.blockExists e id || (s.getAltBlock id).isSome || decide (id ∈ s.invalidBlocks)

def invalidateBlockTemplateCache : Blockchain :=
  { s with btc := none }

/-- What the pool sees of the blockchain. From a block, a transaction is let in
unchecked below the precomputed hashes. -/
def poolContext : PoolContext where
  now := s.now e
  topHeight := s.height - 1
  topId := s.chain.idAt e (s.height - 1)
  checkTxInputs := fun tx keptByBlock =>
    if s.height < e.blocksHashCheck.length && keptByBlock then some (0, nullHash)
    else
      (checkTxInputs e (s.now e) s.chain (s.hfVersion e) tx).bind fun maxUsed =>
        if maxUsed < s.height then some (maxUsed, s.chain.idAt e maxUsed) else none
  checkFee := fun txWeight fee =>
    e.checkFee (s.hfVersion e) (baseRewardOf s.chain.topAlreadyGeneratedCoins)
      (min (s.weights.limit / 2) s.weights.longTermEffectiveMedian) txWeight fee

end Blockchain

/-! ## Difficulty -/

/-- `get_difficulty_target` for a version. -/
def difficultyTarget (version : Nat) : Nat :=
  if version < 2 then difficultyTargetV1 else difficultyTargetV2

/-- The first height of the window that ends below `height`: the last
`DIFFICULTY_BLOCKS_COUNT` blocks, never the genesis block. -/
def difficultyOffset (height : Nat) : Nat :=
  max 1 (height - difficultyBlocksCount)

/-- Timestamps of the window at the end of a chain of (timestamp, cumulative
difficulty) pairs. -/
def windowTimestamps (points : List (Nat × Nat)) : List Nat :=
  (points.drop (difficultyOffset points.length)).map Prod.fst

/-- Cumulative difficulties of the same window. -/
def windowDifficulties (points : List (Nat × Nat)) : List Nat :=
  (points.drop (difficultyOffset points.length)).map Prod.snd

/-- The difficulty of the block that extends a chain, from the chain alone. -/
def difficultyOfPoints (e : Env) (points : List (Nat × Nat)) (version : Nat) : Nat :=
  if e.fixedDifficulty ≠ 0 then (if points = [] then 1 else e.fixedDifficulty)
  else nextDifficulty (windowTimestamps points) (windowDifficulties points)
    (difficultyTarget version)

/-- What the retarget rule sees of a chain. -/
def Chain.points (chain : Chain) : List (Nat × Nat) :=
  chain.map fun sb => (sb.bl.timestamp, sb.cumulativeDifficulty)

/-- The stateless value of `get_difficulty_for_next_block`. -/
def difficultyFor (e : Env) (chain : Chain) (version : Nat) : Nat :=
  difficultyOfPoints e chain.points version

namespace Blockchain

variable (e : Env) (s : Blockchain)

/-- The window as `get_difficulty_for_next_block` obtains it: one block more
than last time where that is possible, the whole window otherwise. -/
def refreshWindow : DifficultyCache :=
  let height := s.height
  let points := s.chain.points
  let cachedHeight := if s.diff.reset then 0 else s.diff.height
  if cachedHeight ≠ 0 ∧ height - cachedHeight = 1 ∧
      s.diff.timestamps.length ≥ difficultyBlocksCount then
    let timestamps := s.diff.timestamps ++ (points.drop (height - 1)).map Prod.fst
    let difficulties := s.diff.difficulties ++ (points.drop (height - 1)).map Prod.snd
    { s.diff with
      height := height
      timestamps := timestamps.drop (timestamps.length - difficultyBlocksCount)
      difficulties := difficulties.drop (difficulties.length - difficultyBlocksCount) }
  else
    { s.diff with
      height := height
      timestamps := windowTimestamps points
      difficulties := windowDifficulties points }

/-- `get_difficulty_for_next_block`, with the caches after it. -/
def getDifficultyForNextBlock : Nat × DifficultyCache :=
  if e.fixedDifficulty ≠ 0 then
    (if s.height = 0 then 1 else e.fixedDifficulty, s.diff)
  else if s.tailId e = s.diff.topHash then (s.diff.nextBlock, s.diff)
  else
    let window := s.refreshWindow
    let diff :=
      nextDifficulty window.timestamps window.difficulties (difficultyTarget (s.hfVersion e))
    (diff, { window with topHash := s.tailId e, nextBlock := diff })

/-- The two lines with which every function that rewrites the chain drops the
incremental window. -/
def resetDifficultyWindow : Blockchain :=
  { s with diff := { s.diff with height := 0, reset := true } }

/-! ## Block weights -/

def getLastNBlocksWeights (count : Nat) : List UInt64 :=
  (s.chain.drop (s.height - min s.height count)).map StoredBlock.blockWeight

/-- One step of the rolling window. -/
def rollIn (window : List UInt64) (w : UInt64) : List UInt64 :=
  let grown := window ++ [w]
  grown.drop (grown.length - e.longTermWindow)

/-- `get_long_term_block_weight_median(start_height, count)` for the `count`
blocks at the top, with the members after it. -/
def getLongTermBlockWeightMedian (count : Nat) : UInt64 × WeightState :=
  let tipHash := s.tailId e
  let rmsize := s.weights.cacheWindow.length
  if count = rmsize ∧ tipHash = s.weights.cacheTipHash then
    (median s.weights.cacheWindow, s.weights)
  else if s.height > 1 ∧ (count = rmsize ∨ (count = rmsize + 1 ∧ rmsize < e.longTermWindow)) ∧
      s.chain.idAt e (s.height - 2) = s.weights.cacheTipHash then
    let w := (s.chain.getLast?.map StoredBlock.longTermBlockWeight).getD 0
    let window := rollIn e s.weights.cacheWindow w
    (median window, { s.weights with cacheTipHash := tipHash, cacheWindow := window })
  else
    let window := (s.chain.drop (s.height - count)).map StoredBlock.longTermBlockWeight
    (median window, { s.weights with cacheTipHash := tipHash, cacheWindow := window })

def getNextLongTermBlockWeight (blockWeight : UInt64) : UInt64 × WeightState :=
  let version := s.hfVersion e
  if version < hfLongTermBlockWeight then (blockWeight, s.weights)
  else
    let r := s.getLongTermBlockWeightMedian e (min e.longTermWindow s.height)
    let effective := max fullRewardZoneV5 r.1
    let blockWeight :=
      if version ≥ hf2021Scaling then max blockWeight (effective * 10 / 17) else blockWeight
    let shortTermConstraint :=
      if version ≥ hf2021Scaling then effective + effective * 7 / 10
      else effective + effective * 2 / 5
    (min blockWeight shortTermConstraint, r.2)

/-- The median part of `update_next_cumulative_weight_limit`, before the floor. -/
def nextWeightMedian : UInt64 × WeightState :=
  let version := s.hfVersion e
  let shortTermMedian := median (s.getLastNBlocksWeights rewardBlocksWindow)
  if version < hfLongTermBlockWeight then (shortTermMedian, s.weights)
  else
    let r := s.getLongTermBlockWeightMedian e (min e.longTermWindow s.height)
    let longTerm := max fullRewardZoneV5 r.1
    let floor := if version ≥ hf2021Scaling then longTerm else fullRewardZoneV5
    (min (max floor shortTermMedian) (shortTermSurgeFactor * longTerm),
      { r.2 with longTermEffectiveMedian := longTerm })

/-- `update_next_cumulative_weight_limit`; it never fails. -/
def updateNextCumulativeWeightLimit : Blockchain :=
  let r := s.nextWeightMedian e
  let weightMedian := max r.1 (getMinBlockWeight (s.hfVersion e))
  { s with weights := { r.2 with median := weightMedian, limit := weightMedian * 2 } }

/-- The median `validate_miner_transaction` hands to the reward function. -/
def penaltyMedian : UInt64 :=
  if s.hfVersion e ≥ hfEffectiveShortTermMedian then s.weights.median
  else median (s.getLastNBlocksWeights rewardBlocksWindow)

end Blockchain

end Oxyra
