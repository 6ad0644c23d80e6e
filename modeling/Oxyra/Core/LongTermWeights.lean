import Oxyra.Core.Blockchain
import Oxyra.Core.RollingMedian

/-!
# The long-term weights and their cached median (`blockchain.cpp`)

`get_long_term_block_weight_median` with the rolling median it keeps between calls, its two
callers, and the steps of a history: blocks are added with the long-term weight computed for them,
popped, and the node is restarted.

* `WeightedChain` holds what these functions read of the database and the two cache members. `none`
  is an exception or a refusal.
* The weight of a block is a function of the block, which names its transactions; the version at a
  step is whatever the hard-fork object says then.
* Of `handle_block_to_main_chain` there are the checks that tie a block to its place. The others
  only refuse more.
-/

namespace Oxyra

def longTermBlockWeightWindowSize : Nat := 100000

/-- A block in the database, with its long-term weight. -/
structure WeightRow where
  bl : Block
  longTermWeight : UInt64

/-- The members `m_long_term_block_weights_cache_tip_hash` and
`m_long_term_block_weights_cache_rolling_median`. -/
structure LongTermCache where
  tipHash : Hash := nullHash
  rollingMedian : RollingMedian

structure WeightedChain where
  rows : List WeightRow
  cache : LongTermCache

namespace WeightedChain

variable (e : Env) (s : WeightedChain)

/-- `m_db->height()` -/
def height : Nat := s.rows.length

def tailId : Hash :=
  (s.rows.getLast?.map fun r => e.getBlockHash r.bl).getD nullHash

/-- `get_block_hash_from_height`, below the height. -/
def hashAt (height : Nat) : Hash :=
  (s.rows[height]?.map fun r => e.getBlockHash r.bl).getD nullHash

/-- `get_block_long_term_weight`, below the height. -/
def longTermWeightAt (height : Nat) : UInt64 :=
  (s.rows[height]?.map WeightRow.longTermWeight).getD 0

/-- `get_long_term_block_weights`: it throws when the range starts above the chain. -/
def getLongTermBlockWeights (startHeight count : Nat) : Option (List UInt64) :=
  if startHeight ≥ s.height then none
  else some (((s.rows.drop startHeight).take count).map WeightRow.longTermWeight)

/-- `get_long_term_block_weight_median`, with the cache after it. -/
def getLongTermBlockWeightMedian (startHeight count : Nat) : Option (UInt64 × LongTermCache) :=
  if count = 0 then none
  else
    let rm := s.cache.rollingMedian
    let tipHeight := startHeight + count - 1
    let tipHash := if tipHeight < s.height then s.hashAt e tipHeight else nullHash
    if tipHeight < s.height ∧ count = rm.size ∧ tipHash = s.cache.tipHash then
      some (rm.medianOf, s.cache)
    else if (tipHeight > 0 ∧ tipHeight < s.height) ∧
        (count = rm.size ∨ (count = rm.size + 1 ∧ rm.size < longTermBlockWeightWindowSize)) ∧
        s.hashAt e (tipHeight - 1) = s.cache.tipHash then
      let rm := rm.insert (s.longTermWeightAt tipHeight)
      some (rm.medianOf, { tipHash := tipHash, rollingMedian := rm })
    else
      (s.getLongTermBlockWeights startHeight count).map fun weights =>
        let rm := weights.foldl RollingMedian.insert rm.clear
        (rm.medianOf, { tipHash := tipHash, rollingMedian := rm })

/-- `nblocks`, as both callers compute it. -/
def nblocks : Nat := min e.longTermWindow s.height

/-- The call both callers make. -/
def callMedian : Option (UInt64 × LongTermCache) :=
  s.getLongTermBlockWeightMedian e (s.height - s.nblocks e) (s.nblocks e)

/-- The long-term weight from the median: the block's weight between two bounds. -/
def constrainedWeight (hfVersion : Nat) (blockWeight longTermMedian : UInt64) : UInt64 :=
  let effective := max fullRewardZoneV5 longTermMedian
  let blockWeight :=
    if hfVersion ≥ hf2021Scaling then max blockWeight (effective * 10 / 17) else blockWeight
  let shortTermConstraint :=
    if hfVersion ≥ hf2021Scaling then effective + effective * 7 / 10
    else effective + effective * 2 / 5
  min blockWeight shortTermConstraint

def getNextLongTermBlockWeight (hfVersion : Nat) (blockWeight : UInt64) :
    Option (UInt64 × LongTermCache) :=
  if hfVersion < hfLongTermBlockWeight then some (blockWeight, s.cache)
  else (s.callMedian e).map fun r => (constrainedWeight hfVersion blockWeight r.1, r.2)

/-- What `update_next_cumulative_weight_limit` does to the cache. -/
def updateNextCumulativeWeightLimit (hfVersion : Nat) : Option WeightedChain :=
  if hfVersion < hfLongTermBlockWeight then some s
  else (s.callMedian e).map fun r => { s with cache := r.2 }

/-- The part of `handle_block_to_main_chain` that stores a block. -/
def addBlock (blockWeight : Block → UInt64) (bl : Block) (hfVersion : Nat) :
    Option WeightedChain :=
  if bl.prevId ≠ s.tailId e then none
  else if bl.majorVersion ≠ hfVersion then none
  else if !prevalidateMinerTransaction bl s.height hfVersion then none
  else
    (s.getNextLongTermBlockWeight e hfVersion (blockWeight bl)).map fun r =>
      { rows := s.rows ++ [⟨bl, r.1⟩], cache := r.2 }

/-- `pop_block_from_blockchain`; the genesis block stays. -/
def popBlock : Option WeightedChain :=
  if s.height > 1 then some { s with rows := s.rows.dropLast } else none

/-- The members as the constructor of `Blockchain` leaves them. -/
def freshCache (memory : Nat → UInt64) : Option LongTermCache :=
  (RollingMedian.construct memory e.longTermWindow).map fun rm => { rollingMedian := rm }

/-- What happens to the chain and to the cache. -/
inductive Event where
  | addBlock (bl : Block) (hfVersion : Nat)
  | popBlock
  | update (hfVersion : Nat)
  | restart (memory : Nat → UInt64)

/-- One event, if nothing refuses it. -/
def attempt (blockWeight : Block → UInt64) : Event → Option WeightedChain
  | .addBlock bl hfVersion => s.addBlock e blockWeight bl hfVersion
  | .popBlock => s.popBlock
  | .update hfVersion => s.updateNextCumulativeWeightLimit e hfVersion
  | .restart memory => (freshCache e memory).map fun cache => { s with cache := cache }

/-- One event; a refusal changes nothing. -/
def step (blockWeight : Block → UInt64) (event : Event) : WeightedChain :=
  (s.attempt e blockWeight event).getD s

/-- `init` on an empty database: the genesis block is added. -/
def init (blockWeight : Block → UInt64) (memory : Nat → UInt64) (genesis : Block)
    (hfVersion : Nat) : Option WeightedChain :=
  (freshCache e memory).bind fun cache =>
    addBlock e { rows := [], cache := cache } blockWeight genesis hfVersion

/-- The blocks a history names. -/
def blocksOf (events : List Event) : List Block :=
  events.filterMap fun event => match event with
    | .addBlock bl _ => some bl
    | _ => none

end WeightedChain

end Oxyra
