import Oxyra.Core.Blockchain

/-!
# Extending and shortening the main chain (`blockchain.cpp`)

* `handleBlockToMainChain` is the acceptance path, cut at its own seams: the
  checks of the header come first, then `acceptBody` with `takeBlockTxs`, the loop
  that pulls the transactions from the pool, and `acceptWithTxs` with the coinbase
  and database steps. Each failing exit keeps its own flags and its own treatment
  of the transactions already taken.
* `popBlockFromBlockchain` undoes one block and returns its transactions.

Two exits leave `m_verifivation_failed` unset: a zero difficulty, and pruned
transactions in a block without a precomputed weight. The second also drops the
transactions it has taken.
-/

namespace Oxyra

/-- What a call of `handle_block_to_main_chain` leaves behind. -/
structure Outcome where
  ret : Bool
  bvc : BlockVerificationContext
  st : Blockchain
  ps : PoolSupplement

/-- The comparison with `m_blocks_hash_check`: `none` if the id is not the
expected one, otherwise `fast_check`. -/
def checkPrecomputedHash (e : Env) (height : Nat) (id : Hash) : Option Bool :=
  match e.blocksHashCheck[height]? with
  | none => some false
  | some (expected, _) =>
    if expected = nullHash then some false
    else if id = expected then some true
    else none

/-- `ver_non_input_consensus(extra_block_txs, …)`. The result is remembered in
the supplement. -/
def verSupplement (e : Env) (ps : PoolSupplement) (hfVersion : Nat) : Bool :=
  ps.nicVerifiedHfVersion = hfVersion ||
    ps.txsByTxid.all fun t => e.verNonInputConsensus t.2 hfVersion

/-- The proof-of-work test of the main path. -/
def checkPow (e : Env) (chain : Chain) (bl : Block) (difficulty : Nat) : Bool :=
  let height := chain.length
  checkHash (e.getBlockLonghash (chain.idAt e (Env.rxSeedheight height)) bl height) difficulty

/-! ## Taking the transactions -/

/-- One transaction of the block: `txs` and `txs_meta` of the source. -/
structure TakenTx where
  id : Hash
  tx : Transaction
  weight : UInt64
  fee : UInt64
  pruned : Bool
  fromPool : Bool
deriving DecidableEq, Repr

/-- The locals of the transaction loop. -/
structure TakeState where
  pool : TxPool
  ps : PoolSupplement
  taken : List TakenTx := []

/-- Why the transaction loop gave up. -/
inductive TakeError where
  | alreadyInChain
  | missing
  | wrongInputs
deriving DecidableEq, Repr

/-- Look a transaction up in the pool, then in the supplement, and remove it
from where it was found. -/
def takeOne (e : Env) (st : TakeState) (txId : Hash) : Option (TakenTx × TakeState) :=
  match st.pool.takeTx txId with
  | some (t, pool) =>
    some
      (⟨txId, t.tx, t.info.weight, t.info.fee, t.info.pruned, true⟩, { st with pool := pool })
  | none =>
    match st.ps.txsByTxid.lookup txId with
    | none => none
    | some tx =>
      let weight :=
        if tx.pruned then e.getPrunedTransactionWeight tx else e.getTransactionWeight tx
      some
        (⟨txId, tx, weight, getTxFee tx, tx.pruned, false⟩,
          { st with ps := { st.ps with
              txsByTxid := st.ps.txsByTxid.filter fun t => t.1 ≠ txId } })

/-- The loop over `bl.tx_hashes`. On failure the state is the one at the exit. -/
def takeBlockTxs (e : Env) (chain : Chain) (checkInputs : Transaction → Bool) :
    List Hash → TakeState → Except (TakeError × TakeState) TakeState
  | [], st => .ok st
  | txId :: rest, st =>
    if chain.txExists e txId then .error (.alreadyInChain, st)
    else
      match takeOne e st txId with
      | none => .error (.missing, st)
      | some (t, st) =>
        let st := { st with taken := st.taken ++ [t] }
        if checkInputs t.tx then takeBlockTxs e chain checkInputs rest st
        else .error (.wrongInputs, st)

/-- One call of `add_tx` in `return_txs_to_pool`. -/
def returnTx (e : Env) (ctx : PoolContext) (hfVersion : Nat) (pool : TxPool) (t : TakenTx) :
    TxPool :=
  if t.fromPool then
    (pool.addTx e ctx t.tx t.id t.weight .block true hfVersion hfVersion).2
  else pool

def returnTxsToPool (e : Env) (ctx : PoolContext) (hfVersion : Nat) (pool : TxPool)
    (taken : List TakenTx) : TxPool :=
  taken.foldl (returnTx e ctx hfVersion) pool

def feeSummary (taken : List TakenTx) : UInt64 :=
  taken.foldl (fun feeSummary t => feeSummary + t.fee) 0

/-- `cumulative_block_weight` after the loop, before the pruned case. -/
def takenWeight (e : Env) (bl : Block) (taken : List TakenTx) : UInt64 :=
  taken.foldl (fun weight t => weight + t.weight) (e.getTransactionWeight bl.minerTx)

/-- `cumulative_block_weight`: with pruned transactions the precomputed weight,
or `none` where there is none. -/
def cumulativeBlockWeight (e : Env) (height : Nat) (bl : Block) (taken : List TakenTx) :
    Option UInt64 :=
  if taken.any TakenTx.pruned then
    match e.blocksHashCheck[height]? with
    | none => none
    | some (_, weight) => if weight = 0 then none else some weight
  else some (takenWeight e bl taken)

namespace Blockchain

variable (e : Env)

/-- A failing exit that has taken nothing. -/
def refuse (s : Blockchain) (ps : PoolSupplement) (badPow : Bool) : Outcome :=
  ⟨false, { verifivationFailed := true, badPow := badPow }, s, ps⟩

/-- A failing exit through `return_txs_to_pool`. -/
def refuseReturning (s : Blockchain) (st : TakeState) (missingTxs partialReward : Bool) :
    Outcome :=
  let pool := returnTxsToPool e (s.poolContext e) (s.hfVersion e) st.pool st.taken
  ⟨false,
    { verifivationFailed := true, missingTxs := missingTxs, partialBlockReward := partialReward },
    { s with pool := pool }, st.ps⟩

/-- The block as `add_block` is called with it. -/
def storedBlock (s : Blockchain) (bl : Block) (difficulty : Nat) (blockWeight longTerm baseReward :
    UInt64) (taken : List TakenTx) : StoredBlock :=
  let agc := s.chain.topAlreadyGeneratedCoins
  { bl := bl
    txs := taken.map TakenTx.tx
    blockWeight := blockWeight
    longTermBlockWeight := longTerm
    cumulativeDifficulty :=
      (difficulty + s.chain.topCumulativeDifficulty) % difficultyModulus
    alreadyGeneratedCoins := if baseReward < moneySupply - agc then agc + baseReward
      else moneySupply }

/-- The end of the accepting path, after `add_block` has written the block. The
pool is re-validated when the version changes, except after the genesis block. -/
def finishAdded (s : Blockchain) (hfVersion : Nat) : Blockchain :=
  let s := s.updateNextCumulativeWeightLimit e
  let s := { s with pool := s.pool.onBlockchainChange }
  let s := { s with diff := (s.getDifficultyForNextBlock e).2 }
  let s := s.invalidateBlockTemplateCache
  let newHfVersion := s.hfVersion e
  { s with
    pool := if newHfVersion ≠ hfVersion ∧ s.height ≠ 1 then
      s.pool.validate e (s.poolContext e) newHfVersion else s.pool }

/-- The database step: `add_block` and the hard-fork object's `add`. -/
def addStored (s : Blockchain) (pool : TxPool) (sb : StoredBlock) : Option Blockchain :=
  (s.chain.addBlock e sb).map fun chain =>
    let r := s.hf.add e.forks s.hfVersions sb.bl s.height
    { s with chain := chain, pool := pool, hf := r.1, hfVersions := r.2 }

/-- The last part of `handle_block_to_main_chain`: write the block, given its
weight and what the coinbase check returned. -/
def writeBlock (s : Blockchain) (bl : Block) (difficulty : Nat) (st : TakeState) (weight : UInt64)
    (reward : UInt64 × Bool) : Outcome :=
  let longTerm := s.getNextLongTermBlockWeight e weight
  let sb := s.storedBlock bl difficulty weight longTerm.1 reward.1 st.taken
  let weighed := { s with weights := longTerm.2 }
  match weighed.addStored e st.pool sb with
  | none => weighed.refuseReturning e st false reward.2
  | some added =>
    ⟨true, { addedToMainChain := true, partialBlockReward := reward.2 },
      added.finishAdded e (s.hfVersion e), st.ps⟩

/-- The part of `handle_block_to_main_chain` from the coinbase check on, with
all transactions in hand. -/
def acceptWithTxs (s : Blockchain) (bl : Block) (difficulty : Nat) (st : TakeState) : Outcome :=
  match cumulativeBlockWeight e s.height bl st.taken with
  -- "Block is pruned, but we do not have a weight for it": a bare `goto leave`
  | none => ⟨false, {}, { s with pool := st.pool }, st.ps⟩
  | some weight =>
    match validateMinerTransaction bl (s.penaltyMedian e) weight (feeSummary st.taken)
        s.chain.topAlreadyGeneratedCoins (s.hfVersion e) with
    | none => s.refuseReturning e st false false
    | some reward => s.writeBlock e bl difficulty st weight reward

/-- `handle_block_to_main_chain` after the header checks: pull the transactions
and go on with them. -/
def acceptBody (s : Blockchain) (bl : Block) (id : Hash) (ps : PoolSupplement) (difficulty : Nat)
    (fastCheck : Bool) : Outcome :=
  let checkInputs := fun tx =>
    fastCheck || (checkTxInputs e (s.now e) s.chain (s.hfVersion e) tx).isSome
  match takeBlockTxs e s.chain checkInputs bl.txHashes { pool := s.pool, ps := ps } with
  | .error (.alreadyInChain, st) => s.refuseReturning e st false false
  | .error (.missing, st) => s.refuseReturning e st true false
  | .error (.wrongInputs, st) =>
    -- `add_block_as_invalid`
    ({ s with invalidBlocks := id :: s.invalidBlocks }).refuseReturning e st false false
  | .ok st => s.acceptWithTxs e bl difficulty st

/-- `handle_block_to_main_chain` with a fresh verification context. -/
def handleBlockToMainChain (s : Blockchain) (bl : Block) (id : Hash) (ps : PoolSupplement) :
    Outcome :=
  let s := s.ticked
  let hfVersion := s.hfVersion e
  if bl.prevId ≠ s.tailId e then s.refuse ps false
  else if !s.hf.check e.forks bl then s.refuse ps false
  else if !checkBlockTimestamp (s.now e) s.chain bl then s.refuse ps false
  else
    let r := s.getDifficultyForNextBlock e
    let difficulty := r.1
    let s := { s with diff := r.2 }
    -- "difficulty overhead": returns false and sets no flag
    if difficulty = 0 then ⟨false, {}, s, ps⟩
    else
      match checkPrecomputedHash e s.height id with
      | none => s.refuse ps false
      | some fastCheck =>
        if !fastCheck && !checkPow e s.chain bl difficulty then s.refuse ps true
        else if e.checkpoints.isInCheckpointZone s.height &&
            !(e.checkpoints.checkBlock s.height id).1 then s.refuse ps false
        else if !prevalidateMinerTransaction bl s.height hfVersion then s.refuse ps false
        else if !fastCheck && !verSupplement e ps hfVersion then s.refuse ps false
        else
          let ps := if fastCheck then ps else { ps with nicVerifiedHfVersion := hfVersion }
          s.acceptBody e bl id ps difficulty fastCheck

/-! ## Popping -/

/-- The transactions of a popped block that go back to the pool: not pruned,
not a coinbase. -/
def returnable (tx : Transaction) : Bool :=
  !tx.pruned && !(tx.vin.any TxinV.isGen)

/-- One call of `add_tx` in `pop_block_from_blockchain`. -/
def returnPopped (ctx : PoolContext) (version : Nat) (pool : TxPool) (tx : Transaction) : TxPool :=
  (pool.addTx e ctx tx (e.getTransactionHash tx) (e.getTransactionWeight tx) .block true
    version version).2

/-- The state without the top block; the hard-fork object has stepped back. -/
def withoutTop (s : Blockchain) : Blockchain :=
  { s.resetDifficultyWindow.ticked with
    chain := s.chain.dropLast
    hf := s.hf.onBlockPopped e.forks s.hfVersions s.chain.dropLast.length }

/-- The pool once the popped block's transactions are back. -/
def returnedPool (s : Blockchain) (top : StoredBlock) : TxPool :=
  let popped := s.withoutTop e
  ((top.txs.reverse.filter returnable).foldl
    (returnPopped e (popped.poolContext e) (e.forks.getIdealVersion popped.height))
    s.pool).onBlockchainChange

/-- The state after the top block has been removed. If that crosses a fork the
whole pool is validated under the older version. -/
def afterPop (s : Blockchain) (top : StoredBlock) : Blockchain :=
  let returned := { s.withoutTop e with pool := s.returnedPool e top, btc := none }
  { returned with
    pool := if returned.hfVersion e ≠ s.hfVersion e then
      returned.pool.validate e (returned.poolContext e) (returned.hfVersion e)
      else returned.pool }

/-- `pop_block_from_blockchain`: the popped block and the state after it. The
source throws on a chain of at most one block, which is `none`. -/
def popBlockFromBlockchain (s : Blockchain) : Option (Block × Blockchain) :=
  if s.height ≤ 1 then none
  else s.chain.getLast?.map fun top => (top.bl, s.afterPop e top)

end Blockchain

end Oxyra
