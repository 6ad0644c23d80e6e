import Oxyra.Core.MainChain

/-!
# Alternative blocks and reorganisations (`blockchain.cpp`)

* `handleAlternativeBlock` validates a block whose parent is not the top,
  stores it and, where it makes the heavier chain, asks for the switch.
* `switchToAlternativeBlockchain` pops down to the fork, connects the
  alternative blocks and, if one is refused, rolls back.
* `addNewBlock` is the entry point and `run` a sequence of its calls.

The two functions call each other: a finished switch files the disconnected
blocks as alternatives. The nesting is bounded by an explicit depth, at which
the switch is not attempted any more; a nested call never gets that far in the
runs the theorems are about (see the invariants), because the chain it would
switch away from has just won.
-/

namespace Oxyra

namespace Blockchain

variable (e : Env)

/-! ## The alternative chain a block extends -/

/-- The walk of `build_alt_chain` from a block up through the alternative table,
oldest first. -/
def collectAltChain (table : List AltBlock) : Nat → Hash → List AltBlock → List AltBlock
  | 0, _, altChain => altChain
  | fuel + 1, id, altChain =>
    match Keyed.find? AltBlock.id table id with
    | none => altChain
    | some a => collectAltChain table fuel a.bl.prevId (a :: altChain)

/-- `alt_chain` of `build_alt_chain`. -/
def altChainOf (s : Blockchain) (prevId : Hash) : List AltBlock :=
  collectAltChain s.altBlocks s.altBlocks.length prevId []

/-- `complete_timestamps_vector`: the main-chain timestamps below and at
`startTopHeight`, newest first, as many as are missing. -/
def completeTimestampsVector (s : Blockchain) (startTopHeight : Nat) (timestamps : List Nat) :
    List Nat :=
  if timestamps.length ≥ timestampCheckWindow then timestamps
  else if ¬ startTopHeight < s.height then timestamps
  else
    let needElements := timestampCheckWindow - timestamps.length
    let stopOffset := startTopHeight - needElements
    timestamps ++
      (((s.chain.take (startTopHeight + 1)).drop (stopOffset + 1)).map
        fun sb => sb.bl.timestamp).reverse

/-- `build_alt_chain`: `none` where the walk does not end on the main chain. -/
def buildAltChain (s : Blockchain) (prevId : Hash) : Option (List AltBlock × List Nat) :=
  let altChain := s.altChainOf prevId
  let timestamps := (altChain.map fun a => a.bl.timestamp).reverse
  match altChain with
  | [] =>
    (s.chain.heightOf? e prevId).map fun h => ([], s.completeTimestampsVector h timestamps)
  | front :: _ =>
    if ¬ s.height > front.height then none
    else
      match s.chain.heightOf? e front.bl.prevId with
      | none => none
      | some h =>
        if s.chain.idAt e (front.height - 1) ≠ front.bl.prevId then none
        else some (altChain, s.completeTimestampsVector h timestamps)

/-- `get_next_difficulty_for_alternative_chain`: the stitched window, for the
block at `height` on top of `altChain`. -/
def getNextDifficultyForAlternativeChain (s : Blockchain) (altChain : List AltBlock)
    (height : Nat) : Nat :=
  if e.fixedDifficulty ≠ 0 then (if s.height = 0 then 1 else e.fixedDifficulty)
  else
    let altPoints := altChain.map fun a => (a.bl.timestamp, a.cumulativeDifficulty)
    let points :=
      if altChain.length < difficultyBlocksCount then
        let stop := (altChain.head?.map AltBlock.height).getD height
        let count := min (difficultyBlocksCount - altChain.length) stop
        let start := max 1 (stop - count)
        (s.chain.points.take stop).drop start ++ altPoints
      else altPoints.drop (altChain.length - difficultyBlocksCount)
    nextDifficulty (points.map Prod.fst) (points.map Prod.snd)
      (difficultyTarget (e.forks.getIdealVersion height))

/-- The seed hash for an alternative block at `height`. -/
def altSeedHash (s : Blockchain) (altChain : List AltBlock) (height : Nat) : Hash :=
  let seedHeight := Env.rxSeedheight height
  match altChain with
  | front :: _ =>
    if front.height ≤ seedHeight then
      ((altChain.find? fun a => a.height = seedHeight + 1).map fun a => a.bl.prevId).getD nullHash
    else s.chain.idAt e seedHeight
  | [] => s.chain.idAt e seedHeight

/-- The proof of work of an alternative block. From the RandomX version on the
special case of one height is bypassed. -/
def altProofOfWork (s : Blockchain) (altChain : List AltBlock) (b : Block) (height : Nat) : Hash :=
  if b.majorVersion ≥ 12 then e.rxSlowHash (s.altSeedHash e altChain height) b
  else e.getBlockLonghash (s.chain.idAt e (Env.rxSeedheight height)) b height

/-! ## Switching -/

/-- Pop until the top is `target`, collecting the popped blocks. The flag is
false where a pop throws. -/
def disconnectTo (target : Hash) : Nat → Blockchain → List Block → Bool × List Block × Blockchain
  | 0, s, disconnected => (s.tailId e = target, disconnected, s)
  | fuel + 1, s, disconnected =>
    if s.tailId e = target then (true, disconnected, s)
    else
      match s.popBlockFromBlockchain e with
      | none => (false, disconnected, s)
      | some (b, s) => disconnectTo target fuel s (b :: disconnected)

/-- `handle_block_to_main_chain(bl, bvc)`: no supplement. -/
def handleKnownBlock (s : Blockchain) (bl : Block) : Outcome :=
  s.handleBlockToMainChain e bl (e.getBlockHash bl) {}

/-- Connect the alternative blocks in order. What is left over starts with the
block that was refused. -/
def connectAll : List AltBlock → Blockchain → List AltBlock × Blockchain
  | [], s => ([], s)
  | a :: rest, s =>
    let o := s.handleKnownBlock e a.bl
    if o.ret && o.bvc.addedToMainChain then connectAll rest o.st else (a :: rest, o.st)

/-- The pop loop of `rollback_blockchain_switching`. -/
def popToHeight (rollbackHeight : Nat) : Nat → Blockchain → Bool × Blockchain
  | 0, s => (s.height = rollbackHeight, s)
  | fuel + 1, s =>
    if s.height = rollbackHeight then (true, s)
    else
      match s.popBlockFromBlockchain e with
      | none => (false, s)
      | some (_, s) => popToHeight rollbackHeight fuel s

/-- The loop that returns the original chain. It stops at the first block that
is refused ("PANIC!"). -/
def readdAll : List Block → Blockchain → Bool × Blockchain
  | [], s => (true, s)
  | bl :: rest, s =>
    let o := s.handleKnownBlock e bl
    if o.ret && o.bvc.addedToMainChain then readdAll rest o.st else (false, o.st)

/-- `m_hardfork->reorganize_from_chain_height(height)` -/
def reorganizeHardFork (s : Blockchain) (height : Nat) : Blockchain :=
  let r := s.hf.reorganizeFromChainHeight e.forks s.hfVersions s.chain.blocks height
  { s with hf := r.1, hfVersions := r.2 }

def rollbackBlockchainSwitching (s : Blockchain) (originalChain : List Block)
    (rollbackHeight : Nat) : Bool × Blockchain :=
  if rollbackHeight > s.height then (true, s)
  else
    match popToHeight e rollbackHeight s.height s.resetDifficultyWindow with
    | (false, s) => (false, s)
    | (true, s) =>
      let s := (s.updateNextCumulativeWeightLimit e).reorganizeHardFork e rollbackHeight
      match readdAll e originalChain s with
      | (false, s) => (false, s)
      | (true, s) => (true, s.reorganizeHardFork e rollbackHeight)

/-- `remove_alt_block` for each block of a list. -/
def removeAltBlocks (s : Blockchain) (as : List AltBlock) : Blockchain :=
  { s with
    altBlocks := as.foldl (fun t a => Keyed.erase AltBlock.id t (e.getBlockHash a.bl)) s.altBlocks }

/-- `switch_to_alternative_blockchain`. `pushOld` files one disconnected block as
an alternative. -/
def switchWith (pushOld : Blockchain → Block → Blockchain) (s : Blockchain)
    (altChain : List AltBlock) (discardDisconnectedChain : Bool) : Bool × Blockchain :=
  let s := s.resetDifficultyWindow
  match altChain with
  | [] => (false, s)
  | front :: _ =>
    if !s.chain.blockExists e front.bl.prevId then (false, s)
    else
      match disconnectTo e front.bl.prevId s.height s [] with
      | (false, _, s) => (false, s)
      | (true, disconnected, s) =>
        let s := s.updateNextCumulativeWeightLimit e
        let splitHeight := s.height
        match connectAll e altChain s with
        | (refused :: rest, s) =>
          let s := (s.rollbackBlockchainSwitching e disconnected splitHeight).2
          (false, s.removeAltBlocks e (refused :: rest))
        | ([], s) =>
          let s := if discardDisconnectedChain then s else disconnected.foldl pushOld s
          (true, (s.removeAltBlocks e altChain).reorganizeHardFork e splitHeight)

/-! ## Alternative blocks -/

/-- The loop that moves the supplement into the pool: `none` where a transaction
does not get in. -/
def addSupplement (ctx : PoolContext) (chain : Chain) (hfVersion : Nat) :
    List (Hash × Transaction) → TxPool → Bool × TxPool
  | [], pool => (true, pool)
  | (id, tx) :: rest, pool =>
    if pool.matchesLegacy id || chain.txExists e id then
      addSupplement ctx chain hfVersion rest pool
    else
      let r := pool.addTx e ctx tx (e.getTransactionHash tx) (e.getTransactionWeight tx) .block
        true hfVersion hfVersion
      if r.1 then addSupplement ctx chain hfVersion rest r.2 else (false, r.2)

/-- `bei.block_cumulative_weight`: 0 where a listed transaction is unknown. -/
def altBlockWeight (s : Blockchain) (b : Block) : UInt64 :=
  let weightOf := fun id =>
    if s.pool.matchesLegacy id then (s.pool.find? id).map fun t => t.info.weight
    else
      (s.chain.flatMap fun sb => (sb.txIds e).zip (sb.bl.minerTx :: sb.txs)).lookup id |>.map
        e.getPrunedTransactionWeight
  match b.txHashes.mapM weightOf with
  | none => 0
  | some ws => ws.foldl (· + ·) (e.getTransactionWeight b.minerTx)

/-- `already_generated_coins` kept for an alternative block. -/
def altGeneratedCoins (b : Block) (prevGeneratedCoins : UInt64) : UInt64 :=
  let blockReward := getOutsMoneyAmount b.minerTx
  if blockReward < moneySupply - prevGeneratedCoins then prevGeneratedCoins + blockReward
  else moneySupply

/-- `prev_generated_coins`: the alternative parent's, else the main chain's. -/
def altPrevCoins (s : Blockchain) (altChain : List AltBlock) (prevHeight : Nat) : UInt64 :=
  match altChain.getLast? with
  | some a => a.alreadyGeneratedCoins
  | none => (s.chain[prevHeight]?.map StoredBlock.alreadyGeneratedCoins).getD 0

/-- The cumulative difficulty a new alternative block starts from. -/
def altPrevDifficulty (s : Blockchain) (altChain : List AltBlock) (prevHeight : Nat) : Nat :=
  match altChain.getLast? with
  | some a => a.cumulativeDifficulty
  | none => (s.chain[prevHeight]?.map StoredBlock.cumulativeDifficulty).getD 0

/-- The row for an alternative block on top of `altChain` (or of the main-chain
block at `prevHeight` where that is empty), given its difficulty. -/
def altBlockOf (s : Blockchain) (b : Block) (id : Hash) (altChain : List AltBlock)
    (prevHeight difficulty : Nat) : AltBlock where
  id := id
  bl := b
  height := prevHeight + 1
  cumulativeWeight := 0
  cumulativeDifficulty := (s.altPrevDifficulty altChain prevHeight + difficulty) % difficultyModulus
  alreadyGeneratedCoins := altGeneratedCoins b (s.altPrevCoins altChain prevHeight)

/-- The height of a block's parent: the alternative parent's own, else the
main chain's. -/
def parentHeight (s : Blockchain) (prevId : Hash) (altChain : List AltBlock) : Nat :=
  match altChain.getLast? with
  | some a => a.height
  | none => (s.chain.heightOf? e prevId).getD 0

/-- The end of `handle_alternative_block`: store the block and switch if it is a
checkpoint or its chain is the heavier one. -/
def storeAlternative (switch : Blockchain → List AltBlock → Bool → Bool × Blockchain)
    (s : Blockchain) (ps : PoolSupplement) (altChain : List AltBlock) (bei : AltBlock)
    (isACheckpoint : Bool) : Outcome :=
  if (s.getAltBlock bei.id).isSome then ⟨false, {}, s, ps⟩
  else
    let mainDifficulty := s.chain.topCumulativeDifficulty
    let stored := { s with altBlocks := bei :: s.altBlocks }
    let finish := fun (r : Bool × Blockchain) =>
      (⟨r.1, { addedToMainChain := r.1, verifivationFailed := !r.1 }, r.2, ps⟩ : Outcome)
    if isACheckpoint then finish (switch stored (altChain ++ [bei]) true)
    else if mainDifficulty < bei.cumulativeDifficulty then
      finish (switch stored (altChain ++ [bei]) false)
    else ⟨true, {}, stored, ps⟩

/-- `handle_alternative_block` once the parent is known. -/
def handleConnected (switch : Blockchain → List AltBlock → Bool → Bool × Blockchain)
    (s : Blockchain) (b : Block) (id : Hash) (ps : PoolSupplement) (hfVersion : Nat) : Outcome :=
  match s.buildAltChain e b.prevId with
  | none => ⟨false, {}, s, ps⟩
  | some (altChain, timestamps) =>
    let prevHeight := s.parentHeight e b.prevId altChain
    let height := prevHeight + 1
    if !checkTimestampMedian timestamps b then s.refuse ps false
    else
      let (allowed, isACheckpoint) := e.checkpoints.checkBlock height id
      if !allowed then s.refuse ps false
      else
        let difficulty := s.getNextDifficultyForAlternativeChain e altChain height
        if difficulty = 0 then ⟨false, {}, s, ps⟩
        else if !checkHash (s.altProofOfWork e altChain b height) difficulty then s.refuse ps true
        else if !prevalidateMinerTransaction b height hfVersion then s.refuse ps false
        else if !verSupplement e ps hfVersion then s.refuse ps false
        else
          let bei := s.altBlockOf b id altChain prevHeight difficulty
          let ps := { ps with nicVerifiedHfVersion := hfVersion }
          match addSupplement e (s.poolContext e) s.chain hfVersion ps.txsByTxid s.pool with
          | (false, pool) => ({ s with pool := pool }).refuse ps false
          | (true, pool) =>
            let s := { s with pool := pool }
            let bei := { bei with cumulativeWeight := s.altBlockWeight e b }
            storeAlternative switch s {} altChain bei isACheckpoint

/-- The checks of `handle_alternative_block` that look at the block alone, and the
orphan case. -/
def examineAlternative (switch : Blockchain → List AltBlock → Bool → Bool × Blockchain)
    (s : Blockchain) (b : Block) (id : Hash) (ps : PoolSupplement) : Outcome :=
  let blockHeight := getBlockHeight b
  if blockHeight = 0 then s.refuse ps false
  else if !e.checkpoints.isAlternativeBlockAllowed s.height blockHeight then s.refuse ps false
  else if !s.hf.checkForHeight e.forks b blockHeight then s.refuse ps false
  else if (s.getAltBlock b.prevId).isSome || s.chain.blockExists e b.prevId then
    handleConnected e switch s b id ps (e.forks.getIdealVersion blockHeight)
  else ⟨true, { markedAsOrphaned := true }, s, ps⟩

/-- `handle_alternative_block`, given the function it switches with. -/
def handleAlternativeWith (switch : Blockchain → List AltBlock → Bool → Bool × Blockchain)
    (s : Blockchain) (b : Block) (id : Hash) (ps : PoolSupplement) : Outcome :=
  examineAlternative e switch s.resetDifficultyWindow.ticked b id ps

/-- `handle_alternative_block`, with switches nested at most `depth` deep. -/
def handleAlternativeBlock : Nat → Blockchain → Block → Hash → PoolSupplement → Outcome
  | 0 => handleAlternativeWith e fun s _ _ => (false, s)
  | depth + 1 =>
    handleAlternativeWith e
      (switchWith e fun s b => (handleAlternativeBlock depth s b (e.getBlockHash b) {}).st)

/-- `switch_to_alternative_blockchain`, filing the disconnected blocks with
`depth` further levels of nesting. -/
def switchToAlternativeBlockchain (depth : Nat) :
    Blockchain → List AltBlock → Bool → Bool × Blockchain :=
  switchWith e fun s b => (handleAlternativeBlock e depth s b (e.getBlockHash b) {}).st

def addNewBlock (depth : Nat) (s : Blockchain) (bl : Block) (ps : PoolSupplement) : Outcome :=
  let id := e.getBlockHash bl
  if s.haveBlock e id then ⟨false, { alreadyExists := true }, s, ps⟩
  else if bl.prevId ≠ s.tailId e then handleAlternativeBlock e depth s bl id ps
  else s.handleBlockToMainChain e bl id ps

/-- `core::add_new_tx`: what the pool shows or the chain has is not looked at again. -/
def addNewTx (s : Blockchain) (tx : Transaction) (txWeight : UInt64) (txRelay : RelayMethod)
    (relayed : Bool) : Bool × Blockchain :=
  let id := e.getTransactionHash tx
  if s.pool.matchesLegacy id || s.chain.txExists e id then (true, s)
  else
    let s := s.ticked
    let r := s.pool.addTx e (s.poolContext e) tx id txWeight txRelay relayed (s.hfVersion e) 0
    (r.1, { s with pool := r.2 })

/-- `batch_stop`, and what follows it for the difficulty window. -/
def batchStop (s : Blockchain) : Blockchain :=
  { s with diff := if s.diff.reset then { s.diff with height := 0, reset := false } else s.diff }

/-- `batch_abort`: the tables are again those of the start of the batch. What is kept in memory is
not touched: the hard-fork object, the caches, the lists of the pool. -/
def batchAbort (s start : Blockchain) : Blockchain :=
  { s with
    chain := start.chain
    altBlocks := start.altBlocks
    hfVersions := start.hfVersions
    pool := { s.pool with txs := start.pool.txs } }

/-- `cleanup_handle_incoming_blocks`, for a batch that began in `start`. `add_block` clears
`m_batch_success` where it throws. -/
def cleanupHandleIncomingBlocks (s : Blockchain) (batchSuccess : Bool) (start : Blockchain) :
    Blockchain :=
  if batchSuccess then s.batchStop else s.batchAbort start

end Blockchain

end Oxyra
