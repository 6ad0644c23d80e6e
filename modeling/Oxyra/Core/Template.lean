import Oxyra.Core.AltChain

/-!
# Block templates (`blockchain.cpp`, `tx_pool.cpp`)

* `fillBlockTemplate` chooses the transactions, in the order of their fee per byte.
* `createBlockTemplate` puts a template together, on the top or on a given block.
  The coinbase is made twice: its weight has to be known before it can be padded to
  the weight that was announced.

The templates of the source start from a fresh block, and each coinbase draws a
fresh key; the keys are handed in.
-/

namespace Oxyra

/-! ## Choosing transactions -/

/-- `template_accept_threshold`: the product with the `float` 1, which rounds the
amount to 24 significant bits. -/
def templateAcceptThreshold (amount : UInt64) : Nat :=
  Significand.roundTo 24 amount.toNat

/-- The locals of `fill_block_template`. -/
structure FillState where
  pool : TxPool
  txHashes : List Hash := []
  totalWeight : UInt64 := 0
  fee : UInt64 := 0
  bestCoinbase : UInt64
  kImages : List KeyImage := []

/-- `is_transaction_ready_to_go`: the verdict, the transaction as far as it was
parsed, and the pool after it. An answer from the input cache does without parsing,
and the transaction is then still empty. -/
def isTransactionReadyToGo (ctx : PoolContext) (p : TxPool) (t : PoolTx) :
    Bool × Transaction × TxPool :=
  if t.info.lastFailedId = ctx.topId then (false, {}, p)
  else
    let parsed := if (p.inputCache.lookup t.id).isSome then {} else t.tx
    match p.checkTxInputs ctx t.tx t.id false with
    | (none, p) =>
      (false, parsed, p.updateTxpoolTx t.id
        { t.info with lastFailedHeight := ctx.topHeight, lastFailedId := ctx.topId })
    | (some maxUsed, p) =>
      (true, parsed, p.updateTxpoolTx t.id
        { t.info with maxUsedBlockHeight := maxUsed.1, maxUsedBlockId := maxUsed.2 })

/-- `have_key_images`: false at the first input that is not `txin_to_key`. -/
def haveKeyImages (kImages : List KeyImage) : List TxinV → Bool
  | .toKey _ _ image :: rest => image ∈ kImages || haveKeyImages kImages rest
  | _ => false

/-- `append_key_images`, which also stops at an image that is already there. -/
def appendKeyImages (kImages : List KeyImage) : List TxinV → List KeyImage
  | .toKey _ _ image :: rest =>
    if image ∈ kImages then kImages else appendKeyImages (image :: kImages) rest
  | _ => kImages

/-- What the weight and the coinbase say about one more transaction. -/
inductive FillVerdict where
  | skip
  | stop
  | consider (coinbase : UInt64)
deriving DecidableEq, Repr

/-- The tests of `fill_block_template` before a transaction is looked at. -/
def fillVerdict (e : Env) (medianWeight maxTotalWeight alreadyGeneratedCoins : UInt64)
    (version : Nat) (st : FillState) (info : TxMeta) : FillVerdict :=
  if !info.relayMethod.matchesLegacy && !(e.mineStemTxes && info.relayMethod = .stem) then .skip
  else if info.pruned then .skip
  else if maxTotalWeight < st.totalWeight + info.weight then .skip
  else if version ≥ 5 then
    match getBlockReward medianWeight (st.totalWeight + info.weight) alreadyGeneratedCoins
        version with
    | none => .skip
    | some blockReward =>
      let coinbase := blockReward + st.fee + info.fee
      if coinbase.toNat < templateAcceptThreshold st.bestCoinbase then .skip
      else .consider coinbase
  else if st.totalWeight > medianWeight then .stop
  else .consider 0

/-- One transaction that passed them. -/
def considerTx (ctx : PoolContext) (st : FillState) (t : PoolTx) (coinbase : UInt64) : FillState :=
  match isTransactionReadyToGo ctx st.pool t with
  | (false, _, pool) => { st with pool := pool }
  | (true, tx, pool) =>
    if haveKeyImages st.kImages tx.vin then { st with pool := pool }
    else
      { pool := pool
        txHashes := st.txHashes ++ [t.id]
        totalWeight := st.totalWeight + t.info.weight
        fee := st.fee + t.info.fee
        bestCoinbase := coinbase
        kImages := appendKeyImages st.kImages tx.vin }

/-- The loop of `fill_block_template`. -/
def fillLoop (e : Env) (ctx : PoolContext) (medianWeight maxTotalWeight
    alreadyGeneratedCoins : UInt64) (version : Nat) : List SortedTx → FillState → FillState
  | [], st => st
  | x :: rest, st =>
    match st.pool.find? x.id with
    | none =>
      fillLoop e ctx medianWeight maxTotalWeight alreadyGeneratedCoins version rest st
    | some t =>
      match fillVerdict e medianWeight maxTotalWeight alreadyGeneratedCoins version st t.info with
      | .skip =>
        fillLoop e ctx medianWeight maxTotalWeight alreadyGeneratedCoins version rest st
      | .stop => st
      | .consider coinbase =>
        fillLoop e ctx medianWeight maxTotalWeight alreadyGeneratedCoins version rest
          (considerTx ctx st t coinbase)

def maxTotalWeight (medianWeight : UInt64) (version : Nat) : UInt64 :=
  if version ≥ 5 then 2 * medianWeight - coinbaseBlobReservedSize
  else 130 * medianWeight / 100 - coinbaseBlobReservedSize

def fillBlockTemplate (e : Env) (ctx : PoolContext) (pool : TxPool) (medianWeight
    alreadyGeneratedCoins : UInt64) (version : Nat) : Option FillState :=
  (getBlockReward medianWeight 0 alreadyGeneratedCoins version).map fun bestCoinbase =>
    fillLoop e ctx medianWeight (maxTotalWeight medianWeight version) alreadyGeneratedCoins version
      pool.sorted { pool := pool, bestCoinbase := bestCoinbase }

/-! ## The coinbase of a template -/

/-- What the coinbase of a template is made from. -/
structure CoinbaseArgs where
  height : Nat
  medianWeight : UInt64
  alreadyGeneratedCoins : UInt64
  txsWeight : UInt64
  fee : UInt64
  address : AccountPublicAddress
  exNonce : List UInt8
  version : Nat

/-- `construct_miner_tx` for a template whose weight is taken to be `weight`. -/
def CoinbaseArgs.construct (e : Env) (a : CoinbaseArgs) (txkey : Keypair) (tx : Transaction)
    (weight : UInt64) : Option Transaction :=
  constructMinerTx e a.height a.medianWeight a.alreadyGeneratedCoins weight a.fee a.address txkey
    tx a.exNonce (if a.version ≥ 4 then 1 else 11) a.version

/-- The outcome of one try to fit the coinbase to the weight. -/
inductive FitResult where
  | fail
  | retry (tx : Transaction) (cumulativeWeight : UInt64)
  | done (tx : Transaction)

/-- Padding a coinbase that turned out lighter by `delta`: the length of `extra` may
take one byte more than expected, and one less again when a byte is taken off. -/
def padCoinbase (e : Env) (txsWeight cumulativeWeight delta : UInt64) (tx : Transaction) :
    FitResult :=
  let padded := { tx with extra := tx.extra ++ List.replicate delta.toNat 0 }
  if cumulativeWeight = txsWeight + e.getTransactionWeight padded then .done padded
  else if cumulativeWeight + 1 ≠ txsWeight + e.getTransactionWeight padded then .fail
  else
    let shortened := { padded with extra := padded.extra.dropLast }
    if cumulativeWeight = txsWeight + e.getTransactionWeight shortened then .done shortened
    else .retry shortened (cumulativeWeight + (delta - 1))

/-- One pass of the loop in `create_block_template`. -/
def fitCoinbase (e : Env) (txsWeight cumulativeWeight : UInt64) (tx : Transaction) : FitResult :=
  let coinbaseWeight := e.getTransactionWeight tx
  if coinbaseWeight > cumulativeWeight - txsWeight then
    .retry tx (txsWeight + coinbaseWeight)
  else if coinbaseWeight < cumulativeWeight - txsWeight then
    padCoinbase e txsWeight cumulativeWeight (cumulativeWeight - txsWeight - coinbaseWeight) tx
  else if cumulativeWeight = txsWeight + coinbaseWeight then .done tx
  else .fail

/-- The loop, with the number of tries left. -/
def fitLoop (e : Env) (a : CoinbaseArgs) (keys : Nat → Keypair) :
    Nat → Transaction → UInt64 → Option (Transaction × UInt64)
  | 0, _, _ => none
  | tries + 1, tx, cumulativeWeight => do
      let tx ← a.construct e (keys tries) tx cumulativeWeight
      match fitCoinbase e a.txsWeight cumulativeWeight tx with
      | .fail => none
      | .retry tx cumulativeWeight => fitLoop e a keys tries tx cumulativeWeight
      | .done tx => return (tx, cumulativeWeight)

/-- The coinbase and the weight of the template. -/
def makeCoinbase (e : Env) (a : CoinbaseArgs) (keys : Nat → Keypair) :
    Option (Transaction × UInt64) := do
  let tx ← a.construct e (keys 10) {} a.txsWeight
  fitLoop e a keys 10 tx (a.txsWeight + e.getTransactionWeight tx)

/-! ## Templates -/

/-- `get_ideal_version()` -/
def ForkTable.latestVersion (t : ForkTable) : Nat :=
  (t.heights.getLast t.nonempty).version

/-- The results of `create_block_template`. -/
structure BlockTemplate where
  b : Block
  difficulty : Nat
  height : Nat
  expectedReward : UInt64
  cumulativeWeight : UInt64
  seedHeight : Nat
  seedHash : Hash

/-- What a template is built on: the part of `create_block_template` that differs
between the top and another block. -/
structure TemplateBase where
  height : Nat
  majorVersion : Nat
  prevId : Hash
  medianWeight : UInt64
  difficulty : Nat
  alreadyGeneratedCoins : UInt64
  seedHeight : Nat
  seedHash : Hash

namespace Blockchain

variable (e : Env) (s : Blockchain)

/-- The seed for a template on a main-chain block. It is not looked up before the
RandomX version. -/
def mainSeed (height : Nat) : Nat × Hash :=
  if s.hfVersion e ≥ 12 then (Env.rxSeedheight height, s.chain.idAt e (Env.rxSeedheight height))
  else (0, nullHash)

/-- The template base on the top, and the caches after the difficulty was asked for. -/
def topBase : TemplateBase × DifficultyCache :=
  let r := s.getDifficultyForNextBlock e
  let seed := s.mainSeed e s.height
  ({ height := s.height
     majorVersion := s.hfVersion e
     prevId := s.tailId e
     medianWeight := s.weights.limit / 2
     difficulty := r.1
     alreadyGeneratedCoins := s.chain.topAlreadyGeneratedCoins
     seedHeight := seed.1
     seedHash := seed.2 }, r.2)

/-- The template base on the block `fromBlock`: `none` if it is unknown or its chain
cannot be put together. -/
def fromBase (fromBlock : Hash) : Option TemplateBase := do
  let parentInAlt := s.getAltBlock fromBlock
  let parentInMain := s.chain.heightOf? e fromBlock
  if parentInAlt = none ∧ parentInMain = none then none
  else
    let (altChain, _) ← s.buildAltChain e fromBlock
    let nextHeight := s.parentHeight e fromBlock altChain + 1
    let difficulty := s.getNextDifficultyForAlternativeChain e altChain nextHeight
    match parentInMain with
    | some h =>
      let prev ← s.chain[h]?
      let height := getBlockHeight prev.bl + 1
      let seed := s.mainSeed e height
      return {
        height := height
        majorVersion := e.forks.getIdealVersion height
        prevId := fromBlock
        medianWeight := (s.chain[height - 1]?.map StoredBlock.blockWeight).getD 0
        difficulty := difficulty
        alreadyGeneratedCoins :=
          (s.chain[height - 1]?.map StoredBlock.alreadyGeneratedCoins).getD 0
        seedHeight := seed.1
        seedHash := seed.2 }
    | none =>
      let back ← altChain.getLast?
      let prevData ← parentInAlt
      let height := back.height + 1
      return {
        height := height
        majorVersion := e.forks.getIdealVersion height
        prevId := fromBlock
        medianWeight := prevData.cumulativeWeight - prevData.cumulativeWeight / 20
        difficulty := difficulty
        alreadyGeneratedCoins := back.alreadyGeneratedCoins
        seedHeight := Env.rxSeedheight height
        seedHash := s.altSeedHash e altChain height }

/-- The cached template, with its timestamp brought up to the present, if it still
answers the question. -/
def cachedTemplate (address : AccountPublicAddress) (exNonce : List UInt8) :
    Option BlockTemplateCache :=
  s.btc.bind fun c =>
    if c.address = address ∧ c.nonce = exNonce ∧ c.poolCookie = s.pool.cookie ∧
        c.b.prevId = s.tailId e then
      some { c with b := { c.b with timestamp := max c.b.timestamp (s.now e) } }
    else none

/-- The block of a template before its transactions: the present time, or the median
where that is too early. -/
def templateBlock (base : TemplateBase) : Block :=
  let b : Block :=
    { majorVersion := base.majorVersion
      minorVersion := e.forks.latestVersion
      timestamp := s.now e
      prevId := base.prevId }
  if checkBlockTimestamp (s.now e) s.chain b then b
  else { b with timestamp := median (recentTimestamps s.chain) }

/-- The part of `create_block_template` common to both: transactions and coinbase. -/
def fillTemplate (base : TemplateBase) (address : AccountPublicAddress) (exNonce : List UInt8)
    (keys : Nat → Keypair) : Option (BlockTemplate × TxPool) := do
  if base.difficulty = 0 then none
  else
    let filled ← fillBlockTemplate e (s.poolContext e) s.pool base.medianWeight
      base.alreadyGeneratedCoins base.majorVersion
    let coinbase ← makeCoinbase e
      { height := base.height
        medianWeight := base.medianWeight
        alreadyGeneratedCoins := base.alreadyGeneratedCoins
        txsWeight := filled.totalWeight
        fee := filled.fee
        address := address
        exNonce := exNonce
        version := base.majorVersion } keys
    return ({
      b := { s.templateBlock e base with
        minerTx := coinbase.1
        txHashes := filled.txHashes }
      difficulty := base.difficulty
      height := base.height
      expectedReward := filled.bestCoinbase
      cumulativeWeight := coinbase.2
      seedHeight := base.seedHeight
      seedHash := base.seedHash }, filled.pool)

/-- `create_block_template`: the template and the state after it, `none` where it
returns false. -/
def createBlockTemplate (fromBlock? : Option Hash) (address : AccountPublicAddress)
    (exNonce : List UInt8) (keys : Nat → Keypair) : Option (BlockTemplate × Blockchain) :=
  let s := s.ticked
  match fromBlock? with
  | some fromBlock =>
    (s.fromBase e fromBlock).bind fun base =>
      (s.fillTemplate e base address exNonce keys).map fun r => (r.1, { s with pool := r.2 })
  | none =>
    match s.cachedTemplate e address exNonce with
    | some c =>
      some (⟨c.b, c.difficulty, c.height, c.expectedReward, c.cumulativeWeight, c.seedHeight,
        c.seedHash⟩, { s with btc := some c })
    | none =>
      let base := s.topBase e
      let s := { s with diff := base.2, btc := none }
      (s.fillTemplate e base.1 address exNonce keys).map fun r =>
        (r.1, { s with
          pool := r.2
          btc := some
            { b := r.1.b, address := address, nonce := exNonce, difficulty := r.1.difficulty
              height := r.1.height, expectedReward := r.1.expectedReward
              cumulativeWeight := r.1.cumulativeWeight, seedHeight := r.1.seedHeight
              seedHash := r.1.seedHash, poolCookie := r.2.cookie } })

end Blockchain

end Oxyra
