import Oxyra.Core.TxPool

/-!
# The pool and its transient lists (`tx_pool.cpp`)

Clients follow the pool by the time of the last answer they got: the pool notes
which transactions came and which went since.

* `TransientLists` are the four members behind it: the time each transaction
  came, the log of removals, and the times the two go back to.
* `TrackedPool` is the pool with these lists. Its operations are those of
  `TxPool` with the list calls where the source has them; `time(NULL)` is read
  anew by each list call, as in the source.
-/

namespace Oxyra

/-- `matches_category(method, relay_category::broadcasted)` -/
def RelayMethod.matchesBroadcasted : RelayMethod → Bool
  | .block => true
  | .fluff => true
  | _ => false

/-- `!meta.matches(relay_category::broadcasted)` -/
def PoolTx.sensitive (t : PoolTx) : Bool :=
  !t.info.relayMethod.matchesBroadcasted

/-! ## The lists -/

/-- `removed_tx_info`, with the time it is filed under. -/
structure RemovedTx where
  time : Nat
  txid : Hash
  sensitive : Bool

/-- The members behind `get_pool_info`. A start time of 0 is one not set. -/
structure TransientLists where
  addedTxsById : List (Hash × Nat) := []
  addedTxsStartTime : Nat := 0
  removedTxsByTime : List RemovedTx := []
  removedTxsStartTime : Nat := 0

namespace TransientLists

/-- The part of `add_tx_to_transient_lists` about these members. -/
def add (l : TransientLists) (txid : Hash) (now : Nat) : TransientLists :=
  { l with
    addedTxsById := (txid, now) :: l.addedTxsById.filter fun r => r.1 ≠ txid
    addedTxsStartTime := if l.addedTxsStartTime = 0 then now else l.addedTxsStartTime }

def maxRemoved : Nat := 20000

/-- Insertion into the multimap: behind what is not later. -/
def insertRemoved (r : RemovedTx) : List RemovedTx → List RemovedTx
  | [] => [r]
  | x :: rest => if x.time ≤ r.time then x :: insertRemoved r rest else r :: x :: rest

/-- `track_removed_tx`: file the removal, then keep the log short, by length or
by age. -/
def trackRemovedTx (l : TransientLists) (r : RemovedTx) : TransientLists :=
  let log := insertRemoved r l.removedTxsByTime
  let start := if l.removedTxsStartTime = 0 then r.time else l.removedTxsStartTime
  if log.length > maxRemoved then
    let kept := log.drop (maxRemoved / 4 + 1)
    { l with
      removedTxsByTime := kept
      removedTxsStartTime := (kept.head?.map RemovedTx.time).getD start }
  else
    let earliest := r.time - 30 * 60
    let kept := log.dropWhile fun x => x.time < earliest
    { l with
      removedTxsByTime := kept
      removedTxsStartTime := if kept.length < log.length then earliest else start }

/-- The part of `remove_tx_from_transient_lists` about these members. -/
def remove (l : TransientLists) (r : RemovedTx) : TransientLists :=
  { l with addedTxsById := l.addedTxsById.filter fun x => x.1 ≠ r.txid }.trackRemovedTx r

end TransientLists

/-! ## The pool with its lists -/

structure TrackedPool where
  pool : TxPool := {}
  lists : TransientLists := {}
  /-- How often the clock has been read. -/
  reads : Nat := 0

namespace TrackedPool

variable (e : Env) (clock : Nat → Nat) (s : TrackedPool)

/-- The state with other tables. -/
def setPool (p : TxPool) : TrackedPool :=
  { s with pool := p }

/-- The state after one more reading of the clock. -/
def tick : TrackedPool :=
  { s with reads := s.reads + 1 }

def addTxToTransientLists (id : Hash) (fee receiveTime : Nat) : TrackedPool :=
  { s with
    pool := s.pool.addTxToTransientLists id fee receiveTime
    lists := s.lists.add id (clock s.reads)
    reads := s.reads + 1 }

def removeTxFromTransientLists (t : PoolTx) : TrackedPool :=
  let removed : RemovedTx := ⟨clock s.reads, t.id, t.sensitive⟩
  { pool := s.pool.removeTxFromTransientLists t.id
    lists := s.lists.remove removed
    reads := s.reads + 1 }

/-- The removal shared by `take_tx` and `prune`. -/
def removeTx (t : PoolTx) : TrackedPool :=
  (s.removeTxFromTransientLists clock t).setPool (s.pool.removeTx t)

/-- `take_tx`, without the transaction it hands out. -/
def takeTx (id : Hash) : TrackedPool :=
  match s.pool.find? id with
  | none => s
  | some t => s.removeTx clock t

/-- The loop of `prune`. -/
def pruneLoop (bytes : UInt64) : List SortedTx → TrackedPool → TrackedPool
  | [], s => s
  | x :: rest, s =>
    if s.pool.txpoolWeight ≤ bytes then s
    else
      match s.pool.find? x.id with
      | none => pruneLoop bytes rest s
      | some t => if t.keptByBlock then pruneLoop bytes rest s
          else pruneLoop bytes rest (s.removeTx clock t)

def prune (bytes : UInt64) : TrackedPool :=
  let bytes := if bytes = 0 then e.txpoolMaxWeight else bytes
  pruneLoop clock bytes s.pool.sorted.tail.reverse s

/-- The part of `add_tx` after the transaction is in. -/
def finishAdd (txWeight : UInt64) : TrackedPool :=
  (s.setPool { s.pool with
    txpoolWeight := s.pool.txpoolWeight + txWeight
    cookie := s.pool.cookie + 1 }).prune e clock e.txpoolMaxWeight

/-- The branch of `add_tx` for a transaction whose inputs do not verify. -/
def addUnverified (ctx : PoolContext) (tx : Transaction) (id : Hash) (txWeight : UInt64)
    (txRelay : RelayMethod) (relayed : Bool) : Bool × TrackedPool :=
  if txRelay ≠ .block then (false, s)
  else
    let info : TxMeta :=
      { weight := txWeight, fee := getTxFee tx, receiveTime := ctx.now, relayed := relayed
        relayMethod := txRelay, doubleSpendSeen := s.pool.haveTxKeyimgesAsSpent tx id
        pruned := tx.pruned }
    let r := TxPool.insertKeyImages (s.pool.matchesLegacy id) id txRelay tx.vin
      s.pool.spentKeyImages
    let p := { s.pool with spentKeyImages := r.2, cookie := s.pool.cookie + r.1.toNat }
    if !r.1 then (false, s.setPool p)
    else if p.haveTx id then (false, s.setPool p)
    else
      let s := s.setPool { p with txs := p.txs ++ [(⟨id, tx, info⟩ : PoolTx)] }
      let s := s.addTxToTransientLists clock id (feePerByte info.fee txWeight) ctx.now
      (true, s.finishAdd e clock txWeight)

/-- The branch of `add_tx` for a transaction whose inputs verify. -/
def addVerified (ctx : PoolContext) (tx : Transaction) (id : Hash) (txWeight : UInt64)
    (txRelay : RelayMethod) (relayed : Bool) (maxUsed : Nat × Hash) : Bool × TrackedPool :=
  let existing := s.pool.find? id
  let txRelay :=
    if txRelay = .stem && existing.any (fun t => t.info.relayMethod = .stem) then .fluff
    else txRelay
  let previous := (existing.map fun t => t.info.relayMethod).getD .none
  if previous.rank < txRelay.rank ∨ existing = none then
    let info : TxMeta :=
      { weight := txWeight, fee := getTxFee tx, receiveTime := ctx.now, relayed := relayed
        relayMethod := if previous.rank < txRelay.rank then txRelay else previous
        maxUsedBlockHeight := maxUsed.1, maxUsedBlockId := maxUsed.2, pruned := tx.pruned }
    let r := TxPool.insertKeyImages (s.pool.matchesLegacy id) id txRelay tx.vin
      s.pool.spentKeyImages
    let p := { s.pool with spentKeyImages := r.2, cookie := s.pool.cookie + r.1.toNat }
    if !r.1 then (false, s.setPool p)
    else
      let s := s.setPool
        { p with txs := Keyed.erase PoolTx.id p.txs id ++ [(⟨id, tx, info⟩ : PoolTx)] }
      let s := s.addTxToTransientLists clock id (feePerByte info.fee txWeight) ctx.now
      (true, s.finishAdd e clock txWeight)
  else (true, s.finishAdd e clock txWeight)

def addTx (ctx : PoolContext) (tx : Transaction) (id : Hash) (txWeight : UInt64)
    (txRelay : RelayMethod) (relayed : Bool) (version nicVerifiedHfVersion : Nat) :
    Bool × TrackedPool :=
  let keptByBlock : Bool := txRelay = .block
  if !keptByBlock && id ∈ s.pool.timedOutTransactions then (false, s)
  else if version ≠ nicVerifiedHfVersion && !e.verNonInputConsensus tx version then (false, s)
  else if !keptByBlock && !ctx.checkFee txWeight (getTxFee tx) then (false, s)
  else if !keptByBlock && tx.extra.length > TxPool.maxTxExtraSize then (false, s)
  else if !keptByBlock && tx.unlockTime ≠ 0 then (false, s)
  else if !keptByBlock && s.pool.haveTxKeyimgesAsSpent tx id then
    (false, s.setPool (s.pool.markDoubleSpend tx))
  else
    match s.pool.checkTxInputs ctx tx id keptByBlock with
    | (none, p) => (s.setPool p).addUnverified e clock ctx tx id txWeight txRelay relayed
    | (some maxUsed, p) =>
      (s.setPool p).addVerified e clock ctx tx id txWeight txRelay relayed maxUsed

/-- One round of the loop of `validate`. -/
def revalidate (ctx : PoolContext) (version : Nat) (t : PoolTx) : TrackedPool :=
  let taken := s.pool.find? t.id
  let tx := (taken.map PoolTx.tx).getD {}
  let relayed := (taken.map fun r => r.info.relayed).getD false
  let r := (s.takeTx clock t.id).addTx e clock ctx tx t.id t.info.weight t.info.relayMethod
    relayed version 0
  if r.1 then r.2.setPool (r.2.pool.updateTxpoolTx t.id t.info) else r.2

/-- `validate`: the lists are thrown away first. -/
def validate (ctx : PoolContext) (version : Nat) : TrackedPool :=
  let txes := s.pool.txs.filter fun t => !t.info.pruned
  txes.foldl (fun s t => s.revalidate e clock ctx version t)
    { s with pool := { s.pool with addedTxsById := [] }, lists := {} }

/-! ## Operations that only matter here -/

/-- `CRYPTONOTE_MEMPOOL_TX_LIVETIME`, in seconds. -/
def mempoolTxLivetime : Nat := 86400 * 3

/-- `CRYPTONOTE_MEMPOOL_TX_FROM_ALT_BLOCK_LIVETIME`, in seconds. -/
def mempoolTxFromAltBlockLivetime : Nat := 604800

/-- The age test of `remove_stuck_transactions`. The subtraction wraps for a
receive time in the future. -/
def isStuck (now : Nat) (t : PoolTx) : Bool :=
  let txAge := (now + 2 ^ 64 - t.info.receiveTime) % 2 ^ 64
  (txAge > mempoolTxLivetime && !t.keptByBlock) ||
    (txAge > mempoolTxFromAltBlockLivetime && t.keptByBlock)

/-- An outdated transaction leaves the lists and is remembered as timed out. -/
def timeOut (t : PoolTx) : TrackedPool :=
  let s := s.removeTxFromTransientLists clock t
  s.setPool { s.pool with timedOutTransactions := t.id :: s.pool.timedOutTransactions }

/-- The first loop of `remove_stuck_transactions`, with the transactions to
remove. The clock is read for each. -/
def collectStuck (r : List PoolTx × TrackedPool) (t : PoolTx) : List PoolTx × TrackedPool :=
  if isStuck (clock r.2.reads) t then (r.1 ++ [t], r.2.tick.timeOut clock t)
  else (r.1, r.2.tick)

def removeStuckTransactions : TrackedPool :=
  let r := s.pool.txs.foldl (collectStuck clock) ([], s)
  r.2.setPool (r.1.foldl TxPool.removeTx r.2.pool)

/-- One round of `set_relayed`. Transactions are listed anew when they become
public. -/
def setRelayedOne (method : RelayMethod) (now : Nat) (id : Hash) : TrackedPool :=
  match s.pool.find? id with
  | none => s
  | some t =>
    let relayMethod :=
      if t.info.relayMethod.rank < method.rank then method else t.info.relayMethod
    let info := { t.info with relayMethod := relayMethod, relayed := true }
    let updated := s.setPool (s.pool.updateTxpoolTx id info)
    if !t.info.relayMethod.matchesBroadcasted && relayMethod.matchesBroadcasted then
      updated.addTxToTransientLists clock id (feePerByte info.fee info.weight) now
    else updated

def setRelayed (hashes : List Hash) (method : RelayMethod) : TrackedPool :=
  let now := clock s.reads
  hashes.foldl (fun s id => s.setRelayedOne clock method now id) s.tick

/-- One row in `init`; `none` where its key images cannot be filed. -/
def initRow (kept : Bool) (s : TrackedPool) (t : PoolTx) : Option TrackedPool :=
  if t.keptByBlock ≠ kept then some s
  else
    let r := TxPool.insertKeyImages (s.pool.matchesLegacy t.id) t.id t.info.relayMethod t.tx.vin
      s.pool.spentKeyImages
    if !r.1 then none
    else
      let s := s.setPool { s.pool with spentKeyImages := r.2 }
      let s := s.addTxToTransientLists clock t.id (feePerByte t.info.fee t.info.weight)
        t.info.receiveTime
      some (s.setPool { s.pool with txpoolWeight := s.pool.txpoolWeight + t.info.weight })

/-- `init` on the tables found in the database: first the rows not kept by a
block, then those kept. -/
def init (p : TxPool) : Option TrackedPool := do
  let s : TrackedPool :=
    { pool := { p with
        sorted := [], addedTxsById := [], spentKeyImages := [], txpoolWeight := 0, cookie := 0 } }
  let s ← p.txs.foldlM (initRow clock false) s
  p.txs.foldlM (initRow clock true) s

end TrackedPool

/-- A call of one of the pool's operations. What a call asks of the blockchain
comes with it. -/
inductive PoolCall where
  | addTx (ctx : PoolContext) (tx : Transaction) (id : Hash) (txWeight : UInt64)
      (txRelay : RelayMethod) (relayed : Bool) (version nicVerifiedHfVersion : Nat)
  | takeTx (id : Hash)
  | prune (bytes : UInt64)
  | removeStuckTransactions
  | setRelayed (hashes : List Hash) (method : RelayMethod)
  | validate (ctx : PoolContext) (version : Nat)
  | onBlockchainChange

namespace TrackedPool

variable (e : Env) (clock : Nat → Nat)

def call (s : TrackedPool) : PoolCall → TrackedPool
  | .addTx ctx tx id w relay relayed version nic =>
    (s.addTx e clock ctx tx id w relay relayed version nic).2
  | .takeTx id => s.takeTx clock id
  | .prune bytes => s.prune e clock bytes
  | .removeStuckTransactions => s.removeStuckTransactions clock
  | .setRelayed hashes method => s.setRelayed clock hashes method
  | .validate ctx version => s.validate e clock ctx version
  | .onBlockchainChange => s.setPool s.pool.onBlockchainChange

/-- A history of the pool. -/
def calls (s : TrackedPool) (cs : List PoolCall) : TrackedPool :=
  cs.foldl (call e clock) s

end TrackedPool

end Oxyra
