import Oxyra.Lib.Keyed
import Oxyra.Lib.Significand
import Oxyra.Core.Env

/-!
# The transaction pool (`tx_pool.cpp`)

* `TxPool` holds the pool tables of the database (`txs`), the container sorted
  by fee per byte (`sorted`), the key-image index, the running weight and the
  cookie that counts changes.
* `addTx`, `takeTx`, `prune` and `validate` are the mutators; `addTx` with
  relay method `block` is how transactions of popped and refused blocks come
  back.
What the pool asks of `Blockchain` comes in a `PoolContext`. The parsed-blob
cache holds nothing the tables do not and is left out; the cache of input
checks is kept, because its entries outlive the moment they were computed.
-/

namespace Oxyra

/-! ## Relay methods -/

/-- `relay_method`, in the order of the source. -/
inductive RelayMethod where
  | none
  | localOnly
  | forward
  | stem
  | fluff
  | block
deriving DecidableEq, Repr

/-- The position in the enumeration, which `upgrade_relay_method` compares. -/
def RelayMethod.rank : RelayMethod → Nat
  | .none => 0
  | .localOnly => 1
  | .forward => 2
  | .stem => 3
  | .fluff => 4
  | .block => 5

/-- `matches_category(method, relay_category::legacy)` -/
def RelayMethod.matchesLegacy : RelayMethod → Bool
  | .block => true
  | .fluff => true
  | .none => true
  | _ => false

/-! ## State -/

/-- `txpool_tx_meta_t`. The relay bits are kept as the method they encode, so
`kept_by_block` is `relayMethod = .block`. -/
structure TxMeta where
  weight : UInt64
  fee : UInt64
  maxUsedBlockId : Hash := nullHash
  maxUsedBlockHeight : Nat := 0
  lastFailedId : Hash := nullHash
  lastFailedHeight : Nat := 0
  receiveTime : Nat := 0
  relayed : Bool := false
  relayMethod : RelayMethod := .none
  doubleSpendSeen : Bool := false
  pruned : Bool := false
deriving DecidableEq, Repr

/-- A row of the pool tables. -/
structure PoolTx where
  id : Hash
  tx : Transaction
  info : TxMeta
deriving DecidableEq, Repr

def PoolTx.keptByBlock (t : PoolTx) : Bool :=
  t.info.relayMethod = .block

/-- `tx_by_fee_and_receive_time_entry`. The fee per byte is the `double` of the
source, scaled to a natural number. -/
structure SortedTx where
  feePerByte : Nat
  receiveTime : Nat
  id : Hash
deriving DecidableEq, Repr

/-- `txFeeCompare`: greatest fee first, then earliest. -/
def SortedTx.before (a b : SortedTx) : Bool :=
  a.feePerByte > b.feePerByte || (a.feePerByte = b.feePerByte && a.receiveTime < b.receiveTime)

/-- `fee / (double)(weight ? weight : 1)` -/
def feePerByte (fee weight : UInt64) : Nat :=
  Significand.divide 53 (Significand.roundTo 53 fee.toNat)
    (Significand.roundTo 53 (if weight = 0 then 1 else weight.toNat))

/-- The members of `tx_memory_pool` together with the pool tables. -/
structure TxPool where
  txs : List PoolTx := []
  sorted : List SortedTx := []
  addedTxsById : List Hash := []
  spentKeyImages : List (KeyImage × List Hash) := []
  timedOutTransactions : List Hash := []
  inputCache : List (Hash × Option (Nat × Hash)) := []
  txpoolWeight : UInt64 := 0
  cookie : Nat := 0
deriving DecidableEq, Repr

/-- What the pool asks of the blockchain during one call. -/
structure PoolContext where
  /-- `time(nullptr)` -/
  now : Nat
  /-- Height and id of the top block. -/
  topHeight : Nat
  topId : Hash
  /-- `Blockchain::check_tx_inputs`: `none` is false, otherwise the height and
  id of the newest block an input refers to. -/
  checkTxInputs : Transaction → (keptByBlock : Bool) → Option (Nat × Hash)
  /-- `Blockchain::check_fee` -/
  checkFee : (txWeight fee : UInt64) → Bool

namespace TxPool

/-- `get_txpool_tx_meta` and `get_txpool_tx_blob` -/
def find? (p : TxPool) (id : Hash) : Option PoolTx :=
  Keyed.find? PoolTx.id p.txs id

/-- `have_tx(id, relay_category::all)` -/
def haveTx (p : TxPool) (id : Hash) : Bool :=
  (p.find? id).isSome

/-- `txpool_tx_matches_category(id, relay_category::legacy)` -/
def matchesLegacy (p : TxPool) (id : Hash) : Bool :=
  (p.find? id).any fun t => t.info.relayMethod.matchesLegacy

/-! ## Key images -/

/-- `m_spent_key_images[image]` -/
def keyImageSet (table : List (KeyImage × List Hash)) (image : KeyImage) : List Hash :=
  (table.lookup image).getD []

/-- Replace the set of one image; an empty set is erased. -/
def setKeyImage (table : List (KeyImage × List Hash)) (image : KeyImage) (ids : List Hash) :
    List (KeyImage × List Hash) :=
  let rest := table.filter fun r => r.1 ≠ image
  if ids = [] then rest else (image, ids) :: rest

/-- `insert_key_images`, over the inputs: the table is left as far as the loop
got when it returns false. -/
def insertKeyImages (legacy : Bool) (id : Hash) (txRelay : RelayMethod) :
    List TxinV → List (KeyImage × List Hash) → Bool × List (KeyImage × List Hash)
  | [], table => (true, table)
  | .toKey _ _ image :: rest, table =>
    let ids := keyImageSet table image
    let oneTxid := ids = [] || ids = [id]
    if txRelay ≠ .block && !oneTxid then (false, table)
    else
      let inserted := id ∉ ids
      let table := setKeyImage table image (if inserted then id :: ids else ids)
      if inserted || !legacy then insertKeyImages legacy id txRelay rest table
      else (false, table)
  | _ :: _, table => (false, table)

/-- `remove_transaction_keyimages`, over the inputs. -/
def removeTransactionKeyimages (id : Hash) :
    List TxinV → List (KeyImage × List Hash) → List (KeyImage × List Hash)
  | .toKey _ _ image :: rest, table =>
    let ids := keyImageSet table image
    if id ∈ ids then removeTransactionKeyimages id rest (setKeyImage table image (ids.erase id))
    else table
  | _, table => table

def haveTxKeyimgAsSpent (p : TxPool) (image : KeyImage) (id : Hash) : Bool :=
  match keyImageSet p.spentKeyImages image with
  | [] => false
  | [only] => if only ≠ id then true else p.matchesLegacy id
  | _ => true

/-- `have_tx_keyimges_as_spent`; an input that is not `txin_to_key` counts as
spent. -/
def haveTxKeyimgesAsSpent (p : TxPool) (tx : Transaction) (id : Hash) : Bool :=
  tx.vin.any fun
    | .toKey _ _ image => p.haveTxKeyimgAsSpent image id
    | _ => true

/-- Set `double_spend_seen` on a row whose id is in `hit`. -/
def markSeen (hit : List Hash) (t : PoolTx) : PoolTx :=
  if t.id ∈ hit then { t with info := { t.info with doubleSpendSeen := true } } else t

def markDoubleSpend (p : TxPool) (tx : Transaction) : TxPool :=
  let hit := tx.vin.flatMap fun
    | .toKey _ _ image => keyImageSet p.spentKeyImages image
    | _ => []
  let changed := p.txs.any fun t => t.id ∈ hit && !t.info.doubleSpendSeen
  { p with
    txs := p.txs.map (markSeen hit)
    cookie := p.cookie + changed.toNat }

/-! ## Sorted container and weight -/

/-- `m_txs_by_fee_and_receive_time.insert`: behind the entries it does not
precede. -/
def insertSorted (x : SortedTx) : List SortedTx → List SortedTx
  | [] => [x]
  | y :: rest => if x.before y then x :: y :: rest else y :: insertSorted x rest

/-- `add_tx_to_transient_lists`. The container also refuses an id it still
holds. -/
def addTxToTransientLists (p : TxPool) (id : Hash) (fee : Nat) (receiveTime : Nat) : TxPool :=
  let known := id ∈ p.addedTxsById
  let sorted := if known then p.sorted.filter fun x => x.id ≠ id else p.sorted
  { p with
    addedTxsById := if known then p.addedTxsById else id :: p.addedTxsById
    sorted := if sorted.any fun x => x.id = id then sorted
      else insertSorted ⟨fee, receiveTime, id⟩ sorted }

def removeTxFromTransientLists (p : TxPool) (id : Hash) : TxPool :=
  { p with
    addedTxsById := p.addedTxsById.filter (· ≠ id)
    sorted := p.sorted.filter fun x => x.id ≠ id }

/-- `reduce_txpool_weight` -/
def reducedWeight (txpoolWeight weight : UInt64) : UInt64 :=
  if weight > txpoolWeight then 0 else txpoolWeight - weight

/-- The removal shared by `take_tx` and `prune`. The cookie counts changes; by how
much one removal moves it is not observed. -/
def removeTx (p : TxPool) (t : PoolTx) : TxPool :=
  { p with
    txs := Keyed.erase PoolTx.id p.txs t.id
    txpoolWeight := reducedWeight p.txpoolWeight t.info.weight
    spentKeyImages := removeTransactionKeyimages t.id t.tx.vin p.spentKeyImages
    cookie := p.cookie + 1 }.removeTxFromTransientLists t.id

def takeTx (p : TxPool) (id : Hash) : Option (PoolTx × TxPool) :=
  match p.find? id with
  | none => none
  | some t => some (t, p.removeTx t)

/-- The loop of `prune`, over the ids behind the first one, last first. -/
def pruneLoop (bytes : UInt64) : List SortedTx → TxPool → TxPool
  | [], p => p
  | x :: rest, p =>
    if p.txpoolWeight ≤ bytes then p
    else
      match p.find? x.id with
      | none => pruneLoop bytes rest p
      | some t => if t.keptByBlock then pruneLoop bytes rest p
          else pruneLoop bytes rest (p.removeTx t)

/-- `prune`: the first entry is never removed, nor are those kept by a block. -/
def prune (e : Env) (p : TxPool) (bytes : UInt64) : TxPool :=
  let bytes := if bytes = 0 then e.txpoolMaxWeight else bytes
  pruneLoop bytes p.sorted.tail.reverse p

/-! ## Adding -/

def maxTxExtraSize : Nat := 1060

/-- `tx_memory_pool::check_tx_inputs`: answers for transactions not kept by a
block are cached until the chain changes. -/
def checkTxInputs (ctx : PoolContext) (p : TxPool) (tx : Transaction) (id : Hash)
    (keptByBlock : Bool) : Option (Nat × Hash) × TxPool :=
  if keptByBlock then (ctx.checkTxInputs tx true, p)
  else
    match p.inputCache.lookup id with
    | some r => (r, p)
    | none =>
      let r := ctx.checkTxInputs tx false
      (r, { p with inputCache := (id, r) :: p.inputCache })

/-- The part of `add_tx` after the transaction is in: count its weight and
bring the pool back under its limit. -/
def finishAdd (e : Env) (p : TxPool) (txWeight : UInt64) : TxPool :=
  ({ p with txpoolWeight := p.txpoolWeight + txWeight, cookie := p.cookie + 1 }).prune e
    e.txpoolMaxWeight

/-- The branch of `add_tx` for a transaction whose inputs do not verify. Only
one kept by a block gets in. -/
def addUnverified (e : Env) (ctx : PoolContext) (p : TxPool) (tx : Transaction) (id : Hash)
    (txWeight : UInt64) (txRelay : RelayMethod) (relayed : Bool) : Bool × TxPool :=
  if txRelay ≠ .block then (false, p)
  else
    let info : TxMeta :=
      { weight := txWeight, fee := getTxFee tx, receiveTime := ctx.now, relayed := relayed
        relayMethod := txRelay, doubleSpendSeen := p.haveTxKeyimgesAsSpent tx id
        pruned := tx.pruned }
    let r := insertKeyImages (p.matchesLegacy id) id txRelay tx.vin p.spentKeyImages
    let p := { p with spentKeyImages := r.2, cookie := p.cookie + r.1.toNat }
    if !r.1 then (false, p)
    -- `add_txpool_tx` throws on an id that is already there
    else if p.haveTx id then (false, p)
    else
      let p := { p with txs := p.txs ++ [(⟨id, tx, info⟩ : PoolTx)] }
      let p := p.addTxToTransientLists id (feePerByte info.fee txWeight) ctx.now
      (true, p.finishAdd e txWeight)

/-- The branch of `add_tx` for a transaction whose inputs verify. A known
transaction is only rewritten when its relay method moves up. -/
def addVerified (e : Env) (ctx : PoolContext) (p : TxPool) (tx : Transaction) (id : Hash)
    (txWeight : UInt64) (txRelay : RelayMethod) (relayed : Bool) (maxUsed : Nat × Hash) :
    Bool × TxPool :=
  let existing := p.find? id
  let txRelay :=
    if txRelay = .stem && existing.any (fun t => t.info.relayMethod = .stem) then .fluff
    else txRelay
  let previous := (existing.map fun t => t.info.relayMethod).getD .none
  if previous.rank < txRelay.rank ∨ existing = none then
    let info : TxMeta :=
      { weight := txWeight, fee := getTxFee tx, receiveTime := ctx.now, relayed := relayed
        relayMethod := if previous.rank < txRelay.rank then txRelay else previous
        maxUsedBlockHeight := maxUsed.1, maxUsedBlockId := maxUsed.2, pruned := tx.pruned }
    let r := insertKeyImages (p.matchesLegacy id) id txRelay tx.vin p.spentKeyImages
    let p := { p with spentKeyImages := r.2, cookie := p.cookie + r.1.toNat }
    if !r.1 then (false, p)
    else
      let p := { p with txs := Keyed.erase PoolTx.id p.txs id ++ [(⟨id, tx, info⟩ : PoolTx)] }
      let p := p.addTxToTransientLists id (feePerByte info.fee txWeight) ctx.now
      (true, p.finishAdd e txWeight)
  else (true, p.finishAdd e txWeight)

/-- `add_tx`. The verification context is reduced to the return value. -/
def addTx (e : Env) (ctx : PoolContext) (p : TxPool) (tx : Transaction) (id : Hash)
    (txWeight : UInt64) (txRelay : RelayMethod) (relayed : Bool)
    (version nicVerifiedHfVersion : Nat) : Bool × TxPool :=
  let keptByBlock : Bool := txRelay = .block
  if !keptByBlock && id ∈ p.timedOutTransactions then (false, p)
  else if version ≠ nicVerifiedHfVersion && !e.verNonInputConsensus tx version then (false, p)
  else if !keptByBlock && !ctx.checkFee txWeight (getTxFee tx) then (false, p)
  else if !keptByBlock && tx.extra.length > maxTxExtraSize then (false, p)
  else if !keptByBlock && tx.unlockTime ≠ 0 then (false, p)
  else if !keptByBlock && p.haveTxKeyimgesAsSpent tx id then (false, p.markDoubleSpend tx)
  else
    match p.checkTxInputs ctx tx id keptByBlock with
    | (none, p) => addUnverified e ctx p tx id txWeight txRelay relayed
    | (some maxUsed, p) => addVerified e ctx p tx id txWeight txRelay relayed maxUsed

/-! ## Chain changes and re-validation -/

/-- `on_blockchain_inc` and `on_blockchain_dec` -/
def onBlockchainChange (p : TxPool) : TxPool :=
  { p with inputCache := [] }

def updateTxpoolTx (p : TxPool) (id : Hash) (info : TxMeta) : TxPool :=
  { p with txs := Keyed.update PoolTx.id p.txs id fun t => { t with info := info } }

/-- One round of the loop of `validate`: take the transaction out and add it
back under the new version. When the take fails the source goes on with an
empty transaction. -/
def revalidate (e : Env) (ctx : PoolContext) (version : Nat) (p : TxPool) (t : PoolTx) : TxPool :=
  let taken := p.takeTx t.id
  let tx := (taken.map fun r => r.1.tx).getD {}
  let relayed := (taken.map fun r => r.1.info.relayed).getD false
  let p := (taken.map Prod.snd).getD p
  let r := p.addTx e ctx tx t.id t.info.weight t.info.relayMethod relayed version 0
  if r.1 then r.2.updateTxpoolTx t.id t.info else r.2

/-- `validate`: pruned transactions are skipped, every other one has to pass
the rules of `version` again. -/
def validate (e : Env) (ctx : PoolContext) (p : TxPool) (version : Nat) : TxPool :=
  let txes := p.txs.filter fun t => !t.info.pruned
  txes.foldl (revalidate e ctx version) { p with addedTxsById := [] }

end TxPool

end Oxyra
