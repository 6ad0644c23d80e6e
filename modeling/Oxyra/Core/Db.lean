import Oxyra.Core.Env

/-!
# The main chain as the database keeps it (`blockchain_db.cpp`, `db_lmdb.cpp`)

A chain is the list of its stored blocks, the genesis block first, so that the
index is the height. Every other table of the database (transaction ids, key
images, outputs by amount) is a function of that list: `add_block` and
`pop_block` write and remove exactly the rows of one block.

`addBlock` is `none` where the source throws.
-/

namespace Oxyra

/-- A block with the metadata stored beside it and its transactions, in the
order of `tx_hashes`. -/
structure StoredBlock where
  bl : Block
  txs : List Transaction := []
  blockWeight : UInt64 := 0
  longTermBlockWeight : UInt64 := 0
  cumulativeDifficulty : Nat := 0
  alreadyGeneratedCoins : UInt64 := 0
deriving DecidableEq, Repr

abbrev Chain := List StoredBlock

/-- Whether an input is a coinbase's. -/
def TxinV.isGen : TxinV → Bool
  | .gen _ => true
  | _ => false

/-- Whether an input spends an output. -/
def TxinV.isToKey : TxinV → Bool
  | .toKey _ _ _ => true
  | _ => false

/-- The key image an input reveals. -/
def TxinV.keyImage? : TxinV → Option KeyImage
  | .toKey _ _ image => some image
  | _ => none

/-- The key images a transaction spends. -/
def Transaction.keyImages (tx : Transaction) : List KeyImage :=
  tx.vin.filterMap TxinV.keyImage?

namespace StoredBlock

variable (e : Env) (sb : StoredBlock)

/-- `get_block_hash` of a stored block. -/
def id : Hash := e.getBlockHash sb.bl

/-- The transaction ids a block adds: its coinbase's, then those it lists. -/
def txIds : List Hash :=
  e.getTransactionHash sb.bl.minerTx :: sb.bl.txHashes

/-- The key images a block adds. -/
def keyImages : List KeyImage :=
  (sb.bl.minerTx :: sb.txs).flatMap Transaction.keyImages

end StoredBlock

/-- The rows `add_transaction` writes for the outputs of one transaction, with
the amount each is filed under. A version-2 coinbase's outputs are filed as
ringct outputs, under amount 0. -/
def transactionOutputs (e : Env) (height : Nat) (ofMiner : Bool) (tx : Transaction) :
    List (UInt64 × OutputData) :=
  let minerTx := tx.vin.any TxinV.isGen
  tx.vout.zipIdx.map fun (o, i) =>
    let hidden : Bool := minerTx && tx.version = 2
    let commitment :=
      if !hidden && tx.version > 1 then tx.rctSignatures.outPk.getD i 0
      else e.zeroCommit o.amount
    (if hidden then 0 else o.amount,
      { pubkey := (getOutputPublicKey o).getD 0
        unlockTime := tx.unlockTime
        height := height
        commitment := commitment
        fromMinerTx := ofMiner })

/-- The output rows of one block: the coinbase's first. -/
def StoredBlock.outputs (e : Env) (height : Nat) (sb : StoredBlock) :
    List (UInt64 × OutputData) :=
  transactionOutputs e height true sb.bl.minerTx ++
    sb.txs.flatMap (transactionOutputs e height false)

/-- A transaction the output table can take: every output has a key, and one
filed under amount 0 has a commitment. -/
def storableOutputs (tx : Transaction) : Bool :=
  tx.vout.all fun o =>
    (getOutputPublicKey o).isSome &&
      (o.amount ≠ 0 || tx.version > 1 || (tx.vin.any TxinV.isGen && tx.version = 2))

/-- The input types `add_transaction` supports. -/
def storableInputs (tx : Transaction) : Bool :=
  tx.vin.all fun i => i.isGen || i.isToKey

namespace Chain

variable (e : Env) (chain : Chain)

/-- `top_block_hash`, `get_tail_id` -/
def tailId : Hash :=
  (chain.getLast?.map (StoredBlock.id e)).getD nullHash

/-- `get_block_hash_from_height`, `get_block_id_by_height` -/
def idAt (height : Nat) : Hash :=
  (chain[height]?.map (StoredBlock.id e)).getD nullHash

def blockExists (id : Hash) : Bool :=
  chain.any fun sb => sb.id e = id

/-- `get_block_height`: the height stored for an id. -/
def heightOf? (id : Hash) : Option Nat :=
  chain.findIdx? fun sb => sb.id e = id

def txExists (id : Hash) : Bool :=
  chain.any fun sb => id ∈ sb.txIds e

/-- `has_key_image`, `have_tx_keyimg_as_spent` -/
def hasKeyImage (image : KeyImage) : Bool :=
  chain.any fun sb => image ∈ sb.keyImages

/-- The output rows of the chain, oldest first. -/
def outputRows : List (UInt64 × OutputData) :=
  chain.zipIdx.flatMap fun (sb, height) => sb.outputs e height

/-- The outputs filed under an amount, by their index. -/
def outputsOfAmount (amount : UInt64) : List OutputData :=
  ((chain.outputRows e).filter fun r => r.1 = amount).map Prod.snd

/-- `get_block_cumulative_difficulty(height - 1)`, 0 for the empty chain. -/
def topCumulativeDifficulty : Nat :=
  (chain.getLast?.map StoredBlock.cumulativeDifficulty).getD 0

/-- `get_block_already_generated_coins(height - 1)`, 0 for the empty chain. -/
def topAlreadyGeneratedCoins : UInt64 :=
  (chain.getLast?.map StoredBlock.alreadyGeneratedCoins).getD 0

/-- The blocks without their metadata. -/
def blocks : List Block := chain.map StoredBlock.bl

/-- `add_block`: the conditions under which no layer throws. -/
def canAdd (sb : StoredBlock) : Bool :=
  sb.bl.txHashes.length = sb.txs.length &&
  (sb.bl.minerTx :: sb.txs).all (fun tx => storableInputs tx && storableOutputs tx) &&
  sb.keyImages.Nodup && sb.keyImages.all (fun image => !chain.hasKeyImage image) &&
  (sb.txIds e).Nodup && (sb.txIds e).all (fun id => !chain.txExists e id) &&
  !chain.blockExists e (sb.id e) &&
  (chain = [] || sb.bl.prevId = chain.tailId e) &&
  (chain ≠ [] || sb.bl.majorVersion < 4)

def addBlock (sb : StoredBlock) : Option Chain :=
  if chain.canAdd e sb then some (chain ++ [sb]) else none

end Chain

end Oxyra
