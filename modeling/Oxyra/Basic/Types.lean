import Oxyra.Basic.Config
import Oxyra.Lib.WordSum

/-!
# Transactions and blocks (`cryptonote_basic.h`, `cryptonote_format_utils.cpp`)

* The data the consensus code reads: inputs, outputs, transactions, headers
  and blocks. Hashes and keys are the 32-byte values of the source; the parts
  only the cryptography opens (ring signatures, range proofs) are kept as one
  opaque word, so that two transactions differing only there stay different.
* The small total functions of the format utilities that the coinbase checks
  and the fee rule are written with.
-/

namespace Oxyra

/-- `crypto::hash`, 32 bytes read as a little-endian number. -/
abbrev Hash := BitVec 256

instance : LawfulBEq Hash := inferInstance

/-- `crypto::key_image`, 32 bytes. -/
abbrev KeyImage := BitVec 256

abbrev Uuid := BitVec 128

/-- `crypto::public_key`, 32 bytes. -/
abbrev PublicKey := BitVec 256

def nullHash : Hash := 0#256

/-- The 32 bytes in memory order. -/
def bytesOf (h : BitVec 256) : List Nat :=
  (List.range 32).map fun i => h.toNat / 256 ^ i % 256

/-- `memcmp(a, b, 32) < 0` -/
def memcmpLt (a b : BitVec 256) : Bool :=
  decide (bytesOf a < bytesOf b)

inductive TxinV where
  | gen (height : Nat)
  | toScript (prev : Hash) (prevout : Nat)
  | toScripthash (prev : Hash) (prevout : Nat)
  | toKey (amount : UInt64) (keyOffsets : List UInt64) (kImage : KeyImage)
deriving DecidableEq, Repr

/-- `txout_target_v` -/
inductive TxoutTarget where
  | toScript (keys : List PublicKey)
  | toScripthash (hash : Hash)
  | toKey (key : PublicKey)
  | toTaggedKey (key : PublicKey) (viewTag : UInt8)
deriving DecidableEq, Repr

structure TxOut where
  amount : UInt64
  target : TxoutTarget
deriving DecidableEq, Repr

/-- The kinds of ringct signature (`rct::RCTType…`). -/
inductive RctType where
  | null
  | full
  | simple
  | bulletproof
  | bulletproof2
  | clsag
  | bulletproofPlus
deriving DecidableEq, Repr

/-- `rct::rctSig`: the clear fee, the output commitments the database stores,
and everything the verifiers alone look at as one word. -/
structure RctSig where
  type : RctType := .null
  txnFee : UInt64 := 0
  outPk : List PublicKey := []
  proofs : Nat := 0
deriving DecidableEq, Repr

/-- `transaction`, with the defaults of its constructor. `pruned` is the flag
of the source: the prunable part of the signatures has been cut off. -/
structure Transaction where
  version : Nat := 1
  unlockTime : Nat := 0
  vin : List TxinV := []
  vout : List TxOut := []
  extra : List UInt8 := []
  signatures : Nat := 0
  rctSignatures : RctSig := {}
  pruned : Bool := false
deriving DecidableEq, Repr

/-- `block`: the header, the coinbase and the ids of the other transactions. -/
structure Block where
  majorVersion : Nat := 0
  minorVersion : Nat := 0
  timestamp : Nat := 0
  prevId : Hash := nullHash
  nonce : UInt32 := 0
  minerTx : Transaction := {}
  txHashes : List Hash := []
deriving DecidableEq, Repr

/-! ## Amounts of a transaction -/

/-- `get_outs_money_amount`: the outputs' amounts added in 64 bits. -/
def getOutsMoneyAmount (tx : Transaction) : UInt64 :=
  tx.vout.foldl (fun outputsAmount o => outputsAmount + o.amount) 0

/-- `check_outs_overflow`: no addition of the outputs' amounts wraps. -/
def checkOutsOverflow (tx : Transaction) : Bool :=
  WordSum.addsWithoutWrap 0 (tx.vout.map TxOut.amount)

/-- The input loop of `get_tx_fee`: the amounts of the inputs added in 64
bits, or `none` at an input that is not `txin_to_key`. -/
def amountInFrom (amountIn : UInt64) : List TxinV → Option UInt64
  | [] => some amountIn
  | .toKey amount _ _ :: rest => amountInFrom (amountIn + amount) rest
  | _ :: _ => none

/-- `get_tx_fee(tx, fee)`: false is `none`. -/
def getTxFee? (tx : Transaction) : Option UInt64 :=
  if tx.version > 1 then some tx.rctSignatures.txnFee
  else
    match amountInFrom 0 tx.vin with
    | none => none
    | some amountIn =>
      if amountIn ≥ getOutsMoneyAmount tx then some (amountIn - getOutsMoneyAmount tx)
      else none

/-- `get_tx_fee(tx)`: 0 where the fee cannot be computed. -/
def getTxFee (tx : Transaction) : UInt64 :=
  (getTxFee? tx).getD 0

theorem getOutsMoneyAmount_eq (tx : Transaction) :
    getOutsMoneyAmount tx = (tx.vout.map TxOut.amount).sum := by
  simp [getOutsMoneyAmount, WordSum.foldl_add]

theorem toNat_getOutsMoneyAmount {tx : Transaction} (h : checkOutsOverflow tx = true) :
    (getOutsMoneyAmount tx).toNat = WordSum.natSum (tx.vout.map TxOut.amount) := by
  have hlt := (WordSum.addsWithoutWrap_iff _ _).mp h
  rw [getOutsMoneyAmount_eq, WordSum.toNat_sum_of_lt (by simpa using hlt)]

/-! ## Output types -/

/-- Whether two targets are the same alternative of the variant. -/
def TxoutTarget.sameType : TxoutTarget → TxoutTarget → Bool
  | .toScript _, .toScript _ => true
  | .toScripthash _, .toScripthash _ => true
  | .toKey _, .toKey _ => true
  | .toTaggedKey _ _, .toTaggedKey _ _ => true
  | _, _ => false

/-- `target.type() == typeid(txout_to_key)` -/
def TxoutTarget.isToKey : TxoutTarget → Bool
  | .toKey _ => true
  | _ => false

/-- `target.type() == typeid(txout_to_tagged_key)` -/
def TxoutTarget.isToTaggedKey : TxoutTarget → Bool
  | .toTaggedKey _ _ => true
  | _ => false

def getOutputPublicKey (o : TxOut) : Option PublicKey :=
  match o.target with
  | .toKey key => some key
  | .toTaggedKey key _ => some key
  | _ => none

/-- `check_output_types`: view tags are forbidden before their fork, optional
but uniform at it, and mandatory after. -/
def checkOutputTypes (tx : Transaction) (hfVersion : Nat) : Bool :=
  tx.vout.all fun o =>
    if hfVersion > hfViewTags then o.target.isToTaggedKey
    else if hfVersion < hfViewTags then o.target.isToKey
    else
      (o.target.isToKey || o.target.isToTaggedKey) &&
        (tx.vout.head?.any fun o₀ => o.target.sameType o₀.target)

/-- `get_block_height`: the height a block's own coinbase names, 0 where the
coinbase is not a single `txin_gen`. -/
def getBlockHeight (b : Block) : Nat :=
  match b.minerTx.vin with
  | [.gen height] => height
  | _ => 0

end Oxyra
