import Oxyra.Core.Serialization

/-!
# Transaction ids (`cryptonote_format_utils.cpp`)

The id of a version 2 transaction is the hash of three hashes: of the prefix, of the base of
the RingCT signature and of its prunable part. `calculateTransactionHash` takes the last two
from slices of the blob, at the sizes that writing it has left in the object;
`getPrunedTransactionHash` works on a transaction read without its prunable part.

`cn_fast_hash` is a parameter. A transaction that cannot be written has no hash here.
-/

namespace Oxyra.Wire

open Codec

/-- What `tx_to_blob` leaves: the blob, and the members `prefix_size` and `unprunable_size`,
which are of 32 bits. -/
structure Serialized where
  blob : List UInt8
  prefixSize : UInt32
  unprunableSize : UInt32
deriving DecidableEq, Repr

/-- The binary serialisation of a transaction with the positions it records. Without inputs
`unprunable_size` keeps the value of a fresh object. -/
def serializeTransaction (t : Transaction) : Option Serialized :=
  (transactionPrefix.write t.toTransactionPrefix).bind fun pre =>
    if t.version = 1 then
      ((serializeSignatures t.vin).write t.signatures).map fun signatures =>
        ⟨pre ++ signatures, UInt32.ofNat pre.length, UInt32.ofNat pre.length⟩
    else if t.vin = [] then some ⟨pre, UInt32.ofNat pre.length, 0⟩
    else
      ((serializeRctsigBase t.vin.length t.vout.length).write t.rctSignatures.toRctSigBase).bind
        fun base =>
          ((rctPrunable t.vin t.vout t.rctSignatures.type).write t.rctSignatures.p).map
            fun prunable =>
              ⟨pre ++ (base ++ prunable), UInt32.ofNat pre.length,
                UInt32.ofNat (pre ++ base).length⟩

theorem serializeTransaction_blob (t : Transaction) :
    (serializeTransaction t).map Serialized.blob = txToBlob t := by
  show _ = writeBind transactionPrefix transactionTail
    ⟨t.toTransactionPrefix, t.signatures, t.rctSignatures⟩
  unfold serializeTransaction writeBind
  cases transactionPrefix.write t.toTransactionPrefix with
  | none => rfl
  | some pre =>
    simp only [Option.bind_some, transactionTail]
    split
    · show _ = Option.map _ ((serializeSignatures t.vin).write t.signatures)
      rw [Option.map_map]
      rfl
    · show _ = Option.map _ ((serializeRctSignatures t.vin t.vout).write t.rctSignatures)
      unfold serializeRctSignatures
      split
      · simp [const]
      · show _ = Option.map _ (writeBind (serializeRctsigBase t.vin.length t.vout.length)
          (fun base => rctPrunable t.vin t.vout base.type)
          ⟨t.rctSignatures.toRctSigBase, t.rctSignatures.p⟩)
        unfold writeBind
        cases (serializeRctsigBase t.vin.length t.vout.length).write
            t.rctSignatures.toRctSigBase with
        | none => rfl
        | some base =>
          simp only [Option.bind_some, Option.map_map]
          rfl

section Hash

variable (cnFastHash : List UInt8 → Key)

def getTransactionPrefixHash (t : Transaction) : Option Key :=
  (transactionPrefix.write t.toTransactionPrefix).map cnFastHash

/-- The hash of the prunable part, written on its own. -/
def hashOfPrunable (t : Transaction) : Option Key :=
  ((serializeRctsigPrunable t.rctSignatures.type t.vin.length t.vout.length
    (mixinOf t.vin)).write t.rctSignatures.p).map cnFastHash

/-- `calculate_transaction_prunable_hash(t, blob)`, with the `unprunable_size` of the object. -/
def calculateTransactionPrunableHash (t : Transaction) (unprunableSize : UInt32)
    (blob : Option (List UInt8)) : Option Key :=
  if t.version = 1 then none
  else
    match blob with
    | some blob =>
      if unprunableSize ≠ 0 then
        if unprunableSize.toNat ≤ blob.length then
          some (cnFastHash (blob.drop unprunableSize.toNat))
        else none
      else hashOfPrunable cnFastHash t
    | none => hashOfPrunable cnFastHash t

/-- The hash of three hashes. -/
def hashOfHashes (pre base prunable : Key) : Key :=
  cnFastHash (pre.1 ++ base.1 ++ prunable.1)

/-- `calculate_transaction_hash`, for a transaction that is not pruned. -/
def calculateTransactionHash (t : Transaction) : Option Key :=
  if t.version = 1 then (txToBlob t).map cnFastHash
  else
    (getTransactionPrefixHash cnFastHash t).bind fun pre =>
      (serializeTransaction t).bind fun s =>
        if s.prefixSize ≤ s.unprunableSize ∧ s.unprunableSize.toNat ≤ s.blob.length then
          let base := cnFastHash ((s.blob.drop s.prefixSize.toNat).take
            (s.unprunableSize - s.prefixSize).toNat)
          if t.rctSignatures.type = .null then some (hashOfHashes cnFastHash pre base zeroKey)
          else
            (calculateTransactionPrunableHash cnFastHash t s.unprunableSize (some s.blob)).map
              (hashOfHashes cnFastHash pre base)
        else none

/-- `get_pruned_transaction_hash`; it throws on version 1. -/
def getPrunedTransactionHash (t : Transaction) (prunedDataHash : Key) : Option Key :=
  if t.version ≤ 1 then none
  else
    (getTransactionPrefixHash cnFastHash t).bind fun pre =>
      ((serializeRctsigBase t.vin.length t.vout.length).write t.rctSignatures.toRctSigBase).map
        fun base =>
          hashOfHashes cnFastHash pre (cnFastHash base)
            (if t.rctSignatures.type = .null then zeroKey else prunedDataHash)

end Hash

/-- What `serialize_base` reads after the prefix. -/
def rctBase (tx : TransactionPrefix) : Codec RctSigBase :=
  if tx.version = 1 ∨ tx.vin = [] then const {}
  else serializeRctsigBase tx.vin.length tx.vout.length

/-- `serialize_base` on a fresh object -/
def transactionBase : Codec Transaction :=
  (transactionPrefix.bind rctBase).map
    (fun ⟨tx, base⟩ => { toTransactionPrefix := tx, rctSignatures := { toRctSigBase := base } })
    (fun v => ⟨v.toTransactionPrefix, v.rctSignatures.toRctSigBase⟩) fun _ => rfl

/-- `expand_transaction_1(tx, true)` -/
def expandTransactionBase (tx : Transaction) : Bool :=
  if 2 ≤ tx.version && !isCoinbase tx && tx.rctSignatures.type ≠ .null then
    tx.rctSignatures.outPk.length = tx.vout.length && tx.vout.all hasPublicKey
  else true

/-- `parse_and_validate_tx_base_from_blob`: bytes may be left over. -/
def parseAndValidateTxBaseFromBlob (txBlob : List UInt8) : Option Transaction :=
  ((transactionBase.read .lenient txBlob).map Prod.fst).filter expandTransactionBase

end Oxyra.Wire
