import Oxyra.Core.TxHash

/-!
# Transaction weights (`cryptonote_format_utils.cpp`)

The weight of a transaction is the size of its blob and, for an aggregated range proof, a part of
what separate proofs would have taken more (the *clawback*). Of a transaction whose prunable part
has been dropped the missing size is computed from what is left.

Sizes are numbers without bound. `none` is a check that throws, or a transaction that cannot be
written. The size of the blob that an object may keep is not looked at.
-/

namespace Oxyra.Wire

open Codec

/-- `std::numeric_limits<uint64_t>::max()` -/
def uint64Max : Nat := 2 ^ 64 - 1

/-- `while ((1u << nlr) < n) ++nlr;` -/
def nlrLoop : Nat → Nat → Nat → Nat
  | 0, nlr, _ => nlr
  | fuel + 1, nlr, n => if 1 <<< nlr < n then nlrLoop fuel (nlr + 1) n else nlr

def getTransactionWeightClawback (tx : Transaction) (nPaddedOutputs : Nat) : Option Nat :=
  let plus := tx.rctSignatures.type = .bulletproofPlus
  let bpBase := (32 * ((if plus then 6 else 9) + 7 * 2)) / 2
  let nOutputs := tx.vout.length
  if nPaddedOutputs ≤ 2 then some 0
  else
    let nlr := nlrLoop 32 0 nPaddedOutputs + 6
    let bpSize := 32 * ((if plus then 6 else 9) + 2 * nlr)
    if ¬ nOutputs ≤ bulletproofMaxOutputs then none
    else if ¬ bpBase * nPaddedOutputs ≥ bpSize then none
    else some ((bpBase * nPaddedOutputs - bpSize) * 4 / 5)

def isRctBulletproof (type : RctType) : Bool :=
  type = .bulletproof || type = .bulletproof2 || type = .clsag

def isRctBulletproofPlus (type : RctType) : Bool := type = .bulletproofPlus

def isRctClsag (type : RctType) : Bool := type = .clsag || type = .bulletproofPlus

/-- The clawback added to a size. -/
def addClawback (tx : Transaction) (nPaddedOutputs size : Nat) : Option Nat :=
  (getTransactionWeightClawback tx nPaddedOutputs).bind fun bpClawback =>
    if ¬ bpClawback ≤ uint64Max - size then none else some (size + bpClawback)

/-- A transaction in memory. The flag `pruned` is not part of the format: it is set where only
the base has been read. -/
structure TxObject extends Transaction where
  pruned : Bool := false
deriving DecidableEq, Repr

/-- `get_transaction_weight(tx, blob_size)` -/
def getTransactionWeightAt (tx : TxObject) (blobSize : Nat) : Option Nat :=
  if tx.pruned then some uint64Max
  else if tx.version < 2 then some blobSize
  else
    let rv := tx.rctSignatures
    let bulletproof := isRctBulletproof rv.type
    let bulletproofPlus := isRctBulletproofPlus rv.type
    if !bulletproof && !bulletproofPlus then some blobSize
    else
      let nPaddedOutputs :=
        if bulletproofPlus then nBulletproofPlusMaxAmounts rv.p.bulletproofsPlus
        else nBulletproofMaxAmounts rv.p.bulletproofs
      addClawback tx.toTransaction nPaddedOutputs blobSize

/-- The serialisation of an object: the flag leaves out the signatures or the prunable part. -/
def TxObject.toBlob (tx : TxObject) : Option (List UInt8) :=
  if tx.pruned then transactionBase.write tx.toTransaction else txToBlob tx.toTransaction

/-- `get_transaction_weight(tx)` -/
def getTransactionWeight (tx : TxObject) : Option Nat :=
  tx.toBlob.bind fun blob => getTransactionWeightAt tx blob.length

/-- The size of the part left out: the number of proofs, the proof with the two counts in it, the
ring signatures and `pseudoOuts`. -/
def prunedExtra (type : RctType) (inputs nrl ringSize : Nat) : Nat :=
  1 + (32 * ((if isRctBulletproofPlus type then 6 else 9) + 2 * nrl) + 2)
    + (if isRctClsag type then inputs * (ringSize + 2) * 32
      else inputs * (ringSize * (1 + 1) * 32 + 32))
    + 32 * inputs

def getPrunedTransactionWeight (tx : TxObject) : Option Nat :=
  let type := tx.rctSignatures.type
  if ¬ tx.pruned then some uint64Max
  else if ¬ tx.version ≥ 2 then some uint64Max
  else if ¬ (type = .bulletproof2 ∨ type = .clsag ∨ type = .bulletproofPlus) then some uint64Max
  else
    match tx.vin with
    | .toKey txin :: _ =>
      tx.toBlob.bind fun blob =>
        let nrl := nlrLoop 32 0 tx.vout.length
        let nPaddedOutputs := 1 <<< nrl
        addClawback tx.toTransaction nPaddedOutputs
          (blob.length + prunedExtra type tx.vin.length (nrl + 6) txin.keyOffsets.length)
    | _ => some uint64Max

end Oxyra.Wire
