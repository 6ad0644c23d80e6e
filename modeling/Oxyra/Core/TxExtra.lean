import Oxyra.Core.Serialization

/-!
# The extra field of a transaction (`tx_extra.h`, `cryptonote_format_utils.cpp`)

The extra field is a sequence of tagged fields without a count: fields are read while there are
bytes. Padding is the exception among them. It has no length and takes all that follows, which has
to be zeros.

* `dataField` is the layout of the other fields and `readField`, `writeField` are the reader and the
  writer of `tx_extra_field`.
* `parseTxExtra`, `sortTxExtra`, `removeFieldFromTxExtra` and `addExtraNonceToTxExtra`. The last one
  does not use the layout but writes the bytes itself.
-/

namespace Oxyra.Wire

open Codec

structure MergeMiningTag where
  depth : UInt64
  merkleRoot : Key
deriving DecidableEq, Repr

inductive TxExtraField where
  | padding (size : Nat)
  | pubKey (pubKey : Key)
  | nonce (nonce : List UInt8)
  | mergeMiningTag (tag : MergeMiningTag)
  | additionalPubKeys (data : List Key)
  | mysteriousMinergate (data : List UInt8)
deriving DecidableEq, Repr

/-- The types of `tx_extra_field`, in the order in which `sort_tx_extra` picks them. -/
inductive TxExtraType where
  | pubKey
  | additionalPubKeys
  | nonce
  | mergeMiningTag
  | mysteriousMinergate
  | padding
deriving DecidableEq, Repr

/-- `field.type()` -/
def TxExtraField.type : TxExtraField → TxExtraType
  | .padding _ => .padding
  | .pubKey _ => .pubKey
  | .nonce _ => .nonce
  | .mergeMiningTag _ => .mergeMiningTag
  | .additionalPubKeys _ => .additionalPubKeys
  | .mysteriousMinergate _ => .mysteriousMinergate

def txExtraPaddingMaxCount : Nat := 255

def txExtraNonceMaxCount : Nat := 255

def txExtraTagPadding : UInt8 := 0x00

def txExtraNonce : UInt8 := 0x02

/-! ## Fields that have a length -/

/-- `tx_extra_merge_mining_tag::serialize_helper` -/
def mmTagHelper : Codec MergeMiningTag :=
  (varint64.seq key).map (fun ⟨depth, merkleRoot⟩ => ⟨depth, merkleRoot⟩)
    (fun v => ⟨v.depth, v.merkleRoot⟩) fun _ => rfl

theorem sealed_mmTagHelper : mmTagHelper.Sealed := (sealed_seq firm_key sealed_key).map

/-- The tag is serialised into a string of its own, which has to be read to its end. -/
def mergeMiningTag : Codec MergeMiningTag :=
  bytes.refine
    (fun field =>
      match mmTagHelper.read .lenient field with
      | some (tag, []) => some tag
      | _ => none)
    mmTagHelper.write fun _ h => by
      split at h
      · rename_i hread
        cases h
        exact (encodes_of_strict (sealed_mmTagHelper hread)).written
      · cases h

/-- The types with a length. -/
inductive TxExtraTag where
  | pubKey
  | nonce
  | mergeMiningTag
  | additionalPubKeys
  | mysteriousMinergate
deriving DecidableEq, Repr

/-- `VARIANT_TAG(binary_archive, …)` of these types -/
def TxExtraTag.toByte : TxExtraTag → UInt8
  | .pubKey => 0x01
  | .nonce => txExtraNonce
  | .mergeMiningTag => 0x03
  | .additionalPubKeys => 0x04
  | .mysteriousMinergate => 0xde

/-- What follows a tag. -/
def TxExtraTag.Body : TxExtraTag → Type
  | .pubKey => Key
  | .nonce => List UInt8
  | .mergeMiningTag => MergeMiningTag
  | .additionalPubKeys => List Key
  | .mysteriousMinergate => List UInt8

def txExtraBody : (t : TxExtraTag) → Codec t.Body
  | .pubKey => key
  | .nonce => bytes.check fun nonce => nonce.length ≤ txExtraNonceMaxCount
  | .mergeMiningTag => mergeMiningTag
  | .additionalPubKeys => array key takes_key
  | .mysteriousMinergate => bytes

/-- The field with a tag and what follows it. -/
def TxExtraField.ofBody : (t : TxExtraTag) × t.Body → TxExtraField
  | ⟨.pubKey, pk⟩ => .pubKey pk
  | ⟨.nonce, data⟩ => .nonce data
  | ⟨.mergeMiningTag, tag⟩ => .mergeMiningTag tag
  | ⟨.additionalPubKeys, data⟩ => .additionalPubKeys data
  | ⟨.mysteriousMinergate, data⟩ => .mysteriousMinergate data

/-- The tag of a field and what follows it, if it is not padding. -/
def TxExtraField.body : TxExtraField → Option ((t : TxExtraTag) × t.Body)
  | .padding _ => none
  | .pubKey pk => some ⟨.pubKey, pk⟩
  | .nonce data => some ⟨.nonce, data⟩
  | .mergeMiningTag tag => some ⟨.mergeMiningTag, tag⟩
  | .additionalPubKeys data => some ⟨.additionalPubKeys, data⟩
  | .mysteriousMinergate data => some ⟨.mysteriousMinergate, data⟩

theorem TxExtraField.body_ofBody (p : (t : TxExtraTag) × t.Body) :
    (TxExtraField.ofBody p).body = some p := by
  obtain ⟨t, b⟩ := p
  cases t <;> rfl

/-- A tag and what follows it. -/
def taggedBody : Codec ((t : TxExtraTag) × t.Body) :=
  (tagged [.pubKey, .nonce, .mergeMiningTag, .additionalPubKeys, .mysteriousMinergate]
    TxExtraTag.toByte).bind txExtraBody

def dataField : Codec TxExtraField :=
  taggedBody.refine (fun p => some (TxExtraField.ofBody p)) TxExtraField.body fun _ h => by
    cases h
    exact TxExtraField.body_ofBody _

/-! ## All fields -/

/-- The loop of `tx_extra_padding` that counts the zeros up to the end of the input. -/
def paddingLoop (size : Nat) : List UInt8 → Option Nat
  | [] => if size ≤ txExtraPaddingMaxCount then some size else none
  | zero :: bs =>
    if size ≤ txExtraPaddingMaxCount then
      if zero ≠ 0 then none else paddingLoop (size + 1) bs
    else none

/-- The reader of `tx_extra_field`. -/
def readField : List UInt8 → Option (TxExtraField × List UInt8)
  | [] => none
  | tag :: bs =>
    if tag = txExtraTagPadding then (paddingLoop 1 bs).map fun size => (.padding size, [])
    else dataField.read .lenient (tag :: bs)

/-- The writer of `tx_extra_field`. -/
def writeField : TxExtraField → Option (List UInt8)
  | .padding size =>
    if txExtraPaddingMaxCount < size then none
    else some (txExtraTagPadding :: List.replicate (size - 1) 0)
  | field => dataField.write field

/-! ## The functions -/

/-- The loop of `parse_tx_extra`. A field has at least one byte, so there are at most as many rounds
as bytes. -/
def parseLoop : Nat → List UInt8 → Option (List TxExtraField)
  | 0, _ => none
  | fuel + 1, bs =>
    (readField bs).bind fun r =>
      if r.2 = [] then some [r.1] else (parseLoop fuel r.2).map (r.1 :: ·)

def parseTxExtra (extra : List UInt8) : Option (List TxExtraField) :=
  if extra = [] then some [] else parseLoop extra.length extra

/-- The loop of `sort_tx_extra`: the fields, and the bytes from the first one on that is no
field. -/
def sortLoop : Nat → List UInt8 → List TxExtraField × List UInt8
  | 0, bs => ([], bs)
  | fuel + 1, bs =>
    match readField bs with
    | none => ([], bs)
    | some (field, rest) =>
      if rest = [] then ([field], [])
      else
        let (fields, unparsed) := sortLoop fuel rest
        (field :: fields, unparsed)

/-- `pick`: the fields of one type are written and taken out. -/
def pick (t : TxExtraType) (fields : List TxExtraField) :
    Option (List UInt8 × List TxExtraField) :=
  ((fields.filter (·.type = t)).mapM writeField).map fun out =>
    (out.flatten, fields.filter (·.type ≠ t))

/-- One `pick` after the other. -/
def pickAll : List TxExtraType → List TxExtraField → Option (List UInt8 × List TxExtraField)
  | [], fields => some ([], fields)
  | t :: ts, fields =>
    (pick t fields).bind fun p => (pickAll ts p.2).map fun q => (p.1 ++ q.1, q.2)

/-- The order of the fields in a sorted extra. -/
def sortOrder : List TxExtraType :=
  [.pubKey, .additionalPubKeys, .nonce, .mergeMiningTag, .mysteriousMinergate, .padding]

def sortTxExtra (extra : List UInt8) (allowPartial : Bool) : Option (List UInt8) :=
  if extra = [] then some []
  else
    let (fields, unparsed) := sortLoop extra.length extra
    if unparsed ≠ [] ∧ allowPartial = false then none
    else
      (pickAll sortOrder fields).bind fun p =>
        if p.2 ≠ [] then none else some (p.1 ++ if allowPartial then unparsed else [])

/-- `remove_field_from_tx_extra`: the result of writing a field is not looked at. -/
def removeFieldFromTxExtra (extra : List UInt8) (t : TxExtraType) : Option (List UInt8) :=
  if extra = [] then some []
  else
    (parseLoop extra.length extra).map fun fields =>
      (fields.filter (·.type ≠ t)).flatMap fun field => (writeField field).getD []

def addExtraNonceToTxExtra (extra extraNonce : List UInt8) : Option (List UInt8) :=
  if extraNonce.length ≤ txExtraNonceMaxCount then
    some (extra ++ txExtraNonce :: UInt8.ofNat extraNonce.length :: extraNonce)
  else none

end Oxyra.Wire
