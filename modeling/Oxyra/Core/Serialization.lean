import Oxyra.Basic.Types
import Oxyra.Lib.Codec

/-!
# The binary format of transactions and blocks
(`serialization/`, `cryptonote_basic.h`, `rctTypes.h`)

* The data as it is serialised: keys, hashes and signatures are their bytes, and
  the proofs and ring signatures are not left out as in `Basic.Types`. Fields that
  are rebuilt after parsing (`mixRing`, `outPk[i].dest`, `V`, `II`, `I`) are not
  part of the format.
* Each `serialize` template of the source is one layout, read by
  `binary_archive<false>` and written by `binary_archive<true>`. Lists whose length
  is not stored get it from the fields before.
* `parseAndValidateBlockFromBlob`, `parseAndValidateTxFromBlob` and the two
  writers. The objects parsed into are fresh, so nothing is pruned.

The reader of the source is the lenient one: `read_varint` returns without an error
where the input ends.
-/

namespace Oxyra.Wire

open Codec

/-- `crypto::hash`, `crypto::public_key`, `crypto::key_image` or `rct::key`. -/
abbrev Key := Blob 32

abbrev Signature := Blob 64

/-- The layout of a key. -/
def key : Codec Key := blob 32

theorem takes_key : key.Takes := takes_blob (by decide)

theorem firm_key : key.Firm := firm_blob (by decide)

theorem sealed_key : key.Sealed := sealed_blob 32

/-! ## Inputs and outputs -/

structure TxoutToScript where
  keys : List Key
  script : List UInt8
deriving DecidableEq, Repr

structure TxoutToTaggedKey where
  key : Key
  viewTag : UInt8
deriving DecidableEq, Repr

structure TxinToScript where
  prev : Key
  prevout : UInt64
  sigset : List UInt8
deriving DecidableEq, Repr

structure TxinToScripthash where
  prev : Key
  prevout : UInt64
  script : TxoutToScript
  sigset : List UInt8
deriving DecidableEq, Repr

structure TxinToKey where
  amount : UInt64
  keyOffsets : List UInt64
  kImage : Key
deriving DecidableEq, Repr

inductive TxinV where
  | gen (height : UInt64)
  | toScript (txin : TxinToScript)
  | toScripthash (txin : TxinToScripthash)
  | toKey (txin : TxinToKey)
deriving DecidableEq, Repr

/-- `txout_target_v` -/
inductive TxoutTarget where
  | toScript (txout : TxoutToScript)
  | toScripthash (hash : Key)
  | toKey (key : Key)
  | toTaggedKey (txout : TxoutToTaggedKey)
deriving DecidableEq, Repr

structure TxOut where
  amount : UInt64
  target : TxoutTarget
deriving DecidableEq, Repr

def bytes : Codec (List UInt8) := array byte takes_byte

def txoutToScript : Codec TxoutToScript :=
  ((array key takes_key).seq bytes).map (fun ⟨keys, script⟩ => ⟨keys, script⟩)
    (fun v => ⟨v.keys, v.script⟩) fun _ => rfl

def txoutToTaggedKey : Codec TxoutToTaggedKey :=
  (key.seq byte).map (fun ⟨key, viewTag⟩ => ⟨key, viewTag⟩) (fun v => ⟨v.key, v.viewTag⟩)
    fun _ => rfl

def txinToScript : Codec TxinToScript :=
  (key.seq (varint64.seq bytes)).map (fun ⟨prev, prevout, sigset⟩ => ⟨prev, prevout, sigset⟩)
    (fun v => ⟨v.prev, v.prevout, v.sigset⟩) fun _ => rfl

def txinToScripthash : Codec TxinToScripthash :=
  (key.seq (varint64.seq (txoutToScript.seq bytes))).map
    (fun ⟨prev, prevout, script, sigset⟩ => ⟨prev, prevout, script, sigset⟩)
    (fun v => ⟨v.prev, v.prevout, v.script, v.sigset⟩) fun _ => rfl

def txinToKey : Codec TxinToKey :=
  (varint64.seq ((array varint64 takes_varint64).seq key)).map
    (fun ⟨amount, keyOffsets, kImage⟩ => ⟨amount, keyOffsets, kImage⟩)
    (fun v => ⟨v.amount, v.keyOffsets, v.kImage⟩) fun _ => rfl

/-- The types of `txin_v`. -/
inductive TxinTag where
  | gen
  | toScript
  | toScripthash
  | toKey
deriving DecidableEq, Repr

/-- `VARIANT_TAG(binary_archive, …)` of the inputs -/
def TxinTag.toByte : TxinTag → UInt8
  | .gen => 0xff
  | .toScript => 0x0
  | .toScripthash => 0x1
  | .toKey => 0x2

/-- What follows a tag. -/
def TxinTag.Body : TxinTag → Type
  | .gen => UInt64
  | .toScript => TxinToScript
  | .toScripthash => TxinToScripthash
  | .toKey => TxinToKey

def txinBody : (t : TxinTag) → Codec t.Body
  | .gen => varint64
  | .toScript => txinToScript
  | .toScripthash => txinToScripthash
  | .toKey => txinToKey

def txinV : Codec TxinV :=
  ((tagged [.gen, .toScript, .toScripthash, .toKey] TxinTag.toByte).bind txinBody).map
    (fun
      | ⟨.gen, height⟩ => .gen height
      | ⟨.toScript, txin⟩ => .toScript txin
      | ⟨.toScripthash, txin⟩ => .toScripthash txin
      | ⟨.toKey, txin⟩ => .toKey txin)
    (fun
      | .gen height => ⟨.gen, height⟩
      | .toScript txin => ⟨.toScript, txin⟩
      | .toScripthash txin => ⟨.toScripthash, txin⟩
      | .toKey txin => ⟨.toKey, txin⟩)
    fun ⟨t, _⟩ => by cases t <;> rfl

/-- The types of `txout_target_v`. -/
inductive TxoutTag where
  | toScript
  | toScripthash
  | toKey
  | toTaggedKey
deriving DecidableEq, Repr

/-- `VARIANT_TAG(binary_archive, …)` of the outputs -/
def TxoutTag.toByte : TxoutTag → UInt8
  | .toScript => 0x0
  | .toScripthash => 0x1
  | .toKey => 0x2
  | .toTaggedKey => 0x3

/-- What follows a tag. -/
def TxoutTag.Body : TxoutTag → Type
  | .toScript => TxoutToScript
  | .toScripthash => Key
  | .toKey => Key
  | .toTaggedKey => TxoutToTaggedKey

def txoutBody : (t : TxoutTag) → Codec t.Body
  | .toScript => txoutToScript
  | .toScripthash => key
  | .toKey => key
  | .toTaggedKey => txoutToTaggedKey

def txoutTarget : Codec TxoutTarget :=
  ((tagged [.toScript, .toScripthash, .toKey, .toTaggedKey] TxoutTag.toByte).bind txoutBody).map
    (fun
      | ⟨.toScript, txout⟩ => .toScript txout
      | ⟨.toScripthash, hash⟩ => .toScripthash hash
      | ⟨.toKey, key⟩ => .toKey key
      | ⟨.toTaggedKey, txout⟩ => .toTaggedKey txout)
    (fun
      | .toScript txout => ⟨.toScript, txout⟩
      | .toScripthash hash => ⟨.toScripthash, hash⟩
      | .toKey key => ⟨.toKey, key⟩
      | .toTaggedKey txout => ⟨.toTaggedKey, txout⟩)
    fun ⟨t, _⟩ => by cases t <;> rfl

def txOut : Codec TxOut :=
  (varint64.seq txoutTarget).map (fun ⟨amount, target⟩ => ⟨amount, target⟩)
    (fun v => ⟨v.amount, v.target⟩) fun _ => rfl

/-! ## RingCT signatures -/

structure EcdhTuple where
  mask : Key
  amount : Key
deriving DecidableEq, Repr

structure MgSig where
  ss : List (List Key)
  cc : Key
deriving DecidableEq, Repr

structure Clsag where
  s : List Key
  c1 : Key
  d : Key
deriving DecidableEq, Repr

/-- `rct::rangeSig`: `boroSig` is 64 + 64 + 1 keys, `key64` is 64. -/
structure RangeSig where
  asig : Blob (129 * 32)
  ci : Blob (64 * 32)
deriving DecidableEq, Repr

structure Bulletproof where
  A : Key
  S : Key
  T1 : Key
  T2 : Key
  taux : Key
  mu : Key
  L : List Key
  R : List Key
  a : Key
  b : Key
  t : Key
deriving DecidableEq, Repr

structure BulletproofPlus where
  A : Key
  A1 : Key
  B : Key
  r1 : Key
  s1 : Key
  d1 : Key
  L : List Key
  R : List Key
deriving DecidableEq, Repr

/-- `rct::rctSigBase`: of `outPk` the masks. -/
structure RctSigBase where
  type : RctType := .null
  txnFee : UInt64 := 0
  pseudoOuts : List Key := []
  ecdhInfo : List EcdhTuple := []
  outPk : List Key := []
deriving DecidableEq, Repr

structure RctSigPrunable where
  bulletproofsPlus : List BulletproofPlus := []
  bulletproofs : List Bulletproof := []
  rangeSigs : List RangeSig := []
  clsags : List Clsag := []
  mgs : List MgSig := []
  pseudoOuts : List Key := []
deriving DecidableEq, Repr

structure RctSig extends RctSigBase where
  p : RctSigPrunable := {}
deriving DecidableEq, Repr

/-- The values of the type byte. -/
def rctTypeByte : RctType → UInt8
  | .null => 0
  | .full => 1
  | .simple => 2
  | .bulletproof => 3
  | .bulletproof2 => 4
  | .clsag => 5
  | .bulletproofPlus => 6

/-- `FIELD(type)` and the test that it is one of the known types. -/
def rctType : Codec RctType :=
  tagged [.null, .full, .simple, .bulletproof, .bulletproof2, .clsag, .bulletproofPlus] rctTypeByte

/-- The first 8 bytes of a key whose others are zero. -/
def truncAmount : Codec Key :=
  (blob 8).map (fun b => ⟨b.1 ++ List.replicate 24 0, by rw [List.length_append, b.2]; rfl⟩)
    (fun k => ⟨k.1.take 8, by rw [List.length_take, k.2]; rfl⟩)
    fun b => Subtype.ext (List.take_left' b.2)

/-- The key of zeros that `resize` leaves in the mask. -/
def zeroKey : Key := ⟨List.replicate 32 0, rfl⟩

/-- `ecdhInfo[i]`: from `RCTTypeBulletproof2` on only the start of the amount. -/
def ecdhTuple (type : RctType) : Codec EcdhTuple :=
  if type = .bulletproof2 ∨ type = .clsag ∨ type = .bulletproofPlus then
    truncAmount.map (fun amount => ⟨zeroKey, amount⟩) (fun v => v.amount) fun _ => rfl
  else
    (key.seq key).map (fun ⟨mask, amount⟩ => ⟨mask, amount⟩) (fun v => ⟨v.mask, v.amount⟩)
      fun _ => rfl

/-- The fields of `serialize_rctsig_base` after the type. -/
def rctsigBaseFields (type : RctType) (inputs outputs : Nat) :
    Codec ((_ : UInt64) × (_ : List Key) × (_ : List EcdhTuple) × List Key) :=
  if type = .null then const ⟨0, [], [], []⟩
  else
    varint64.seq ((if type = .simple then key.vec inputs else const []).seq
      (((ecdhTuple type).vec outputs).seq (key.vec outputs)))

def serializeRctsigBase (inputs outputs : Nat) : Codec RctSigBase :=
  (rctType.bind fun type => rctsigBaseFields type inputs outputs).map
    (fun ⟨type, txnFee, pseudoOuts, ecdhInfo, outPk⟩ =>
      { type, txnFee, pseudoOuts, ecdhInfo, outPk })
    (fun v => ⟨v.type, v.txnFee, v.pseudoOuts, v.ecdhInfo, v.outPk⟩) fun _ => rfl

/-- `L.empty() || L.size() != R.size()` is an error. -/
def sizesOk (l r : List Key) : Bool :=
  l ≠ [] && l.length = r.length

def keys : Codec (List Key) := array key takes_key

def bulletproof : Codec Bulletproof :=
  ((key.seq (key.seq (key.seq (key.seq (key.seq (key.seq (keys.seq (keys.seq
    (key.seq (key.seq key)))))))))).map
    (fun ⟨A, S, T1, T2, taux, mu, L, R, a, b, t⟩ => { A, S, T1, T2, taux, mu, L, R, a, b, t })
    (fun v => ⟨v.A, v.S, v.T1, v.T2, v.taux, v.mu, v.L, v.R, v.a, v.b, v.t⟩)
    fun _ => rfl).check fun v => sizesOk v.L v.R

def bulletproofPlus : Codec BulletproofPlus :=
  ((key.seq (key.seq (key.seq (key.seq (key.seq (key.seq (keys.seq keys))))))).map
    (fun ⟨A, A1, B, r1, s1, d1, L, R⟩ => { A, A1, B, r1, s1, d1, L, R })
    (fun v => ⟨v.A, v.A1, v.B, v.r1, v.s1, v.d1, v.L, v.R⟩)
    fun _ => rfl).check fun v => sizesOk v.L v.R

/-- `n_bulletproof_max_amounts_base`, with 16 for `BULLETPROOF_MAX_OUTPUTS` and
`BULLETPROOF_PLUS_MAX_OUTPUTS`. -/
def nBulletproofMaxAmountsBase (lSize rSize : Nat) : Nat :=
  if lSize ≥ 6 ∧ lSize = rSize ∧ lSize ≤ 10 then 2 ^ (lSize - 6) else 0

/-- The loop of `n_bulletproof_max_amounts`, over the sizes of `L` and `R`. -/
def nBulletproofMaxAmountsFrom (n : Nat) : List (Nat × Nat) → Nat
  | [] => n
  | (lSize, rSize) :: proofs =>
    let n2 := nBulletproofMaxAmountsBase lSize rSize
    if ¬ n2 < 2 ^ 32 - 1 - n then 0
    else if n2 = 0 then 0
    else nBulletproofMaxAmountsFrom (n + n2) proofs

def nBulletproofMaxAmounts (proofs : List Bulletproof) : Nat :=
  nBulletproofMaxAmountsFrom 0 (proofs.map fun p => (p.L.length, p.R.length))

def nBulletproofPlusMaxAmounts (proofs : List BulletproofPlus) : Nat :=
  nBulletproofMaxAmountsFrom 0 (proofs.map fun p => (p.L.length, p.R.length))

/-- A number of proofs, not more than outputs, that cover all of them. -/
def proofs {α : Type} (nbp : Codec UInt32) (proof : Codec α) (maxAmounts : List α → Nat)
    (outputs : Nat) : Codec (List α) :=
  (counted (nbp.check fun nbp => nbp.toNat ≤ outputs) proof).check fun l => outputs ≤ maxAmounts l

def bulletproofsPlusField (type : RctType) (outputs : Nat) : Codec (List BulletproofPlus) :=
  if type = .bulletproofPlus then
    proofs varint32 bulletproofPlus nBulletproofPlusMaxAmounts outputs
  else const []

/-- `nbp` is a varint but for `RCTTypeBulletproof`. -/
def bulletproofsField (type : RctType) (outputs : Nat) : Codec (List Bulletproof) :=
  if type = .bulletproof2 ∨ type = .clsag then
    proofs varint32 bulletproof nBulletproofMaxAmounts outputs
  else if type = .bulletproof then proofs uint32 bulletproof nBulletproofMaxAmounts outputs
  else const []

def rangeSig : Codec RangeSig :=
  ((blob (129 * 32)).seq (blob (64 * 32))).map (fun ⟨asig, ci⟩ => ⟨asig, ci⟩)
    (fun v => ⟨v.asig, v.ci⟩) fun _ => rfl

def rangeSigsField (type : RctType) (outputs : Nat) : Codec (List RangeSig) :=
  if type = .full ∨ type = .simple then rangeSig.vec outputs else const []

def clsag (mixin : Nat) : Codec Clsag :=
  ((key.vec (mixin + 1)).seq (key.seq key)).map (fun ⟨s, c1, d⟩ => ⟨s, c1, d⟩)
    (fun v => ⟨v.s, v.c1, v.d⟩) fun _ => rfl

def clsagsField (type : RctType) (inputs mixin : Nat) : Codec (List Clsag) :=
  if type = .clsag ∨ type = .bulletproofPlus then (clsag mixin).vec inputs else const []

/-- One signature an input, against one for all of them. -/
def onePerInput (type : RctType) : Bool :=
  type = .simple || type = .bulletproof || type = .bulletproof2

def mgSig (type : RctType) (inputs mixin : Nat) : Codec MgSig :=
  (((key.vec ((if onePerInput type then 1 else inputs) + 1)).vec (mixin + 1)).seq key).map
    (fun ⟨ss, cc⟩ => ⟨ss, cc⟩) (fun v => ⟨v.ss, v.cc⟩) fun _ => rfl

def mgsField (type : RctType) (inputs mixin : Nat) : Codec (List MgSig) :=
  if type = .clsag ∨ type = .bulletproofPlus then const []
  else (mgSig type inputs mixin).vec (if onePerInput type then inputs else 1)

def pseudoOutsField (type : RctType) (inputs : Nat) : Codec (List Key) :=
  if type = .bulletproof ∨ type = .bulletproof2 ∨ type = .clsag ∨ type = .bulletproofPlus then
    key.vec inputs
  else const []

/-- The signatures of `serialize_rctsig_prunable`, after the range proofs. -/
def prunableSignatures (type : RctType) (inputs mixin : Nat) :
    Codec ((_ : List Clsag) × (_ : List MgSig) × List Key) :=
  (clsagsField type inputs mixin).seq
    ((mgsField type inputs mixin).seq (pseudoOutsField type inputs))

def serializeRctsigPrunable (type : RctType) (inputs outputs mixin : Nat) : Codec RctSigPrunable :=
  if inputs ≥ 0xffffffff ∨ outputs ≥ 0xffffffff ∨ mixin ≥ 0xffffffff then fail
  else if type = .null then const {}
  else
    ((bulletproofsPlusField type outputs).seq ((bulletproofsField type outputs).seq
      ((rangeSigsField type outputs).seq (prunableSignatures type inputs mixin)))).map
      (fun ⟨bulletproofsPlus, bulletproofs, rangeSigs, clsags, mgs, pseudoOuts⟩ =>
        { bulletproofsPlus, bulletproofs, rangeSigs, clsags, mgs, pseudoOuts })
      (fun v => ⟨v.bulletproofsPlus, v.bulletproofs, v.rangeSigs, v.clsags, v.mgs, v.pseudoOuts⟩)
      fun _ => rfl

/-! ## Transactions -/

structure TransactionPrefix where
  version : UInt64 := 1
  unlockTime : UInt64 := 0
  vin : List TxinV := []
  vout : List TxOut := []
  extra : List UInt8 := []
deriving DecidableEq, Repr

structure Transaction extends TransactionPrefix where
  signatures : List (List Signature) := []
  rctSignatures : RctSig := {}
deriving DecidableEq, Repr

theorem takes_txinV : txinV.Takes :=
  (takes_tagged.bind _).map

theorem takes_txOut : txOut.Takes :=
  (takes_varint64.bind _).map

/-- `CURRENT_TRANSACTION_VERSION` is 2. -/
def transactionPrefix : Codec TransactionPrefix :=
  ((varint64.check fun version => !(version = 0 || 2 < version)).seq (varint64.seq
    ((array txinV takes_txinV).seq ((array txOut takes_txOut).seq bytes)))).map
    (fun ⟨version, unlockTime, vin, vout, extra⟩ => { version, unlockTime, vin, vout, extra })
    (fun v => ⟨v.version, v.unlockTime, v.vin, v.vout, v.extra⟩) fun _ => rfl

def getSignatureSize : TxinV → Nat
  | .toKey txin => txin.keyOffsets.length
  | _ => 0

/-- The signatures of every input, as they are read. -/
def ringSignatures (vin : List TxinV) : Codec (List (List Signature)) :=
  each (vin.map fun txin => (blob 64).vec (getSignatureSize txin))

/-- The writer lets the list be empty where no input has signatures. -/
def writeSignatures (vin : List TxinV) (signatures : List (List Signature)) :
    Option (List UInt8) :=
  if signatures = [] then
    if vin.all fun txin => getSignatureSize txin = 0 then some [] else none
  else (ringSignatures vin).write signatures

theorem writeSignatures_eq {vin : List TxinV} {signatures : List (List Signature)}
    (h : (ringSignatures vin).Yields signatures) :
    writeSignatures vin signatures = (ringSignatures vin).write signatures := by
  unfold writeSignatures
  split
  · rename_i hnil
    have hlen := each_length h
    rw [hnil, List.length_map] at hlen
    obtain rfl := List.length_eq_zero_iff.mp hlen.symm
    rw [hnil]
    rfl
  · rfl

def serializeSignatures (vin : List TxinV) : Codec (List (List Signature)) :=
  (ringSignatures vin).withWriter (writeSignatures vin) writeSignatures_eq

/-- The ring members of the first input but one, in a `size_t`. -/
def mixinOf : List TxinV → Nat
  | .toKey txin :: _ => (UInt64.ofNat txin.keyOffsets.length - 1).toNat
  | _ => 0

/-- The prunable part is there but for `RCTTypeNull`. -/
def rctPrunable (vin : List TxinV) (vout : List TxOut) (type : RctType) : Codec RctSigPrunable :=
  if type = .null then const {}
  else serializeRctsigPrunable type vin.length vout.length (mixinOf vin)

/-- `rct_signatures`, nothing without inputs. -/
def serializeRctSignatures (vin : List TxinV) (vout : List TxOut) : Codec RctSig :=
  if vin = [] then const {}
  else
    ((serializeRctsigBase vin.length vout.length).bind fun base =>
      rctPrunable vin vout base.type).map
      (fun ⟨base, p⟩ => { toRctSigBase := base, p }) (fun v => ⟨v.toRctSigBase, v.p⟩) fun _ => rfl

/-- What follows the prefix. -/
def transactionTail (tx : TransactionPrefix) : Codec (List (List Signature) × RctSig) :=
  if tx.version = 1 then
    (serializeSignatures tx.vin).map (fun signatures => (signatures, {})) Prod.fst fun _ => rfl
  else
    (serializeRctSignatures tx.vin tx.vout).map (fun rctSignatures => ([], rctSignatures)) Prod.snd
      fun _ => rfl

def transaction : Codec Transaction :=
  (transactionPrefix.bind transactionTail).map
    (fun ⟨tx, signatures, rctSignatures⟩ =>
      { toTransactionPrefix := tx, signatures, rctSignatures })
    (fun v => ⟨v.toTransactionPrefix, v.signatures, v.rctSignatures⟩) fun _ => rfl

/-! ## Blocks -/

structure BlockHeader where
  majorVersion : UInt8
  minorVersion : UInt8
  timestamp : UInt64
  prevId : Key
  nonce : UInt32
deriving DecidableEq, Repr

structure Block extends BlockHeader where
  minerTx : Transaction
  txHashes : List Key
deriving DecidableEq, Repr

def blockHeader : Codec BlockHeader :=
  (varint8.seq (varint8.seq (varint64.seq (key.seq uint32)))).map
    (fun ⟨majorVersion, minorVersion, timestamp, prevId, nonce⟩ =>
      { majorVersion, minorVersion, timestamp, prevId, nonce })
    (fun v => ⟨v.majorVersion, v.minorVersion, v.timestamp, v.prevId, v.nonce⟩) fun _ => rfl

/-- `CRYPTONOTE_MAX_TX_PER_BLOCK` is `0x10000000`. -/
def block : Codec Block :=
  (blockHeader.seq (transaction.seq (keys.check fun l => l.length ≤ 0x10000000))).map
    (fun ⟨header, minerTx, txHashes⟩ => { toBlockHeader := header, minerTx, txHashes })
    (fun v => ⟨v.toBlockHeader, v.minerTx, v.txHashes⟩) fun _ => rfl

/-! ## Parsing and writing -/

/-- `serialization::serialize` on a whole blob: something left over is an error. -/
def parse {α : Type} (c : Codec α) (blob : List UInt8) : Option α :=
  match c.read .lenient blob with
  | some (v, []) => some v
  | _ => none

theorem parse_eq_some {α : Type} {c : Codec α} {blob : List UInt8} {v : α} :
    parse c blob = some v ↔ c.read .lenient blob = some (v, []) := by
  unfold parse
  split
  · rename_i w h
    rw [h]
    simp
  · rename_i hne
    constructor
    · rintro ⟨⟩
    · exact fun h => absurd h (hne v)

/-- `get_output_public_key` succeeds. -/
def hasPublicKey (o : TxOut) : Bool :=
  match o.target with
  | .toKey _ => true
  | .toTaggedKey _ => true
  | _ => false

def isCoinbase (tx : Transaction) : Bool :=
  match tx.vin with
  | [.gen _] => true
  | _ => false

/-- The proofs of `expand_transaction_1`: exactly one, for all the outputs. -/
def expandProofs (tx : Transaction) : Bool :=
  match tx.rctSignatures.type with
  | .bulletproofPlus =>
    match tx.rctSignatures.p.bulletproofsPlus with
    | [p] => 6 ≤ p.L.length && tx.vout.length ≤ nBulletproofMaxAmountsBase p.L.length p.R.length
    | _ => false
  | .bulletproof | .bulletproof2 | .clsag =>
    match tx.rctSignatures.p.bulletproofs with
    | [p] => 6 ≤ p.L.length && tx.vout.length ≤ 2 ^ (p.L.length - 6)
    | _ => false
  | _ => true

/-- `expand_transaction_1(tx, false)`. What it fills in is not serialised. -/
def expandTransaction1 (tx : Transaction) : Bool :=
  if 2 ≤ tx.version && !isCoinbase tx && tx.rctSignatures.type ≠ .null then
    tx.rctSignatures.outPk.length = tx.vout.length && tx.vout.all hasPublicKey && expandProofs tx
  else true

def parseAndValidateTxFromBlob (txBlob : List UInt8) : Option Transaction :=
  (parse transaction txBlob).filter expandTransaction1

def txToBlob (tx : Transaction) : Option (List UInt8) :=
  transaction.write tx

def parseAndValidateBlockFromBlob (bBlob : List UInt8) : Option Block :=
  parse block bBlob

def blockToBlob (b : Block) : Option (List UInt8) :=
  block.write b

end Oxyra.Wire
