import Oxyra.Lib.Compaction
import Oxyra.Basic.Types

/-!
# Batched and cached RingCT verification (`tx_verification_utils.cpp`, `data_cache.h`)

* `verMixedRctSemantics` sorts a list of signatures by type: some are verified at once, the
  others are moved to the front of the same vector and verified as one batch.
* `expandTransaction2` rebuilds in a transaction what its serialization leaves out, and
  `expandTxAndVerRctNonSem` verifies the result against a mix ring.
* `verRctNonSemanticsSimpleCached` asks a bounded cache of earlier successes first.

The proof systems are the functions of `Verifier`. A signature carries every field that the code
here reads or rebuilds; the fields that only a proof system opens are one value of a type `β`.
-/

namespace Oxyra.Rct

/-- `rct::key`, 32 bytes. -/
abbrev Key := BitVec 256

structure CtKey where
  dest : Key
  mask : Key
deriving DecidableEq, Repr

abbrev CtKeyM := List (List CtKey)

/-- `rct::mgSig`. `ii` is not serialized. -/
structure MgSig where
  ss : List (List Key) := []
  cc : Key := 0
  ii : List Key := []
deriving DecidableEq, Repr

/-- `rct::clsag`. `i` is not serialized. -/
structure Clsag where
  s : List Key := []
  c1 : Key := 0
  i : Key := 0
  d : Key := 0
deriving DecidableEq, Repr

/-! ## Types of signatures

`rv.type` is a byte, so that a signature may have a type that does not exist. -/

def typeNull : UInt8 := 0

def typeFull : UInt8 := 1

def typeSimple : UInt8 := 2

def typeBulletproof : UInt8 := 3

def typeBulletproof2 : UInt8 := 4

def typeClsag : UInt8 := 5

def typeBulletproofPlus : UInt8 := 6

def isRctClsag (type : UInt8) : Bool :=
  type = typeClsag || type = typeBulletproofPlus

/-- `rct::rctSig`. Of a range proof the code here looks at the commitments `V` only. They are not
serialized, and neither are `message` and `mixRing`. -/
structure RctSig (β : Type) where
  type : UInt8
  message : Key
  mixRing : CtKeyM
  bulletproofs : List (List Key)
  bulletproofsPlus : List (List Key)
  mgs : List MgSig
  clsags : List Clsag
  body : β
deriving DecidableEq, Repr

/-- What `rct::verRctNonSemanticsSimple` reads of a signature. -/
structure RingSig (β : Type) where
  type : UInt8
  message : Key
  mixRing : CtKeyM
  mgs : List MgSig
  clsags : List Clsag
  body : β
deriving DecidableEq, Repr

/-- The ring signatures are the CLSAGs or the MLSAGs, by type. The commitments of the range proofs
play no part: they repeat those of the outputs. -/
def RctSig.ringSig {β : Type} (rv : RctSig β) : RingSig β where
  type := rv.type
  message := rv.message
  mixRing := rv.mixRing
  mgs := if isRctClsag rv.type then [] else rv.mgs
  clsags := if isRctClsag rv.type then rv.clsags else []
  body := rv.body

structure TransactionPrefix (β : Type) where
  version : Nat
  vin : List TxinV
  body : β
deriving DecidableEq, Repr

structure Transaction (β : Type) extends TransactionPrefix β where
  rctSignatures : RctSig β
  pruned : Bool := false
deriving DecidableEq, Repr

/-- The proof systems and the hashes. -/
structure Verifier (β : Type) where
  /-- `rct::verRct(rv, semantics = true)` -/
  verRct : RctSig β → Bool
  /-- `rct::verRctSemanticsSimple(rvv)` -/
  verRctSemanticsSimple : List (RctSig β) → Bool
  /-- `rct::verRctNonSemanticsSimple(rv)` -/
  verRctNonSemanticsSimple : RingSig β → Bool
  getTransactionPrefixHash : TransactionPrefix β → Hash
  getTransactionHash : Transaction β → Hash
  /-- The blob hash at the end of `calc_tx_mixring_hash`. -/
  txMixringHash : Hash → CtKeyM → Hash

variable {β : Type}

/-! ## Semantics -/

def bulletproofPlusMaxOutputs : Nat := 16

/-- The two layout checks: one proof, for at least one output and not too many. -/
def isCanonicalLayout (maxOutputs : Nat) : List (List Key) → Bool
  | [vs] => !(vs.length = 0 || vs.length > maxOutputs)
  | _ => false

def isCanonicalBulletproofLayout : List (List Key) → Bool :=
  isCanonicalLayout bulletproofMaxOutputs

def isCanonicalBulletproofPlusLayout : List (List Key) → Bool :=
  isCanonicalLayout bulletproofPlusMaxOutputs

/-- The switch of `ver_mixed_rct_semantics`: `none` returns false, otherwise whether the signature
is left to the batch. -/
def isBatchableRv (v : Verifier β) (rv : RctSig β) : Option Bool :=
  if rv.type = typeNull then none
  else if rv.type = typeSimple then
    if v.verRctSemanticsSimple [rv] then some false else none
  else if rv.type = typeFull then
    if v.verRct rv then some false else none
  else if rv.type = typeBulletproof || rv.type = typeBulletproof2 || rv.type = typeClsag then
    if isCanonicalBulletproofLayout rv.bulletproofs then some true else none
  else if rv.type = typeBulletproofPlus then
    if isCanonicalBulletproofPlusLayout rv.bulletproofsPlus then some true else none
  else none

def verMixedRctSemantics (v : Verifier β) (rvv : List (RctSig β)) : Bool :=
  match Compaction.compact (isBatchableRv v) rvv with
  | none => false
  | some batch => if batch = [] then true else v.verRctSemanticsSimple batch

/-! ## Expansion -/

/-- `boost::get<txin_to_key>(in).k_image`, which throws on every other kind of input. -/
def kImage? : TxinV → Option Key
  | .toKey _ _ kImage => some kImage
  | _ => none

/-- `rv.mixRing` of a full signature: the rings turned, members first. -/
def turned (pubkeys : CtKeyM) : CtKeyM :=
  (List.range (pubkeys.headD []).length).map fun m => pubkeys.filterMap (·[m]?)

/-- The rings as a signature of this type stores them; `none` is false. -/
def expandMixRing (type : UInt8) (pubkeys : CtKeyM) : Option CtKeyM :=
  if type = typeFull then
    if pubkeys.headD [] = [] then none
    else if pubkeys.all fun ring => ring.length ≤ (pubkeys.headD []).length then
      some (turned pubkeys)
    else none
  else if type = typeSimple || type = typeBulletproof || type = typeBulletproof2 ||
      type = typeClsag || type = typeBulletproofPlus then
    if pubkeys.headD [] = [] then none else some pubkeys
  else none

/-- The key images put into the ring signatures; `none` is false, or an input without one. -/
def expandImages (tx : Transaction β) (rv : RctSig β) : Option (RctSig β) :=
  if tx.pruned then some rv
  else if rv.type = typeFull then
    (tx.vin.mapM kImage?).map fun images =>
      { rv with mgs := [{ rv.mgs.headD {} with ii := images }] }
  else if isRctClsag rv.type then
    if rv.clsags.length ≠ tx.vin.length then none
    else (tx.vin.mapM kImage?).map fun images =>
      { rv with clsags := rv.clsags.zipWith (fun sig image => { sig with i := image }) images }
  else
    if rv.mgs.length ≠ tx.vin.length then none
    else (tx.vin.mapM kImage?).map fun images =>
      { rv with mgs := rv.mgs.zipWith (fun sig image => { sig with ii := [image] }) images }

/-- `expand_transaction_2`: the expanded signature; `none` is false or a throw. -/
def expandTransaction2 (tx : Transaction β) (txPrefixHash : Hash) (pubkeys : CtKeyM) :
    Option (RctSig β) :=
  if tx.version ≠ 2 then none
  else
    (expandMixRing tx.rctSignatures.type pubkeys).bind fun mixRing =>
      expandImages tx { tx.rctSignatures with message := txPrefixHash, mixRing := mixRing }

/-- The loop over the inputs in `expand_tx_and_ver_rct_non_sem`: the key image in each ring
signature is the one of its input. -/
def imagesMatch (tx : Transaction β) (rv : RctSig β) : Bool :=
  if isRctClsag rv.type then
    (tx.vin.zip rv.clsags).all fun (vin, sig) => kImage? vin = some sig.i
  else
    (tx.vin.zip rv.mgs).all fun (vin, sig) => sig.ii ≠ [] && kImage? vin = sig.ii.head?

/-- `expand_tx_and_ver_rct_non_sem`. A throw is no acceptance either. -/
def expandTxAndVerRctNonSem (v : Verifier β) (tx : Transaction β) (mixRing : CtKeyM) : Bool :=
  if tx.pruned then false
  else
    match expandTransaction2 tx (v.getTransactionPrefixHash tx.toTransactionPrefix) mixRing with
    | none => false
    | some rv =>
      let nSigs := if isRctClsag rv.type then rv.clsags.length else rv.mgs.length
      if rv.mixRing ≠ mixRing then false
      else if nSigs ≠ tx.vin.length then false
      else if !imagesMatch tx rv then false
      else v.verRctNonSemanticsSimple rv.ringSig

/-! ## The cache -/

/-- `tools::data_cache<T, MAX_SIZE>`: a set, and a ring buffer of what was put into it. -/
structure DataCache (α : Type) where
  data : List α
  buf : Nat → α
  counter : Nat

/-- A new cache. The buffer starts with zeroes. -/
def DataCache.empty {α : Type} (zero : α) : DataCache α :=
  ⟨[], fun _ => zero, 0⟩

/-- `add`: a new value pushes out the one whose place in the buffer it takes. -/
def DataCache.add {α : Type} [DecidableEq α] (maxSize : Nat) (c : DataCache α) (value : α) :
    DataCache α :=
  if value ∈ c.data then c
  else
    { data := (value :: c.data).filter (· ≠ c.buf (c.counter % maxSize))
      buf := fun slot => if slot = c.counter % maxSize then value else c.buf slot
      counter := c.counter + 1 }

def DataCache.has {α : Type} [DecidableEq α] (c : DataCache α) (value : α) : Bool :=
  value ∈ c.data

theorem DataCache.has_add {α : Type} [DecidableEq α] {maxSize : Nat} {c : DataCache α}
    {value x : α} (h : (c.add maxSize value).has x = true) : x = value ∨ c.has x = true := by
  unfold DataCache.add at h
  split at h
  · exact .inr h
  · have hmem := List.mem_of_mem_filter (of_decide_eq_true h)
    exact (List.mem_cons.mp hmem).imp_right fun hx => decide_eq_true hx

def rctVerCacheSize : Nat := 8192

def calcTxMixringHash (v : Verifier β) (tx : Transaction β) (mixRing : CtKeyM) : Hash :=
  v.txMixringHash (v.getTransactionHash tx) mixRing

/-- `ver_rct_non_semantics_simple_cached`, with the cache it leaves. -/
def verRctNonSemanticsSimpleCached (v : Verifier β) (tx : Transaction β) (mixRing : CtKeyM)
    (cache : DataCache Hash) (rctTypeToCache : UInt8) : Bool × DataCache Hash :=
  if tx.version > 2 || tx.rctSignatures.type > typeBulletproofPlus then (false, cache)
  else if tx.rctSignatures.type ≠ rctTypeToCache then
    (expandTxAndVerRctNonSem v tx mixRing, cache)
  else if cache.has (calcTxMixringHash v tx mixRing) then (true, cache)
  else if !expandTxAndVerRctNonSem v tx mixRing then (false, cache)
  else (true, cache.add rctVerCacheSize (calcTxMixringHash v tx mixRing))

end Oxyra.Rct
