import Oxyra.Basic.Types
import Oxyra.Lib.Limbs

/-!
# Search for a hash by its high bits (`cryptonote_basic_impl.cpp`, `db_lmdb.cpp`)

* `compareHash32ReversedNbits` compares the `nbits` most significant bits of two hashes, and
  `makeHash32LooseTemplate` clears the others.
* `getTxidsLoose` looks up the transactions whose id begins with the bits of a template. The
  database keeps the ids in the order of `compareHash32`, those of the chain and those of the pool
  each in a table of its own, and sets a cursor to the first id that is not below the template.

The words of a hash are numbers as `SWAP64LE` gives them.
-/

namespace Oxyra.HashTemplate

/-- The words of `w` bits a hash consists of, by their index in memory. -/
def words (w : Nat) (h : Hash) (n : Nat) : BitVec w := BitVec.ofNat w (h.toNat >>> (w * n))

/-- The hash that four words are copied to. -/
def ofWords (vh : Nat → BitVec 64) : Hash := BitVec.ofNat 256 (Limbs.value vh 4)

/-! ## `cryptonote_basic_impl.cpp` -/

/-- The loop of `compare_hash32_reversed_nbits`, with the words from `n` on behind it. -/
def compareLoop (va vb : Nat → BitVec 64) : Nat → Nat → Int
  | 0, _ => 0
  | n + 1, nbits =>
    if nbits = 0 then 0
    else
      let msbNbits := min 64 nbits
      let lsbNbitsDropped := 64 - msbNbits
      let van := va n >>> lsbNbitsDropped
      let vbn := vb n >>> lsbNbitsDropped
      if van < vbn then -1
      else if van > vbn then 1
      else compareLoop va vb n (nbits - msbNbits)

def compareHash32ReversedNbits (ha hb : Hash) (nbits : Nat) : Int :=
  compareLoop (words 64 ha) (words 64 hb) 4 nbits

def mask (msbNbits : Nat) : BitVec 64 :=
  if msbNbits ≠ 0 then ~~~((1#64 <<< (64 - msbNbits)) - 1#64) else 0#64

/-- The loop of `make_hash32_loose_template`. -/
def templateLoop : Nat → Nat → (Nat → BitVec 64) → Nat → BitVec 64
  | 0, _, vh => vh
  | n + 1, nbits, vh =>
    let msbNbits := min 64 nbits
    templateLoop n (nbits - msbNbits) (Function.update vh n (vh n &&& mask msbNbits))

def makeHash32LooseTemplate (nbits : Nat) (h : Hash) : Hash :=
  ofWords (templateLoop 4 nbits (words 64 h))

/-! ## `db_lmdb.cpp` -/

/-- The loop of `compare_hash32`. -/
def compareWords (va vb : Nat → BitVec 32) : Nat → Int
  | 0 => 0
  | n + 1 =>
    if va n = vb n then compareWords va vb n else if va n < vb n then -1 else 1

def compareHash32 (a b : Hash) : Int := compareWords (words 32 a) (words 32 b) 8

/-- The ids a cursor runs over that is set with `MDB_GET_BOTH_RANGE` or `MDB_SET_RANGE`. -/
def cursorRange (ids : List Hash) (h : Hash) : List Hash :=
  ids.dropWhile fun id => compareHash32 id h < 0

/-- The loop of `get_txids_loose` on one of the tables; `none` if it throws. -/
def looseLoop (txidTemplate : Hash) (bits maxNumTxs : Nat) :
    List Hash → List Hash → Option (List Hash)
  | [], matchingHashes => some matchingHashes
  | dbtxid :: ids, matchingHashes =>
    if compareHash32ReversedNbits txidTemplate dbtxid bits ≠ 0 then some matchingHashes
    else if matchingHashes.length ≥ maxNumTxs ∧ maxNumTxs ≠ 0 then none
    else looseLoop txidTemplate bits maxNumTxs ids (matchingHashes ++ [dbtxid])

def getTxidsLoose (txIndices txpoolMeta : List Hash) (txidTemplate : Hash) (bits maxNumTxs : Nat) :
    Option (List Hash) :=
  (looseLoop txidTemplate bits maxNumTxs (cursorRange txIndices txidTemplate) []).bind
    (looseLoop txidTemplate bits maxNumTxs (cursorRange txpoolMeta txidTemplate))

end Oxyra.HashTemplate
