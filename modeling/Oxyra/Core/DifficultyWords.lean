import Oxyra.Lib.HalfWords
import Oxyra.Basic.Difficulty

/-!
# Difficulty in machine words (`difficulty.cpp`, `int-util.h`)

The functions of `difficulty.cpp` with the widths of their types: products of two words from 64-bit
operations in two variants, the carry chain of `check_hash_64`, the 512-bit product of
`check_hash_128`, and the 64-bit retarget rule.
-/

namespace Oxyra.Words

open HalfWords

/-- The platforms that `mul` tells apart. -/
inductive Platform where
  | x86
  | other
deriving DecidableEq, Repr

/-! ## Products -/

/-- `mul128` of `int-util.h`: low and high word. -/
def mul128 (multiplier multiplicand : UInt64) : UInt64 × UInt64 :=
  let a := high multiplier
  let b := low multiplier
  let c := high multiplicand
  let d := low multiplicand
  let ac := a * c
  let ad := a * d
  let bc := b * c
  let bd := b * d
  let adbc := ad + bc
  let adbcCarry : UInt64 := if adbc < ad then 1 else 0
  let productLo := bd + (adbc <<< 32)
  let productLoCarry : UInt64 := if productLo < bd then 1 else 0
  (productLo, ac + high adbc + (adbcCarry <<< 32) + productLoCarry)

/-- The portable `mul`: low and high word. -/
def mulPortable (a b : UInt64) : UInt64 × UInt64 :=
  let aLow := low a
  let aHigh := high a
  let bLow := low b
  let bHigh := high b
  let res := aLow * bLow
  let lowRes1 := low res
  let carry := high res
  let res := aHigh * bLow + carry
  let highResHigh1 := high res
  let highResLow1 := low res
  let res := aLow * bHigh
  let lowRes2 := low res
  let carry := high res
  let res := aHigh * bHigh + carry
  let highResHigh2 := high res
  let highResLow2 := low res
  let r := highResLow1 + lowRes2
  let carry := high r
  let productLow := (r <<< 32) ||| lowRes1
  let r := highResHigh1 + highResLow2 + carry
  let d3 := low r
  let carry := high r
  let r := highResHigh2 + carry
  (productLow, d3 ||| (r <<< 32))

def mul : Platform → UInt64 → UInt64 → UInt64 × UInt64
  | .x86 => mul128
  | .other => mulPortable

/-! ## Proof of work -/

/-- `swap64le(((const uint64_t *) &hash)[i])` -/
def word (hash : Hash) (i : Nat) : UInt64 :=
  ⟨hash.extractLsb' (64 * i) 64⟩

def cadd (a b : UInt64) : Bool :=
  a + b < a

def cadc (a b : UInt64) (c : Bool) : Bool :=
  a + b < a || (c && a + b = 0xFFFFFFFFFFFFFFFF)

def checkHash64 (p : Platform) (hash : Hash) (difficulty : UInt64) : Bool :=
  let (top, high) := mul p (word hash 3) difficulty
  if high ≠ 0 then false
  else
    let (_, cur) := mul p (word hash 0) difficulty
    let (low, high) := mul p (word hash 1) difficulty
    let carry := cadd cur low
    let cur := high
    let (low, high) := mul p (word hash 2) difficulty
    let carry := cadc cur low carry
    let carry := cadc high top carry
    !carry

/-- `hashVal` of `check_hash_128`, the words shifted in from the highest one. -/
def hashVal (hash : Hash) : BitVec 512 :=
  (List.range 4).foldl
    (fun hashVal i => hashVal <<< 64 ||| (word hash (3 - i)).toBitVec.setWidth 512) 0

def checkHash128 (hash : Hash) (difficulty : BitVec 128) : Bool :=
  hashVal hash * difficulty.setWidth 512 ≤ BitVec.ofNat 512 (2 ^ 256 - 1)

def checkHash (p : Platform) (hash : Hash) (difficulty : BitVec 128) : Bool :=
  if difficulty ≤ 0xFFFFFFFFFFFFFFFF then checkHash64 p hash ⟨difficulty.setWidth 64⟩
  else checkHash128 hash difficulty

/-! ## Retargeting -/

def cutBegin (length : Nat) : Nat :=
  if length ≤ difficultyWindow - 2 * difficultyCut then 0
  else (length - (difficultyWindow - 2 * difficultyCut) + 1) / 2

def cutEnd (length : Nat) : Nat :=
  if length ≤ difficultyWindow - 2 * difficultyCut then length
  else cutBegin length + (difficultyWindow - 2 * difficultyCut)

def nextDifficulty64 (p : Platform) (timestamps cumulativeDifficulties : List UInt64)
    (targetSeconds : UInt64) : UInt64 :=
  let timestamps := timestamps.take difficultyWindow
  let cumulativeDifficulties := cumulativeDifficulties.take difficultyWindow
  let length := timestamps.length
  if length ≤ 1 then 1
  else
    let sorted := timestamps.insertionSort (· ≤ ·)
    let timeSpan := sorted.getD (cutEnd length - 1) 0 - sorted.getD (cutBegin length) 0
    let timeSpan := if timeSpan = 0 then 1 else timeSpan
    let totalWork := cumulativeDifficulties.getD (cutEnd length - 1) 0
      - cumulativeDifficulties.getD (cutBegin length) 0
    let (low, high) := mul p totalWork targetSeconds
    if high ≠ 0 || low + timeSpan - 1 < low then 0
    else (low + timeSpan - 1) / timeSpan

end Oxyra.Words
