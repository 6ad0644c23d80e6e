import Oxyra.Lib.DigitPairs

/-!
# Decoders of hexadecimal text (`hex.cpp`, `wipeable_string.cpp`)

* `fromHexToString`: driven by a table.
* `parseHexstr`: a search with `strchr` in the string of digits.
* `fromHexLocaleToVector`: spaces and colons are left out.

The characters of a text are its bytes, and the locale is the classic one.
-/

namespace Oxyra.Hex

open DigitPairs (join)

abbrev Bytes := List UInt8

/-! ## `from_hex` -/

def isx (c : UInt8) : Nat :=
  if 48 ≤ c ∧ c ≤ 57 then c.toNat - 48
  else if 65 ≤ c ∧ c ≤ 70 then c.toNat - 55
  else if 97 ≤ c ∧ c ≤ 102 then c.toNat - 87
  else 0xff

/-- The loop of `from_hex::to_buffer_unchecked`. -/
def toBufferLoop : Bytes → Option Bytes
  | high :: low :: src =>
    let tmp := isx high
    if tmp = 0xff then none
    else
      let t2 := isx low
      if t2 = 0xff then none else (toBufferLoop src).map (join tmp t2 :: ·)
  | _ => some []

def toBufferUnchecked (s : Bytes) : Option Bytes :=
  if s.length % 2 ≠ 0 then none else toBufferLoop s

/-- `from_hex::to_string` -/
def fromHexToString (src : Bytes) : Option Bytes := toBufferUnchecked src

/-! ## `wipeable_string` -/

def atolower (c : UInt8) : UInt8 := if 65 ≤ c ∧ c ≤ 90 then c ||| 32 else c

/-- `hex`, without the null byte that ends it -/
def hex : Bytes := [48, 49, 50, 51, 52, 53, 54, 55, 56, 57, 97, 98, 99, 100, 101, 102]

/-- `strchr`: the null byte at the end is part of the string. -/
def strchr (s : Bytes) (c : UInt8) : Option Nat := (s ++ [0]).findIdx? (· == c)

/-- The loop of `parse_hexstr`. -/
def parseHexstrLoop : Bytes → Option Bytes
  | high :: low :: d =>
    match strchr hex (atolower high) with
    | none => none
    | some ptr0 =>
      match strchr hex (atolower low) with
      | none => none
      | some ptr1 => (parseHexstrLoop d).map (join ptr0 ptr1 :: ·)
  | _ => some []

def parseHexstr (s : Bytes) : Option Bytes :=
  if s.length % 2 ≠ 0 then none else parseHexstrLoop s

/-! ## `from_hex_locale` -/

def isspace (c : UInt8) : Bool := (9 ≤ c && c ≤ 13) || c == 32

/-- `include`: neither a space nor a colon -/
def included (c : UInt8) : Bool := !isspace c && c != 58

def tolower (c : UInt8) : UInt8 := if 65 ≤ c ∧ c ≤ 90 then c + 32 else c

/-- `char_to_int`; it throws for any other character. -/
def charToInt (c : UInt8) : Option Nat :=
  let input := tolower c
  if 48 ≤ input ∧ input ≤ 57 then some (input.toNat - 48)
  else if 97 ≤ input ∧ input ≤ 102 then some (input.toNat - 87)
  else none

/-- How `to_vector` fails: with one of its exceptions, or by reading behind the end. -/
inductive Fault where
  | lengthError
  | rangeError
  | pastEnd
deriving DecidableEq, Repr

/-- The loop of `from_hex_locale::to_vector`. -/
def toVectorLoop : Bytes → Except Fault Bytes
  | [] => .ok []
  | high :: data =>
    if !included high then toVectorLoop data
    else
      match charToInt high with
      | none => .error .rangeError
      | some h =>
        match data with
        | [] => .error .pastEnd
        | low :: data =>
          match charToInt low with
          | none => .error .rangeError
          | some l => (toVectorLoop data).map (join h l :: ·)

/-- `from_hex_locale::to_vector` -/
def fromHexLocaleToVector (src : Bytes) : Except Fault Bytes :=
  if src.countP included % 2 ≠ 0 then .error .lengthError else toVectorLoop src

end Oxyra.Hex
