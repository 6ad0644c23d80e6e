import Oxyra.Basic.Reward
import Oxyra.Lib.Numeral

/-!
# Amounts of money (`cryptonote_format_utils.h`, `cryptonote_format_utils.cpp`)

* `decomposeAmount`: the calls `decompose_amount_into_digits` makes to its two handlers.
* `printMoney` and `parseAmount`: amounts as text, with the point where the user has set it. The
  characters of a text are its bytes, and the locale is the classic one.
-/

namespace Oxyra.Amounts

abbrev Bytes := List UInt8

/-! ## Digits -/

/-- A call of one of the handlers. -/
inductive Call where
  | chunk (value : UInt64)
  | dust (value : UInt64)
deriving DecidableEq, Repr

namespace Call

def value : Call → UInt64
  | chunk v => v
  | dust v => v

def chunk? : Call → Option UInt64
  | chunk v => some v
  | dust _ => none

def dust? : Call → Option UInt64
  | chunk _ => none
  | dust v => some v

end Call

/-- The loop of `decompose_amount_into_digits`, and the dust handed out behind it. -/
def decomposeCalls (dustThreshold amount dust order : UInt64) (isDustHandled : Bool) : List Call :=
  if amount = 0 then if !isDustHandled && dust ≠ 0 then [.dust dust] else []
  else
    let chunk := (amount % 10) * order
    if dust + chunk ≤ dustThreshold then
      decomposeCalls dustThreshold (amount / 10) (dust + chunk) (order * 10) isDustHandled
    else
      let handleDust := !isDustHandled && dust ≠ 0
      (if handleDust then [.dust dust] else []) ++ (if chunk ≠ 0 then [.chunk chunk] else []) ++
        decomposeCalls dustThreshold (amount / 10) dust (order * 10) (isDustHandled || handleDust)
termination_by amount.toNat
decreasing_by
  all_goals
    have hne : amount.toNat ≠ 0 := fun h => ‹¬amount = 0› (UInt64.toNat_inj.mp h)
    rw [UInt64.toNat_div]
    exact Nat.div_lt_self (Nat.pos_of_ne_zero hne) (by decide)

/-- `decompose_amount_into_digits` -/
def decomposeAmount (amount dustThreshold : UInt64) : List Call :=
  if amount = 0 then [] else decomposeCalls dustThreshold amount 0 1 false

/-! ## Text -/

def isDigit (c : UInt8) : Bool := 48 ≤ c && c ≤ 57

def isSpace (c : UInt8) : Bool := (9 ≤ c && c ≤ 13) || c == 32

/-- A number in decimal, as a stream writes it. -/
def decimal (n : Nat) : Bytes :=
  if n = 0 then [48] else (Nat.digits 10 n).reverse.map fun d => UInt8.ofNat (48 + d)

/-- The value of decimal digits. -/
def digitsValue (ds : Bytes) : Nat := ds.foldl (fun n d => 10 * n + (d.toNat - 48)) 0

/-- `'.'` -/
def point : UInt8 := 46

/-- `'0'` -/
def zero : UInt8 := 48

def insertMoneyDecimalPoint (s : Bytes) (decimalPoint : Nat) : Bytes :=
  let s := if s.length < decimalPoint + 1 then
      List.replicate (decimalPoint + 1 - s.length) zero ++ s else s
  if decimalPoint > 0 then
    s.take (s.length - decimalPoint) ++ point :: s.drop (s.length - decimalPoint)
  else s

def printMoney (amount : UInt64) (decimalPoint : Nat) : Bytes :=
  insertMoneyDecimalPoint (decimal amount.toNat) decimalPoint

def trim (s : Bytes) : Bytes := ((s.dropWhile isSpace).reverse.dropWhile isSpace).reverse

/-- `boost::lexical_cast<uint64_t>` of digits; it throws for the empty text and for a number that
does not fit. -/
def lexicalCast (s : Bytes) : Option UInt64 :=
  if s = [] then none
  else if digitsValue s < 2 ^ 64 then some (UInt64.ofNat (digitsValue s)) else none

/-- `get_xtype_from_string<uint64_t>` -/
def getXtypeFromString (strId : Bytes) : Option UInt64 :=
  if strId.all isDigit then lexicalCast strId else none

/-- The loop of `parse_amount` that takes zeros off a fraction that is too long. -/
def eraseZeros (decimalPoint : Nat) : Nat → Bytes → Bytes × Nat
  | 0, s => (s, 0)
  | fractionSize + 1, s =>
    if decimalPoint < fractionSize + 1 ∧ s.getLast? = some zero then
      eraseZeros decimalPoint fractionSize s.dropLast
    else (s, fractionSize + 1)

/-- The end of `parse_amount`, with the point gone. -/
def parseDigits (decimalPoint : Nat) (s : Bytes) (fractionSize : Nat) : Option UInt64 :=
  if s = [] then none
  else getXtypeFromString (s ++ List.replicate (decimalPoint - fractionSize) zero)

/-- `parse_amount`, with `default_decimal_point` -/
def parseAmount (decimalPoint : Nat) (strAmount : Bytes) : Option UInt64 :=
  let s := trim strAmount
  match s.findIdx? (· == point) with
  | some pointIndex =>
    let (s, fractionSize) := eraseZeros decimalPoint (s.length - pointIndex - 1) s
    if decimalPoint < fractionSize then none
    else parseDigits decimalPoint (s.eraseIdx pointIndex) fractionSize
  | none => parseDigits decimalPoint s 0

end Oxyra.Amounts
