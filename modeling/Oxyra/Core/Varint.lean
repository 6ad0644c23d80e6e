import Oxyra.Lib.Codec

/-!
# Varints with their error codes (`common/varint.h`)

`write_varint` and `read_varint` over an unsigned type of `w` bits. The reader takes the number of
bits that a value may have as a parameter, at most `w`; a range of bytes is a list.
-/

namespace Oxyra.Varint

def evarintOverflow : Int := -1

def evarintRepresent : Int := -2

variable {w : Nat}

def writeVarint (i : BitVec w) : List UInt8 :=
  if 0x80 ≤ i.toNat then
    ((UInt8.ofNat i.toNat &&& 0x7f) ||| 0x80) :: writeVarint (i >>> 7)
  else [UInt8.ofNat i.toNat]
termination_by i.toNat
decreasing_by
  rw [BitVec.toNat_ushiftRight, Nat.shiftRight_eq_div_pow]
  omega

/-- What a call of `read_varint` leaves: what it returns, `write`, and `first` as the bytes that it
has not consumed. -/
structure Reading (w : Nat) where
  ret : Int
  write : BitVec w
  rest : List UInt8
deriving DecidableEq, Repr

/-- The loop of `read_varint`. -/
def readLoop (bits : Nat) : (shift read : Nat) → (write : BitVec w) → List UInt8 → Reading w
  | _, read, write, [] => ⟨read, write, []⟩
  | shift, read, write, byte :: rest =>
    if shift + 7 ≥ bits ∧ byte.toNat ≥ 1 <<< (bits - shift) then ⟨evarintOverflow, write, rest⟩
    else if byte = 0 ∧ shift ≠ 0 then ⟨evarintRepresent, write, rest⟩
    else
      let write := write ||| (BitVec.ofNat w (byte &&& 0x7f).toNat <<< shift)
      if byte &&& 0x80 = 0 then ⟨read + 1, write, rest⟩
      else readLoop bits (shift + 7) (read + 1) write rest

/-- `read_varint<bits>` -/
def readVarint (bits : Nat) (range : List UInt8) : Reading w := readLoop bits 0 0 0 range

end Oxyra.Varint
