import Mathlib

/-!
# The depth of merge mining (`merge_mining.cpp`)

A block that is mined for several chains at once says in one word how many there are and
with which nonce their slots were found. The number of chains takes as many bits as it
needs, and the lowest three bits of the word say how many.
-/

namespace Oxyra.MergeMining

/-- The checks of `encode_mm_depth`. -/
inductive Failure where
  | noAuxChains
  | tooManyAuxChains
deriving DecidableEq, Repr

/-- `while ((1u << n_bits) < n_aux_chains) ++n_bits`; with at most 256 chains the shift
stays within its word. -/
def countBits (nAuxChains nBits : Nat) : Nat :=
  if 2 ^ nBits < nAuxChains then countBits nAuxChains (nBits + 1) else nBits
termination_by nAuxChains - nBits
decreasing_by
  have hself : nBits < 2 ^ nBits := Nat.lt_two_pow_self
  omega

def encodeMmDepth (nAuxChains nonce : UInt32) : Except Failure UInt64 :=
  if ¬ nAuxChains > 0 then .error .noAuxChains
  else if ¬ nAuxChains ≤ 256 then .error .tooManyAuxChains
  else
    let nBits := UInt32.ofNat (countBits nAuxChains.toNat 1)
    let low : UInt32 := (nBits - (1 : UInt32)) ||| ((nAuxChains - (1 : UInt32)) <<< (3 : UInt32))
    .ok (low.toUInt64 ||| nonce.toUInt64 <<< ((3 : UInt32) + nBits).toUInt64)

/-- `decode_mm_depth`: what it returns, and the two numbers it sets. -/
def decodeMmDepth (depth : UInt64) : Bool × UInt32 × UInt32 :=
  let nBits : UInt32 := (1 : UInt32) + (depth &&& 7).toUInt32
  let mask : UInt64 := ((1 : UInt64) <<< nBits.toUInt64) - 1
  let nAuxChains : UInt64 := 1 + (depth >>> (3 : UInt64) &&& mask)
  (true, nAuxChains.toUInt32, (depth >>> ((3 : UInt32) + nBits).toUInt64).toUInt32)

end Oxyra.MergeMining
