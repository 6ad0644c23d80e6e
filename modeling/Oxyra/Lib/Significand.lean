import Mathlib

/-!
# Rounding to a fixed number of significant bits

Machine floating point, as far as comparisons of non-negative values need it: a
value is a natural number (on a scale the user fixes), `roundTo p` rounds it to
`p` significant bits, ties to even, and `divide p` is the rounded quotient on
the scale 2^129. No exponent range is modelled, so the results stand for
operations that neither overflow nor underflow.
-/

namespace Significand

/-- Drop the bits of `n` below 2^`e`, rounding to nearest, ties to even. -/
def roundAt (e n : Nat) : Nat :=
  let q := n / 2 ^ e
  let r := n % 2 ^ e
  if 2 * r > 2 ^ e ∨ (2 * r = 2 ^ e ∧ q % 2 = 1) then (q + 1) * 2 ^ e else q * 2 ^ e

/-- `n` rounded to `p` significant bits. -/
def roundTo (p n : Nat) : Nat :=
  if n < 2 ^ p then n else roundAt (n.log2 + 1 - p) n

/-- The rounded quotient `n / d`, on the scale 2^129: 128 fraction bits and a
sticky bit are enough to round any quotient of words to 53 bits. -/
def divide (p n d : Nat) : Nat :=
  roundTo p (2 * (n * 2 ^ 128 / d) + if n * 2 ^ 128 % d = 0 then 0 else 1)

@[simp] theorem roundTo_zero (p : Nat) : roundTo p 0 = 0 := by
  simp [roundTo]

end Significand
