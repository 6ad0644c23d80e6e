import Mathlib

/-!
# Permutations in place (`common/apply_permutation.h`)

A vector is put in another order by swaps along the cycles of the permutation. A position
that has got its element is marked in the copy of the permutation, as one that stays where
it is.

Each turn of the `while` loop takes one unit of `fuel`. The first function is generic in
what is swapped, the second one swaps the elements of a vector.
-/

namespace Oxyra.Permutation

/-- The checks of the two functions. -/
inductive Failure where
  | badPermutation
  | mismatchedSizes
deriving DecidableEq, Repr

section Generic

variable {σ : Type} (swap : Nat → Nat → σ → σ)

/-- The `while` loop from `current` on, and the mark after it: `none` if it takes more
turns, or looks past the end of the permutation. -/
def followCycle (i : Nat) : Nat → Nat → List Nat → σ → Option (List Nat × σ)
  | 0, _, _, _ => none
  | fuel + 1, current, permutation, s =>
    match permutation[current]? with
    | none => none
    | some next =>
      if i = next then some (permutation.set current current, s)
      else followCycle i fuel next (permutation.set current current) (swap current next s)

/-- The `for` loop over the positions. -/
def followCycles (fuel : Nat) (permutation : List Nat) (s : σ) : Option (List Nat × σ) :=
  (List.range permutation.length).foldlM (fun r i => followCycle swap i fuel i r.1 r.2)
    (permutation, s)

/-- `apply_permutation` with a function that swaps: `none` if a loop takes more than
`fuel` turns. -/
def applyPermutationWith (fuel : Nat) (permutation : List Nat) (s : σ) :
    Option (Except Failure σ) :=
  if (List.range permutation.length).all (· ∈ permutation) then
    (followCycles swap fuel permutation s).map fun r => .ok r.2
  else some (.error .badPermutation)

end Generic

/-- `std::swap(v[i0], v[i1])` -/
def swapElements {α : Type} (i₀ i₁ : Nat) (v : List α) : List α :=
  match v[i₀]?, v[i₁]? with
  | some x, some y => (v.set i₀ y).set i₁ x
  | _, _ => v

/-- `apply_permutation` of a vector -/
def applyPermutation {α : Type} (fuel : Nat) (permutation : List Nat) (v : List α) :
    Option (Except Failure (List α)) :=
  if permutation.length = v.length then applyPermutationWith swapElements fuel permutation v
  else some (.error .mismatchedSizes)

end Oxyra.Permutation
