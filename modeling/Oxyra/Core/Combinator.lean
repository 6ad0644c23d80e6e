import Mathlib

/-!
# Combinations of the elements of a vector (`common/combinator.h`, `combinator.cpp`)

`doCombine` goes through the positions for one element and calls itself for the next one.
The positions chosen so far are in `current`, which is empty between two calls of
`combine`. `combinationsCount` is the number of combinations.
-/

namespace Oxyra

structure Combinator (α : Type) where
  origin : List α
  combinations : List (List α) := []
  current : List Nat := []

namespace Combinator

/-- The checks of `combine` and `combinations_count`. -/
inductive Failure where
  | moreThanElements
  | zero
  | moreThanN
deriving DecidableEq, Repr

variable {α : Type}

/-- `current.back() = i` -/
def setBack (c : Combinator α) (i : Nat) : Combinator α :=
  { c with current := c.current.dropLast ++ [i] }

/-- The elements at these positions, which are in the vector. -/
def elementsAt (origin : List α) (chosen : List Nat) : List α := chosen.filterMap (origin[·]?)

/-- A combination is pushed back. -/
def emit (c : Combinator α) : Combinator α :=
  { c with combinations := c.combinations ++ [elementsAt c.origin c.current] }

/-- The loop of `doCombine`, from `start` to `origin.size() - k`, with what is done at a
position. -/
def eachPosition (k start : Nat) (visit : Nat → Combinator α → Combinator α)
    (c : Combinator α) : Combinator α :=
  let c := { c with current := c.current ++ [0] }
  let c := (List.range' start (c.origin.length - k + 1 - start)).foldl
    (fun c i => visit i (c.setBack i)) c
  { c with current := c.current.dropLast }

def doCombine : Nat → Nat → Combinator α → Combinator α
  | 0, start => eachPosition 0 start fun _ c => c.emit
  | 1, start => eachPosition 1 start fun _ c => c.emit
  | k + 2, start => eachPosition (k + 2) start fun i c => doCombine (k + 1) (i + 1) c

/-- `combine`, and the object after it. -/
def combine (c : Combinator α) (k : Nat) : Except Failure (List (List α)) × Combinator α :=
  if k > c.origin.length then (.error .moreThanElements, c)
  else if k = 0 then (.error .zero, c)
  else
    let c := doCombine k 0 { c with combinations := [] }
    (.ok c.combinations, c)

/-- An object that was called with these `k` before. -/
def afterCalls (origin : List α) (earlier : List Nat) : Combinator α :=
  earlier.foldl (fun c k => (c.combine k).2) { origin := origin }

/-- The loop of `combinations_count`, with `left` turns to go. -/
def countLoop : Nat → UInt64 → UInt32 → UInt64 → UInt64
  | 0, _, _, c => c
  | left + 1, i, n, c => countLoop left (i + 1) (n - 1) (c * n.toUInt64 / i)

def combinationsCount (k n : UInt32) : Except Failure UInt64 :=
  if k > n then .error .moreThanN else .ok (countLoop k.toNat 1 n 1)

/-- The products of the same loop, of numbers without a bound. -/
def products : Nat → Nat → Nat → Nat → List Nat
  | 0, _, _, _ => []
  | left + 1, i, n, c => c * n :: products left (i + 1) (n - 1) (c * n / i)

end Combinator

end Oxyra
