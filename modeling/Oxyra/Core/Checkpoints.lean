import Oxyra.Basic.Types

/-!
# Checkpoints (`checkpoints.cpp`)

The container and its queries as the source computes them. Two of the three
queries do not look at the container at all: `isInCheckpointZone` is constantly
false, and `checkBlock` accepts every block and calls none a checkpoint.
`documentedCheckBlock` is what the header promises of `check_block`; it is the
measure the run theorems use, and the code never calls it.
-/

namespace Oxyra

/-- `checkpoints::m_points`: at most one id for each height. -/
structure Checkpoints where
  points : List (Nat × Hash) := []
  functional : (points.map Prod.fst).Nodup := by simp

namespace Checkpoints

variable (c : Checkpoints)

/-- `m_points.find(height)` -/
def find? (height : Nat) : Option Hash :=
  c.points.lookup height

/-- `add_checkpoint`, after the hash string has been parsed: a second, different
id for a height is refused. -/
def addCheckpoint (height : Nat) (h : Hash) : Option Checkpoints :=
  match hf : c.find? height with
  | some h' => if h = h' then some c else none
  | none =>
    some
      { points := (height, h) :: c.points
        functional := by
          have hnot : height ∉ c.points.map Prod.fst := by
            intro hmem
            obtain ⟨p, hp, rfl⟩ := List.mem_map.mp hmem
            have := List.lookup_eq_none_iff.mp hf p hp
            simp at this
          simpa using ⟨by simpa using hnot, c.functional⟩ }

def isInCheckpointZone (_c : Checkpoints) (_height : Nat) : Bool :=
  false

/-- `check_block`: the verdict and `is_a_checkpoint`. The source looks the
height up and drops the result. -/
def checkBlock (_c : Checkpoints) (_height : Nat) (_h : Hash) : Bool × Bool :=
  (true, false)

/-- The greatest checkpointed height not above `height`: the element before
`upper_bound(height)`. -/
def lastAtOrBelow (height : Nat) : Option Nat :=
  ((c.points.map Prod.fst).filter (· ≤ height)).max?

def isAlternativeBlockAllowed (blockchainHeight blockHeight : Nat) : Bool :=
  if blockHeight = 0 then false
  else
    match c.lastAtOrBelow blockchainHeight with
    | none => true
    | some checkpointHeight => checkpointHeight < blockHeight

/-- What `checkpoints.h` documents of `check_block`: true if there is no
checkpoint at the height or the id is the one recorded. -/
def documentedCheckBlock (height : Nat) (h : Hash) : Bool :=
  match c.find? height with
  | none => true
  | some h' => h = h'

end Checkpoints

end Oxyra
