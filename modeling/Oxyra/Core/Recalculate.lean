import Oxyra.Core.Blockchain

/-!
# Recalculating the difficulties (`blockchain.cpp`)

`recalculateDifficulties` goes through the chain once more from a start height,
with a window of its own that it slides along, and rewrites the stored cumulative
difficulties from the first one that differs. The number it returns is the number
of blocks rewritten.
-/

namespace Oxyra

/-- `check_difficulty_checkpoints` over the difficulty checkpoints in the order of
their heights: whether all agree, and the last height that does. -/
def checkDifficultyCheckpoints (chain : Chain) : List (Nat × Nat) → Nat → Bool × Nat
  | [], res => (true, res)
  | (height, difficulty) :: rest, res =>
    match chain[height]? with
    | none => (true, res)
    | some sb =>
      if sb.cumulativeDifficulty ≠ difficulty then (false, res)
      else checkDifficultyCheckpoints chain rest height

/-- The locals of the loop in `recalculate_difficulties`. -/
structure Recalculation where
  timestamps : List Nat := []
  difficulties : List Nat := []
  lastCumDiff : Nat
  driftStartHeight : Nat := 0
  newCumulativeDifficulties : List Nat := []
deriving DecidableEq, Repr

/-- The locals before the loop: the window below `startHeight`. A block that is not
there throws. -/
def Recalculation.start (points : List (Nat × Nat)) (startHeight : Nat) : Option Recalculation :=
  if startHeight ≤ 1 then some { lastCumDiff := startHeight }
  else if points.length < startHeight then none
  else
    let difficulties := windowDifficulties (points.take startHeight)
    some
      { timestamps := windowTimestamps (points.take startHeight)
        difficulties := difficulties
        lastCumDiff := difficulties.getLastD 0 }

/-- One pass of the loop. A sum that does not fit, a block that is not there and a
window of the wrong size throw. -/
def Recalculation.step (e : Env) (points : List (Nat × Nat)) (r : Recalculation) (height : Nat) :
    Option Recalculation :=
  let target := difficultyTarget (e.forks.getIdealVersion height)
  let recalculated := nextDifficulty r.timestamps r.difficulties target + r.lastCumDiff
  if recalculated ≥ difficultyModulus then none
  else
    match points[height]? with
    | none => none
    | some (timestamp, existing) =>
      let drift :=
        if r.driftStartHeight = 0 ∧ recalculated ≠ existing then height else r.driftStartHeight
      let timestamps := if height > 0 then r.timestamps ++ [timestamp] else r.timestamps
      let difficulties := if height > 0 then r.difficulties ++ [recalculated] else r.difficulties
      if timestamps.length > difficultyBlocksCount + 1 then none
      else
        let full := timestamps.length > difficultyBlocksCount
        some
          { timestamps := if full then timestamps.drop 1 else timestamps
            difficulties := if full then difficulties.drop 1 else difficulties
            lastCumDiff := recalculated
            driftStartHeight := drift
            newCumulativeDifficulties :=
              if drift > 0 then r.newCumulativeDifficulties ++ [recalculated]
              else r.newCumulativeDifficulties }

namespace Blockchain

/-- `correct_block_cumulative_difficulties`, with the caches cleared after it. -/
def correctDifficulties (s : Blockchain) (r : Recalculation) : Blockchain :=
  { s with
    chain := s.chain.zipIdx.map fun (sb, i) =>
      if r.driftStartHeight ≤ i then
        { sb with cumulativeDifficulty :=
            r.newCumulativeDifficulties.getD (i - r.driftStartHeight) sb.cumulativeDifficulty }
      else sb
    diff := { s.diff with topHash := nullHash, height := 0 } }

/-- `recalculate_difficulties`: the number of blocks corrected and the state after
it, `none` where it throws. Without a start height the last difficulty checkpoint
that agrees is used. -/
def recalculateDifficulties (e : Env) (s : Blockchain) (difficultyPoints : List (Nat × Nat))
    (startHeight? : Option Nat) : Option (Nat × Blockchain) :=
  if e.fixedDifficulty ≠ 0 then some (0, s)
  -- the top height of an empty chain wraps around, and the first read throws
  else if s.height = 0 then none
  else
    let startHeight :=
      startHeight?.getD (checkDifficultyCheckpoints s.chain difficultyPoints 0).2
    let heights := List.range' startHeight (s.height - startHeight)
    ((Recalculation.start s.chain.points startHeight).bind fun r =>
      heights.foldlM (Recalculation.step e s.chain.points) r).map fun r =>
        (r.newCumulativeDifficulties.length,
          if r.driftStartHeight > 0 then s.correctDifficulties r else s)

end Blockchain

end Oxyra
