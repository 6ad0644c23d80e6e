import Oxyra.Logic.Ready

/-!
# The ancestors of an alternative block

The chain below an alternative block consists of a part of the main chain and of
rows of the alternative table. `Split` describes it as one chain, and the lemmas
here say that what the code stitches together from the two parts is what the main
path reads off that chain.
-/

namespace Oxyra

open Blockchain

variable {e : Env} {s : Blockchain} {ancestors : Chain} {altChain : List AltBlock} {m : Nat}

/-- `ancestors` is made up of the first `m` blocks of the main chain, the genesis
block at least, and the blocks of `altChain`, whose rows carry their heights. -/
structure Split (s : Blockchain) (ancestors : Chain) (altChain : List AltBlock) (m : Nat) :
    Prop where
  pos : 0 < m
  main : m ≤ s.height
  below : ancestors.take m = s.chain.take m
  above : (altChain.map fun a => (a.bl, a.cumulativeDifficulty))
    = (ancestors.drop m).map fun sb => (sb.bl, sb.cumulativeDifficulty)
  heights : altChain.map AltBlock.height = List.range' m altChain.length

namespace Split

theorem length_altChain (h : Split s ancestors altChain m) :
    altChain.length = ancestors.length - m := by
  simpa using congrArg List.length h.above

theorem length_ge (h : Split s ancestors altChain m) : m ≤ ancestors.length := by
  have hlen := congrArg List.length h.below
  rw [List.length_take, List.length_take] at hlen
  have := h.main
  unfold Blockchain.height at this
  omega

theorem length_eq (h : Split s ancestors altChain m) :
    ancestors.length = m + altChain.length := by
  have h1 := h.length_altChain
  have h2 := h.length_ge
  omega

/-- The timestamps and cumulative difficulties of the ancestors, in two parts. -/
theorem points_eq (h : Split s ancestors altChain m) :
    ancestors.points
      = s.chain.points.take m ++
        altChain.map fun a => (a.bl.timestamp, a.cumulativeDifficulty) := by
  have habove : (altChain.map fun a => (a.bl.timestamp, a.cumulativeDifficulty))
      = ancestors.points.drop m := by
    have := congrArg (List.map fun p : Block × Nat => (p.1.timestamp, p.2)) h.above
    rw [List.map_map, List.map_map] at this
    rw [Chain.points, ← List.map_drop]
    exact this
  have hbelow : ancestors.points.take m = s.chain.points.take m := by
    rw [Chain.points, Chain.points, ← List.map_take, ← List.map_take, h.below]
  rw [habove, ← hbelow, List.take_append_drop]

theorem head_height (h : Split s ancestors altChain m) :
    (altChain.head?.map AltBlock.height).getD ancestors.length = m := by
  have hheights := h.heights
  have hlen := h.length_eq
  cases altChain with
  | nil => simpa using hlen
  | cons a rest =>
    rw [List.map_cons, List.length_cons, List.range'_succ] at hheights
    exact (List.cons.inj hheights).1

/-- **The stitched window is the window of the ancestors.** -/
theorem window_eq (h : Split s ancestors altChain m) :
    (if altChain.length < difficultyBlocksCount then
        (s.chain.points.take m).drop
          (max 1 (m - min (difficultyBlocksCount - altChain.length) m)) ++
            altChain.map fun a => (a.bl.timestamp, a.cumulativeDifficulty)
      else (altChain.map fun a => (a.bl.timestamp, a.cumulativeDifficulty)).drop
        (altChain.length - difficultyBlocksCount))
      = ancestors.points.drop (difficultyOffset ancestors.points.length) := by
  have hlen := h.length_eq
  have hpos := h.pos
  have htake : (s.chain.points.take m).length = m := by
    rw [List.length_take, length_points]
    exact min_eq_left h.main
  rw [length_points, h.points_eq, difficultyOffset, hlen]
  generalize difficultyBlocksCount = c
  split
  · -- the window reaches into the main chain
    rw [List.drop_append_of_le_length (by rw [htake]; omega)]
    congr 2
    omega
  · -- the alternative part fills it
    have hnil : (s.chain.points.take m).drop (max 1 (m + altChain.length - c)) = [] :=
      List.drop_eq_nil_of_le (by rw [htake]; omega)
    rw [List.drop_append, htake, hnil, List.nil_append]
    congr 1
    omega

/-- **`get_next_difficulty_for_alternative_chain` is the rule of the main path**,
applied to the ancestors. -/
theorem difficulty_eq (hforks : e.forks.Standard) (h : Split s ancestors altChain m) :
    s.getNextDifficultyForAlternativeChain e altChain ancestors.length
      = nextWork e ancestors.points := by
  have hpos := h.pos
  have hmain := h.main
  have hne : ancestors.points ≠ [] := by
    rw [ne_eq, ← List.length_eq_zero_iff, length_points, h.length_eq]
    omega
  unfold getNextDifficultyForAlternativeChain nextWork difficultyOfPoints
  dsimp only
  by_cases hfixed : e.fixedDifficulty ≠ 0
  · rw [if_pos hfixed, if_pos hfixed, if_neg hne, if_neg (by omega)]
  · rw [if_neg hfixed, if_neg hfixed, h.head_height, h.window_eq, windowTimestamps,
      windowDifficulties, e.forks.getIdealVersion_eq hforks, length_points, versionFor]

end Split

end Oxyra
