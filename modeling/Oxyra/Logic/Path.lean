import Oxyra.Lib.Linked
import Oxyra.Logic.Invariant

/-!
# Histories of blocks

A block names its parent by id, and its difficulty and cumulative difficulty
follow from the blocks below it. So where ids do not collide the id of a block
stands for its whole history.

* `Path` is a history: submitted blocks, each naming the one before it and its
  own height. `pointsOf` is what the retarget rule makes of a history.
* `Placed` is what the node establishes of a main-chain block, with the version
  and the difficulty its height and its history call for.
* A chain of placed blocks is a path, and its stored difficulties are those of
  the path (`points_of_placed`); its top determines its blocks (`blocks_unique`).
-/

namespace Oxyra

variable {e : Env} {Q : Block → Prop}

def versionFor (e : Env) (height : Nat) : Nat :=
  e.forks.versionAt (e.forks.indexAt height)

def topWork (points : List (Nat × Nat)) : Nat :=
  (points.getLast?.map Prod.snd).getD 0

def nextWork (e : Env) (points : List (Nat × Nat)) : Nat :=
  difficultyOfPoints e points (versionFor e points.length)

/-- What a block adds to the history below it. -/
def nextPoint (e : Env) (points : List (Nat × Nat)) (b : Block) : Nat × Nat :=
  (b.timestamp, (nextWork e points + topWork points) % difficultyModulus)

def pointsOf (e : Env) (bs : List Block) : List (Nat × Nat) :=
  annotate (nextPoint e) bs

def headId (e : Env) (bs : List Block) : Hash :=
  lastKey e.getBlockHash nullHash bs

/-- Submitted blocks, each naming the one before it and its own height. -/
def Path (e : Env) (Q : Block → Prop) (bs : List Block) : Prop :=
  Built (fun pre b => (Q b ∧ b.prevId = headId e pre) ∧ getBlockHeight b = pre.length) bs

/-- Block ids do not collide on the submitted blocks and are never null. -/
abbrev IdsOk (e : Env) (Q : Block → Prop) : Prop :=
  KeysOk e.getBlockHash nullHash Q

theorem Path.linked {bs : List Block} (h : Path e Q bs) :
    Linked e.getBlockHash Block.prevId nullHash Q bs :=
  Built.mono h fun _ _ hb => hb.1

/-- **The id at its end determines a history.** -/
theorem Path.unique (hids : IdsOk e Q) {bs bs' : List Block} (h : Path e Q bs)
    (h' : Path e Q bs') (heq : headId e bs = headId e bs') : bs = bs' :=
  h.linked.unique hids h'.linked heq

/-- A main-chain block as the node leaves it: submitted, and accepted no later
than `time` under the version and with the difficulty of its place. -/
def Placed (e : Env) (Q : Block → Prop) (time : Nat) (pre : Chain) (sb : StoredBlock) : Prop :=
  Q sb.bl ∧ ∃ fast now, now ≤ time ∧
    Extends e fast (versionFor e pre.length) now (difficultyFor e pre (versionFor e pre.length))
      pre sb

theorem Placed.later {time time' : Nat} {pre : Chain} {sb : StoredBlock} (hle : time ≤ time')
    (h : Placed e Q time pre sb) : Placed e Q time' pre sb := by
  obtain ⟨hq, fast, now, hnow, hext⟩ := h
  exact ⟨hq, fast, now, by omega, hext⟩

section Chain

variable {time time' : Nat} {chain chain' : Chain}

theorem tailId_eq_headId (e : Env) (chain : Chain) : chain.tailId e = headId e chain.blocks := by
  unfold Chain.tailId headId lastKey Chain.blocks
  rw [List.getLast?_map, Option.map_map]
  rfl

@[simp] theorem length_blocks (chain : Chain) : chain.blocks.length = chain.length := by
  simp [Chain.blocks]

@[simp] theorem length_points (chain : Chain) : chain.points.length = chain.length := by
  simp [Chain.points]

theorem topWork_points (chain : Chain) :
    topWork chain.points = chain.topCumulativeDifficulty := by
  simp [topWork, Chain.points, Chain.topCumulativeDifficulty, Function.comp_def]

theorem difficultyFor_eq_nextWork (e : Env) (chain : Chain) :
    difficultyFor e chain (versionFor e chain.length) = nextWork e chain.points := by
  rw [nextWork, length_points]
  rfl

theorem path_of_placed (h : Built (Placed e Q time) chain) : Path e Q chain.blocks := by
  induction chain using List.reverseRecOn with
  | nil => exact Built.nil
  | append_singleton pre sb ih =>
    obtain ⟨hpre, hq, _, _, _, hext⟩ := Built.snoc_iff.mp h
    have hblocks : Chain.blocks (pre ++ [sb]) = Chain.blocks pre ++ [sb.bl] := by
      simp [Chain.blocks]
    rw [hblocks]
    refine Built.snoc (ih hpre) ⟨⟨hq, ?_⟩, ?_⟩
    · rw [hext.prev, tailId_eq_headId]
    · rw [hext.getBlockHeight_eq, length_blocks]

/-- **Stored difficulties are those of the history.** -/
theorem points_of_placed (h : Built (Placed e Q time) chain) :
    chain.points = pointsOf e chain.blocks := by
  refine Built.map_eq_annotate (a := StoredBlock.bl)
    (b := fun sb => (sb.bl.timestamp, sb.cumulativeDifficulty)) (nextPoint e)
    (h.mono fun pre sb hsb => ?_)
  obtain ⟨_, _, _, _, hext⟩ := hsb
  have hpoints : (pre.map fun sb => (sb.bl.timestamp, sb.cumulativeDifficulty))
      = Chain.points pre := rfl
  rw [hpoints, nextPoint, hext.work, difficultyFor_eq_nextWork, topWork_points]

/-- **The top determines the chain's blocks.** -/
theorem blocks_unique (hids : IdsOk e Q) (h : Built (Placed e Q time) chain)
    (h' : Built (Placed e Q time') chain') (heq : chain.tailId e = chain'.tailId e) :
    chain.blocks = chain'.blocks := by
  rw [tailId_eq_headId, tailId_eq_headId] at heq
  exact (path_of_placed h).unique hids (path_of_placed h') heq

theorem points_unique (hids : IdsOk e Q) (h : Built (Placed e Q time) chain)
    (h' : Built (Placed e Q time') chain') (heq : chain.tailId e = chain'.tailId e) :
    chain.points = chain'.points := by
  rw [points_of_placed h, points_of_placed h', blocks_unique hids h h' heq]

theorem tailId_ne_null (hids : IdsOk e Q) (h : Built (Placed e Q time) chain) (hne : chain ≠ []) :
    chain.tailId e ≠ nullHash := by
  rw [tailId_eq_headId]
  refine (path_of_placed h).linked.lastKey_ne_null hids fun hnil => hne ?_
  simpa [Chain.blocks] using hnil

end Chain

end Oxyra
