import Oxyra.Core.Recalculate
import Oxyra.Logic.Ancestors
import Oxyra.Logic.Regtest

/-!
# One difficulty rule

The node has four ways to the difficulty of a block: a read of the window from
the database, a window that is rolled on from block to block, a window stitched
together from both sides of a fork, and the sliding window of the recalculation.
They differ in how they leave out the genesis block and in where they cut.
`one_difficulty_rule` says that all four come to `difficultyFor`, a function of
the chain alone.
-/

namespace Oxyra

open Blockchain

variable {e : Env} {Q : Block → Prop} {s : Blockchain} {depth : Nat}

theorem cold_difficulty (hid : s.chain ≠ [] → s.tailId e ≠ nullHash)
    (hversion : s.hfVersion e = versionFor e s.height) (hcold : s.diff = {}) :
    (s.getDifficultyForNextBlock e).1 = nextWork e s.chain.points := by
  have hlen : s.chain.points.length = s.height := length_points s.chain
  have hempty : s.chain.points = [] ↔ s.height = 0 := by
    rw [← List.length_eq_zero_iff, hlen]
  have hwindow : WindowOk s.chain.points s.diff := hcold ▸ .of_reset (.inl rfl)
  have htop : s.diff.topHash = nullHash := by rw [hcold]
  unfold getDifficultyForNextBlock
  split
  · rename_i hfixed
    simp only [nextWork, difficultyOfPoints, hempty, if_pos hfixed]
  rename_i hfixed
  rw [htop]
  split
  · -- the null hash is the id of no block, so the chain is empty
    rename_i hnull
    have hnil : s.chain = [] := by
      by_contra hne
      exact hid hne hnull
    rw [hcold, hnil]
    unfold nextWork difficultyOfPoints
    rw [if_neg hfixed]
    rfl
  · dsimp only
    rw [refreshWindow_eq hwindow, nextWork, difficultyOfPoints, if_neg hfixed, hlen, hversion]

/-! ## The caches over whole histories -/

/-- What can happen to a node between two questions for the difficulty, and the
question itself. -/
inductive DifficultyCall where
  | event (ev : Event)
  | popBlock
  | getDifficulty

namespace DifficultyCall

def apply (e : Env) (depth : Nat) (s : Blockchain) : DifficultyCall → Blockchain
  | .event ev => s.apply e depth ev
  | .popBlock => ((s.popBlockFromBlockchain e).map Prod.snd).getD s
  | .getDifficulty => { s with diff := (s.getDifficultyForNextBlock e).2 }

/-- Every call keeps the promises made to the node. -/
def AllOk (e : Env) (Q : Block → Prop) (depth : Nat) : Blockchain → List DifficultyCall → Prop
  | _, [] => True
  | s, c :: rest => (∀ ev, c = .event ev → ev.Ok e Q s) ∧ AllOk e Q depth (c.apply e depth s) rest

end DifficultyCall

section Calls

variable (hforks : e.forks.Standard) (hids : IdsOk e Q)
include hforks hids

theorem Ready.call {c : DifficultyCall} (h : Ready e Q s) (hk : Known Q s)
    (hok : ∀ ev, c = .event ev → ev.Ok e Q s) :
    Ready e Q (c.apply e depth s) ∧ Known Q (c.apply e depth s) := by
  cases c with
  | event ev =>
    have hsteps := apply_steps depth hk (hok ev rfl)
    exact ⟨h.steps hforks hids hsteps, hk.steps hsteps⟩
  | popBlock =>
    unfold DifficultyCall.apply
    cases hp : s.popBlockFromBlockchain e with
    | none => exact ⟨h, hk⟩
    | some r =>
      have hstep : Step e Q s r.2 := .pop hp
      exact ⟨h.step hforks hids hstep, hk.step hstep⟩
  | getDifficulty =>
    obtain ⟨-, hcache, hwindow⟩ := h.difficulty hids
    exact ⟨{ h with cache := hcache, window := hwindow }, ⟨hk.chain, hk.alt⟩⟩

theorem Ready.calls {calls : List DifficultyCall} (h : Ready e Q s) (hk : Known Q s)
    (hok : DifficultyCall.AllOk e Q depth s calls) :
    Ready e Q (calls.foldl (DifficultyCall.apply e depth) s) := by
  induction calls generalizing s with
  | nil => exact h
  | cons c rest ih =>
    obtain ⟨h1, h2⟩ := h.call hforks hids hk hok.1
    exact ih h1 h2 hok.2

end Calls

/-! ## The sliding window -/

/-- A chain whose cumulative difficulties follow the rule and stay below 2^128. -/
def FollowsRule (e : Env) (chain : Chain) : Prop :=
  Built (fun (pre : Chain) sb =>
    sb.cumulativeDifficulty
      = difficultyFor e pre (versionFor e pre.length) + pre.topCumulativeDifficulty ∧
    sb.cumulativeDifficulty < difficultyModulus) chain

/-- The locals of the recalculation when it gets to `height` without drift. -/
def Recalculation.steady (points : List (Nat × Nat)) (height : Nat) : Recalculation where
  timestamps := windowTimestamps (points.take height)
  difficulties := windowDifficulties (points.take height)
  lastCumDiff := topWork (points.take height)

section Recalculate

variable {chain : Chain} (hforks : e.forks.Standard) (hfixed : e.fixedDifficulty = 0)
  (hrule : FollowsRule e chain)

include hrule in
theorem FollowsRule.points_getElem (height : Nat) (h : height < chain.length) :
    ∃ timestamp, chain.points[height]? = some (timestamp,
        nextWork e (chain.points.take height) + topWork (chain.points.take height)) ∧
      nextWork e (chain.points.take height) + topWork (chain.points.take height)
        < difficultyModulus := by
  obtain ⟨hcd, hlt⟩ := hrule.getElem height h
  have htake : chain.points.take height = Chain.points (chain.take height) := by
    rw [Chain.points, Chain.points, List.map_take]
  rw [htake, topWork_points, ← difficultyFor_eq_nextWork, ← hcd]
  refine ⟨chain[height].bl.timestamp, ?_, hlt⟩
  simp [Chain.points, List.getElem?_eq_getElem h]

include hforks hfixed hrule in
theorem Recalculation.step_steady (height : Nat) (h : height < chain.length) :
    Recalculation.step e chain.points (.steady chain.points height) height
      = some (.steady chain.points (height + 1)) := by
  obtain ⟨timestamp, hget, hlt⟩ := hrule.points_getElem height h
  have hlen : (chain.points.take height).length = height := by
    rw [List.length_take, length_points]
    omega
  have hnext : nextDifficulty (windowTimestamps (chain.points.take height))
      (windowDifficulties (chain.points.take height))
      (difficultyTarget (e.forks.getIdealVersion height))
      = nextWork e (chain.points.take height) := by
    rw [nextWork, difficultyOfPoints, if_neg (by simp [hfixed]), hlen,
      e.forks.getIdealVersion_eq hforks, versionFor]
  generalize hwork : nextWork e (chain.points.take height) + topWork (chain.points.take height)
    = work at hget hlt
  have hsucc : chain.points.take (height + 1)
      = chain.points.take height ++ [(timestamp, work)] := by
    rw [List.take_add_one, hget]
    rfl
  have htop : topWork (chain.points.take (height + 1)) = work := by
    rw [hsucc]
    simp [topWork]
  unfold Recalculation.step Recalculation.steady
  dsimp only
  rw [hnext, hwork, if_neg (by omega), hget, htop]
  dsimp only
  have hdrift : ¬ ((0 : Nat) = 0 ∧ work ≠ work) := by simp
  rw [if_neg hdrift]
  by_cases hzero : height = 0
  · -- the genesis block enters no window
    subst hzero
    rw [hsucc]
    simp [windowTimestamps, windowDifficulties, difficultyOffset]
  · have hpos : 0 < (chain.points.take height).length := by omega
    obtain ⟨hle, htimes⟩ := window_push Prod.fst _ (timestamp, work) hpos
    obtain ⟨-, hworks⟩ := window_push Prod.snd _ (timestamp, work) hpos
    rw [← hsucc] at htimes hworks
    rw [List.length_append, List.length_map, List.length_singleton] at hle htimes hworks
    have hgt : height > 0 := by omega
    simp only [if_pos hgt]
    unfold windowTimestamps windowDifficulties
    rw [List.length_append, List.length_map, List.length_singleton, if_neg (by omega), htimes,
      hworks]
    rfl

include hforks hfixed hrule in
theorem Recalculation.loop_steady (n start : Nat) (h : start + n ≤ chain.length) :
    (List.range' start n).foldlM (Recalculation.step e chain.points) (.steady chain.points start)
      = some (.steady chain.points (start + n)) := by
  induction n generalizing start with
  | zero => rfl
  | succ n ih =>
    rw [List.range'_succ, List.foldlM_cons,
      Recalculation.step_steady hforks hfixed hrule start (by omega)]
    have := ih (start + 1) (by omega)
    rwa [show start + 1 + n = start + (n + 1) from by omega] at this

include hfixed hrule in
theorem Recalculation.start_steady (start : Nat) (h : start ≤ chain.length)
    (hne : 0 < chain.length) :
    Recalculation.start chain.points start = some (.steady chain.points start) := by
  unfold Recalculation.start
  split
  · rename_i hle
    obtain ⟨timestamp, hget, -⟩ := hrule.points_getElem 0 hne
    rcases Nat.le_one_iff_eq_zero_or_eq_one.mp hle with rfl | rfl
    · simp [Recalculation.steady, windowTimestamps, windowDifficulties, topWork]
    · -- the genesis block has cumulative difficulty 1
      have hone : nextWork e [] = 1 := by
        unfold nextWork difficultyOfPoints
        rw [if_neg (by simp [hfixed])]
        rfl
      have htake : chain.points.take 1 = [(timestamp, 1)] := by
        rw [List.take_zero, hone] at hget
        rw [List.take_add_one, List.take_zero, hget]
        rfl
      simp [Recalculation.steady, htake, windowTimestamps, windowDifficulties, topWork,
        difficultyOffset]
  · rename_i hgt
    have hlen : (chain.points.take start).length = start := by
      rw [List.length_take, length_points]
      omega
    rw [if_neg (by rw [length_points]; omega)]
    have hlast : (windowDifficulties (chain.points.take start)).getLastD 0
        = topWork (chain.points.take start) := by
      rw [windowDifficulties, List.getLastD_eq_getLast?, List.getLast?_map,
        List.getLast?_drop, topWork, if_neg]
      rw [hlen, difficultyOffset]
      have hcount : 0 < difficultyBlocksCount := by decide
      omega
    dsimp only
    rw [hlast]
    rfl

theorem checkDifficultyCheckpoints_le (chain : Chain) (points : List (Nat × Nat)) (res : Nat)
    (h : res ≤ chain.length) : (checkDifficultyCheckpoints chain points res).2 ≤ chain.length := by
  induction points generalizing res with
  | nil => exact h
  | cons p rest ih =>
    obtain ⟨height, difficulty⟩ := p
    unfold checkDifficultyCheckpoints
    cases hget : chain[height]? with
    | none => exact h
    | some sb =>
      dsimp only
      split
      · exact h
      · have := (List.getElem?_eq_some_iff.mp hget).1
        exact ih height (by omega)

end Recalculate

/-- **The recalculation finds nothing to correct**, wherever it starts. -/
theorem recalculate_no_drift (hforks : e.forks.Standard) (hrule : FollowsRule e s.chain)
    (hne : s.chain ≠ []) (difficultyPoints : List (Nat × Nat)) (start? : Option Nat)
    (hstart : ∀ start, start? = some start → start ≤ s.height) :
    s.recalculateDifficulties e difficultyPoints start? = some (0, s) := by
  have hpos : 0 < s.chain.length := List.length_pos_iff.mpr hne
  unfold recalculateDifficulties
  split
  · rfl
  rename_i hfixed
  have hfixed : e.fixedDifficulty = 0 := by simpa using hfixed
  rw [if_neg (by unfold Blockchain.height; omega)]
  dsimp only
  have hle : start?.getD (checkDifficultyCheckpoints s.chain difficultyPoints 0).2
      ≤ s.chain.length := by
    cases start? with
    | none => exact checkDifficultyCheckpoints_le _ _ _ (by omega)
    | some start => exact hstart start rfl
  generalize start?.getD (checkDifficultyCheckpoints s.chain difficultyPoints 0).2 = start at hle
  have hloop := Recalculation.loop_steady hforks hfixed hrule (s.height - start) start
    (by unfold Blockchain.height; omega)
  rw [Recalculation.start_steady hfixed hrule start hle hpos, Option.bind_some, hloop]
  rfl

theorem recalculate_beyond (hfixed : e.fixedDifficulty = 0) (difficultyPoints : List (Nat × Nat))
    {start : Nat} (hstart : s.height < start) :
    s.recalculateDifficulties e difficultyPoints (some start) = none := by
  unfold recalculateDifficulties
  rw [if_neg (by simp [hfixed])]
  split
  · rfl
  · have hnone : Recalculation.start s.chain.points start = none := by
      unfold Recalculation.start
      rw [if_neg (by omega), if_pos (by rw [length_points]; exact hstart)]
    dsimp only [Option.getD_some]
    rw [hnone]
    rfl

/-- **One difficulty rule.** The difficulty of the next block is the same function
of the chain from a cold cache, from the caches of a node with any history, and
for every split of the chain at a fork; and a chain that follows it is found to do
so by the recalculation. -/
theorem one_difficulty_rule (e : Env) (Q : Block → Prop) (hforks : e.forks.Standard)
    (hids : IdsOk e Q) :
    (∀ s : Blockchain, (∀ sb ∈ s.chain, Q sb.bl) → s.hfVersion e = versionFor e s.height →
      s.diff = {} →
      (s.getDifficultyForNextBlock e).1 = difficultyFor e s.chain (versionFor e s.height)) ∧
    (∀ (depth : Nat) (s₀ s : Blockchain) (calls : List DifficultyCall), Started e s₀ →
      DifficultyCall.AllOk e Q depth s₀ calls →
      s = calls.foldl (DifficultyCall.apply e depth) s₀ →
      (s.getDifficultyForNextBlock e).1 = difficultyFor e s.chain (versionFor e s.height)) ∧
    (∀ (s : Blockchain) (ancestors : Chain) (altChain : List AltBlock) (m : Nat),
      Split s ancestors altChain m →
      s.getNextDifficultyForAlternativeChain e altChain ancestors.length
        = difficultyFor e ancestors (versionFor e ancestors.length)) ∧
    (∀ (s : Blockchain) (difficultyPoints : List (Nat × Nat)) (start? : Option Nat),
      s.chain ≠ [] → FollowsRule e s.chain →
      s.recalculateDifficulties e difficultyPoints start? = some (0, s) ∨
        s.recalculateDifficulties e difficultyPoints start? = none ∧
          ∃ start, start? = some start ∧ s.height < start) := by
  refine ⟨?_, ?_, ?_, ?_⟩
  · intro s hq hversion hcold
    rw [Blockchain.height, difficultyFor_eq_nextWork]
    refine cold_difficulty (fun hne => ?_) hversion hcold
    have htop := List.getLast?_eq_some_getLast hne
    rw [Blockchain.tailId, Chain.tailId, htop]
    exact hids.notNull _ (hq _ (List.getLast_mem hne))
  · rintro depth s₀ s calls hstart hok rfl
    have hready := (hstart.ready hids).calls hforks hids hstart.known hok
    rw [Blockchain.height, difficultyFor_eq_nextWork]
    exact (hready.difficulty hids).1
  · intro s ancestors altChain m hsplit
    rw [difficultyFor_eq_nextWork]
    exact hsplit.difficulty_eq hforks
  · intro s difficultyPoints start? hne hrule
    by_cases hstart : ∀ start, start? = some start → start ≤ s.height
    · exact .inl (recalculate_no_drift hforks hrule hne difficultyPoints start? hstart)
    · push Not at hstart
      obtain ⟨start, rfl, hlt⟩ := hstart
      by_cases hfixed : e.fixedDifficulty = 0
      · exact .inr ⟨recalculate_beyond hfixed difficultyPoints hlt, start, rfl, hlt⟩
      · left
        unfold recalculateDifficulties
        rw [if_pos hfixed]

/-! ## A node that retargets -/

def retarget : Env := { regtest firstVersion with fixedDifficulty := 0 }

def retargetBlock : Block := regtestBlock 1 1 0 1 [] []

def retargetChain : Chain :=
  [{ bl := regtestGenesis 1 [moneySupply], cumulativeDifficulty := 1 },
    { bl := retargetBlock, cumulativeDifficulty := 2 }]

def retargetRow : AltBlock where
  id := retarget.getBlockHash retargetBlock
  bl := retargetBlock
  height := 1
  cumulativeWeight := 0
  cumulativeDifficulty := 2
  alreadyGeneratedCoins := moneySupply

/-- Two blocks, the second one popped again, and a question in between. -/
def retargetCalls : List DifficultyCall :=
  [.event (.block (regtestGenesis 1 [moneySupply]) {}), .event (.block retargetBlock {}),
    .getDifficulty, .popBlock]

theorem one_difficulty_rule_retarget :
    let s : Blockchain := { chain := retargetChain.take 1 }
    let s' := retargetCalls.foldl (DifficultyCall.apply retarget 0) {}
    s'.height = 1 ∧
      (s.getDifficultyForNextBlock retarget).1 = difficultyFor retarget s.chain 1 ∧
      (s'.getDifficultyForNextBlock retarget).1 = difficultyFor retarget s'.chain 1 ∧
      s.getNextDifficultyForAlternativeChain retarget [retargetRow] 2
        = difficultyFor retarget retargetChain 1 ∧
      s.recalculateDifficulties retarget [] none = some (0, s) := by
  intro s s'
  have hheight : s'.height = 1 := by decide +kernel
  have hids : IdsOk retarget (· ∈ retargetChain.map StoredBlock.bl) := by
    have hinj : ∀ x ∈ retargetChain.map StoredBlock.bl, ∀ y ∈ retargetChain.map StoredBlock.bl,
        retarget.getBlockHash x = retarget.getBlockHash y → x = y := by
      decide +kernel
    exact ⟨fun x y hx hy => hinj x hx y hy, by decide +kernel⟩
  have hrule := one_difficulty_rule retarget (· ∈ retargetChain.map StoredBlock.bl)
    (schedule_standard 1 _ _) hids
  refine ⟨hheight, ?_, ?_, ?_, ?_⟩
  · exact hrule.1 s (by decide +kernel) rfl rfl
  · have hstart : Started retarget {} := ⟨rfl, rfl, (Sound.init {}).rows, rfl, rfl⟩
    have hok : DifficultyCall.AllOk retarget (· ∈ retargetChain.map StoredBlock.bl) 0 {}
        retargetCalls := by
      have hblock : ∀ b ∈ retargetChain.map StoredBlock.bl, ∀ (t : Blockchain) ev,
          DifficultyCall.event (.block b {}) = .event ev →
            ev.Ok retarget (· ∈ retargetChain.map StoredBlock.bl) t := by
        rintro b hb t _ ⟨⟩
        exact ⟨hb, PoolSupplement.ok_empty⟩
      exact ⟨hblock _ (by decide +kernel) _, hblock _ (by decide +kernel) _, by simp, by simp,
        trivial⟩
    have := hrule.2.1 0 {} s' retargetCalls hstart hok rfl
    rwa [hheight] at this
  · exact hrule.2.2.1 s retargetChain [retargetRow] 1 ⟨by decide, by decide, rfl, rfl, rfl⟩
  · refine (hrule.2.2.2 s [] none (by decide) ?_).elim id fun h => ?_
    · refine Built.snoc (l := []) Built.nil ⟨?_, ?_⟩
      · decide +kernel
      · decide +kernel
    · obtain ⟨-, _, h, -⟩ := h
      cases h

end Oxyra
