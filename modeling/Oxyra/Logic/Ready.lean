import Oxyra.Logic.Path

/-!
# The state between any two steps

`Ready` gathers what the node's members say about each other: the chain is
placed, the hard-fork object stands where the schedule puts it, and both
difficulty caches hold what the chain calls for. Every elementary step keeps it
(`Ready.step`), so it holds in the middle of a reorganisation as well as between
calls.

The difficulty caches are keyed by the id of the top and by a height. That the
first survives a reorganisation rests on ids not colliding; that the second does
rests on every function that rewrites the chain resetting it.
-/

namespace Oxyra

open Blockchain

variable {e : Env} {Q : Block → Prop} {s s' : Blockchain} {time : Nat}

/-! ## The difficulty caches -/

/-- The difficulty cached for a top is the one a chain with that top calls for. -/
def CacheOk (e : Env) (Q : Block → Prop) (d : DifficultyCache) : Prop :=
  ∀ time (chain : Chain), Built (Placed e Q time) chain → chain.tailId e = d.topHash →
    d.nextBlock = nextWork e chain.points

/-- The incremental window, where it is going to be used, is the window of the
chain as it was at the cached height. -/
def WindowOk (points : List (Nat × Nat)) (d : DifficultyCache) : Prop :=
  d.reset = true ∨ d.height = 0 ∨
    d.height ≤ points.length ∧ d.timestamps = windowTimestamps (points.take d.height) ∧
      d.difficulties = windowDifficulties (points.take d.height)

theorem WindowOk.append {points : List (Nat × Nat)} {d : DifficultyCache}
    (h : WindowOk points d) (more : List (Nat × Nat)) : WindowOk (points ++ more) d := by
  rcases h with h | h | ⟨hle, ht, hd⟩
  · exact .inl h
  · exact .inr (.inl h)
  · refine .inr (.inr ⟨by rw [List.length_append]; omega, ?_, ?_⟩)
    · rw [List.take_append_of_le_length hle]
      exact ht
    · rw [List.take_append_of_le_length hle]
      exact hd

/-- Pushing an entry and cutting one off where there are too many moves the window
up by one block. -/
theorem window_push (f : Nat × Nat → Nat) (points : List (Nat × Nat)) (p : Nat × Nat)
    (hpos : 0 < points.length) :
    let w := (points.drop (difficultyOffset points.length)).map f ++ [f p]
    w.length ≤ difficultyBlocksCount + 1 ∧
      (if w.length > difficultyBlocksCount then w.drop 1 else w)
        = ((points ++ [p]).drop (difficultyOffset (points ++ [p]).length)).map f := by
  intro w
  have hoff : difficultyOffset points.length ≤ points.length := by
    unfold difficultyOffset
    omega
  have hw : w = ((points ++ [p]).drop (difficultyOffset points.length)).map f := by
    rw [List.drop_append_of_le_length hoff, List.map_append]
    rfl
  have hlen : w.length = points.length - difficultyOffset points.length + 1 := by
    simp only [w, List.length_append, List.length_map, List.length_drop, List.length_singleton]
  have hnew : difficultyOffset (points ++ [p]).length = max 1 (points.length + 1
      - difficultyBlocksCount) := by
    rw [difficultyOffset, List.length_append, List.length_singleton]
  rw [hnew, hlen]
  unfold difficultyOffset at hw ⊢
  generalize difficultyBlocksCount = c at hw ⊢
  refine ⟨by omega, ?_⟩
  split
  · have hcut : max 1 (points.length - c) + 1 = max 1 (points.length + 1 - c) := by omega
    rw [hw, ← List.map_drop, List.drop_drop, hcut]
  · have hkeep : max 1 (points.length - c) = max 1 (points.length + 1 - c) := by omega
    rw [hw, hkeep]

theorem window_snoc (f : Nat × Nat → Nat) (points : List (Nat × Nat)) (p : Nat × Nat)
    (hfull : difficultyBlocksCount ≤
      ((points.drop (difficultyOffset points.length)).map f).length) :
    let w := (points.drop (difficultyOffset points.length)).map f ++ [f p]
    w.drop (w.length - difficultyBlocksCount) =
      ((points ++ [p]).drop (difficultyOffset (points ++ [p]).length)).map f := by
  intro w
  have hw : w.length = ((points.drop (difficultyOffset points.length)).map f).length + 1 :=
    List.length_append
  have hpos : 0 < points.length := by
    have : 0 < difficultyBlocksCount := by decide
    rw [List.length_map, List.length_drop] at hfull
    omega
  obtain ⟨hle, hpush⟩ : w.length ≤ difficultyBlocksCount + 1 ∧ _ := window_push f points p hpos
  rw [if_pos (show w.length > difficultyBlocksCount by omega)] at hpush
  rwa [show w.length - difficultyBlocksCount = 1 by omega]

/-- **However it is obtained, the window is the one at the top.** -/
theorem refreshWindow_eq (h : WindowOk s.chain.points s.diff) :
    s.refreshWindow = { s.diff with
      height := s.height
      timestamps := windowTimestamps s.chain.points
      difficulties := windowDifficulties s.chain.points } := by
  unfold refreshWindow
  by_cases hcond : (if s.diff.reset = true then 0 else s.diff.height) ≠ 0 ∧
      s.height - (if s.diff.reset = true then 0 else s.diff.height) = 1 ∧
      s.diff.timestamps.length ≥ difficultyBlocksCount
  case neg => rw [if_neg hcond]
  rw [if_pos hcond]
  obtain ⟨hcached, hone, hfull⟩ := hcond
  have hreset : s.diff.reset = false := by
    by_contra hr
    exact hcached (by simp [hr])
  rw [if_neg (by simp [hreset])] at hcached hone
  -- the cache holds the window one block lower down
  obtain ⟨hle, ht, hd⟩ : s.diff.height ≤ s.chain.points.length ∧ _ ∧ _ := by
    rcases h with h | h | h
    · exact absurd h (by simp [hreset])
    · exact absurd h hcached
    · exact h
  have hlen : s.chain.points.length = s.height := length_points s.chain
  obtain ⟨p, hp⟩ : ∃ p, s.chain.points.drop (s.height - 1) = [p] := by
    rw [← List.length_eq_one_iff, List.length_drop]
    omega
  have hheight : s.diff.height = s.height - 1 := by omega
  have hsplit : s.chain.points = s.chain.points.take s.diff.height ++ [p] := by
    rw [← hp, hheight, List.take_append_drop]
  have htimes := window_snoc Prod.fst (s.chain.points.take s.diff.height) p
    (by rw [ht] at hfull; exact hfull)
  have hworks := window_snoc Prod.snd (s.chain.points.take s.diff.height) p
    (by rw [ht] at hfull; simpa [windowTimestamps] using hfull)
  rw [← hsplit] at htimes hworks
  rw [ht, hd, hp]
  unfold windowTimestamps windowDifficulties at *
  rw [← htimes, ← hworks]
  rfl

/-- **`get_difficulty_for_next_block` is the stateless difficulty**, and leaves
the caches in order. -/
theorem getDifficulty_spec (hids : IdsOk e Q) (hplaced : Built (Placed e Q time) s.chain)
    (hversion : s.hfVersion e = versionFor e s.height) (hcache : CacheOk e Q s.diff)
    (hwindow : WindowOk s.chain.points s.diff) :
    (s.getDifficultyForNextBlock e).1 = nextWork e s.chain.points ∧
      CacheOk e Q (s.getDifficultyForNextBlock e).2 ∧
      WindowOk s.chain.points (s.getDifficultyForNextBlock e).2 := by
  have hlen : s.chain.points.length = s.height := length_points s.chain
  unfold getDifficultyForNextBlock
  split
  · rename_i hfixed
    refine ⟨?_, hcache, hwindow⟩
    have hempty : s.chain.points = [] ↔ s.height = 0 := by
      rw [← List.length_eq_zero_iff, hlen]
    simp only [nextWork, difficultyOfPoints, hempty, if_pos hfixed]
  split
  · rename_i htop
    exact ⟨hcache _ _ hplaced htop, hcache, hwindow⟩
  · rename_i hfixed htop
    have hvalue : nextDifficulty s.refreshWindow.timestamps s.refreshWindow.difficulties
        (difficultyTarget (s.hfVersion e)) = nextWork e s.chain.points := by
      rw [refreshWindow_eq hwindow, nextWork, difficultyOfPoints, if_neg hfixed, hlen, hversion]
    dsimp only
    rw [hvalue]
    refine ⟨rfl, fun time' (chain : Chain) hchain hid => ?_, ?_⟩
    · show nextWork e s.chain.points = nextWork e chain.points
      rw [points_unique hids hchain hplaced hid]
    · rw [refreshWindow_eq hwindow]
      have htake : s.chain.points.take s.height = s.chain.points := by
        rw [← hlen, List.take_length]
      unfold WindowOk
      dsimp only
      rw [htake]
      exact .inr (.inr ⟨hlen.ge, rfl, rfl⟩)

theorem cacheOk_cold (hids : IdsOk e Q) : CacheOk e Q {} := by
  intro time chain hchain hid
  have hnil : chain = [] := by
    by_contra hne
    exact tailId_ne_null hids hchain hne hid
  subst hnil
  unfold nextWork difficultyOfPoints
  split <;> rfl

/-! ## The invariant -/

/-- The latest time among the first readings of the clock. -/
def Env.latest (e : Env) : Nat → Nat
  | 0 => e.clock 0
  | n + 1 => max (e.latest n) (e.clock (n + 1))

theorem clock_le_latest (e : Env) (n : Nat) : e.clock n ≤ e.latest n := by
  cases n with
  | zero => exact le_rfl
  | succ n => exact le_max_right _ _

structure Ready (e : Env) (Q : Block → Prop) (s : Blockchain) : Prop where
  rows : TxPool.RowsOk e s.pool
  placed : Built (Placed e Q (e.latest s.reads)) s.chain
  schedule : HardFork.OnSchedule e.forks s.hf s.hfVersions s.height
  cache : CacheOk e Q s.diff
  window : WindowOk s.chain.points s.diff

theorem Ready.version (h : Ready e Q s) : s.hfVersion e = versionFor e s.height :=
  h.schedule.getCurrentVersion_eq

theorem Ready.difficulty (hids : IdsOk e Q) (h : Ready e Q s) :
    (s.getDifficultyForNextBlock e).1 = nextWork e s.chain.points ∧
      CacheOk e Q (s.getDifficultyForNextBlock e).2 ∧
      WindowOk s.chain.points (s.getDifficultyForNextBlock e).2 :=
  getDifficulty_spec hids h.placed h.version h.cache h.window

theorem Ready.versionOk (h : Ready e Q s) (i : Nat) (hi : i < s.chain.blocks.length) :
    HardFork.VersionOk e.forks s.chain.blocks[i] i := by
  have hi' : i < s.chain.length := by simpa using hi
  obtain ⟨_, _, _, _, hext⟩ := h.placed.getElem i hi'
  have hvoted := hext.voted
  rw [List.length_take_of_le hi'.le] at hvoted
  have hget : s.chain.blocks[i] = s.chain[i].bl := by simp [Chain.blocks]
  rw [hget]
  exact ⟨hvoted.1, hvoted.2⟩

theorem Placed.chain_later {n : Nat} {chain : Chain} (h : Built (Placed e Q (e.latest n)) chain) :
    Built (Placed e Q (e.latest (n + 1))) chain :=
  h.mono fun _ _ => Placed.later (le_max_left _ _)

theorem WindowOk.of_reset {points : List (Nat × Nat)} {d : DifficultyCache}
    (h : d.reset = true ∨ d.height = 0) : WindowOk points d :=
  h.elim .inl fun h => .inr (.inl h)

section Step

variable (hforks : e.forks.Standard) (hids : IdsOk e Q)

include hids in
theorem Ready.refused {bl : Block} {ps : PoolSupplement} (h : Ready e Q s) (hps : ps.Ok e)
    (hret : (s.handleBlockToMainChain e bl (e.getBlockHash bl) ps).ret = false) :
    Ready e Q (s.handleBlockToMainChain e bl (e.getBlockHash bl) ps).st := by
  have hrows : TxPool.RowsOk e (s.handleBlockToMainChain e bl (e.getBlockHash bl) ps).st.pool :=
    handleBlock_rows h.rows hps
  obtain ⟨d, _, _, _, hd, _, ho, _⟩ := handleBlock_refused hret
  rw [ho] at hrows ⊢
  obtain ⟨-, hcache, hwindow⟩ := h.difficulty hids
  refine ⟨hrows, Placed.chain_later h.placed, h.schedule, ?_, ?_⟩
  · rcases hd with rfl | rfl
    · exact h.cache
    · exact hcache
  · rcases hd with rfl | rfl
    · exact h.window
    · exact hwindow

include hforks hids in
theorem Ready.accepted {bl : Block} {ps : PoolSupplement} {fast : Bool} {st : TakeState}
    {weight : UInt64} {r : UInt64 × Bool} (h : Ready e Q s) (hq : Q bl) (hps : ps.Ok e)
    (ha : Accepts e s bl (e.getBlockHash bl) ps fast st weight r) :
    Ready e Q (acceptedOutcome e s bl st weight r).st := by
  obtain ⟨hvalue, hcache, hwindow⟩ := h.difficulty hids
  have hext := ha.extends h.rows hps
  rw [h.version, hvalue] at hext
  generalize hsb : s.written e bl weight r.1 st.taken = sb at hext
  have hbl : sb.bl = bl := by
    rw [← hsb]
    rfl
  have hplaced : Built (Placed e Q (e.latest (s.reads + 1))) (s.chain ++ [sb]) := by
    refine (Placed.chain_later h.placed).snoc ⟨hbl.symm ▸ hq, fast, _, clock_le_latest e _, ?_⟩
    rw [difficultyFor_eq_nextWork]
    exact hext
  have hschedule := h.schedule.add hforks ha.version
  rw [← hbl] at hschedule
  have hpoints : Chain.points (s.chain ++ [sb])
      = s.chain.points ++ [(sb.bl.timestamp, sb.cumulativeDifficulty)] := by
    simp [Chain.points]
  have hrows : TxPool.RowsOk e st.pool := h.rows.sublist (takeFor_ok ha.taken).1.sublist
  -- the state in which the closing steps ask for the difficulty
  let t := (s.withWritten e weight st.pool sb).updateNextCumulativeWeightLimit e
  have hlen : t.height = s.height + 1 := List.length_append
  have hversion : t.hfVersion e = versionFor e t.height := by
    rw [hlen]
    exact hschedule.getCurrentVersion_eq
  have hnext := getDifficulty_spec (s := { t with pool := t.pool.onBlockchainChange }) hids hplaced
    hversion hcache (by
      show WindowOk (Chain.points (s.chain ++ [sb])) _
      rw [hpoints]
      exact hwindow.append _)
  unfold acceptedOutcome
  rw [hsb]
  refine ⟨finishAdded_rows hrows, hplaced, ?_, hnext.2.1, hnext.2.2⟩
  show HardFork.OnSchedule e.forks _ _ t.height
  rw [hlen]
  exact hschedule

include hforks hids in
/-- **Every elementary step keeps the node in order.** -/
theorem Ready.step (h : Ready e Q s) (hs : Step e Q s s') : Ready e Q s' := by
  cases hs with
  | @handle bl ps hq hps =>
    cases hret : (s.handleBlockToMainChain e bl (e.getBlockHash bl) ps).ret with
    | true =>
      obtain ⟨fast, st, weight, r, ha, ho⟩ := accepts_of_ret hret
      rw [ho]
      exact h.accepted hforks hids hq hps ha
    | false => exact h.refused hids hps hret
  | pop hp =>
    obtain ⟨_, top, _, _, rfl⟩ := popBlock_some hp
    refine ⟨afterPop_rows h.rows top, (Placed.chain_later h.placed).dropLast, ?_, h.cache,
      .of_reset (.inl rfl)⟩
    exact h.schedule.pop (by rw [List.length_dropLast]; exact Nat.sub_le _ _)
  | supplement hps => exact { h with rows := addSupplement_rows _ h.rows }
  | pool hp => exact { h with rows := hp.rows }
  | hardFork =>
    refine { h with schedule := ?_ }
    have hre := HardFork.OnSchedule.reorganize hforks
      (by rw [length_blocks s.chain]; exact h.schedule) h.versionOk
    rw [length_blocks] at hre
    exact hre _
  | reset => exact { h with cache := h.cache, window := .of_reset (.inl rfl) }
  | clock => exact { h with placed := Placed.chain_later h.placed }
  | cleanup =>
    refine { h with cache := ?_, window := ?_ }
    · show CacheOk e Q (if s.diff.reset then _ else s.diff)
      split
      · exact h.cache
      · exact h.cache
    · show WindowOk s.chain.points (if s.diff.reset then _ else s.diff)
      split
      · exact .of_reset (.inr rfl)
      · exact h.window
  | file | forget | weights => exact { h with }

include hforks hids in
theorem Ready.steps (h : Ready e Q s) (hs : Steps e Q s s') : Ready e Q s' := by
  induction hs with
  | refl => exact h
  | tail _ hstep ih => exact ih.step hforks hids hstep

end Step

/-- A node that has just been started on an empty database. -/
structure Started (e : Env) (s : Blockchain) : Prop where
  empty : s.chain = []
  noAlt : s.altBlocks = []
  rows : TxPool.RowsOk e s.pool
  fork : s.hf.currentForkIndex = 0
  cold : s.diff = {}

theorem Started.ready (hids : IdsOk e Q) (h : Started e s) : Ready e Q s where
  rows := h.rows
  placed := h.empty ▸ Built.nil
  schedule := by
    have hheight : s.height = 0 := by rw [Blockchain.height, h.empty, List.length_nil]
    rw [hheight]
    exact ⟨by rw [h.fork, e.forks.indexAt_zero], fun i hi => absurd hi (by omega)⟩
  cache := h.cold ▸ cacheOk_cold hids
  window := h.cold ▸ .of_reset (.inl rfl)

theorem Started.known (h : Started e s) : Known Q s :=
  ⟨by simp [h.empty], by simp [h.noAlt]⟩

end Oxyra
