import Oxyra.Core.AltChain

/-!
# What `handle_block_to_main_chain` can do

One inversion for each half of the function, from which everything else about
it is derived.

* `HeaderOk` collects the checks made before a transaction is touched. If they
  do not all pass the call changes nothing but the clock count and the
  difficulty caches (`handleBlock_header`).
* `Accepts` adds what has been established when the block is written, and
  `handleBlock_ret_iff` says that this is exactly acceptance.
* A refused block leaves the chain, the alternative blocks and the hard-fork
  object alone (`handleBlock_refused`).
-/

namespace Oxyra

open Blockchain

variable {e : Env} {s : Blockchain} {bl : Block} {id : Hash} {ps : PoolSupplement}

/-- The state in which the transactions are looked at: the clock has been read
and the difficulty cached. -/
def Blockchain.afterHeader (e : Env) (s : Blockchain) : Blockchain :=
  { s with reads := s.reads + 1, diff := (s.getDifficultyForNextBlock e).2 }

/-- The checks of `handle_block_to_main_chain` up to the first transaction;
`fast` is `fast_check`. -/
structure HeaderOk (e : Env) (s : Blockchain) (bl : Block) (id : Hash) (ps : PoolSupplement)
    (fast : Bool) : Prop where
  prev : bl.prevId = s.tailId e
  version : s.hf.check e.forks bl = true
  timestamp : checkBlockTimestamp (e.clock (s.reads + 1)) s.chain bl = true
  difficulty : (s.getDifficultyForNextBlock e).1 ≠ 0
  precomputed : checkPrecomputedHash e s.height id = some fast
  pow : fast = true ∨ checkPow e s.chain bl (s.getDifficultyForNextBlock e).1 = true
  coinbase : prevalidateMinerTransaction bl s.height (s.hfVersion e) = true
  supplement : fast = true ∨ verSupplement e ps (s.hfVersion e) = true

/-- The exit at a zero difficulty, which sets no flag. -/
structure Overhead (e : Env) (s : Blockchain) (bl : Block) : Prop where
  prev : bl.prevId = s.tailId e
  version : s.hf.check e.forks bl = true
  timestamp : checkBlockTimestamp (e.clock (s.reads + 1)) s.chain bl = true
  zero : (s.getDifficultyForNextBlock e).1 = 0

/-- The supplement the transaction loop starts with. -/
def PoolSupplement.marked (ps : PoolSupplement) (fast : Bool) (hfVersion : Nat) : PoolSupplement :=
  if fast then ps else { ps with nicVerifiedHfVersion := hfVersion }

@[simp] theorem PoolSupplement.marked_txs (fast : Bool) (v : Nat) :
    (ps.marked fast v).txsByTxid = ps.txsByTxid := by
  cases fast <;> rfl

/-! ## The header -/

theorem handleBlock_eq (e : Env) (s : Blockchain) (bl : Block) (id : Hash)
    (ps : PoolSupplement) :
    s.handleBlockToMainChain e bl id ps =
      if bl.prevId ≠ s.tailId e then s.ticked.refuse ps false
      else if !s.hf.check e.forks bl then s.ticked.refuse ps false
      else if !checkBlockTimestamp (e.clock (s.reads + 1)) s.chain bl then s.ticked.refuse ps false
      else if (s.getDifficultyForNextBlock e).1 = 0 then ⟨false, {}, s.afterHeader e, ps⟩
      else
        match checkPrecomputedHash e s.height id with
        | none => (s.afterHeader e).refuse ps false
        | some fast =>
          if !fast && !checkPow e s.chain bl (s.getDifficultyForNextBlock e).1 then
            (s.afterHeader e).refuse ps true
          else if e.checkpoints.isInCheckpointZone s.height &&
              !(e.checkpoints.checkBlock s.height id).1 then (s.afterHeader e).refuse ps false
          else if !prevalidateMinerTransaction bl s.height (s.hfVersion e) then
            (s.afterHeader e).refuse ps false
          else if !fast && !verSupplement e ps (s.hfVersion e) then
            (s.afterHeader e).refuse ps false
          else
            (s.afterHeader e).acceptBody e bl id (ps.marked fast (s.hfVersion e))
              (s.getDifficultyForNextBlock e).1 fast := rfl

/-- The difficulty caches of a call: untouched, or brought up to date. -/
def Blockchain.CachesFrom (e : Env) (s : Blockchain) (d : DifficultyCache) : Prop :=
  d = s.diff ∨ d = (s.getDifficultyForNextBlock e).2

/-- A return before any transaction is touched: nothing but the clock and the
difficulty caches has changed, and the flag is set unless the difficulty was
zero. -/
def RefusedEarly (e : Env) (s : Blockchain) (bl : Block) (ps : PoolSupplement) (o : Outcome) :
    Prop :=
  ∃ d bvc, s.CachesFrom e d ∧
    o = ⟨false, bvc, { s with reads := s.reads + 1, diff := d }, ps⟩ ∧
    bvc.addedToMainChain = false ∧ (bvc.verifivationFailed = false ↔ Overhead e s bl)

theorem refusedEarly_ticked (badPow : Bool) (ho : ¬ Overhead e s bl) :
    RefusedEarly e s bl ps (s.ticked.refuse ps badPow) :=
  ⟨s.diff, _, .inl rfl, rfl, rfl, by simpa using ho⟩

theorem refusedEarly_afterHeader (badPow : Bool) (ho : ¬ Overhead e s bl) :
    RefusedEarly e s bl ps ((s.afterHeader e).refuse ps badPow) :=
  ⟨_, _, .inr rfl, rfl, rfl, by simpa using ho⟩

/-- The header checks decide between two outcomes: on to the transactions, or
an early return. -/
theorem handleBlock_header (e : Env) (s : Blockchain) (bl : Block) (id : Hash)
    (ps : PoolSupplement) :
    (∃ fast, HeaderOk e s bl id ps fast ∧
      s.handleBlockToMainChain e bl id ps =
        (s.afterHeader e).acceptBody e bl id (ps.marked fast (s.hfVersion e))
          (s.getDifficultyForNextBlock e).1 fast) ∨
    ((∀ fast, ¬ HeaderOk e s bl id ps fast) ∧
      RefusedEarly e s bl ps (s.handleBlockToMainChain e bl id ps)) := by
  rw [handleBlock_eq]
  by_cases hprev : bl.prevId = s.tailId e
  case neg =>
    rw [if_pos hprev]
    exact .inr ⟨fun _ h => hprev h.prev, refusedEarly_ticked _ fun h => hprev h.prev⟩
  rw [if_neg (fun h => h hprev)]
  by_cases hver : s.hf.check e.forks bl = true
  case neg =>
    rw [if_pos (by simpa using hver)]
    exact .inr ⟨fun _ h => hver h.version, refusedEarly_ticked _ fun h => hver h.version⟩
  rw [if_neg (by simp [hver])]
  by_cases hts : checkBlockTimestamp (e.clock (s.reads + 1)) s.chain bl = true
  case neg =>
    rw [if_pos (by simpa using hts)]
    exact .inr ⟨fun _ h => hts h.timestamp, refusedEarly_ticked _ fun h => hts h.timestamp⟩
  rw [if_neg (by simp [hts])]
  by_cases hd : (s.getDifficultyForNextBlock e).1 = 0
  · rw [if_pos hd]
    exact .inr ⟨fun _ h => h.difficulty hd, _, _, .inr rfl, rfl, rfl,
      by simp [Overhead.mk hprev hver hts hd]⟩
  have hno : ¬ Overhead e s bl := fun h => hd h.zero
  rw [if_neg hd]
  cases hpre : checkPrecomputedHash e s.height id with
  | none =>
    exact .inr ⟨fun _ h => absurd (h.precomputed.symm.trans hpre) (by simp),
      refusedEarly_afterHeader _ hno⟩
  | some fast =>
    -- from here on `fast` is fixed by the precomputed hashes
    have hfast : ∀ {fast'}, HeaderOk e s bl id ps fast' → fast' = fast := fun h =>
      Option.some.inj (h.precomputed.symm.trans hpre)
    dsimp only
    by_cases hpow : fast = true ∨ checkPow e s.chain bl (s.getDifficultyForNextBlock e).1 = true
    case neg =>
      rw [if_pos (by simpa using hpow)]
      exact .inr ⟨fun _ h => hpow (hfast h ▸ h.pow), refusedEarly_afterHeader _ hno⟩
    rw [if_neg (by rcases hpow with h | h <;> simp [h]),
      if_neg (by simp [Checkpoints.isInCheckpointZone])]
    by_cases hcb : prevalidateMinerTransaction bl s.height (s.hfVersion e) = true
    case neg =>
      rw [if_pos (by simpa using hcb)]
      exact .inr ⟨fun _ h => hcb h.coinbase, refusedEarly_afterHeader _ hno⟩
    rw [if_neg (by simp [hcb])]
    by_cases hsup : fast = true ∨ verSupplement e ps (s.hfVersion e) = true
    case neg =>
      rw [if_pos (by simpa using hsup)]
      exact .inr ⟨fun _ h => hsup (hfast h ▸ h.supplement), refusedEarly_afterHeader _ hno⟩
    rw [if_neg (by rcases hsup with h | h <;> simp [h])]
    exact .inl ⟨fast, ⟨hprev, hver, hts, hd, hpre, hpow, hcb, hsup⟩, rfl⟩

/-! ## The transactions and the coinbase -/

def Blockchain.inputsOk (e : Env) (s : Blockchain) (fast : Bool) (tx : Transaction) : Bool :=
  fast || (checkTxInputs e (e.clock (s.reads + 1)) s.chain (s.hfVersion e) tx).isSome

/-- The transaction loop, as the call that starts in `s` runs it. -/
def Blockchain.takeFor (e : Env) (s : Blockchain) (bl : Block) (ps : PoolSupplement)
    (fast : Bool) : Except (TakeError × TakeState) TakeState :=
  takeBlockTxs e s.chain (s.inputsOk e fast) bl.txHashes
    { pool := s.pool, ps := ps.marked fast (s.hfVersion e) }

/-- The coinbase check, as the call that starts in `s` makes it. -/
def Blockchain.rewardFor (e : Env) (s : Blockchain) (bl : Block) (weight : UInt64)
    (taken : List TakenTx) : Option (UInt64 × Bool) :=
  validateMinerTransaction bl (s.penaltyMedian e) weight (feeSummary taken)
    s.chain.topAlreadyGeneratedCoins (s.hfVersion e)

def Blockchain.written (e : Env) (s : Blockchain) (bl : Block) (weight reward : UInt64)
    (taken : List TakenTx) : StoredBlock :=
  s.storedBlock bl (s.getDifficultyForNextBlock e).1 weight
    ((s.afterHeader e).getNextLongTermBlockWeight e weight).1 reward taken

/-- Everything established when a block is written. -/
structure Accepts (e : Env) (s : Blockchain) (bl : Block) (id : Hash) (ps : PoolSupplement)
    (fast : Bool) (st : TakeState) (weight : UInt64) (r : UInt64 × Bool) : Prop
    extends HeaderOk e s bl id ps fast where
  taken : s.takeFor e bl ps fast = .ok st
  weighed : cumulativeBlockWeight e s.height bl st.taken = some weight
  reward : s.rewardFor e bl weight st.taken = some r
  storable : s.chain.canAdd e (s.written e bl weight r.1 st.taken) = true

/-- The state once the block is in the database, before the closing steps. -/
def Blockchain.withWritten (e : Env) (s : Blockchain) (weight : UInt64) (pool : TxPool)
    (sb : StoredBlock) : Blockchain :=
  { s.afterHeader e with
    weights := ((s.afterHeader e).getNextLongTermBlockWeight e weight).2
    chain := s.chain ++ [sb]
    pool := pool
    hf := (s.hf.add e.forks s.hfVersions sb.bl s.height).1
    hfVersions := (s.hf.add e.forks s.hfVersions sb.bl s.height).2 }

def acceptedOutcome (e : Env) (s : Blockchain) (bl : Block) (st : TakeState) (weight : UInt64)
    (r : UInt64 × Bool) : Outcome :=
  ⟨true, { addedToMainChain := true, partialBlockReward := r.2 },
    (s.withWritten e weight st.pool (s.written e bl weight r.1 st.taken)).finishAdded e
      (s.hfVersion e), st.ps⟩

/-- The members the medians are cached in may change, the limit may not. -/
def WeightState.SameLimit (w w' : WeightState) : Prop :=
  w'.limit = w.limit ∧ w'.median = w.median

theorem getNextLongTermBlockWeight_sameLimit (e : Env) (s : Blockchain) (w : UInt64) :
    s.weights.SameLimit (s.getNextLongTermBlockWeight e w).2 := by
  have hmedian : ∀ count, s.weights.SameLimit (s.getLongTermBlockWeightMedian e count).2 := by
    intro count
    unfold getLongTermBlockWeightMedian
    dsimp only
    split
    · exact ⟨rfl, rfl⟩
    · split <;> exact ⟨rfl, rfl⟩
  unfold getNextLongTermBlockWeight
  dsimp only
  split
  · exact ⟨rfl, rfl⟩
  · exact hmedian _

/-- A refusal that hands the transactions taken so far back to the pool. -/
def RefusedReturning (e : Env) (s : Blockchain) (st : TakeState) (o : Outcome) : Prop :=
  ∃ invalid weights bvc, s.weights.SameLimit weights ∧
    let t : Blockchain := { s.afterHeader e with invalidBlocks := invalid, weights := weights }
    o = ⟨false, bvc,
      { t with pool := returnTxsToPool e (t.poolContext e) (s.hfVersion e) st.pool st.taken },
      st.ps⟩ ∧
    bvc.addedToMainChain = false ∧ bvc.verifivationFailed = true

/-- The bare `goto leave`: the transactions are taken, no flag is set. -/
def bareOutcome (e : Env) (s : Blockchain) (st : TakeState) : Outcome :=
  ⟨false, {}, { s.afterHeader e with pool := st.pool }, st.ps⟩

theorem writeBlock_eq (bl : Block) (st : TakeState) (weight : UInt64) (r : UInt64 × Bool) :
    (s.afterHeader e).writeBlock e bl (s.getDifficultyForNextBlock e).1 st weight r =
      if s.chain.canAdd e (s.written e bl weight r.1 st.taken) then
        acceptedOutcome e s bl st weight r
      else
        ({ s.afterHeader e with
            weights := ((s.afterHeader e).getNextLongTermBlockWeight e weight).2 } :
          Blockchain).refuseReturning e st false r.2 := by
  have hadd : ({ s.afterHeader e with
        weights := ((s.afterHeader e).getNextLongTermBlockWeight e weight).2 } :
      Blockchain).addStored e st.pool (s.written e bl weight r.1 st.taken)
      = if s.chain.canAdd e (s.written e bl weight r.1 st.taken) then
          some (s.withWritten e weight st.pool (s.written e bl weight r.1 st.taken)) else none := by
    unfold addStored Chain.addBlock
    show Option.map _ (if s.chain.canAdd e (s.written e bl weight r.1 st.taken) = true
      then _ else _) = _
    split <;> rfl
  by_cases hcan : s.chain.canAdd e (s.written e bl weight r.1 st.taken) = true
  · rw [if_pos hcan] at hadd ⊢
    dsimp only [writeBlock]
    split
    case h_1 hnone => cases hnone.symm.trans hadd
    case h_2 hsome =>
      cases hsome.symm.trans hadd
      rfl
  · rw [if_neg hcan] at hadd ⊢
    dsimp only [writeBlock]
    split
    case h_1 => rfl
    case h_2 hsome => cases hsome.symm.trans hadd

theorem acceptWithTxs_eq (e : Env) (s : Blockchain) (bl : Block) (st : TakeState) :
    (s.afterHeader e).acceptWithTxs e bl (s.getDifficultyForNextBlock e).1 st =
      match cumulativeBlockWeight e s.height bl st.taken with
      | none => bareOutcome e s st
      | some weight =>
        match s.rewardFor e bl weight st.taken with
        | none => (s.afterHeader e).refuseReturning e st false false
        | some r =>
          (s.afterHeader e).writeBlock e bl (s.getDifficultyForNextBlock e).1 st weight r :=
  rfl

/-- Whether all went well with the transactions but the block is not written:
the coinbase or the database says no. -/
def WriteFails (e : Env) (s : Blockchain) (bl : Block) (st : TakeState) : Prop :=
  ∃ weight, cumulativeBlockWeight e s.height bl st.taken = some weight ∧
    ∀ r, s.rewardFor e bl weight st.taken = some r →
      s.chain.canAdd e (s.written e bl weight r.1 st.taken) = false

/-- A transaction state with all of a block's transactions in hand ends in one
of three ways: the block is written, the bare exit, or they go back. -/
theorem acceptWithTxs_cases (e : Env) (s : Blockchain) (bl : Block) (st : TakeState) :
    (∃ weight r, cumulativeBlockWeight e s.height bl st.taken = some weight ∧
      s.rewardFor e bl weight st.taken = some r ∧
      s.chain.canAdd e (s.written e bl weight r.1 st.taken) = true ∧
      (s.afterHeader e).acceptWithTxs e bl (s.getDifficultyForNextBlock e).1 st
        = acceptedOutcome e s bl st weight r) ∨
    (cumulativeBlockWeight e s.height bl st.taken = none ∧
      (s.afterHeader e).acceptWithTxs e bl (s.getDifficultyForNextBlock e).1 st
        = bareOutcome e s st) ∨
    (WriteFails e s bl st ∧
      RefusedReturning e s st
        ((s.afterHeader e).acceptWithTxs e bl (s.getDifficultyForNextBlock e).1 st)) := by
  rw [acceptWithTxs_eq]
  cases hw : cumulativeBlockWeight e s.height bl st.taken with
  | none => exact .inr (.inl ⟨rfl, rfl⟩)
  | some weight =>
    dsimp only
    cases hr : s.rewardFor e bl weight st.taken with
    | none =>
      exact .inr (.inr ⟨⟨weight, hw, fun r h => absurd (hr.symm.trans h) (by simp)⟩,
        s.invalidBlocks, s.weights, _, ⟨rfl, rfl⟩, rfl, rfl, rfl⟩)
    | some r =>
      dsimp only
      rw [writeBlock_eq]
      by_cases hcan : s.chain.canAdd e (s.written e bl weight r.1 st.taken) = true
      · rw [if_pos hcan]
        exact .inl ⟨weight, r, rfl, hr, hcan, rfl⟩
      · rw [if_neg hcan]
        refine .inr (.inr ⟨⟨weight, hw, fun r h => ?_⟩, s.invalidBlocks, _, _,
          getNextLongTermBlockWeight_sameLimit e (s.afterHeader e) weight, rfl, rfl, rfl⟩)
        obtain rfl := Option.some.inj (hr.symm.trans h)
        simpa using hcan

inductive Exit (e : Env) (s : Blockchain) (bl : Block) (id : Hash) (ps : PoolSupplement) :
    Outcome → Prop
  | early {o : Outcome} (header : ∀ fast, ¬ HeaderOk e s bl id ps fast)
      (refused : RefusedEarly e s bl ps o) : Exit e s bl id ps o
  | returned {o : Outcome} {fast : Bool} {st : TakeState} (header : HeaderOk e s bl id ps fast)
      (why : (∃ err, s.takeFor e bl ps fast = .error (err, st)) ∨
        s.takeFor e bl ps fast = .ok st ∧ WriteFails e s bl st)
      (refused : RefusedReturning e s st o) : Exit e s bl id ps o
  | bare {fast : Bool} {st : TakeState} (header : HeaderOk e s bl id ps fast)
      (taken : s.takeFor e bl ps fast = .ok st)
      (unweighed : cumulativeBlockWeight e s.height bl st.taken = none) :
      Exit e s bl id ps (bareOutcome e s st)
  | accepted {fast : Bool} {st : TakeState} {weight : UInt64} {r : UInt64 × Bool}
      (h : Accepts e s bl id ps fast st weight r) :
      Exit e s bl id ps (acceptedOutcome e s bl st weight r)

/-- **Every call ends in one of the four ways.** -/
theorem handleBlock_exit (e : Env) (s : Blockchain) (bl : Block) (id : Hash)
    (ps : PoolSupplement) : Exit e s bl id ps (s.handleBlockToMainChain e bl id ps) := by
  rcases handleBlock_header e s bl id ps with ⟨fast, hh, heq⟩ | ⟨hn, hr⟩
  case inr => exact .early hn hr
  rw [heq]
  dsimp only [acceptBody]
  split
  case h_1 ht =>
    exact .returned hh (.inl ⟨_, ht⟩) ⟨s.invalidBlocks, s.weights, _, ⟨rfl, rfl⟩, rfl, rfl, rfl⟩
  case h_2 ht =>
    exact .returned hh (.inl ⟨_, ht⟩) ⟨s.invalidBlocks, s.weights, _, ⟨rfl, rfl⟩, rfl, rfl, rfl⟩
  case h_3 ht =>
    exact .returned hh (.inl ⟨_, ht⟩)
      ⟨id :: s.invalidBlocks, s.weights, _, ⟨rfl, rfl⟩, rfl, rfl, rfl⟩
  case h_4 st ht =>
    rcases acceptWithTxs_cases e s bl st with
      ⟨weight, r, hw, hr, hcan, ho⟩ | ⟨hw, ho⟩ | ⟨hw, ho⟩
    · rw [ho]
      exact .accepted { hh with taken := ht, weighed := hw, reward := hr, storable := hcan }
    · rw [ho]
      exact .bare hh ht hw
    · exact .returned hh (.inr ⟨ht, hw⟩) ho

/-! ## Consequences -/

theorem HeaderOk.fast_unique {fast fast' : Bool} (h : HeaderOk e s bl id ps fast)
    (h' : HeaderOk e s bl id ps fast') : fast' = fast :=
  Option.some.inj (h'.precomputed.symm.trans h.precomputed)

/-- **Acceptance, computed.** Where every check passes the call accepts, and the
outcome is fixed by what the checks returned. -/
theorem handleBlock_of_accepts {fast : Bool} {st : TakeState} {weight : UInt64}
    {r : UInt64 × Bool} (h : Accepts e s bl id ps fast st weight r) :
    s.handleBlockToMainChain e bl id ps = acceptedOutcome e s bl st weight r := by
  have hexit := handleBlock_exit e s bl id ps
  generalize s.handleBlockToMainChain e bl id ps = o at hexit
  cases hexit with
  | early hn _ => exact absurd h.toHeaderOk (hn fast)
  | returned hh why _ =>
    obtain rfl := h.fast_unique hh
    rcases why with ⟨err, ht⟩ | ⟨ht, weight', hw, hfail⟩
    · exact absurd (h.taken.symm.trans ht) (by simp)
    · obtain rfl := Except.ok.inj (h.taken.symm.trans ht)
      obtain rfl := Option.some.inj (h.weighed.symm.trans hw)
      exact absurd h.storable (by simp [hfail r h.reward])
  | bare hh ht hw =>
    obtain rfl := h.fast_unique hh
    obtain rfl := Except.ok.inj (h.taken.symm.trans ht)
    exact absurd (h.weighed.symm.trans hw) (by simp)
  | accepted h' =>
    obtain rfl := h.fast_unique h'.toHeaderOk
    obtain rfl := Except.ok.inj (h.taken.symm.trans h'.taken)
    obtain rfl := Option.some.inj (h.weighed.symm.trans h'.weighed)
    obtain rfl := Option.some.inj (h.reward.symm.trans h'.reward)
    rfl

/-- **Acceptance, inverted.** -/
theorem accepts_of_ret (h : (s.handleBlockToMainChain e bl id ps).ret = true) :
    ∃ fast st weight r, Accepts e s bl id ps fast st weight r ∧
      s.handleBlockToMainChain e bl id ps = acceptedOutcome e s bl st weight r := by
  have hexit := handleBlock_exit e s bl id ps
  generalize s.handleBlockToMainChain e bl id ps = o at hexit h
  cases hexit with
  | early _ hr =>
    obtain ⟨d, bvc, _, rfl, _⟩ := hr
    exact absurd h (by simp)
  | returned _ _ hr =>
    obtain ⟨inv, w, bvc, _, rfl, _⟩ := hr
    exact absurd h (by simp)
  | bare _ _ _ => exact absurd h (by simp [bareOutcome])
  | accepted h' => exact ⟨_, _, _, _, h', rfl⟩

theorem handleBlock_ret_iff :
    (s.handleBlockToMainChain e bl id ps).ret = true ↔
      ∃ fast st weight r, Accepts e s bl id ps fast st weight r := by
  constructor
  · intro h
    obtain ⟨fast, st, weight, r, ha, _⟩ := accepts_of_ret h
    exact ⟨fast, st, weight, r, ha⟩
  · rintro ⟨fast, st, weight, r, ha⟩
    rw [handleBlock_of_accepts ha]
    rfl

/-- **A refused block leaves no trace on the chain.** Only the clock count, the
caches, the list of invalid blocks and the pool can have changed. -/
theorem handleBlock_refused (h : (s.handleBlockToMainChain e bl id ps).ret = false) :
    ∃ diff invalid weights pool, s.CachesFrom e diff ∧ s.weights.SameLimit weights ∧
      (s.handleBlockToMainChain e bl id ps).st =
        { s with reads := s.reads + 1, diff := diff, invalidBlocks := invalid,
                 weights := weights, pool := pool } ∧
      (s.handleBlockToMainChain e bl id ps).bvc.addedToMainChain = false := by
  have hexit := handleBlock_exit e s bl id ps
  generalize s.handleBlockToMainChain e bl id ps = o at hexit h
  cases hexit with
  | early _ hr =>
    obtain ⟨d, bvc, hd, rfl, hadd, _⟩ := hr
    exact ⟨d, s.invalidBlocks, s.weights, s.pool, hd, ⟨rfl, rfl⟩, rfl, hadd⟩
  | returned _ _ hr =>
    obtain ⟨inv, w, bvc, hlim, rfl, hadd, _⟩ := hr
    exact ⟨_, inv, w, _, .inr rfl, hlim, rfl, hadd⟩
  | bare _ _ _ => exact ⟨_, s.invalidBlocks, s.weights, _, .inr rfl, ⟨rfl, rfl⟩, rfl, rfl⟩
  | accepted h' => exact absurd h (by simp [acceptedOutcome])

end Oxyra
