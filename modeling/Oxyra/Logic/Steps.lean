import Oxyra.Logic.Extends

/-!
# What a run is made of

Every call of `add_new_block`, with all the reorganising it may set off, is a
sequence of a few elementary steps (`Step`): the acceptance path, popping, the
filing and forgetting of alternative blocks, and bookkeeping. An invariant that
each of them keeps holds in every state of every run (`Run.invariant`).

The steps carry a predicate `Q` that the submitted blocks satisfy. Blocks that
a reorganisation moves around were submitted once, so `Q` holds of all blocks a
node knows (`Known`), and no step introduces another.
-/

namespace Oxyra

open Blockchain

variable {e : Env} {Q : Block → Prop} {s s' : Blockchain}

/-- A pool that the rest of the node may put in place between two calls: its
rows are in order and none is on the chain. -/
structure PoolFits (e : Env) (chain : Chain) (p : TxPool) : Prop where
  rows : TxPool.RowsOk e p
  fresh : ∀ id, p.haveTx id = true → chain.txExists e id = false

/-- The checks an alternative block has passed when it is filed. -/
structure Filed (e : Env) (s : Blockchain) (b : Block) (altChain : List AltBlock) : Prop where
  named : getBlockHeight b ≠ 0
  allowed : e.checkpoints.isAlternativeBlockAllowed s.height (getBlockHeight b) = true
  version : s.hf.checkForHeight e.forks b (getBlockHeight b) = true
  known : (s.getAltBlock b.prevId).isSome = true ∨ s.chain.blockExists e b.prevId = true
  built : ∃ timestamps, s.buildAltChain e b.prevId = some (altChain, timestamps) ∧
    checkTimestampMedian timestamps b = true
  difficulty : s.getNextDifficultyForAlternativeChain e altChain
    (s.parentHeight e b.prevId altChain + 1) ≠ 0
  pow : checkHash (s.altProofOfWork e altChain b (s.parentHeight e b.prevId altChain + 1))
    (s.getNextDifficultyForAlternativeChain e altChain
      (s.parentHeight e b.prevId altChain + 1)) = true
  coinbase : prevalidateMinerTransaction b (s.parentHeight e b.prevId altChain + 1)
    (e.forks.getIdealVersion (getBlockHeight b)) = true
  new : s.getAltBlock (e.getBlockHash b) = none

def Blockchain.filedRow (e : Env) (s : Blockchain) (b : Block) (altChain : List AltBlock)
    (weight : UInt64) : AltBlock :=
  let prevHeight := s.parentHeight e b.prevId altChain
  { s.altBlockOf b (e.getBlockHash b) altChain prevHeight
      (s.getNextDifficultyForAlternativeChain e altChain (prevHeight + 1)) with
    cumulativeWeight := weight }

/-- The elementary steps of a node. -/
inductive Step (e : Env) (Q : Block → Prop) : Blockchain → Blockchain → Prop
  | handle {s : Blockchain} {bl : Block} {ps : PoolSupplement} (hq : Q bl) (hps : ps.Ok e) :
      Step e Q s (s.handleBlockToMainChain e bl (e.getBlockHash bl) ps).st
  | pop {s s' : Blockchain} {b : Block} (h : s.popBlockFromBlockchain e = some (b, s')) :
      Step e Q s s'
  | supplement {s : Blockchain} {version : Nat} {txs : List (Hash × Transaction)}
      (hps : ∀ r ∈ txs, r.1 = e.getTransactionHash r.2) :
      Step e Q s { s with
        pool := (addSupplement e (s.poolContext e) s.chain version txs s.pool).2 }
  | file {s : Blockchain} {b : Block} {altChain : List AltBlock} {weight : UInt64} (hq : Q b)
      (h : Filed e s b altChain) :
      Step e Q s { s with altBlocks := s.filedRow e b altChain weight :: s.altBlocks }
  | forget {s : Blockchain} (as : List AltBlock) : Step e Q s (s.removeAltBlocks e as)
  | hardFork {s : Blockchain} {height : Nat} : Step e Q s (s.reorganizeHardFork e height)
  | weights {s : Blockchain} : Step e Q s (s.updateNextCumulativeWeightLimit e)
  | reset {s : Blockchain} : Step e Q s s.resetDifficultyWindow
  | clock {s : Blockchain} : Step e Q s s.ticked
  | cleanup {s : Blockchain} : Step e Q s s.batchStop
  | pool {s : Blockchain} {p : TxPool} (h : PoolFits e s.chain p) :
      Step e Q s { s with pool := p }

abbrev Steps (e : Env) (Q : Block → Prop) : Blockchain → Blockchain → Prop :=
  Relation.ReflTransGen (Step e Q)

/-- Every block the node holds satisfies `Q`. -/
structure Known (Q : Block → Prop) (s : Blockchain) : Prop where
  chain : ∀ sb ∈ s.chain, Q sb.bl
  alt : ∀ a ∈ s.altBlocks, Q a.bl

/-! ## Single calls -/

theorem handleBlock_chain (e : Env) (s : Blockchain) (bl : Block) (id : Hash)
    (ps : PoolSupplement) :
    (s.handleBlockToMainChain e bl id ps).st.altBlocks = s.altBlocks ∧
    ((s.handleBlockToMainChain e bl id ps).st.chain = s.chain ∨
      ∃ sb, sb.bl = bl ∧ (s.handleBlockToMainChain e bl id ps).st.chain = s.chain ++ [sb]) := by
  cases hret : (s.handleBlockToMainChain e bl id ps).ret with
  | true =>
    obtain ⟨fast, st, weight, r, _, ho⟩ := accepts_of_ret hret
    rw [ho]
    exact ⟨rfl, .inr ⟨_, rfl, rfl⟩⟩
  | false =>
    obtain ⟨_, _, _, _, _, _, ho, _⟩ := handleBlock_refused hret
    rw [ho]
    exact ⟨rfl, .inl rfl⟩

theorem popBlock_some {b : Block} (h : s.popBlockFromBlockchain e = some (b, s')) :
    1 < s.height ∧ ∃ top, s.chain = s.chain.dropLast ++ [top] ∧ b = top.bl ∧
      s' = s.afterPop e top := by
  unfold popBlockFromBlockchain at h
  split at h
  · exact absurd h (by simp)
  · obtain ⟨top, htop, heq⟩ := Option.map_eq_some_iff.mp h
    obtain ⟨rfl, rfl⟩ := Prod.mk.inj heq
    exact ⟨by omega, top, (List.dropLast_append_getLast? top htop).symm, rfl, rfl⟩

theorem mem_removeAltBlocks {as : List AltBlock} {a : AltBlock}
    (h : a ∈ (s.removeAltBlocks e as).altBlocks) : a ∈ s.altBlocks := by
  have hsub : ∀ (l : List AltBlock) t, a ∈ l.foldl
      (fun t a => Keyed.erase AltBlock.id t (e.getBlockHash a.bl)) t → a ∈ t := by
    intro l
    induction l with
    | nil => exact fun t ht => ht
    | cons b l ih => exact fun t ht => (Keyed.mem_erase_iff.mp (ih _ ht)).1
  exact hsub as _ h

theorem Known.step (h : Known Q s) (hs : Step e Q s s') : Known Q s' := by
  cases hs with
  | @handle bl ps hq _ =>
    obtain ⟨halt, hchain⟩ := handleBlock_chain e s bl (e.getBlockHash bl) ps
    refine ⟨?_, by rw [halt]; exact h.alt⟩
    rcases hchain with hc | ⟨sb, rfl, hc⟩
    · rw [hc]
      exact h.chain
    · rw [hc]
      simpa [or_imp, forall_and] using ⟨h.chain, hq⟩
  | pop hp =>
    obtain ⟨_, top, _, _, rfl⟩ := popBlock_some hp
    exact ⟨fun sb hsb => h.chain sb (List.dropLast_subset _ hsb), h.alt⟩
  | file hq _ =>
    refine ⟨h.chain, fun a ha => ?_⟩
    rcases List.mem_cons.mp ha with rfl | ha
    · exact hq
    · exact h.alt a ha
  | forget as => exact ⟨h.chain, fun a ha => h.alt a (mem_removeAltBlocks ha)⟩
  | supplement | hardFork | weights | reset | clock | cleanup | pool =>
    exact ⟨h.chain, h.alt⟩

theorem Known.steps (h : Known Q s) (hs : Steps e Q s s') : Known Q s' := by
  induction hs with
  | refl => exact h
  | tail _ hstep ih => exact ih.step hstep

theorem mem_altChainOf {prevId : Hash} {a : AltBlock} (h : a ∈ s.altChainOf prevId) :
    a ∈ s.altBlocks := by
  have hcollect : ∀ fuel id (acc : List AltBlock), (∀ a ∈ acc, a ∈ s.altBlocks) →
      a ∈ collectAltChain s.altBlocks fuel id acc → a ∈ s.altBlocks := by
    intro fuel
    induction fuel with
    | zero => exact fun _ acc hacc ha => hacc a ha
    | succ fuel ih =>
      intro id acc hacc ha
      unfold collectAltChain at ha
      cases hget : Keyed.find? AltBlock.id s.altBlocks id with
      | none =>
        rw [hget] at ha
        exact hacc a ha
      | some b =>
        rw [hget] at ha
        refine ih _ _ (fun a ha => ?_) ha
        rcases List.mem_cons.mp ha with rfl | ha
        · exact Keyed.mem_of_find? hget
        · exact hacc a ha
  exact hcollect _ _ [] (by simp) h

theorem buildAltChain_some {prevId : Hash} {altChain : List AltBlock} {timestamps : List Nat}
    (h : s.buildAltChain e prevId = some (altChain, timestamps)) :
    altChain = s.altChainOf prevId := by
  unfold buildAltChain at h
  dsimp only at h
  split at h
  · rename_i hnil
    obtain ⟨_, _, heq⟩ := Option.map_eq_some_iff.mp h
    rw [← (Prod.mk.inj heq).1, hnil]
  · rename_i front rest hcons
    split at h
    · exact absurd h (by simp)
    · split at h
      · exact absurd h (by simp)
      · split at h
        · exact absurd h (by simp)
        · rw [← (Prod.mk.inj (Option.some.inj h)).1, hcons]

/-! ## Reorganisations -/

theorem disconnectTo_steps (target : Hash) (fuel : Nat) (s : Blockchain)
    (disconnected : List Block) (hk : Known Q s) (hd : ∀ b ∈ disconnected, Q b) :
    Steps e Q s (disconnectTo e target fuel s disconnected).2.2 ∧
      ∀ b ∈ (disconnectTo e target fuel s disconnected).2.1, Q b := by
  induction fuel generalizing s disconnected with
  | zero => exact ⟨.refl, hd⟩
  | succ fuel ih =>
    unfold disconnectTo
    split
    · exact ⟨.refl, hd⟩
    · cases hp : s.popBlockFromBlockchain e with
      | none => exact ⟨.refl, hd⟩
      | some r =>
        obtain ⟨b, s₁⟩ := r
        have hstep : Step e Q s s₁ := .pop hp
        obtain ⟨_, top, htop, rfl, _⟩ := popBlock_some hp
        have hq : Q top.bl := hk.chain top (by rw [htop]; simp)
        obtain ⟨h1, h2⟩ := ih s₁ (top.bl :: disconnected) (hk.step hstep)
          (by simpa using ⟨hq, hd⟩)
        exact ⟨.head hstep h1, h2⟩

theorem connectAll_steps (as : List AltBlock) (s : Blockchain) (hq : ∀ a ∈ as, Q a.bl) :
    Steps e Q s (connectAll e as s).2 := by
  induction as generalizing s with
  | nil => exact .refl
  | cons a rest ih =>
    have hstep : Step e Q s (s.handleKnownBlock e a.bl).st :=
      .handle (hq a List.mem_cons_self) PoolSupplement.ok_empty
    unfold connectAll
    dsimp only
    split
    · exact .head hstep (ih _ fun b hb => hq b (List.mem_cons_of_mem _ hb))
    · exact .single hstep

theorem popToHeight_steps (height fuel : Nat) (s : Blockchain) :
    Steps e Q s (popToHeight e height fuel s).2 := by
  induction fuel generalizing s with
  | zero => exact .refl
  | succ fuel ih =>
    unfold popToHeight
    split
    · exact .refl
    · cases hp : s.popBlockFromBlockchain e with
      | none => exact .refl
      | some r => exact .head (.pop hp) (ih r.2)

theorem readdAll_steps (bls : List Block) (s : Blockchain) (hq : ∀ b ∈ bls, Q b) :
    Steps e Q s (readdAll e bls s).2 := by
  induction bls generalizing s with
  | nil => exact .refl
  | cons bl rest ih =>
    have hstep : Step e Q s (s.handleKnownBlock e bl).st :=
      .handle (hq bl List.mem_cons_self) PoolSupplement.ok_empty
    unfold readdAll
    dsimp only
    split
    · exact .head hstep (ih _ fun b hb => hq b (List.mem_cons_of_mem _ hb))
    · exact .single hstep

theorem rollback_steps (s : Blockchain) (original : List Block) (height : Nat)
    (hq : ∀ b ∈ original, Q b) :
    Steps e Q s (s.rollbackBlockchainSwitching e original height).2 := by
  unfold rollbackBlockchainSwitching
  split
  · exact .refl
  · have hpop : Steps e Q s (popToHeight e height s.height s.resetDifficultyWindow).2 :=
      .head .reset (popToHeight_steps _ _ _)
    rcases hres : popToHeight e height s.height s.resetDifficultyWindow with ⟨ok, s₁⟩
    rw [hres] at hpop
    cases ok with
    | false => exact hpop
    | true =>
      dsimp only
      have hre : Steps e Q s (readdAll e original
          ((s₁.updateNextCumulativeWeightLimit e).reorganizeHardFork e height)).2 :=
        (hpop.tail .weights |>.tail .hardFork).trans (readdAll_steps _ _ hq)
      rcases hres' : readdAll e original
        ((s₁.updateNextCumulativeWeightLimit e).reorganizeHardFork e height) with ⟨ok, s₂⟩
      rw [hres'] at hre
      cases ok with
      | false => exact hre
      | true => exact hre.tail .hardFork

/-- A function that files one disconnected block, seen as steps. -/
def Pushes (e : Env) (Q : Block → Prop) (pushOld : Blockchain → Block → Blockchain) : Prop :=
  ∀ s b, Known Q s → Q b → Steps e Q s (pushOld s b)

theorem foldl_pushes {pushOld : Blockchain → Block → Blockchain} (hpush : Pushes e Q pushOld)
    (bls : List Block) (s : Blockchain) (hk : Known Q s) (hq : ∀ b ∈ bls, Q b) :
    Steps e Q s (bls.foldl pushOld s) := by
  induction bls generalizing s with
  | nil => exact .refl
  | cons b rest ih =>
    have h1 := hpush s b hk (hq b List.mem_cons_self)
    exact h1.trans (ih _ (hk.steps h1) fun b hb => hq b (List.mem_cons_of_mem _ hb))

theorem switchWith_steps {pushOld : Blockchain → Block → Blockchain}
    (hpush : Pushes e Q pushOld) (s : Blockchain) (altChain : List AltBlock) (discard : Bool)
    (hk : Known Q s) (hq : ∀ a ∈ altChain, Q a.bl) :
    Steps e Q s (switchWith e pushOld s altChain discard).2 := by
  have hreset : Steps e Q s s.resetDifficultyWindow := .single .reset
  unfold switchWith
  dsimp only
  cases altChain with
  | nil => exact hreset
  | cons front rest =>
    dsimp only
    split
    · exact hreset
    · obtain ⟨hdis, hqd⟩ := disconnectTo_steps (e := e) front.bl.prevId
        s.resetDifficultyWindow.height s.resetDifficultyWindow [] (hk.steps hreset) (by simp)
      rcases hres : disconnectTo e front.bl.prevId s.resetDifficultyWindow.height
        s.resetDifficultyWindow [] with ⟨ok, disconnected, s₁⟩
      rw [hres] at hdis hqd
      have h1 : Steps e Q s s₁ := hreset.trans hdis
      cases ok with
      | false => exact h1
      | true =>
        dsimp only at hqd ⊢
        have h2 : Steps e Q s (connectAll e (front :: rest)
            (s₁.updateNextCumulativeWeightLimit e)).2 :=
          (h1.tail .weights).trans (connectAll_steps _ _ hq)
        rcases hcon : connectAll e (front :: rest) (s₁.updateNextCumulativeWeightLimit e) with
          ⟨left, s₂⟩
        rw [hcon] at h2
        cases left with
        | nil =>
          dsimp only at h2 ⊢
          refine Relation.ReflTransGen.tail (.tail ?_ (.forget _)) .hardFork
          split
          · exact h2
          · exact h2.trans (foldl_pushes hpush _ _ (hk.steps h2) hqd)
        | cons refused left =>
          exact (h2.trans (rollback_steps _ _ _ hqd)).tail (.forget _)

/-! ## Alternative blocks and whole calls -/

/-- A switching function, seen as steps. -/
def Switches (e : Env) (Q : Block → Prop)
    (switch : Blockchain → List AltBlock → Bool → Bool × Blockchain) : Prop :=
  ∀ s altChain discard, Known Q s → (∀ a ∈ altChain, Q a.bl) →
    Steps e Q s (switch s altChain discard).2

variable {switch : Blockchain → List AltBlock → Bool → Bool × Blockchain}

theorem storeAlternative_steps (hsw : Switches e Q switch) {b : Block} {ps : PoolSupplement}
    {altChain : List AltBlock} {weight : UInt64} {isACheckpoint : Bool} (hk : Known Q s)
    (hq : Q b) (hfile : s.getAltBlock (e.getBlockHash b) = none → Filed e s b altChain)
    (hqa : ∀ a ∈ altChain, Q a.bl) :
    Steps e Q s
      (storeAlternative switch s ps altChain (s.filedRow e b altChain weight)
        isACheckpoint).st := by
  unfold storeAlternative
  split
  · exact .refl
  · rename_i hnew
    have hstep : Step e Q s
        { s with altBlocks := s.filedRow e b altChain weight :: s.altBlocks } :=
      .file hq (hfile (Option.not_isSome_iff_eq_none.mp hnew))
    have hsteps := hsw { s with altBlocks := s.filedRow e b altChain weight :: s.altBlocks }
      (altChain ++ [s.filedRow e b altChain weight])
    have hall : ∀ a ∈ altChain ++ [s.filedRow e b altChain weight], Q a.bl := by
      intro a ha
      rcases List.mem_append.mp ha with ha | ha
      · exact hqa a ha
      · rw [List.mem_singleton.mp ha]
        exact hq
    dsimp only
    split
    · exact .head hstep (hsteps true (hk.step hstep) hall)
    · split
      · exact .head hstep (hsteps false (hk.step hstep) hall)
      · exact .single hstep

theorem handleAlternativeWith_steps (hsw : Switches e Q switch) (s : Blockchain) (b : Block)
    (ps : PoolSupplement) (hk : Known Q s) (hq : Q b) (hps : ps.Ok e) :
    Steps e Q s (handleAlternativeWith e switch s b (e.getBlockHash b) ps).st := by
  have hstart : Steps e Q s s.resetDifficultyWindow.ticked := .tail (.single .reset) .clock
  unfold handleAlternativeWith
  generalize s.resetDifficultyWindow.ticked = s₁ at hstart ⊢
  have hk₁ := hk.steps hstart
  unfold examineAlternative
  dsimp only
  split
  · exact hstart
  rename_i hnamed
  split
  · exact hstart
  rename_i hallowed
  split
  · exact hstart
  rename_i hversion
  split
  case isFalse => exact hstart
  rename_i hknown
  unfold handleConnected
  cases hbuild : s₁.buildAltChain e b.prevId with
  | none => exact hstart
  | some r =>
    obtain ⟨altChain, timestamps⟩ := r
    dsimp only
    split
    · exact hstart
    rename_i hmedian
    split
    · exact hstart
    split
    · exact hstart
    rename_i hdiff
    split
    · exact hstart
    rename_i hpow
    split
    · exact hstart
    rename_i hcoinbase
    split
    · exact hstart
    have hfiled : s₁.getAltBlock (e.getBlockHash b) = none → Filed e s₁ b altChain := fun hnew =>
      { named := hnamed
        allowed := by simpa using hallowed
        version := by simpa using hversion
        known := by simpa using hknown
        built := ⟨timestamps, hbuild, by simpa using hmedian⟩
        difficulty := hdiff
        pow := by simpa using hpow
        coinbase := by simpa using hcoinbase
        new := hnew }
    have hsup : Step e Q s₁ { s₁ with pool := (addSupplement e (s₁.poolContext e) s₁.chain
        (e.forks.getIdealVersion (getBlockHeight b)) ps.txsByTxid s₁.pool).2 } :=
      .supplement hps
    rcases hadd : addSupplement e (s₁.poolContext e) s₁.chain
      (e.forks.getIdealVersion (getBlockHeight b)) ps.txsByTxid s₁.pool with ⟨ok, pool⟩
    rw [hadd] at hsup
    cases ok with
    | false => exact hstart.tail hsup
    | true =>
      refine (hstart.tail hsup).trans ?_
      refine storeAlternative_steps (s := { s₁ with pool := pool }) hsw (hk₁.step hsup) hq
        (fun hnew => ?_) (fun a ha => ?_)
      · have h := hfiled hnew
        exact ⟨h.named, h.allowed, h.version, h.known, h.built, h.difficulty, h.pow,
          h.coinbase, h.new⟩
      · rw [buildAltChain_some hbuild] at ha
        exact hk₁.alt a (mem_altChainOf ha)

theorem handleAlternativeBlock_steps (depth : Nat) (s : Blockchain) (b : Block)
    (ps : PoolSupplement) (hk : Known Q s) (hq : Q b) (hps : ps.Ok e) :
    Steps e Q s (handleAlternativeBlock e depth s b (e.getBlockHash b) ps).st := by
  induction depth generalizing s b ps with
  | zero => exact handleAlternativeWith_steps (fun _ _ _ _ _ => .refl) s b ps hk hq hps
  | succ depth ih =>
    refine handleAlternativeWith_steps (fun s altChain discard hk hqa => ?_) s b ps hk hq hps
    exact switchWith_steps (fun s b hk hq => ih s b {} hk hq PoolSupplement.ok_empty)
      s altChain discard hk hqa

/-- **A call of `add_new_block` is a sequence of elementary steps.** -/
theorem addNewBlock_steps (depth : Nat) (bl : Block) (ps : PoolSupplement) (hk : Known Q s)
    (hq : Q bl) (hps : ps.Ok e) : Steps e Q s (s.addNewBlock e depth bl ps).st := by
  unfold addNewBlock
  dsimp only
  split
  · exact .refl
  · split
    · exact handleAlternativeBlock_steps depth s bl ps hk hq hps
    · exact .single (.handle hq hps)

end Oxyra
