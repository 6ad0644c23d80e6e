import Oxyra.Logic.Ready
import Oxyra.Logic.Regtest

/-!
# What every reachable main chain satisfies

Reorganisations take blocks off the main chain and put others on, so that no
single check of the acceptance path speaks about the chain as a whole. The
results here do, for the chain a node holds after any run: nothing on it is spent
twice, and every block of it is valid against the blocks below it, whatever was
on the chain when it was first submitted.
-/

namespace Oxyra

open Blockchain

variable {e : Env} {Q : Block → Prop} {s : Blockchain} {depth : Nat}

/-! ## A reorganisation to test on -/

/-- The genesis block, a block that spends its output, and a heavier branch that
spends it as well. -/
def forkBlocks : List Block :=
  [regtestGenesis 1 [moneySupply], regtestBlock 1 1 0 1 [5] [8#256],
    regtestBlock 1 1 0 2 [5] [8#256], regtestBlock 1 2 2 3 [] []]

def forkEvents : List Event :=
  (forkBlocks.map fun b => (b, regtestSupplement (regtestTx 7 moneySupply 0 5))).map
    fun b => .block b.1 b.2

theorem forkEvents_ok (forks : ForkTable) {Q : Block → Prop} (hq : ∀ b ∈ forkBlocks, Q b) :
    RunOk (regtest forks) Q 1 {} forkEvents :=
  RunOk.of_blocks fun b hb => by
    obtain ⟨c, hc, rfl⟩ := List.mem_map.mp hb
    exact ⟨hq c hc, regtestSupplement_ok _ _⟩

/-! ## Nothing twice -/

/-- What `add_block` refuses to write twice. -/
structure Fresh (e : Env) (pre : Chain) (sb : StoredBlock) : Prop where
  images : sb.keyImages.Nodup ∧ ∀ k ∈ sb.keyImages, ∀ y ∈ pre, k ∉ y.keyImages
  txIds : (sb.txIds e).Nodup ∧ ∀ k ∈ sb.txIds e, ∀ y ∈ pre, k ∉ y.txIds e
  id : ∀ y ∈ pre, sb.id e ≠ y.id e

theorem Fresh.of_canAdd {pre : Chain} {sb : StoredBlock} (h : pre.canAdd e sb = true) :
    Fresh e pre sb := by
  simp only [Chain.canAdd, Bool.and_eq_true, decide_eq_true_eq, List.all_eq_true,
    Bool.not_eq_true'] at h
  obtain ⟨⟨⟨⟨⟨⟨⟨-, hi⟩, hic⟩, ht⟩, htc⟩, hb⟩, -⟩, -⟩ := h
  refine ⟨⟨hi, fun k hk y hy hky => ?_⟩, ⟨ht, fun k hk y hy hky => ?_⟩, fun y hy heq => ?_⟩
  · have := hic k hk
    simp only [Chain.hasKeyImage, List.any_eq_false, decide_eq_true_eq] at this
    exact this y hy hky
  · have := htc k hk
    simp only [Chain.txExists, List.any_eq_false, decide_eq_true_eq] at this
    exact this y hy hky
  · simp only [Chain.blockExists, List.any_eq_false, decide_eq_true_eq] at hb
    exact hb y hy heq.symm

theorem Sound.fresh (h : Sound e s) : Built (Fresh e) s.chain :=
  h.built.mono fun _ _ ⟨_, _, _, _, hext⟩ => .of_canAdd hext.storable

/-! ## The pool -/

theorem haveTx_addTx {ctx : PoolContext} {p : TxPool} {tx : Transaction} {id id' : Hash}
    {w : UInt64} {relay : RelayMethod} {relayed : Bool} {version nic : Nat}
    (h : (p.addTx e ctx tx id w relay relayed version nic).2.haveTx id' = true) :
    p.haveTx id' = true ∨ id' = id := by
  by_cases heq : id' = id
  · exact .inr heq
  · left
    rw [TxPool.haveTx_eq_look] at h ⊢
    rcases (TxPool.addTx_result e ctx p tx id w relay relayed version nic).look_ne heq with h' | h'
    · rwa [h'] at h
    · rw [h'.1] at h
      exact absurd h (by simp)

theorem haveTx_foldl {α : Type} {X : Hash → Prop} (f : TxPool → α → TxPool) (l : List α)
    (hf : ∀ p, ∀ x ∈ l, ∀ id, (f p x).haveTx id = true → p.haveTx id = true ∨ X id)
    {p : TxPool} {id : Hash} (h : (l.foldl f p).haveTx id = true) :
    p.haveTx id = true ∨ X id := by
  induction l generalizing p with
  | nil => exact .inl h
  | cons x l ih =>
    exact (ih (fun p y hy => hf p y (List.mem_cons_of_mem _ hy)) h).elim
      (hf p x List.mem_cons_self id) .inr

/-- No transaction a block of the chain lists is in the pool. -/
def Apart (s : Blockchain) : Prop :=
  ∀ id, s.pool.haveTx id = true → ∀ sb ∈ s.chain, id ∉ sb.bl.txHashes

theorem not_listed {chain : Chain} {id : Hash} (h : chain.txExists e id = false) :
    ∀ sb ∈ chain, id ∉ sb.bl.txHashes := by
  intro sb hsb hmem
  simp only [Chain.txExists, List.any_eq_false, decide_eq_true_eq] at h
  exact h sb hsb (List.mem_cons_of_mem _ hmem)

theorem haveTx_validate {p : TxPool} {ctx : PoolContext} {version : Nat} {id : Hash}
    (hrows : TxPool.RowsOk e p) (hv : version ≠ 0)
    (h : (p.validate e ctx version).haveTx id = true) : p.haveTx id = true := by
  rw [TxPool.haveTx_eq_look] at h ⊢
  obtain ⟨r, hr⟩ := Option.isSome_iff_exists.mp h
  rw [(TxPool.validate_spec hrows hv).2.1 id r hr]
  rfl

theorem haveTx_of_sublist {p q : TxPool} {id : Hash} (hs : q.txs.Sublist p.txs)
    (h : q.haveTx id = true) : p.haveTx id = true := by
  by_contra hn
  have := TxPool.find?_of_sublist hs (by simpa [TxPool.haveTx] using hn)
  simp [TxPool.haveTx, this] at h

theorem finishAdded_haveTx {version : Nat} {id : Hash} (hrows : TxPool.RowsOk e s.pool)
    (h : (s.finishAdded e version).pool.haveTx id = true) : s.pool.haveTx id = true := by
  have hpool : TxPool.RowsOk e s.pool.onBlockchainChange := hrows.of_txs rfl
  show s.pool.onBlockchainChange.haveTx id = true
  unfold finishAdded at h
  dsimp only at h
  split at h
  · exact haveTx_validate hpool (e.forks.versionAt_ne_zero _) h
  · exact h

/-- The pool after a call holds nothing it did not hold before, and nothing that
an accepted block lists. -/
theorem handleBlock_haveTx {bl : Block} {ps : PoolSupplement} {id : Hash}
    (hrows : TxPool.RowsOk e s.pool)
    (h : (s.handleBlockToMainChain e bl (e.getBlockHash bl) ps).st.pool.haveTx id = true) :
    s.pool.haveTx id = true ∧
      ((s.handleBlockToMainChain e bl (e.getBlockHash bl) ps).ret = true → id ∉ bl.txHashes) := by
  have hexit := handleBlock_exit e s bl (e.getBlockHash bl) ps
  generalize s.handleBlockToMainChain e bl (e.getBlockHash bl) ps = o at hexit h
  cases hexit with
  | early _ hr =>
    obtain ⟨_, _, _, rfl, _⟩ := hr
    exact ⟨h, by simp⟩
  | returned _ why hr =>
    obtain ⟨_, _, _, _, rfl, _⟩ := hr
    have hinv := why.elim (fun ⟨_, ht⟩ => (takeFor_error ht).1) fun ht => (takeFor_ok ht.1).1
    refine ⟨?_, by simp⟩
    refine (haveTx_foldl (X := fun id => s.pool.haveTx id = true) _ _ ?_ h).elim
      (haveTx_of_sublist hinv.sublist) fun h => h
    intro p t ht id hid
    unfold returnTx at hid
    split at hid
    · refine (haveTx_addTx hid).imp_right fun heq => ?_
      -- what is handed back came out of the pool
      cases hinv.source t ht with
      | pool row hf => simp [TxPool.haveTx, heq, hf]
      | supplement _ hsup => exact absurd ‹t.fromPool = true› (by rw [hsup]; simp)
    · exact .inl hid
  | bare _ ht _ => exact ⟨haveTx_of_sublist (takeFor_ok ht).1.sublist h, by simp [bareOutcome]⟩
  | @accepted fast st weight r ha =>
    obtain ⟨hinv, hids, -⟩ := takeFor_ok ha.taken
    have hst : st.pool.haveTx id = true :=
      finishAdded_haveTx (hrows.sublist hinv.sublist) h
    refine ⟨haveTx_of_sublist hinv.sublist hst, fun _ hmem => ?_⟩
    rw [← hids] at hmem
    obtain ⟨t, ht, rfl⟩ := List.mem_map.mp hmem
    simp [TxPool.haveTx, hinv.gone t ht] at hst

theorem afterPop_haveTx {top : StoredBlock} {id : Hash} (hrows : TxPool.RowsOk e s.pool)
    (h : (s.afterPop e top).pool.haveTx id = true) :
    s.pool.haveTx id = true ∨ id ∈ top.txs.map e.getTransactionHash := by
  have hret : (s.returnedPool e top).haveTx id = true := by
    have hpool := returnedPool_rows hrows top
    unfold afterPop at h
    dsimp only at h
    split at h
    · exact haveTx_validate hpool (e.forks.versionAt_ne_zero _) h
    · exact h
  refine haveTx_foldl (returnPopped e _ _) _ (fun p tx htx id hid => ?_) hret
  refine (haveTx_addTx hid).imp_right fun heq => ?_
  rw [heq]
  exact List.mem_map_of_mem (List.mem_reverse.mp (List.mem_filter.mp htx).1)

theorem addSupplement_haveTx {ctx : PoolContext} {chain : Chain} {version : Nat} {id : Hash}
    (txs : List (Hash × Transaction)) (hps : ∀ r ∈ txs, r.1 = e.getTransactionHash r.2)
    {p : TxPool} (h : (addSupplement e ctx chain version txs p).2.haveTx id = true) :
    p.haveTx id = true ∨ chain.txExists e id = false := by
  induction txs generalizing p with
  | nil => exact .inl h
  | cons r rest ih =>
    have ih := @ih fun r hr => hps r (List.mem_cons_of_mem _ hr)
    unfold addSupplement at h
    split at h
    · exact ih h
    · rename_i hnew
      rw [hps r List.mem_cons_self, Bool.or_eq_true, not_or] at hnew
      have hadd : ∀ id', p.haveTx id' = true ∨ id' = e.getTransactionHash r.2 →
          p.haveTx id' = true ∨ chain.txExists e id' = false := by
        rintro id' (h | rfl)
        · exact .inl h
        · exact .inr (by simpa using hnew.2)
      dsimp only at h
      split at h
      · exact (ih h).elim (fun h => hadd id (haveTx_addTx h)) .inr
      · exact hadd id (haveTx_addTx h)

theorem Apart.step (hsound : Sound e s) (h : Apart s) {s' : Blockchain} (hs : Step e Q s s') :
    Apart s' := by
  intro id hid
  cases hs with
  | @handle bl ps hq hps =>
    obtain ⟨hold, hnew⟩ := handleBlock_haveTx hsound.rows hid
    cases hret : (s.handleBlockToMainChain e bl (e.getBlockHash bl) ps).ret with
    | true =>
      obtain ⟨fast, st, weight, r, ha, ho⟩ := accepts_of_ret hret
      intro sb hsb
      rw [ho] at hsb
      rcases List.mem_append.mp hsb with hsb | hsb
      · exact h id hold sb hsb
      · rw [List.mem_singleton.mp hsb]
        exact hnew hret
    | false =>
      obtain ⟨_, _, _, _, _, _, ho, _⟩ := handleBlock_refused hret
      rw [ho]
      exact h id hold
  | pop hp =>
    obtain ⟨_, top, htop, _, rfl⟩ := popBlock_some hp
    have hadm := hsound.built
    rw [htop] at hadm
    obtain ⟨-, _, _, _, _, hext⟩ := Built.snoc_iff.mp hadm
    intro sb hsb
    rcases afterPop_haveTx hsound.rows hid with hold | hold
    · exact h id hold sb (List.dropLast_subset _ hsb)
    · -- the popped block was written where no block listed its transactions
      rw [← hext.hashes] at hold
      exact fun hmem => (Fresh.of_canAdd hext.storable).txIds.2 id (List.mem_cons_of_mem _ hold)
        sb hsb (List.mem_cons_of_mem _ hmem)
  | supplement hps =>
    exact (addSupplement_haveTx _ hps hid).elim (h id) not_listed
  | pool hp => exact not_listed (hp.fresh id hid)
  | file | forget | hardFork | weights | reset | clock | cleanup => exact h id hid

/-! ## Blocks and transactions, interleaved -/

/-- What a node receives, and what it does to the pool of its own accord. -/
inductive Traffic where
  | block (bl : Block) (ps : PoolSupplement)
  | tx (tx : Transaction) (weight : UInt64) (relay : RelayMethod) (relayed : Bool)
  | cleanup
  | pool (change : TxPool → TxPool)

/-- Supplements are filed under their ids, and the node's own changes to the pool put
nothing in. -/
def Traffic.Ok (e : Env) : Traffic → Prop
  | .block _ ps => ps.Ok e
  | .pool change => ∀ p, TxPool.RowsOk e p → TxPool.RowsOk e (change p) ∧
      ∀ id, (change p).haveTx id = true → p.haveTx id = true
  | _ => True

def Blockchain.receive (e : Env) (depth : Nat) (s : Blockchain) : Traffic → Blockchain
  | .block bl ps => s.apply e depth (.block bl ps)
  | .tx tx weight relay relayed => (s.addNewTx e tx weight relay relayed).2
  | .cleanup => s.apply e depth .cleanup
  | .pool change => { s with pool := change s.pool }

theorem addNewTx_apart (hsound : Sound e s) (h : Apart s) (tx : Transaction) (weight : UInt64)
    (relay : RelayMethod) (relayed : Bool) :
    Sound e (s.addNewTx e tx weight relay relayed).2 ∧
      Apart (s.addNewTx e tx weight relay relayed).2 := by
  unfold addNewTx
  dsimp only
  split
  · exact ⟨hsound, h⟩
  · rename_i hnew
    rw [Bool.or_eq_true, not_or, Bool.not_eq_true, Bool.not_eq_true] at hnew
    refine ⟨⟨hsound.rows.addTx _ _ _ _ _ _ rfl, hsound.built⟩, fun id hid => ?_⟩
    rcases haveTx_addTx hid with hold | rfl
    · exact h id hold
    · exact not_listed hnew.2

theorem receive_apart {t : Traffic} (ht : t.Ok e) (hsound : Sound e s) (h : Apart s) :
    Sound e (s.receive e depth t) ∧ Apart (s.receive e depth t) := by
  have hrun : ∀ ev : Event, ev.Ok e (fun _ => True) s →
      Sound e (s.apply e depth ev) ∧ Apart (s.apply e depth ev) := fun ev hev =>
    run_invariant (I := fun s => Sound e s ∧ Apart s)
      (fun _ _ h hs => ⟨h.1.step hs, h.2.step h.1 hs⟩) [ev] ⟨by simp, by simp⟩ ⟨hsound, h⟩
      ⟨hev, trivial⟩
  cases t with
  | block bl ps => exact hrun (.block bl ps) ⟨trivial, ht⟩
  | tx tx weight relay relayed => exact addNewTx_apart hsound h tx weight relay relayed
  | cleanup => exact hrun .cleanup trivial
  | pool change =>
    obtain ⟨hrows, hold⟩ := ht _ hsound.rows
    exact ⟨⟨hrows, hsound.built⟩, fun id hid => h id (hold id hid)⟩

theorem Sound.traffic (traffic : List Traffic) (hok : ∀ t ∈ traffic, t.Ok e) (hsound : Sound e s)
    (h : Apart s) : Sound e (traffic.foldl (receive e depth) s) ∧
      Apart (traffic.foldl (receive e depth) s) := by
  induction traffic generalizing s with
  | nil => exact ⟨hsound, h⟩
  | cons t traffic ih =>
    obtain ⟨hsound', h'⟩ := receive_apart (hok t List.mem_cons_self) hsound h
    exact ih (fun t ht => hok t (List.mem_cons_of_mem _ ht)) hsound' h'

/-- The fork, and the transaction of it once more after it is on the chain. -/
def forkTraffic : List Traffic :=
  forkBlocks.map (fun b => .block b (regtestSupplement (regtestTx 7 moneySupply 0 5))) ++
    [.tx (regtestTx 7 moneySupply 0 5) 1000 .fluff false]

theorem forkTraffic_ok : ∀ t ∈ forkTraffic, t.Ok (regtest firstVersion) := by
  simpa [forkTraffic, forkBlocks, Traffic.Ok] using regtestSupplement_ok firstVersion _

/-- **Nothing is spent twice.** A node that starts on an empty database holds,
however blocks and transactions come in between each other, a main chain on which no
key image, no transaction id and no block id occurs twice. -/
theorem no_double_spend (hf : HardFork) (traffic : List Traffic) (hok : ∀ t ∈ traffic, t.Ok e) :
    let chain := (traffic.foldl (receive e depth) { hf := hf }).chain
    (chain.flatMap StoredBlock.keyImages).Nodup ∧ (chain.flatMap (StoredBlock.txIds e)).Nodup ∧
      (chain.map (StoredBlock.id e)).Nodup := by
  have hfresh := (@Sound.traffic e _ depth traffic hok (Sound.init hf)
    fun _ _ => by simp).1.fresh
  refine ⟨Built.nodup_flatMap _ (hfresh.mono fun _ _ h => h.images),
    Built.nodup_flatMap _ (hfresh.mono fun _ _ h => h.txIds), ?_⟩
  rw [← List.flatMap_pure_eq_map]
  exact Built.nodup_flatMap _ (hfresh.mono fun _ _ h => by simpa [Pure.pure] using h.id)

theorem no_double_spend_fork :
    let chain := (forkTraffic.foldl (receive (regtest firstVersion) 1) {}).chain
    chain.map (fun sb => (sb.bl.nonce, sb.keyImages)) = [(0, []), (2, [7]), (3, [])] ∧
      (chain.flatMap StoredBlock.keyImages).Nodup := by
  intro chain
  exact ⟨by decide +kernel, (no_double_spend {} forkTraffic forkTraffic_ok).1⟩

/-- **A transaction is in the pool or on the chain, never both.** From an empty node,
however blocks and transactions come in between each other, through acceptance, every
kind of refusal and reorganisations, no transaction that a block of the main chain
lists is in the pool. -/
theorem pool_chain_disjoint (hf : HardFork) (traffic : List Traffic)
    (hok : ∀ t ∈ traffic, t.Ok e) :
    let s := traffic.foldl (receive e depth) { hf := hf }
    ∀ id, s.pool.haveTx id = true → ∀ sb ∈ s.chain, id ∉ sb.bl.txHashes :=
  (Sound.traffic traffic hok (Sound.init hf) fun _ _ => by simp).2

theorem pool_chain_disjoint_fork :
    let s := forkTraffic.foldl (receive (regtest firstVersion) 1) {}
    s.chain.flatMap (fun sb => sb.bl.txHashes) = [8#256] ∧ s.pool.haveTx 8#256 = false := by
  intro s
  have hlisted : s.chain.flatMap (fun sb => sb.bl.txHashes) = [8#256] := by decide +kernel
  refine ⟨hlisted, ?_⟩
  by_contra hin
  have hmem := hlisted ▸ List.mem_singleton_self 8#256
  obtain ⟨sb, hsb, hid⟩ := List.mem_flatMap.mp hmem
  exact pool_chain_disjoint {} forkTraffic forkTraffic_ok 8#256 (by simpa using hin) sb hsb hid

/-! ## Validity -/

theorem started_init : Started e {} := ⟨rfl, rfl, (Sound.init {}).rows, rfl, rfl⟩

theorem forkIds : IdsOk (regtest firstVersion) (· ∈ forkBlocks) := by
  have hinj : ∀ x ∈ forkBlocks, ∀ y ∈ forkBlocks, (regtest firstVersion).getBlockHash x =
      (regtest firstVersion).getBlockHash y → x = y := by
    decide +kernel
  exact ⟨fun x y hx hy => hinj x hx y hy, by decide +kernel⟩

theorem Started.placed (hforks : e.forks.Standard) (hids : IdsOk e Q) (hs : Started e s)
    (batches : List Batch) (hrun : BatchesOk e Q depth s batches) :
    let t := s.runBatches e depth batches
    Built (Placed e Q (e.latest t.reads)) t.chain :=
  (Steps.invariant (fun _ _ h hs => h.step hforks hids hs) (hs.ready hids)
    (runBatches_steps batches hs.known hrun)).placed

theorem forkBatch_ok {Q : Block → Prop} (hq : ∀ b ∈ forkBlocks, Q b) :
    BatchesOk (regtest firstVersion) Q 1 {} [⟨forkEvents, true⟩] :=
  ⟨rfl, forkEvents_ok _ hq, trivial⟩

/-- A batch that is aborted: the second block lists two transactions with one key image, which
`add_block` refuses to write. -/
def abortedBatch : Batch where
  events := [.block (regtestBlock 1 1 0 1 [] []) {},
    .block (regtestBlock 2 2 1 2 [10] [8#256, 9#256])
      { txsByTxid := [(8#256, regtestTx 7 moneySupply 0 5),
          (9#256, { regtestTx 7 moneySupply 0 5 with signatures := 8 })] }]
  success := false

/-- **After an aborted batch a block of the wrong version is accepted.** The tables are those of
the genesis block again, but the hard-fork object has gone on to the version of height 2, and
takes a block of that version at height 1. -/
theorem aborted_batch_wrong_version :
    let e := regtest (schedule 1 [⟨2, 2, 0, 1⟩])
    let s := ({} : Blockchain).runBatches e 1
      [⟨[.block (regtestGenesis 1 [moneySupply]) {}], true⟩, abortedBatch]
    let t := s.runBatches e 1 [⟨[.block (regtestBlock 2 1 0 3 [] []) {}], true⟩]
    s.chain.length = 1 ∧ s.hfVersion e = 2 ∧ versionFor e 1 = 1 ∧
      t.chain.map (fun sb => sb.bl.majorVersion) = [1, 2] := by
  decide +kernel

/-! ## Two nodes -/

/-- The same rules and hashes, read with another clock. -/
def Env.withClock (e : Env) (clock : Nat → Nat) : Env := { e with clock := clock }

theorem tailId_take (e : Env) {chain : Chain} {i : Nat} (hi : i < chain.length) :
    Chain.tailId e (chain.take (i + 1)) = chain.idAt e i := by
  simp [Chain.tailId, Chain.idAt, List.getLast?_take, hi]

/-- **A common block means a common history.** Two nodes with the same rules, each
with its own clock, its own submissions and its own reorganisations, of which none has
aborted a batch, hold the same blocks with the same cumulative difficulties from the
genesis block up to any height at which their block ids are equal. -/
theorem common_block_common_history (hforks : e.forks.Standard) (hids : IdsOk e Q)
    (clock : Nat → Nat) {s₁ s₂ : Blockchain} (hs₁ : Started e s₁)
    (hs₂ : Started (e.withClock clock) s₂) (batches₁ batches₂ : List Batch)
    (hrun₁ : BatchesOk e Q depth s₁ batches₁)
    (hrun₂ : BatchesOk (e.withClock clock) Q depth s₂ batches₂) :
    let chain₁ := (s₁.runBatches e depth batches₁).chain
    let chain₂ := (s₂.runBatches (e.withClock clock) depth batches₂).chain
    ∀ i, i < chain₁.length → i < chain₂.length → chain₁.idAt e i = chain₂.idAt e i →
      chain₁.blocks.take (i + 1) = chain₂.blocks.take (i + 1) ∧
      chain₁.points.take (i + 1) = chain₂.points.take (i + 1) := by
  intro chain₁ chain₂ i hi₁ hi₂ heq
  have h₁ := (hs₁.placed hforks hids batches₁ hrun₁).take (i + 1)
  have h₂ := (hs₂.placed (e := e.withClock clock) hforks hids batches₂ hrun₂).take (i + 1)
  have hblocks : Chain.blocks (chain₁.take (i + 1)) = Chain.blocks (chain₂.take (i + 1)) := by
    refine (path_of_placed h₁).unique hids (path_of_placed (e := e.withClock clock) h₂) ?_
    rw [← tailId_eq_headId, ← tailId_eq_headId, tailId_take e hi₁, tailId_take e hi₂, heq]
  have hpoints : Chain.points (chain₁.take (i + 1)) = Chain.points (chain₂.take (i + 1)) := by
    rw [points_of_placed h₁, hblocks, points_of_placed (e := e.withClock clock) h₂]
    rfl
  rw [Chain.blocks, Chain.blocks, List.map_take, List.map_take] at hblocks
  rw [Chain.points, Chain.points, List.map_take, List.map_take] at hpoints
  exact ⟨hblocks, hpoints⟩

theorem common_block_common_history_fork :
    let chain₁ := (({} : Blockchain).runBatches (regtest firstVersion) 1
      [⟨forkEvents, true⟩]).chain
    let chain₂ := (({} : Blockchain).runBatches ((regtest firstVersion).withClock fun _ => 9) 1
      [⟨forkEvents, true⟩]).chain
    chain₁.length = 3 ∧ chain₁.blocks.take 3 = chain₂.blocks.take 3 := by
  intro chain₁ chain₂
  refine ⟨by decide +kernel, (common_block_common_history (schedule_standard 1 _ _) forkIds
    (fun _ => 9) started_init started_init _ _ (forkBatch_ok fun _ hb => hb) ?_ 2
    (by decide +kernel) (by decide +kernel) (by decide +kernel)).1⟩
  exact ⟨rfl, RunOk.of_blocks fun b hb => by
    obtain ⟨c, hc, rfl⟩ := List.mem_map.mp hb
    exact ⟨hc, regtestSupplement_ok firstVersion _⟩, trivial⟩

end Oxyra
