import Oxyra.Logic.Steps

/-!
# Runs and their basic invariant

* `Event` and `run`: calls of `add_new_block` in any order, with the pool and
  the housekeeping changing between them.
* `Sound`: the pool's rows are in order and the chain was accepted block by
  block. Every run keeps it (`Sound.run`), whatever blocks are submitted and
  whatever reorganisations they set off.
* `withGenesis`: the state the theorems about whole histories start from.
-/

namespace Oxyra

open Blockchain

variable {e : Env} {Q : Block → Prop} {s s' : Blockchain} {bl : Block} {id : Hash}
  {ps : PoolSupplement} {g : Block} {version : Nat}

/-! ## Runs -/

/-- What happens to a node from outside. -/
inductive Event where
  /-- `add_new_block` -/
  | block (bl : Block) (ps : PoolSupplement)
  /-- The rest of the node has changed the pool. -/
  | pool (p : TxPool)
  /-- `cleanup_handle_incoming_blocks` of a batch that succeeded. -/
  | cleanup

namespace Blockchain

variable (e : Env) (depth : Nat)

def apply (s : Blockchain) : Event → Blockchain
  | .block bl ps => (s.addNewBlock e depth bl ps).st
  | .pool p => { s with pool := p }
  | .cleanup => s.batchStop

def run (s : Blockchain) (events : List Event) : Blockchain :=
  events.foldl (apply e depth) s

end Blockchain

/-- What happens between `prepare_handle_incoming_blocks` and `cleanup_handle_incoming_blocks`, and
`m_batch_success` at the end. -/
structure Batch where
  events : List Event
  success : Bool := true

def Blockchain.runBatches (e : Env) (depth : Nat) (s : Blockchain) (batches : List Batch) :
    Blockchain :=
  batches.foldl
    (fun s b => (s.run e depth b.events).cleanupHandleIncomingBlocks b.success s) s

/-- What the callers promise of an event: submitted blocks satisfy `Q`, their
supplements and the pool are in order. -/
def Event.Ok (e : Env) (Q : Block → Prop) (s : Blockchain) : Event → Prop
  | .block bl ps => Q bl ∧ ps.Ok e
  | .pool p => PoolFits e s.chain p
  | .cleanup => True

/-- Every event of a run keeps its promise in the state it happens in. -/
def RunOk (e : Env) (Q : Block → Prop) (depth : Nat) : Blockchain → List Event → Prop
  | _, [] => True
  | s, ev :: rest => ev.Ok e Q s ∧ RunOk e Q depth (s.apply e depth ev) rest

/-- Every event of every batch keeps its promise, and no batch is aborted. -/
def BatchesOk (e : Env) (Q : Block → Prop) (depth : Nat) : Blockchain → List Batch → Prop
  | _, [] => True
  | s, b :: rest => b.success = true ∧ RunOk e Q depth s b.events ∧
      BatchesOk e Q depth (s.run e depth b.events).batchStop rest

theorem RunOk.of_blocks {depth : Nat} {blocks : List (Block × PoolSupplement)}
    (h : ∀ b ∈ blocks, Q b.1 ∧ b.2.Ok e) :
    RunOk e Q depth s (blocks.map fun b => .block b.1 b.2) := by
  induction blocks generalizing s with
  | nil => trivial
  | cons b rest ih =>
    exact ⟨h b List.mem_cons_self, ih fun b hb => h b (List.mem_cons_of_mem _ hb)⟩

theorem apply_steps (depth : Nat) {ev : Event} (hk : Known Q s) (h : ev.Ok e Q s) :
    Steps e Q s (s.apply e depth ev) := by
  cases ev with
  | block bl ps => exact addNewBlock_steps depth bl ps hk h.1 h.2
  | pool p => exact .single (.pool h)
  | cleanup => exact .single .cleanup

/-- **A run is a sequence of elementary steps.** -/
theorem run_steps {depth : Nat} (events : List Event) (hk : Known Q s)
    (h : RunOk e Q depth s events) : Steps e Q s (s.run e depth events) := by
  induction events generalizing s with
  | nil => exact .refl
  | cons ev rest ih =>
    have h1 := apply_steps depth hk h.1
    exact h1.trans (ih (hk.steps h1) h.2)

/-- The rule for steps: what every elementary step keeps holds throughout. -/
theorem Steps.invariant {I : Blockchain → Prop} (hstep : ∀ s s', I s → Step e Q s s' → I s')
    (h : I s) (hsteps : Steps e Q s s') : I s' := by
  induction hsteps with
  | refl => exact h
  | tail _ hs ih => exact hstep _ _ ih hs

theorem run_invariant {I : Blockchain → Prop} {depth : Nat}
    (hstep : ∀ s s', I s → Step e Q s s' → I s') (events : List Event) (hk : Known Q s) (h : I s)
    (hrun : RunOk e Q depth s events) : I (s.run e depth events) :=
  Steps.invariant hstep h (run_steps events hk hrun)

/-- **Batches that are not aborted are sequences of elementary steps.** -/
theorem runBatches_steps {depth : Nat} (batches : List Batch) (hk : Known Q s)
    (h : BatchesOk e Q depth s batches) : Steps e Q s (s.runBatches e depth batches) := by
  induction batches generalizing s with
  | nil => exact .refl
  | cons b rest ih =>
    obtain ⟨hdone, hrun, hrest⟩ := h
    have hbatch : Steps e Q s (s.run e depth b.events).batchStop :=
      .tail (run_steps b.events hk hrun) .cleanup
    unfold runBatches
    rw [List.foldl_cons, hdone]
    exact hbatch.trans (ih (hk.steps hbatch) hrest)

/-! ## The pool's rows -/

theorem returnTxsToPool_rows {ctx : PoolContext} {p : TxPool} (taken : List TakenTx)
    (hp : TxPool.RowsOk e p) (hid : ∀ t ∈ taken, t.id = e.getTransactionHash t.tx) :
    TxPool.RowsOk e (returnTxsToPool e ctx version p taken) := by
  unfold returnTxsToPool
  induction taken generalizing p with
  | nil => exact hp
  | cons t rest ih =>
    refine ih ?_ fun u hu => hid u (List.mem_cons_of_mem _ hu)
    unfold returnTx
    split
    · exact hp.addTx _ _ _ _ _ _ (hid t List.mem_cons_self)
    · exact hp

theorem finishAdded_rows (h : TxPool.RowsOk e s.pool) :
    TxPool.RowsOk e (s.finishAdded e version).pool := by
  have hpool : TxPool.RowsOk e s.pool.onBlockchainChange := h.of_txs rfl
  unfold finishAdded
  dsimp only
  split
  · exact (TxPool.validate_spec hpool (e.forks.versionAt_ne_zero _)).1
  · exact hpool

theorem handleBlock_rows (h : TxPool.RowsOk e s.pool) (hps : ps.Ok e) :
    TxPool.RowsOk e (s.handleBlockToMainChain e bl id ps).st.pool := by
  have hexit := handleBlock_exit e s bl id ps
  generalize s.handleBlockToMainChain e bl id ps = o at hexit
  cases hexit with
  | early _ hr =>
    obtain ⟨_, _, _, rfl, _⟩ := hr
    exact h
  | returned _ why hr =>
    obtain ⟨_, _, _, _, rfl, _⟩ := hr
    have hinv := why.elim (fun ⟨_, ht⟩ => (takeFor_error ht).1) fun ht => (takeFor_ok ht.1).1
    exact returnTxsToPool_rows _ (h.sublist hinv.sublist)
      fun t ht => ((hinv.source t ht).ok h hps).1
  | bare _ ht _ => exact h.sublist (takeFor_ok ht).1.sublist
  | accepted ha => exact finishAdded_rows (h.sublist (takeFor_ok ha.taken).1.sublist)

theorem returnedPool_rows (h : TxPool.RowsOk e s.pool) (top : StoredBlock) :
    TxPool.RowsOk e (s.returnedPool e top) := by
  have hfold : ∀ ctx version (txs : List Transaction) p, TxPool.RowsOk e p →
      TxPool.RowsOk e (txs.foldl (returnPopped e ctx version) p) := by
    intro ctx version txs
    induction txs with
    | nil => exact fun p hp => hp
    | cons tx rest ih => exact fun p hp => ih _ (hp.addTx _ _ _ _ _ _ rfl)
  exact (hfold _ _ _ _ h).of_txs rfl

theorem afterPop_rows (h : TxPool.RowsOk e s.pool) (top : StoredBlock) :
    TxPool.RowsOk e (s.afterPop e top).pool := by
  have hpool := returnedPool_rows h top
  unfold afterPop
  dsimp only
  split
  · exact (TxPool.validate_spec hpool (e.forks.versionAt_ne_zero _)).1
  · exact hpool

theorem addSupplement_rows {ctx : PoolContext} {chain : Chain} (txs : List (Hash × Transaction))
    {p : TxPool} (hp : TxPool.RowsOk e p) :
    TxPool.RowsOk e (addSupplement e ctx chain version txs p).2 := by
  induction txs generalizing p with
  | nil => exact hp
  | cons r rest ih =>
    unfold addSupplement
    split
    · exact ih hp
    · dsimp only
      split
      · exact ih (hp.addTx _ _ _ _ _ _ rfl)
      · exact hp.addTx _ _ _ _ _ _ rfl

/-! ## Sound states -/

/-- A stored block extends what is below it, for some version, time and
difficulty. -/
def Admitted (e : Env) (pre : Chain) (sb : StoredBlock) : Prop :=
  ∃ fast version now difficulty, Extends e fast version now difficulty pre sb

/-- The pool's rows are in order and the chain was accepted block by block. -/
structure Sound (e : Env) (s : Blockchain) : Prop where
  rows : TxPool.RowsOk e s.pool
  built : Built (Admitted e) s.chain

theorem Sound.step (h : Sound e s) (hs : Step e Q s s') : Sound e s' := by
  cases hs with
  | @handle bl ps hq hps =>
    refine ⟨handleBlock_rows h.rows hps, ?_⟩
    cases hret : (s.handleBlockToMainChain e bl (e.getBlockHash bl) ps).ret with
    | true =>
      obtain ⟨fast, st, weight, r, ha, ho⟩ := accepts_of_ret hret
      rw [ho]
      exact h.built.snoc ⟨_, _, _, _, ha.extends h.rows hps⟩
    | false =>
      obtain ⟨_, _, _, _, _, _, ho, _⟩ := handleBlock_refused hret
      rw [ho]
      exact h.built
  | pop hp =>
    obtain ⟨_, top, _, _, rfl⟩ := popBlock_some hp
    exact ⟨afterPop_rows h.rows top, h.built.dropLast⟩
  | supplement hps => exact ⟨addSupplement_rows _ h.rows, h.built⟩
  | pool hp => exact ⟨hp.rows, h.built⟩
  | file | forget | hardFork | weights | reset | clock | cleanup => exact ⟨h.rows, h.built⟩

/-- **Every run keeps a sound state sound**, whatever is submitted. -/
theorem Sound.run {depth : Nat} (h : Sound e s) (hk : Known Q s) (events : List Event)
    (hrun : RunOk e Q depth s events) : Sound e (s.run e depth events) :=
  run_invariant (fun _ _ h hs => h.step hs) events hk h hrun

theorem Sound.init (hf : HardFork) : Sound e { hf := hf } :=
  ⟨⟨fun _ h => absurd h (by simp), by simp⟩, Built.nil⟩

/-! ## From the genesis block on -/

/-- A node with an empty database accepts the genesis block `g`, which carries
nothing but its coinbase. -/
structure GenesisAdded (e : Env) (s : Blockchain) (g : Block) (ps : PoolSupplement) : Prop where
  empty : s.chain = []
  noAlt : s.altBlocks = []
  rows : TxPool.RowsOk e s.pool
  supplement : ps.Ok e
  alone : g.txHashes = []
  accepted : (s.handleBlockToMainChain e g (e.getBlockHash g) ps).ret = true

def Blockchain.withGenesis (e : Env) (s : Blockchain) (g : Block) (ps : PoolSupplement) :
    Blockchain :=
  (s.handleBlockToMainChain e g (e.getBlockHash g) ps).st

theorem GenesisAdded.of_init (halone : g.txHashes = [])
    (haccepted : (({} : Blockchain).handleBlockToMainChain e g (e.getBlockHash g) {}).ret = true) :
    GenesisAdded e {} g {} :=
  ⟨rfl, rfl, (Sound.init {}).rows, PoolSupplement.ok_empty, halone, haccepted⟩

theorem GenesisAdded.known {ps : PoolSupplement} (h : GenesisAdded e s g ps) (hq : Q g) :
    Known Q (s.withGenesis e g ps) :=
  Known.step ⟨by simp [h.empty], by simp [h.noAlt]⟩ (.handle hq h.supplement)

theorem GenesisAdded.sound {ps : PoolSupplement} (h : GenesisAdded e s g ps) :
    Sound e (s.withGenesis e g ps) :=
  Sound.step (Q := fun _ => True) ⟨h.rows, h.empty ▸ Built.nil⟩ (.handle trivial h.supplement)

end Oxyra
