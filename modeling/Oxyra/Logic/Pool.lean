import Oxyra.Core.TxPool
import Oxyra.Core.Db

/-!
# What the pool's operations do to its contents

The theorems about blocks need three things of the pool: which transactions it
holds, whether they are kept by a block, and that each row describes its own
transaction. `look` is that view of the tables; every mutator gets one lemma
that says what it does to it.

* Pruning drops rows, never one kept by a block (`thinned_prune`).
* `addTx` touches no other id except by pruning (`AddResult.look_ne`); with relay
  method `block` it always gets a new transaction in (`addTx_block_of_absent`).
* `RowsOk` is the invariant of the tables (`RowsOk.addTx`, `RowsOk.revalidate`).
-/

namespace Oxyra

namespace TxPool

variable {e : Env} {ctx : PoolContext} {p : TxPool} {id id' : Hash} {tx : Transaction} {nic : Nat}
  {q : TxPool} {r : Bool × TxPool} {relay : RelayMethod} {w : UInt64}

/-- The transaction filed under an id and whether it is kept by a block. -/
def look (p : TxPool) (id : Hash) : Option (Transaction × Bool) :=
  (p.find? id).map fun t => (t.tx, t.keptByBlock)

theorem haveTx_eq_look : p.haveTx id = (p.look id).isSome := by
  simp [haveTx, look]

theorem look_of_txs (h : q.txs = p.txs) : q.look id = p.look id := by
  simp [look, find?, h]

/-! ## Removal -/

theorem find?_removeTx (t : PoolTx) :
    (p.removeTx t).find? id = if id = t.id then none else p.find? id := by
  show Keyed.find? PoolTx.id (Keyed.erase PoolTx.id p.txs t.id) id = _
  by_cases h : id = t.id
  · rw [if_pos h, h, Keyed.find?_erase_self]
  · rw [if_neg h, Keyed.find?_erase_ne h]
    rfl

theorem look_removeTx (t : PoolTx) :
    (p.removeTx t).look id = if id = t.id then none else p.look id := by
  unfold look
  rw [find?_removeTx]
  split <;> rfl

theorem removeTx_sublist (t : PoolTx) : (p.removeTx t).txs.Sublist p.txs :=
  List.filter_sublist

/-- A view that may have lost rows not kept by a block, and nothing else. -/
def Thinned (p q : TxPool) : Prop :=
  ∀ id, q.look id = p.look id ∨ (q.look id = none ∧ ∃ tx, p.look id = some (tx, false))

theorem Thinned.refl (p : TxPool) : Thinned p p := fun _ => .inl rfl

theorem Thinned.trans {r : TxPool} (h : Thinned p q) (h' : Thinned q r) : Thinned p r := by
  intro id
  rcases h' id with h1 | ⟨h1, tx, h2⟩
  · rw [h1]
    exact h id
  · rcases h id with h3 | ⟨h3, _⟩
    · exact .inr ⟨h1, tx, h3 ▸ h2⟩
    · exact absurd (h3.symm.trans h2) (by simp)

theorem thinned_pruneLoop (bytes : UInt64) (l : List SortedTx) (p : TxPool) :
    Thinned p (pruneLoop bytes l p) := by
  induction l generalizing p with
  | nil => exact .refl p
  | cons x rest ih =>
    unfold pruneLoop
    split
    · exact .refl p
    · cases hf : p.find? x.id with
      | none => exact ih p
      | some t =>
        dsimp only
        split
        · exact ih p
        · -- the one row that goes is not kept by a block
          rename_i hk
          refine Thinned.trans (fun id => ?_) (ih _)
          rw [look_removeTx]
          split
          · rename_i hid
            have hx : t.id = x.id := Keyed.key_of_find? hf
            exact .inr ⟨rfl, t.tx, by simp [look, hid, hx, hf, Bool.eq_false_iff.mpr hk]⟩
          · exact .inl rfl

theorem thinned_prune (bytes : UInt64) : Thinned p (p.prune e bytes) :=
  thinned_pruneLoop _ _ p

/-- The pool is over its limit and has something to prune: a transaction not kept
by a block, behind the first of the container. -/
def Evictable (limit : UInt64) (p : TxPool) : Prop :=
  limit < p.txpoolWeight ∧
    ∃ x ∈ p.sorted.tail, ∃ t, p.find? x.id = some t ∧ t.keptByBlock = false

theorem pruneLoop_eq_self (bytes : UInt64) (l : List SortedTx) (p : TxPool)
    (h : bytes < p.txpoolWeight → ∀ x ∈ l, ∀ t, p.find? x.id = some t → t.keptByBlock = true) :
    pruneLoop bytes l p = p := by
  induction l with
  | nil => rfl
  | cons x rest ih =>
    have hrest := ih fun hlt y hy => h hlt y (List.mem_cons_of_mem _ hy)
    unfold pruneLoop
    split
    · rfl
    · rename_i hlt
      have hx := h (UInt64.not_le.mp hlt) x List.mem_cons_self
      cases hf : p.find? x.id with
      | none => exact hrest
      | some t =>
        dsimp only
        rw [if_pos (hx t hf)]
        exact hrest

theorem find?_of_sublist (h : q.txs.Sublist p.txs) (hf : p.find? id = none) :
    q.find? id = none := by
  unfold find? at hf ⊢
  rw [Keyed.find?_eq_none_iff] at hf ⊢
  exact fun t ht => hf t (h.subset ht)

theorem pruneLoop_sublist (bytes : UInt64) (l : List SortedTx) (p : TxPool) :
    (pruneLoop bytes l p).txs.Sublist p.txs := by
  induction l generalizing p with
  | nil => exact .refl _
  | cons x rest ih =>
    unfold pruneLoop
    split
    · exact .refl _
    · split
      · exact ih p
      · split
        · exact ih p
        · exact (ih _).trans (removeTx_sublist _)

theorem pruneLoop_evicts (bytes : UInt64) (l : List SortedTx) (p : TxPool)
    (hlt : bytes < p.txpoolWeight)
    (h : ∃ x ∈ l, ∃ t, p.find? x.id = some t ∧ t.keptByBlock = false) :
    ∃ id t, p.find? id = some t ∧ t.keptByBlock = false ∧
      (pruneLoop bytes l p).find? id = none := by
  induction l with
  | nil => exact absurd h (by simp)
  | cons x rest ih =>
    unfold pruneLoop
    rw [if_neg (UInt64.not_le.mpr hlt)]
    obtain ⟨y, hy, t, hf, hk⟩ := h
    -- a candidate other than `x` is left for the rest of the loop
    have hrest : x.id ≠ y.id → ∃ y ∈ rest, ∃ t, p.find? y.id = some t ∧ t.keptByBlock = false := by
      intro hne
      rcases List.mem_cons.mp hy with rfl | hy
      · exact absurd rfl hne
      · exact ⟨y, hy, t, hf, hk⟩
    cases hx : p.find? x.id with
    | none =>
      exact ih (hrest fun heq => absurd (hx.symm.trans (heq ▸ hf)) (by simp))
    | some t' =>
      dsimp only
      split
      · rename_i hk'
        refine ih (hrest fun heq => ?_)
        obtain rfl := Option.some.inj (hx.symm.trans (heq ▸ hf))
        exact absurd hk (by simp [hk'])
      · rename_i hk'
        refine ⟨x.id, t', hx, by simpa using hk', ?_⟩
        refine find?_of_sublist (pruneLoop_sublist _ _ _) ?_
        rw [find?_removeTx, if_pos (Keyed.key_of_find? hx).symm]

theorem prune_max (e : Env) (p : TxPool) :
    p.prune e e.txpoolMaxWeight = pruneLoop e.txpoolMaxWeight p.sorted.tail.reverse p := by
  unfold prune
  split <;> rfl

/-- **Pruning removes something exactly if something is evictable.** -/
theorem prune_of_not_evictable (h : ¬ Evictable e.txpoolMaxWeight p) :
    p.prune e e.txpoolMaxWeight = p := by
  rw [prune_max]
  refine pruneLoop_eq_self _ _ _ fun hlt x hx t hf => ?_
  by_contra hk
  exact h ⟨hlt, x, List.mem_reverse.mp hx, t, hf, by simpa using hk⟩

theorem prune_of_evictable (h : Evictable e.txpoolMaxWeight p) :
    ∃ id t, p.find? id = some t ∧ t.keptByBlock = false ∧
      (p.prune e e.txpoolMaxWeight).find? id = none := by
  rw [prune_max]
  obtain ⟨hlt, x, hx, hc⟩ := h
  exact pruneLoop_evicts _ _ _ hlt ⟨x, List.mem_reverse.mpr hx, hc⟩

theorem thinned_finishAdd (w : UInt64) : Thinned p (p.finishAdd e w) := by
  refine Thinned.trans (fun id => .inl ?_) (thinned_prune _)
  exact look_of_txs rfl

/-! ## Adding -/

@[simp] theorem markSeen_id (hit : List Hash) (t : PoolTx) : (markSeen hit t).id = t.id := by
  unfold markSeen
  split <;> rfl

theorem look_markSeen (hit : List Hash) (h : q.txs = p.txs.map (markSeen hit)) :
    q.look id = p.look id := by
  unfold look find?
  rw [h, Keyed.find?_map (markSeen_id hit), Option.map_map]
  congr 1
  funext t
  simp only [Function.comp_apply, markSeen]
  split <;> rfl

theorem look_replace (id : Hash) (q : TxPool) (t : PoolTx)
    (h : q.txs = Keyed.erase PoolTx.id p.txs t.id ++ [t]) :
    q.look id = if id = t.id then some (t.tx, t.keptByBlock) else p.look id := by
  unfold look find?
  rw [h, Keyed.find?_append, Keyed.find?_cons]
  by_cases ht : id = t.id
  · subst ht
    simp
  · rw [Keyed.find?_erase_ne ht]
    simp [ht, Ne.symm ht]

/-- The row `addTx` writes for a transaction. -/
structure NewRow (tx : Transaction) (id : Hash) (w : UInt64) (relay : RelayMethod) (t : PoolTx) :
    Prop where
  idEq : t.id = id
  txEq : t.tx = tx
  weight : t.info.weight = w
  fee : t.info.fee = getTxFee tx
  pruned : t.info.pruned = tx.pruned
  kept : t.keptByBlock = decide (relay = .block)

/-- Rows, weight and key images are the same. -/
structure SameTables (p q : TxPool) : Prop where
  txs : q.txs = p.txs
  weight : q.txpoolWeight = p.txpoolWeight
  images : q.spentKeyImages = p.spentKeyImages

/-- The tests of `add_tx` that later steps rely on. -/
structure Passes (e : Env) (p : TxPool) (tx : Transaction) (id : Hash) (relay : RelayMethod)
    (version nic : Nat) : Prop where
  rules : version = nic ∨ e.verNonInputConsensus tx version = true
  unspent : relay ≠ .block → p.haveTxKeyimgesAsSpent tx id = false

/-- `insert_key_images` was called on the pool `p`, with this outcome. The method it
is called with is `block` exactly if that of the call is. -/
def Files (p : TxPool) (tx : Transaction) (id : Hash) (relay : RelayMethod) (ok : Bool)
    (q : TxPool) : Prop :=
  ∃ method : RelayMethod, (method = .block ↔ relay = .block) ∧
    insertKeyImages (p.matchesLegacy id) id method tx.vin p.spentKeyImages = (ok, q.spentKeyImages)

/-- **All that a call of `add_tx` can do.** -/
inductive AddStep (e : Env) (p : TxPool) (tx : Transaction) (id : Hash) (w : UInt64)
    (relay : RelayMethod) (version nic : Nat) : Bool × TxPool → Prop
  | refused {q : TxPool} (same : SameTables p q) : AddStep e p tx id w relay version nic (false, q)
  | marked {q : TxPool} {hit : List Hash} (txs : q.txs = p.txs.map (markSeen hit))
      (weight : q.txpoolWeight = p.txpoolWeight) (images : q.spentKeyImages = p.spentKeyImages) :
      AddStep e p tx id w relay version nic (false, q)
  /-- The key images are filed as far as that goes, and the call fails. -/
  | filed {q : TxPool} {ok : Bool} (passes : Passes e p tx id relay version nic)
      (files : Files p tx id relay ok q) (fails : ok = false ∨ p.haveTx id = true)
      (txs : q.txs = p.txs) (weight : q.txpoolWeight = p.txpoolWeight) :
      AddStep e p tx id w relay version nic (false, q)
  /-- The transaction is known: its weight is counted all the same. -/
  | known {q : TxPool} (passes : Passes e p tx id relay version nic)
      (present : p.haveTx id = true) (same : SameTables p q) :
      AddStep e p tx id w relay version nic (true, q.finishAdd e w)
  | written {q : TxPool} {t : PoolTx} (passes : Passes e p tx id relay version nic)
      (files : Files p tx id relay true q) (row : NewRow tx id w relay t)
      (txs : q.txs = Keyed.erase PoolTx.id p.txs id ++ [t])
      (weight : q.txpoolWeight = p.txpoolWeight) :
      AddStep e p tx id w relay version nic (true, q.finishAdd e w)

/-- What a call of `add_tx` did to the tables. -/
inductive AddResult (e : Env) (p : TxPool) (tx : Transaction) (id : Hash) (w : UInt64)
    (relay : RelayMethod) : Bool × TxPool → Prop
  | refused {q : TxPool} (h : q.txs = p.txs ∨ ∃ hit, q.txs = p.txs.map (markSeen hit)) :
      AddResult e p tx id w relay (false, q)
  | known {q : TxPool} (present : (p.look id).isSome) (h : q.txs = p.txs) :
      AddResult e p tx id w relay (true, q.finishAdd e w)
  | written {q : TxPool} {t : PoolTx} (row : NewRow tx id w relay t)
      (toKey : tx.vin.all TxinV.isToKey = true)
      (h : q.txs = Keyed.erase PoolTx.id p.txs id ++ [t]) :
      AddResult e p tx id w relay (true, q.finishAdd e w)

theorem toKey_of_insertKeyImages (legacy : Bool) (relay : RelayMethod) (vin : List TxinV)
    (table : List (KeyImage × List Hash))
    (h : (insertKeyImages legacy id relay vin table).1 = true) :
    vin.all TxinV.isToKey = true := by
  induction vin generalizing table with
  | nil => rfl
  | cons i rest ih =>
    cases i with
    | toKey amount keyOffsets image =>
      unfold insertKeyImages at h
      dsimp only at h
      split at h
      · exact absurd h (by simp)
      · split at h
        · rw [List.all_cons, ih _ h]
          rfl
        · exact absurd h (by simp)
    | gen | toScript | toScripthash => exact absurd h (by simp [insertKeyImages])

/-- For a transaction of a block that the pool does not hold, `insert_key_images`
has nothing to object to: a collision only bothers the other relay methods. -/
theorem insertKeyImages_block (id : Hash) (vin : List TxinV) (table : List (KeyImage × List Hash))
    (h : vin.all TxinV.isToKey = true) :
    (insertKeyImages false id .block vin table).1 = true := by
  induction vin generalizing table with
  | nil => rfl
  | cons i rest ih =>
    rw [List.all_cons, Bool.and_eq_true] at h
    cases i with
    | toKey amount keyOffsets image =>
      unfold insertKeyImages
      simpa using ih _ h.2
    | gen | toScript | toScripthash => exact absurd h.1 (by simp [TxinV.isToKey])

theorem addUnverified_step {version : Nat} (w : UInt64) (relay : RelayMethod) (relayed : Bool)
    (hpass : Passes e p tx id relay version nic) :
    AddStep e p tx id w relay version nic (p.addUnverified e ctx tx id w relay relayed) := by
  unfold addUnverified
  split
  · exact .refused ⟨rfl, rfl, rfl⟩
  · extract_lets info r p₁ p₂ p₃
    have hfiles : ∀ b, r.1 = b → Files p tx id relay b p₁ :=
      fun b hb => ⟨relay, Iff.rfl, by rw [← hb]⟩
    split
    · rename_i hins
      exact .filed hpass (hfiles false (by simpa using hins)) (.inl rfl) rfl rfl
    · rename_i hins
      have hok : r.1 = true := by simpa using hins
      split
      · rename_i hhave
        exact .filed hpass (hfiles true hok) (.inr hhave) rfl rfl
      · -- the id is new, so there is nothing to replace
        rename_i hhave
        have habs : Keyed.find? PoolTx.id p.txs id = none := by
          simpa [haveTx, find?] using hhave
        refine .written (t := ⟨id, tx, info⟩) hpass (hfiles true hok) ⟨rfl, rfl, rfl, rfl, rfl, rfl⟩
          ?_ rfl
        rw [Keyed.erase_eq_self habs]
        rfl

theorem upgraded_eq_block {existing : Option RelayMethod}
    (h : (existing.getD .none).rank < relay.rank ∨ existing = none) :
    (if (existing.getD .none).rank < relay.rank then relay else existing.getD .none) = .block ↔
      relay = .block := by
  split
  · rfl
  · rename_i hlt
    obtain rfl := h.resolve_left hlt
    cases relay <;> simp_all [RelayMethod.rank]

theorem addVerified_step {version : Nat} (w : UInt64) (relay : RelayMethod) (relayed : Bool)
    (maxUsed : Nat × Hash) (hpass : Passes e p tx id relay version nic) :
    AddStep e p tx id w relay version nic (p.addVerified e ctx tx id w relay relayed maxUsed) := by
  unfold addVerified
  extract_lets existing relay' previous info r p₁ p₂ p₃
  have hrelay : relay' = .block ↔ relay = .block := by
    simp only [relay']
    split
    · rename_i h
      simp only [Bool.and_eq_true, decide_eq_true_eq] at h
      simp [h.1]
    · rfl
  have hfiles : ∀ b, r.1 = b → Files p tx id relay b p₁ :=
    fun b hb => ⟨relay', hrelay, by rw [← hb]⟩
  split
  · rename_i hwrite
    split
    · rename_i hins
      exact .filed hpass (hfiles false (by simpa using hins)) (.inl rfl) rfl rfl
    · rename_i hins
      refine .written (t := ⟨id, tx, info⟩) hpass (hfiles true (by simpa using hins))
        ⟨rfl, rfl, rfl, rfl, rfl, ?_⟩ rfl rfl
      have hmethod : info.relayMethod = .block ↔ relay' = .block :=
        upgraded_eq_block (by simpa using hwrite)
      simp only [PoolTx.keptByBlock, hmethod, hrelay]
  · rename_i hwrite
    refine .known hpass ?_ ⟨rfl, rfl, rfl⟩
    have hsome : existing ≠ none := fun h => hwrite (.inr h)
    simpa [haveTx, existing, Option.isSome_iff_ne_none] using hsome

theorem checkTxInputs_same (ctx : PoolContext) (p : TxPool) (tx : Transaction) (id : Hash)
    (k : Bool) : ∃ cache, (p.checkTxInputs ctx tx id k).2 = { p with inputCache := cache } := by
  unfold checkTxInputs
  split
  · exact ⟨_, rfl⟩
  · split <;> exact ⟨_, rfl⟩

theorem addTx_step (e : Env) (ctx : PoolContext) (p : TxPool) (tx : Transaction) (id : Hash)
    (w : UInt64) (relay : RelayMethod) (relayed : Bool) (version nic : Nat) :
    AddStep e p tx id w relay version nic
      (p.addTx e ctx tx id w relay relayed version nic) := by
  unfold addTx
  dsimp only
  split
  · exact .refused ⟨rfl, rfl, rfl⟩
  split
  · exact .refused ⟨rfl, rfl, rfl⟩
  rename_i hrules
  split
  · exact .refused ⟨rfl, rfl, rfl⟩
  split
  · exact .refused ⟨rfl, rfl, rfl⟩
  split
  · exact .refused ⟨rfl, rfl, rfl⟩
  split
  · exact .marked rfl rfl rfl
  · rename_i hspent
    obtain ⟨cache, hcache⟩ := checkTxInputs_same ctx p tx id (decide (relay = .block))
    generalize p.checkTxInputs ctx tx id (decide (relay = .block)) = c at hcache
    obtain ⟨verdict, q⟩ := c
    obtain rfl : q = { p with inputCache := cache } := hcache
    have hpass : Passes e { p with inputCache := cache } tx id relay version nic := by
      refine ⟨?_, fun hrelay => ?_⟩
      · by_cases hv : version = nic
        · exact .inl hv
        · exact .inr (by simpa [hv] using hrules)
      · have hnot : p.haveTxKeyimgesAsSpent tx id = false := by simpa [hrelay] using hspent
        exact hnot
    -- none of the branches looks at the cache
    have hback : ∀ r, AddStep e { p with inputCache := cache } tx id w relay version nic r →
        AddStep e p tx id w relay version nic r := by
      intro r hr
      cases hr with
      | refused same => exact .refused ⟨same.txs, same.weight, same.images⟩
      | marked txs weight images => exact .marked txs weight images
      | filed passes files fails txs weight =>
        exact .filed ⟨passes.rules, passes.unspent⟩ files fails txs weight
      | known passes present same =>
        exact .known ⟨passes.rules, passes.unspent⟩ present ⟨same.txs, same.weight, same.images⟩
      | written passes files row txs weight =>
        exact .written ⟨passes.rules, passes.unspent⟩ files row txs weight
    cases verdict with
    | none => exact hback _ (addUnverified_step w relay relayed hpass)
    | some maxUsed => exact hback _ (addVerified_step w relay relayed maxUsed hpass)

theorem Files.toKey (h : Files p tx id relay true q) :
    tx.vin.all TxinV.isToKey = true := by
  obtain ⟨method, -, hins⟩ := h
  exact toKey_of_insertKeyImages (p.matchesLegacy id) method tx.vin p.spentKeyImages
    (congrArg Prod.fst hins)

/-- **What `add_tx` can do to the tables**, for every relay method. -/
theorem addTx_result (e : Env) (ctx : PoolContext) (p : TxPool) (tx : Transaction) (id : Hash)
    (w : UInt64) (relay : RelayMethod) (relayed : Bool) (version nic : Nat) :
    AddResult e p tx id w relay (p.addTx e ctx tx id w relay relayed version nic) := by
  have hstep := addTx_step e ctx p tx id w relay relayed version nic
  generalize p.addTx e ctx tx id w relay relayed version nic = r at hstep
  cases hstep with
  | refused same => exact .refused (.inl same.txs)
  | marked txs _ _ => exact .refused (.inr ⟨_, txs⟩)
  | filed _ _ _ txs _ => exact .refused (.inl txs)
  | known _ present same => exact .known (haveTx_eq_look ▸ present) same.txs
  | written _ files row txs _ => exact .written row files.toKey txs

theorem AddResult.look_ne (h : AddResult e p tx id w relay r) (hne : id' ≠ id) :
    r.2.look id' = p.look id' ∨ (r.2.look id' = none ∧ ∃ tx, p.look id' = some (tx, false)) := by
  cases h with
  | refused h =>
    rcases h with h | ⟨hit, h⟩
    · exact .inl (look_of_txs h)
    · exact .inl (look_markSeen hit h)
  | known _ h =>
    rw [← look_of_txs h]
    exact thinned_finishAdd _ id'
  | written hrow _ h =>
    rw [← hrow.idEq] at h hne
    have := look_replace id' _ _ h
    rw [if_neg hne] at this
    rw [← this]
    exact thinned_finishAdd _ id'

/-- After a successful `add_tx` of a transaction that was not there, the id holds
the transaction, unless pruning has already dropped it again. -/
theorem AddResult.look_self (h : AddResult e p tx id w relay r) (habs : p.look id = none) :
    (r.1 = false ∧ r.2.look id = none) ∨
    (r.1 = true ∧ (r.2.look id = some (tx, decide (relay = .block)) ∨
      relay ≠ .block ∧ r.2.look id = none)) := by
  cases h with
  | refused h =>
    rcases h with h | ⟨hit, h⟩
    · exact .inl ⟨rfl, (look_of_txs h).trans habs⟩
    · exact .inl ⟨rfl, (look_markSeen hit h).trans habs⟩
  | known hp _ => exact absurd hp (by simp [habs])
  | written hrow _ h =>
    refine .inr ⟨rfl, ?_⟩
    rw [← hrow.idEq] at h
    have hq := look_replace id _ _ h
    rw [if_pos hrow.idEq.symm, hrow.txEq, hrow.kept] at hq
    rcases thinned_finishAdd (e := e) _ id with h1 | ⟨h1, tx', h2⟩
    · exact .inl (h1.trans hq)
    · -- pruned at once: then it was not kept by a block
      rw [hq, Option.some.injEq, Prod.mk.injEq] at h2
      exact .inr ⟨by simpa using h2.2, h1⟩

/-- **A block's transaction always comes back.** `add_tx` with relay method
`block` gets in any transaction the pool does not hold, provided its inputs are
`txin_to_key` and the non-input rules are passed or skipped. -/
theorem addTx_block_of_absent (w : UInt64) (relayed : Bool) {version : Nat}
    (hnic : version = nic ∨ e.verNonInputConsensus tx version = true) (habs : p.look id = none)
    (hkeys : tx.vin.all TxinV.isToKey = true) :
    (p.addTx e ctx tx id w .block relayed version nic).1 = true := by
  have hfind : p.find? id = none := by simpa [look] using habs
  have hguard : (decide (version ≠ nic) && !e.verNonInputConsensus tx version) = false := by
    rcases hnic with h | h <;> simp [h]
  unfold addTx
  simp only [decide_true, Bool.not_true, Bool.false_and, Bool.false_eq_true, if_false, hguard]
  rw [show p.checkTxInputs ctx tx id true = (ctx.checkTxInputs tx true, p) from rfl]
  have hins := insertKeyImages_block id tx.vin p.spentKeyImages hkeys
  cases ctx.checkTxInputs tx true with
  | none =>
    have htable : Keyed.find? PoolTx.id p.txs id = none := hfind
    simp [addUnverified, matchesLegacy, find?, htable, hins, haveTx]
  | some maxUsed => simp [addVerified, matchesLegacy, hfind, hins]

/-- The same, with the pool it leaves: the row is appended and sorted in, the
weight counted, and then the pool is pruned. -/
theorem addTx_block_written (ctx : PoolContext) (w : UInt64) (relayed : Bool) (version : Nat)
    (habs : p.find? id = none) (hkeys : tx.vin.all TxinV.isToKey = true)
    (hadded : id ∉ p.addedTxsById) (hsorted : ∀ x ∈ p.sorted, x.id ≠ id) :
    ∃ (q : TxPool) (t : PoolTx),
      p.addTx e ctx tx id w .block relayed version version = (true, q.finishAdd e w) ∧
      NewRow tx id w .block t ∧ q.txs = p.txs ++ [t] ∧
      q.sorted = insertSorted ⟨feePerByte (getTxFee tx) w, ctx.now, id⟩ p.sorted ∧
      q.txpoolWeight = p.txpoolWeight ∧ q.addedTxsById = id :: p.addedTxsById := by
  have hins := insertKeyImages_block id tx.vin p.spentKeyImages hkeys
  have hany : (p.sorted.any fun x => x.id = id) = false := by
    simpa using hsorted
  have htable : Keyed.find? PoolTx.id p.txs id = none := habs
  have herase := Keyed.erase_eq_self htable
  unfold addTx
  simp only [decide_true, Bool.not_true, Bool.false_and, Bool.false_eq_true, if_false, ne_eq,
    not_true_eq_false, decide_false]
  rw [show p.checkTxInputs ctx tx id true = (ctx.checkTxInputs tx true, p) from rfl]
  cases ctx.checkTxInputs tx true with
  | none =>
    simp only [addUnverified, matchesLegacy, find?, htable, hins, haveTx, ne_eq,
      not_true_eq_false, if_false, Option.any_none, Bool.not_true, Bool.false_eq_true,
      Option.isSome_none]
    refine ⟨_, _, rfl, ⟨rfl, rfl, rfl, rfl, rfl, rfl⟩, rfl, ?_, rfl, ?_⟩ <;>
      simp [addTxToTransientLists, hadded, hany]
  | some maxUsed =>
    simp only [addVerified, matchesLegacy, find?, htable, hins, Option.any_none, Bool.not_true,
      Bool.false_eq_true, if_false, Option.map_none, Option.getD_none, or_true, if_true,
      Bool.and_false, herase]
    refine ⟨_, _, rfl, ⟨rfl, rfl, rfl, rfl, rfl, rfl⟩, rfl, ?_, rfl, ?_⟩ <;>
      simp [addTxToTransientLists, hadded, hany]

/-! ## The invariant of the tables -/

/-- A row describes its own transaction, and only transactions that spend
outputs get in. -/
structure RowOk (e : Env) (t : PoolTx) : Prop where
  idEq : t.id = e.getTransactionHash t.tx
  fee : t.info.fee = getTxFee t.tx
  pruned : t.info.pruned = t.tx.pruned
  toKey : t.tx.vin.all TxinV.isToKey = true

/-- Every row is its transaction's, and no id has two. -/
structure RowsOk (e : Env) (p : TxPool) : Prop where
  row : ∀ t ∈ p.txs, RowOk e t
  nodup : (p.txs.map PoolTx.id).Nodup

theorem RowsOk.sublist (h : RowsOk e p) (hs : q.txs.Sublist p.txs) : RowsOk e q where
  row t ht := h.row t (hs.subset ht)
  nodup := h.nodup.sublist (hs.map _)

theorem RowsOk.of_txs (h : RowsOk e p) (hs : q.txs = p.txs) : RowsOk e q :=
  h.sublist (hs ▸ List.Sublist.refl _)

theorem RowsOk.of_look (h : RowsOk e p) {k : Bool} (hl : p.look id = some (tx, k)) :
    id = e.getTransactionHash tx ∧ tx.vin.all TxinV.isToKey = true := by
  obtain ⟨t, ht, heq⟩ := Option.map_eq_some_iff.mp hl
  obtain ⟨rfl, -⟩ := Prod.mk.inj heq
  have hrow := h.row t (Keyed.mem_of_find? ht)
  exact ⟨(Keyed.key_of_find? ht).symm.trans hrow.idEq, hrow.toKey⟩

theorem finishAdd_sublist (w : UInt64) : (p.finishAdd e w).txs.Sublist p.txs :=
  pruneLoop_sublist _ _ _

theorem RowsOk.addResult (h : RowsOk e p) (hr : AddResult e p tx id w relay r)
    (hid : id = e.getTransactionHash tx) :
    RowsOk e r.2 := by
  cases hr with
  | refused hq =>
    rcases hq with hq | ⟨hit, hq⟩
    · exact h.of_txs hq
    · -- marking a double spend changes no field the invariant reads
      constructor
      · intro t ht
        rw [hq] at ht
        obtain ⟨t₀, ht₀, rfl⟩ := List.mem_map.mp ht
        have hrow := h.row t₀ ht₀
        unfold markSeen
        split
        · exact ⟨hrow.idEq, hrow.fee, hrow.pruned, hrow.toKey⟩
        · exact hrow
      · rw [hq, List.map_map]
        simpa [Function.comp_def] using h.nodup
  | known _ hq => exact (h.of_txs hq).sublist (finishAdd_sublist w)
  | @written q t hrow hkeys hq =>
    refine RowsOk.sublist (p := q) ?_ (finishAdd_sublist w)
    constructor
    · intro t' ht'
      rw [hq, List.mem_append, List.mem_singleton] at ht'
      rcases ht' with ht' | rfl
      · exact h.row t' (Keyed.mem_erase_iff.mp ht').1
      · exact ⟨by rw [hrow.idEq, hrow.txEq, hid], by rw [hrow.fee, hrow.txEq],
          by rw [hrow.pruned, hrow.txEq], by rw [hrow.txEq]; exact hkeys⟩
    · rw [hq, List.map_append, List.map_singleton, hrow.idEq]
      refine List.Nodup.append (h.nodup.sublist (List.filter_sublist.map _)) (by simp) ?_
      rw [List.disjoint_singleton]
      intro hmem
      obtain ⟨t', ht', heq⟩ := List.mem_map.mp hmem
      exact (Keyed.mem_erase_iff.mp ht').2 heq

theorem RowsOk.addTx (h : RowsOk e p) (ctx : PoolContext) (w : UInt64) (relay : RelayMethod)
    (relayed : Bool) (version nic : Nat) (hid : id = e.getTransactionHash tx) :
    RowsOk e (p.addTx e ctx tx id w relay relayed version nic).2 :=
  h.addResult (addTx_result e ctx p tx id w relay relayed version nic) hid

/-! ## Re-validation -/

theorem addTx_of_nic_fails (ctx : PoolContext) (p : TxPool) (id : Hash) (w : UInt64)
    (relay : RelayMethod) (relayed : Bool) {version : Nat} (hne : version ≠ nic)
    (hfail : e.verNonInputConsensus tx version = false) :
    p.addTx e ctx tx id w relay relayed version nic = (false, p) := by
  unfold addTx
  dsimp only
  split
  · rfl
  · rw [if_pos (by simp [hne, hfail])]

theorem ids_updateTxpoolTx (p : TxPool) (id : Hash) (info : TxMeta) :
    (p.updateTxpoolTx id info).txs.map PoolTx.id = p.txs.map PoolTx.id := by
  show (p.txs.map _).map PoolTx.id = _
  rw [List.map_map]
  refine List.map_congr_left fun t _ => ?_
  simp only [Function.comp_apply]
  split <;> rfl

theorem look_updateTxpoolTx (id₀ : Hash) (info : TxMeta) :
    (p.updateTxpoolTx id₀ info).look id =
      if id = id₀ then (p.look id).map fun r => (r.1, decide (info.relayMethod = .block))
      else p.look id := by
  have hid : ∀ t : PoolTx, ({ t with info := info } : PoolTx).id = t.id := fun _ => rfl
  unfold look find? updateTxpoolTx
  split
  · rename_i h
    subst h
    rw [Keyed.find?_update_self hid, Option.map_map, Option.map_map]
    rfl
  · rename_i h
    rw [Keyed.find?_update_ne hid h]

variable {version : Nat} {t : PoolTx}

/-- One round of `validate` on a row that is still there: the row is taken out
and handed to `add_tx` again. -/
theorem revalidate_of_find {t' : PoolTx} (hf : p.find? t.id = some t') :
    revalidate e ctx version p t =
      let r := (p.removeTx t').addTx e ctx t'.tx t.id t.info.weight t.info.relayMethod
        t'.info.relayed version 0
      if r.1 then r.2.updateTxpoolTx t.id t.info else r.2 := by
  unfold revalidate takeTx
  rw [hf]
  rfl

/-- A row that pruning has dropped in the meantime: the empty transaction the
source goes on with is refused. -/
theorem revalidate_of_absent (hv : version ≠ 0) (hf : p.find? t.id = none) :
    revalidate e ctx version p t = p := by
  have hfail : e.verNonInputConsensus {} version = false := by simp [Env.verNonInputConsensus]
  have hrefused := addTx_of_nic_fails ctx p t.id t.info.weight t.info.relayMethod false hv hfail
  simp [revalidate, takeTx, hf, hrefused]

theorem look_revalidate_ne (ctx : PoolContext) (hv : version ≠ 0) (hne : id ≠ t.id) :
    (revalidate e ctx version p t).look id = p.look id ∨
      ((revalidate e ctx version p t).look id = none ∧ ∃ tx, p.look id = some (tx, false)) := by
  cases hf : p.find? t.id with
  | none => exact .inl (by rw [revalidate_of_absent hv hf])
  | some t' =>
    rw [revalidate_of_find hf]
    have hadd := addTx_result e ctx (p.removeTx t') t'.tx t.id t.info.weight
      t.info.relayMethod t'.info.relayed version 0
    have hlook := hadd.look_ne hne
    rw [look_removeTx, if_neg (by rwa [Keyed.key_of_find? hf])] at hlook
    dsimp only
    split
    · rwa [look_updateTxpoolTx, if_neg hne]
    · exact hlook

/-- The row itself is gone afterwards or is what it was; it passes the rules of
the version in the second case, and a row kept by a block that passes them is
never lost. -/
theorem look_revalidate_self (ctx : PoolContext) (hv : version ≠ 0) {k : Bool}
    (hl : p.look t.id = some (tx, k)) (hkeys : tx.vin.all TxinV.isToKey = true) :
    ((revalidate e ctx version p t).look t.id = some (tx, t.keptByBlock) ∧
      e.verNonInputConsensus tx version = true) ∨
    ((revalidate e ctx version p t).look t.id = none ∧
      (t.keptByBlock = true → e.verNonInputConsensus tx version = false)) := by
  obtain ⟨t', hf, heq⟩ := Option.map_eq_some_iff.mp hl
  obtain ⟨rfl, -⟩ := Prod.mk.inj heq
  have habs : (p.removeTx t').look t.id = none := by
    rw [look_removeTx, if_pos (Keyed.key_of_find? hf).symm]
  rw [revalidate_of_find hf]
  by_cases hnic : e.verNonInputConsensus t'.tx version = true
  · have hself := (addTx_result e ctx (p.removeTx t') t'.tx t.id t.info.weight
      t.info.relayMethod t'.info.relayed version 0).look_self habs
    have hblock : t.info.relayMethod = .block →
        ((p.removeTx t').addTx e ctx t'.tx t.id t.info.weight t.info.relayMethod
          t'.info.relayed version 0).1 = true := by
      intro h
      rw [h]
      exact addTx_block_of_absent _ _ (.inr hnic) habs hkeys
    rcases hself with ⟨hret, hnone⟩ | ⟨hret, hsome | ⟨hk, hnone⟩⟩
    · refine .inr ⟨by rw [if_neg (by simp [hret]), hnone], fun hk => ?_⟩
      exact absurd (hblock (by simpa [PoolTx.keptByBlock] using hk)) (by simp [hret])
    · refine .inl ⟨?_, hnic⟩
      rw [if_pos hret, look_updateTxpoolTx, if_pos rfl, hsome]
      rfl
    · refine .inr ⟨?_, fun hk' => absurd (by simpa [PoolTx.keptByBlock] using hk') hk⟩
      rw [if_pos hret, look_updateTxpoolTx, if_pos rfl, hnone]
      rfl
  · have hfail : e.verNonInputConsensus t'.tx version = false := by simpa using hnic
    have hrefused := addTx_of_nic_fails ctx (p.removeTx t') t.id t.info.weight
      t.info.relayMethod t'.info.relayed hv hfail
    exact .inr ⟨by simpa [hrefused] using habs, fun _ => hfail⟩

/-- A row of the snapshot `validate` walks over still describes whatever the pool
holds under its id. -/
def Current (e : Env) (p : TxPool) (t : PoolTx) : Prop :=
  RowOk e t ∧ ∀ r, p.look t.id = some r → r = (t.tx, t.keptByBlock)

theorem look_revalidate_sub (hv : version ≠ 0) (hcur : Current e p t) {r : Transaction × Bool}
    (h : (revalidate e ctx version p t).look id = some r) : p.look id = some r := by
  by_cases hid : id = t.id
  · subst hid
    cases hl : p.look t.id with
    | none =>
      rw [revalidate_of_absent hv (by simpa [look] using hl)] at h
      exact absurd (hl.symm.trans h) (by simp)
    | some r' =>
      obtain rfl := hcur.2 r' hl
      rcases look_revalidate_self ctx hv hl hcur.1.toKey with ⟨h1, _⟩ | ⟨h1, _⟩
      · exact h1.symm.trans h
      · exact absurd (h1.symm.trans h) (by simp)
  · rcases look_revalidate_ne (e := e) (p := p) ctx hv hid with h1 | ⟨h1, _⟩
    · exact h1.symm.trans h
    · exact absurd (h1.symm.trans h) (by simp)

theorem RowsOk.revalidate (h : RowsOk e p) (hv : version ≠ 0) (hcur : Current e p t) :
    RowsOk e (revalidate e ctx version p t) := by
  cases hf : p.find? t.id with
  | none => rwa [revalidate_of_absent hv hf]
  | some t' =>
    have hview : (t'.tx, t'.keptByBlock) = (t.tx, t.keptByBlock) :=
      hcur.2 _ (by simp [look, hf])
    have htx : t'.tx = t.tx := congrArg Prod.fst hview
    have hid : t.id = e.getTransactionHash t'.tx := htx ▸ hcur.1.idEq
    have hadd := (h.sublist (removeTx_sublist t')).addTx ctx t.info.weight t.info.relayMethod
      t'.info.relayed version 0 hid
    have hself := (addTx_result e ctx (p.removeTx t') t'.tx t.id t.info.weight
      t.info.relayMethod t'.info.relayed version 0).look_self
      (by rw [look_removeTx, if_pos (Keyed.key_of_find? hf).symm])
    rw [revalidate_of_find hf]
    dsimp only
    generalize (p.removeTx t').addTx e ctx t'.tx t.id t.info.weight t.info.relayMethod
      t'.info.relayed version 0 = r at hadd hself ⊢
    split
    · -- the restored meta data is that of the same transaction
      have hsame : ∀ u ∈ r.2.txs, u.id = t.id → u.tx = t.tx := by
        intro u hu hid
        have hlook : r.2.look t.id = some (u.tx, u.keptByBlock) := by
          simp [look, find?, ← hid, Keyed.find?_of_mem hadd.nodup hu]
        rcases hself with ⟨_, h1⟩ | ⟨_, h1 | ⟨_, h1⟩⟩
        · exact absurd (h1.symm.trans hlook) (by simp)
        · rw [← htx]
          exact congrArg Prod.fst (Option.some.inj (hlook.symm.trans h1))
        · exact absurd (h1.symm.trans hlook) (by simp)
      constructor
      · intro u hu
        obtain ⟨u₀, hu₀, rfl⟩ := List.mem_map.mp hu
        have hrow := hadd.row u₀ hu₀
        split
        · rename_i hid
          have htx₀ := hsame u₀ hu₀ hid
          exact ⟨hrow.idEq, by rw [htx₀]; exact hcur.1.fee, by rw [htx₀]; exact hcur.1.pruned,
            hrow.toKey⟩
        · exact hrow
      · rw [ids_updateTxpoolTx]
        exact hadd.nodup
    · exact hadd

/-- The loop of `validate`, over the rows still to come: nothing is made up, and
of the rows kept by a block exactly those are left that the loop does not reach
or that pass the rules of the version. -/
theorem look_revalidate_foldl (ctx : PoolContext) (hv : version ≠ 0) (l : List PoolTx)
    (hnd : (l.map PoolTx.id).Nodup) (hrows : RowsOk e p) (hcur : ∀ t ∈ l, Current e p t) :
    RowsOk e (l.foldl (revalidate e ctx version) p) ∧
    (∀ id r, (l.foldl (revalidate e ctx version) p).look id = some r → p.look id = some r) ∧
    (∀ id tx, p.look id = some (tx, true) →
      (l.foldl (revalidate e ctx version) p).look id =
        if id ∉ l.map PoolTx.id ∨ e.verNonInputConsensus tx version = true then some (tx, true)
        else none) := by
  induction l generalizing p with
  | nil => exact ⟨hrows, fun _ _ h => h, fun id tx h => by simpa using h⟩
  | cons t l ih =>
    rw [List.map_cons, List.nodup_cons] at hnd
    have hcur_t := hcur t List.mem_cons_self
    have hsub : ∀ id r, (revalidate e ctx version p t).look id = some r → p.look id = some r :=
      fun id r h => look_revalidate_sub hv hcur_t h
    obtain ⟨hrows', hsub', hkept'⟩ := ih (p := revalidate e ctx version p t) hnd.2
      (hrows.revalidate hv hcur_t) fun u hu =>
        ⟨(hcur u (List.mem_cons_of_mem _ hu)).1,
          fun r h => (hcur u (List.mem_cons_of_mem _ hu)).2 r (hsub _ r h)⟩
    rw [List.foldl_cons]
    refine ⟨hrows', fun id r h => hsub id r (hsub' id r h), fun id tx hl => ?_⟩
    by_cases hid : id = t.id
    · -- this row's turn; the rest of the loop does not come back to it
      subst hid
      have hkey := hrows.of_look hl
      have hk : t.keptByBlock = true := (congrArg Prod.snd (hcur_t.2 _ hl)).symm
      rcases look_revalidate_self ctx hv hl hkey.2 with
        ⟨h1, hnic⟩ | ⟨h1, hfail⟩
      · rw [hk] at h1
        rw [hkept' _ tx h1, if_pos (.inl hnd.1), if_pos (.inr hnic)]
      · rw [if_neg (by simp [hfail hk])]
        rw [← Option.not_isSome_iff_eq_none, Option.isSome_iff_exists]
        rintro ⟨r, hr⟩
        exact absurd (h1.symm.trans (hsub' _ r hr)) (by simp)
    · have hstep : (revalidate e ctx version p t).look id = some (tx, true) := by
        rcases look_revalidate_ne (e := e) (p := p) ctx hv hid with h1 | ⟨_, tx', h1⟩
        · exact h1.trans hl
        · exact absurd (hl.symm.trans h1) (by simp)
      rw [hkept' id tx hstep]
      simp [hid]

section Validate

variable (h : RowsOk e p) (hv : version ≠ 0)
include h hv

theorem validate_spec :
    RowsOk e (p.validate e ctx version) ∧
    (∀ id r, (p.validate e ctx version).look id = some r → p.look id = some r) ∧
    (∀ id tx, p.look id = some (tx, true) →
      (p.validate e ctx version).look id =
        if tx.pruned = true ∨ e.verNonInputConsensus tx version = true then some (tx, true)
        else none) := by
  have hrows : RowsOk e { p with addedTxsById := [] } := h.of_txs rfl
  have hfind : ∀ t ∈ p.txs, p.find? t.id = some t := fun t ht => Keyed.find?_of_mem h.nodup ht
  obtain ⟨h1, h2, h3⟩ := look_revalidate_foldl ctx hv
    (p.txs.filter fun t => !t.info.pruned) (h.nodup.sublist (List.filter_sublist.map _)) hrows
    (fun t ht => ⟨h.row t (List.mem_filter.mp ht).1, fun r hr => by
      have hr' : p.look t.id = some r := hr
      simpa [look, hfind t (List.mem_filter.mp ht).1, eq_comm] using hr'⟩)
  refine ⟨h1, h2, fun id tx hl => ?_⟩
  rw [show (p.validate e ctx version).look id = _ from h3 id tx hl]
  -- the loop reaches exactly the rows that are not pruned
  obtain ⟨t, ht, heq⟩ := Option.map_eq_some_iff.mp hl
  obtain ⟨rfl, -⟩ := Prod.mk.inj heq
  have hmem := Keyed.mem_of_find? ht
  have hid : t.id = id := Keyed.key_of_find? ht
  have hreach : id ∉ (p.txs.filter fun t => !t.info.pruned).map PoolTx.id ↔
      t.tx.pruned = true := by
    rw [← (h.row t hmem).pruned, List.mem_map]
    constructor
    · intro hno
      by_contra hp
      exact hno ⟨t, List.mem_filter.mpr ⟨hmem, by simpa using hp⟩, hid⟩
    · rintro hp ⟨u, hu, huid⟩
      have hut : p.find? id = some u := huid ▸ hfind u (List.mem_filter.mp hu).1
      obtain rfl := Option.some.inj (hut.symm.trans ht)
      simpa [hp] using (List.mem_filter.mp hu).2
  simp only [hreach]

end Validate

end TxPool

end Oxyra
