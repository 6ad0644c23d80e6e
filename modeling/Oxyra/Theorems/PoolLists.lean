import Oxyra.Lib.Listing
import Oxyra.Logic.PoolSteps
import Oxyra.Logic.Regtest

/-!
# The pool's lists and its tables

Beside the tables of the database the pool keeps the container in fee order and the map of the
times transactions came. Every operation on the tables has to be made on both.
-/

namespace Oxyra

namespace TrackedPool

variable {e : Env} {clock : Nat → Nat} {s : TrackedPool} {rows order added pending : Set Hash}
  {kept : Bool} {s' : TrackedPool} {t : PoolTx}

/-- The ids in the tables, in the container and in the map. -/
structure ListedAs (rows order added : Set Hash) (s : TrackedPool) : Prop where
  tables : Names (s.pool.txs.map PoolTx.id) rows
  container : Names (s.pool.sorted.map SortedTx.id) order
  stamps : Names (s.lists.addedTxsById.map Prod.fst) added
  known : ∀ x, x ∈ s.pool.addedTxsById ↔ x ∈ added

namespace ListedAs

/-! ## What the operations do to the lists -/

theorem map_filter_ne {α : Type} (key : α → Hash) (l : List α) (id : Hash) :
    (l.filter fun a => key a ≠ id).map key = (l.map key).filter (· ≠ id) := by
  rw [List.filter_map]
  rfl

theorem setPool (h : ListedAs rows order added s) {p : TxPool}
    (htxs : p.txs.map PoolTx.id = s.pool.txs.map PoolTx.id) (hsorted : p.sorted = s.pool.sorted)
    (hknown : p.addedTxsById = s.pool.addedTxsById) : ListedAs rows order added (s.setPool p) :=
  ⟨(congrArg (Names · rows) htxs).mpr h.tables, hsorted ▸ h.container, h.stamps, hknown ▸ h.known⟩

theorem tick (h : ListedAs rows order added s) : ListedAs rows order added s.tick :=
  ⟨h.tables, h.container, h.stamps, h.known⟩

theorem removeTxFromTransientLists (h : ListedAs rows order added s) (clock : Nat → Nat)
    (t : PoolTx) :
    ListedAs rows (order \ {t.id}) (added \ {t.id}) (s.removeTxFromTransientLists clock t) := by
  refine ⟨h.tables, ?_, ?_, fun x => ?_⟩
  · show Names ((s.pool.sorted.filter fun x => x.id ≠ t.id).map SortedTx.id) _
    rw [map_filter_ne]
    exact h.container.drop t.id
  · show Names ((TransientLists.trackRemovedTx _ _).addedTxsById.map Prod.fst) _
    rw [trackRemovedTx_addedTxsById]
    show Names ((s.lists.addedTxsById.filter fun x => x.1 ≠ t.id).map Prod.fst) _
    rw [map_filter_ne]
    exact h.stamps.drop t.id
  · show x ∈ s.pool.addedTxsById.filter (· ≠ t.id) ↔ _
    simp [h.known]

theorem removeTx (h : ListedAs rows order added s) (clock : Nat → Nat) (t : PoolTx) :
    ListedAs (rows \ {t.id}) (order \ {t.id}) (added \ {t.id}) (s.removeTx clock t) := by
  have hout := h.removeTxFromTransientLists clock t
  refine ⟨?_, hout.container, hout.stamps, hout.known⟩
  show Names ((s.pool.txs.filter fun u => u.id ≠ t.id).map PoolTx.id) _
  rw [map_filter_ne]
  exact h.tables.drop t.id

theorem setPool_removeTx (h : ListedAs rows order added s) (hnew : t.id ∉ added) :
    ListedAs (rows \ {t.id}) (order \ {t.id}) added (s.setPool (s.pool.removeTx t)) := by
  have hout := h.removeTx (fun _ => 0) t
  rw [Set.sdiff_singleton_eq_self hnew] at hout
  exact ⟨hout.tables, hout.container, h.stamps, hout.known⟩

theorem map_id_insertSorted (x : SortedTx) (l : List SortedTx) :
    ((TxPool.insertSorted x l).map SortedTx.id).Perm (x.id :: l.map SortedTx.id) := by
  induction l with
  | nil => exact .refl _
  | cons y l ih =>
    unfold TxPool.insertSorted
    split
    · exact .refl _
    · exact (ih.cons y.id).trans (.swap _ _ _)

theorem addTxToTransientLists (h : ListedAs rows order added s) (clock : Nat → Nat) (id : Hash)
    (fee now : Nat) :
    ListedAs rows (insert id order) (insert id added)
      (s.addTxToTransientLists clock id fee now) := by
  refine ⟨h.tables, ?_, ?_, fun x => ?_⟩
  · unfold TrackedPool.addTxToTransientLists TxPool.addTxToTransientLists
    dsimp only
    generalize hkept : (if id ∈ s.pool.addedTxsById then
      s.pool.sorted.filter fun x => x.id ≠ id else s.pool.sorted) = kept
    have hin : ∀ order' : Set Hash, Names (kept.map SortedTx.id) order' →
        insert id order' = insert id order →
        Names ((if kept.any (fun x => x.id = id) then kept
          else TxPool.insertSorted ⟨fee, now, id⟩ kept).map SortedTx.id) (insert id order) := by
      intro order' hnames heq
      rw [← heq]
      split
      · rename_i hany
        obtain ⟨x, hx, hid⟩ := List.any_eq_true.mp hany
        have hmem : x.id ∈ order' := (hnames.mem _).mp (List.mem_map_of_mem hx)
        rw [of_decide_eq_true hid] at hmem
        exact hnames.of_mem hmem
      · rename_i hany
        refine (hnames.cons fun hmem => hany ?_).of_perm (map_id_insertSorted _ _)
        obtain ⟨x, hx, hid⟩ := List.mem_map.mp ((hnames.mem _).mpr hmem)
        exact List.any_eq_true.mpr ⟨x, hx, decide_eq_true hid⟩
    split at hkept
    · refine hin (order \ {id}) ?_ Set.insert_sdiff_singleton
      rw [← hkept, map_filter_ne]
      exact h.container.drop id
    · exact hin order (hkept ▸ h.container) rfl
  · show Names (((id, _) :: s.lists.addedTxsById.filter fun r => r.1 ≠ id).map Prod.fst) _
    rw [List.map_cons, map_filter_ne]
    exact h.stamps.renew id
  · show x ∈ (if id ∈ s.pool.addedTxsById then _ else _ : List Hash) ↔ _
    split
    · rename_i hin
      rw [Set.insert_eq_of_mem ((h.known id).mp hin)]
      exact h.known x
    · simp [h.known]

end ListedAs

/-! ## Lists that match the tables -/

/-- The container names the stored transactions; the map names them but for some of `pending`. -/
def Listed (pending : Set Hash) (s : TrackedPool) : Prop :=
  ∃ rows missing, missing ⊆ pending ∧ ListedAs rows rows (rows \ missing) s

namespace Listed

theorem mono {pending' : Set Hash} (h : Listed pending s) (hsub : pending ⊆ pending') :
    Listed pending' s := by
  obtain ⟨rows, missing, hmissing, hlisted⟩ := h
  exact ⟨rows, missing, hmissing.trans hsub, hlisted⟩

theorem container (h : Listed pending s) :
    (s.pool.sorted.map SortedTx.id).Perm (s.pool.txs.map PoolTx.id) := by
  obtain ⟨rows, missing, -, hlisted⟩ := h
  exact hlisted.container.perm hlisted.tables

theorem nodup (h : Listed pending s) : (s.pool.txs.map PoolTx.id).Nodup := by
  obtain ⟨rows, missing, -, hlisted⟩ := h
  exact hlisted.tables.nodup

theorem map_perm (h : Listed ∅ s) :
    (s.lists.addedTxsById.map Prod.fst).Perm (s.pool.txs.map PoolTx.id) := by
  obtain ⟨rows, missing, hmissing, hlisted⟩ := h
  obtain rfl := Set.subset_empty_iff.mp hmissing
  rw [Set.sdiff_empty] at hlisted
  exact hlisted.stamps.perm hlisted.tables

theorem setPool (h : Listed pending s) {p : TxPool}
    (htxs : p.txs.map PoolTx.id = s.pool.txs.map PoolTx.id) (hsorted : p.sorted = s.pool.sorted)
    (hknown : p.addedTxsById = s.pool.addedTxsById) : Listed pending (s.setPool p) := by
  obtain ⟨rows, missing, hmissing, hlisted⟩ := h
  exact ⟨rows, missing, hmissing, hlisted.setPool htxs hsorted hknown⟩

theorem removeTx (h : Listed pending s) (t : PoolTx) : Listed pending (s.removeTx clock t) := by
  obtain ⟨rows, missing, hmissing, hlisted⟩ := h
  refine ⟨rows \ {t.id}, missing, hmissing, ?_⟩
  have hout := hlisted.removeTx clock t
  rwa [Set.sdiff_sdiff_comm] at hout

theorem relist (h : Listed pending s) {id : Hash} {p : TxPool} (fee now : Nat)
    (htxs : ∀ rows, Names (s.pool.txs.map PoolTx.id) rows →
      Names (p.txs.map PoolTx.id) (insert id rows))
    (hsorted : p.sorted = s.pool.sorted) (hknown : p.addedTxsById = s.pool.addedTxsById) :
    Listed (pending \ {id}) ((s.setPool p).addTxToTransientLists clock id fee now) := by
  obtain ⟨rows, missing, hmissing, hlisted⟩ := h
  refine ⟨insert id rows, missing \ {id}, Set.sdiff_subset_sdiff_left hmissing, ?_⟩
  have hput : ListedAs (insert id rows) rows (rows \ missing) (s.setPool p) :=
    ⟨htxs rows hlisted.tables, hsorted ▸ hlisted.container, hlisted.stamps,
      hknown ▸ hlisted.known⟩
  have hin := hput.addTxToTransientLists clock id fee now
  have hsets : insert id (rows \ missing) = insert id rows \ (missing \ {id}) := by
    ext x
    by_cases hx : x = id <;> simp [hx]
  rwa [hsets] at hin

/-! ## Taking, pruning, adding -/

theorem takeTx (h : Listed pending s) (id : Hash) : Listed pending (s.takeTx clock id) := by
  unfold TrackedPool.takeTx
  split
  · exact h
  · exact h.removeTx _

theorem pruneLoop (h : Listed pending s) (bytes : UInt64) (l : List SortedTx) :
    Listed pending (pruneLoop clock bytes l s) := by
  induction l generalizing s with
  | nil => exact h
  | cons x rest ih =>
    unfold TrackedPool.pruneLoop
    split
    · exact h
    · split
      · exact ih h
      · split
        · exact ih h
        · exact ih (h.removeTx _)

theorem finishAdd (h : Listed pending s) (w : UInt64) : Listed pending (s.finishAdd e clock w) := by
  refine pruneLoop (h.setPool ?_ ?_ ?_) _ _ <;> rfl

theorem names_written {l : List PoolTx} {rows : Set Hash} (h : Names (l.map PoolTx.id) rows) :
    Names ((Keyed.erase PoolTx.id l t.id ++ [t]).map PoolTx.id) (insert t.id rows) := by
  have hids : ((Keyed.erase PoolTx.id l t.id ++ [t]).map PoolTx.id).Perm
      (t.id :: (l.map PoolTx.id).filter (· ≠ t.id)) := by
    rw [List.map_append, Keyed.erase, ListedAs.map_filter_ne]
    exact List.perm_append_singleton _ _
  exact (h.renew t.id).of_perm hids

theorem written (h : Listed pending s) {p : TxPool} (fee now : Nat) (w : UInt64)
    (htxs : p.txs = Keyed.erase PoolTx.id s.pool.txs t.id ++ [t])
    (hsorted : p.sorted = s.pool.sorted) (hknown : p.addedTxsById = s.pool.addedTxsById) :
    Listed (pending \ {t.id})
      (((s.setPool p).addTxToTransientLists clock t.id fee now).finishAdd e clock w) :=
  (h.relist fee now (fun _ hrows => htxs ▸ names_written hrows) hsorted hknown).finishAdd w

theorem addUnverified (h : Listed pending s) (ctx : PoolContext) (tx : Transaction) (id : Hash)
    (w : UInt64) (relay : RelayMethod) (relayed : Bool) :
    Listed pending (s.addUnverified e clock ctx tx id w relay relayed).2 := by
  unfold TrackedPool.addUnverified
  split
  · exact h
  · extract_lets info r p
    split
    · exact h.setPool rfl rfl rfl
    · split
      · exact h.setPool rfl rfl rfl
      · rename_i hhave
        have habs : Keyed.find? PoolTx.id s.pool.txs id = none := by
          simpa [p, TxPool.haveTx, TxPool.find?] using hhave
        refine mono (written (t := ⟨id, tx, info⟩) h _ _ w ?_ ?_ ?_) Set.sdiff_subset
        · rw [Keyed.erase_eq_self habs]
        · rfl
        · rfl

theorem addVerified (h : Listed pending s) (ctx : PoolContext) (tx : Transaction) (id : Hash)
    (w : UInt64) (relay : RelayMethod) (relayed : Bool) (maxUsed : Nat × Hash) :
    Listed pending (s.addVerified e clock ctx tx id w relay relayed maxUsed).2 := by
  unfold TrackedPool.addVerified
  extract_lets existing relay' previous info r p
  split
  · split
    · exact h.setPool rfl rfl rfl
    · refine mono (written (t := ⟨id, tx, info⟩) h _ _ w ?_ ?_ ?_) Set.sdiff_subset <;> rfl
  · exact h.finishAdd w

theorem map_id_markDoubleSpend (p : TxPool) (tx : Transaction) :
    (p.markDoubleSpend tx).txs.map PoolTx.id = p.txs.map PoolTx.id := by
  show (p.txs.map _).map PoolTx.id = _
  rw [List.map_map]
  exact List.map_congr_left fun t _ => (TxPool.sameRow_markSeen _ t).id

theorem addTx (h : Listed pending s) (ctx : PoolContext) (tx : Transaction) (id : Hash)
    (w : UInt64) (relay : RelayMethod) (relayed : Bool) (version nic : Nat) :
    Listed pending (s.addTx e clock ctx tx id w relay relayed version nic).2 := by
  unfold TrackedPool.addTx
  dsimp only
  split
  · exact h
  split
  · exact h
  split
  · exact h
  split
  · exact h
  split
  · exact h
  split
  · exact h.setPool (map_id_markDoubleSpend _ _) rfl rfl
  · have hlists : ∀ {verdict p}, s.pool.checkTxInputs ctx tx id (decide (relay = .block)) =
        (verdict, p) → Listed pending (s.setPool p) := by
      intro verdict p hcheck
      unfold TxPool.checkTxInputs at hcheck
      split at hcheck
      · cases hcheck
        exact h
      · split at hcheck
        · cases hcheck
          exact h
        · cases hcheck
          refine h.setPool ?_ ?_ ?_ <;> rfl
    split
    · rename_i hcheck
      exact (hlists hcheck).addUnverified ctx tx id w relay relayed
    · rename_i hcheck
      exact (hlists hcheck).addVerified ctx tx id w relay relayed _

/-! ## Validating -/

theorem settle (h : Listed pending s) {id : Hash} (habs : s.pool.find? id = none) :
    Listed (pending \ {id}) s := by
  obtain ⟨rows, missing, hmissing, hlisted⟩ := h
  refine ⟨rows, missing \ {id}, Set.sdiff_subset_sdiff_left hmissing, ?_⟩
  have hnot : id ∉ rows := fun hin => by
    obtain ⟨t, ht, hid⟩ := List.mem_map.mp ((hlisted.tables.mem id).mpr hin)
    exact Keyed.find?_eq_none_iff.mp habs t ht hid
  have hsets : rows \ missing = rows \ (missing \ {id}) := by
    ext x
    by_cases hx : x = id
    · simp [hx, hnot]
    · simp [hx]
  rwa [hsets] at hlisted

theorem map_id_updateTxpoolTx (p : TxPool) (id : Hash) (info : TxMeta) :
    (p.updateTxpoolTx id info).txs.map PoolTx.id = p.txs.map PoolTx.id := by
  show (p.txs.map _).map PoolTx.id = _
  rw [List.map_map]
  refine List.map_congr_left fun t _ => ?_
  dsimp only [Function.comp_apply]
  split <;> rfl

theorem revalidate (h : Listed pending s) (ctx : PoolContext) (version : Nat) (t : PoolTx) :
    Listed (pending \ {t.id}) (s.revalidate e clock ctx version t) := by
  have htaken : Listed (pending \ {t.id}) (s.takeTx clock t.id) :=
    (h.takeTx t.id).settle (find?_takeTx t.id)
  unfold TrackedPool.revalidate
  dsimp only
  split
  · exact (htaken.addTx ctx _ _ _ _ _ _ _).setPool (map_id_updateTxpoolTx _ _ _) rfl rfl
  · exact htaken.addTx ctx _ _ _ _ _ _ _

theorem revalidateAll (h : Listed pending s) (ctx : PoolContext) (version : Nat)
    (l : List PoolTx) :
    Listed (pending \ {x | x ∈ l.map PoolTx.id})
      (l.foldl (fun s t => s.revalidate e clock ctx version t) s) := by
  induction l generalizing s pending with
  | nil => exact h.mono (by simp)
  | cons t rest ih =>
    refine (ih (h.revalidate ctx version t)).mono fun x hx => ?_
    simp only [Set.mem_sdiff, Set.mem_singleton_iff, Set.mem_ofPred_eq] at hx
    simp only [Set.mem_sdiff, Set.mem_ofPred_eq, List.map_cons, List.mem_cons, not_or]
    exact ⟨hx.1.1, hx.1.2, hx.2⟩

/-- **`validate` lists everything again but what is pruned.** -/
theorem validate (h : Listed pending s) (ctx : PoolContext) (version : Nat) :
    Listed {x | ∃ t ∈ s.pool.txs, t.id = x ∧ t.info.pruned = true}
      (s.validate e clock ctx version) := by
  obtain ⟨rows, missing, -, hlisted⟩ := h
  have hcleared : Listed rows
      { s with pool := { s.pool with addedTxsById := [] }, lists := {} } := by
    refine ⟨rows, rows, subset_rfl, hlisted.tables, hlisted.container, ?_, fun x => ?_⟩
    · rw [Set.sdiff_self]
      exact .nil
    · simp
  refine (hcleared.revalidateAll ctx version _).mono ?_
  rintro x ⟨hx, hnot⟩
  obtain ⟨t, ht, rfl⟩ := List.mem_map.mp ((hlisted.tables.mem x).mpr hx)
  refine ⟨t, ht, rfl, ?_⟩
  by_contra hpruned
  exact hnot (List.mem_map_of_mem (List.mem_filter.mpr ⟨ht, by simpa using hpruned⟩))

/-! ## Expiry and relaying -/

theorem setRelayedOne (h : Listed pending s) (method : RelayMethod) (now : Nat) (id : Hash) :
    Listed pending (s.setRelayedOne clock method now id) := by
  unfold TrackedPool.setRelayedOne
  cases hf : s.pool.find? id with
  | none => exact h
  | some t =>
    dsimp only
    generalize (if t.info.relayMethod.rank < method.rank then method
      else t.info.relayMethod) = relayMethod
    split
    · have hin : ∀ rows, Names (s.pool.txs.map PoolTx.id) rows → id ∈ rows := fun rows hrows =>
        (hrows.mem id).mp
          (List.mem_map.mpr ⟨t, Keyed.mem_of_find? hf, Keyed.key_of_find? hf⟩)
      refine (relist h _ now (fun rows hrows => ?_) ?_ ?_).mono Set.sdiff_subset
      · rw [map_id_updateTxpoolTx]
        exact hrows.of_mem (hin rows hrows)
      · rfl
      · rfl
    · exact h.setPool (map_id_updateTxpoolTx _ _ _) rfl rfl

theorem setRelayed (h : Listed pending s) (hashes : List Hash) (method : RelayMethod) :
    Listed pending (s.setRelayed clock hashes method) := by
  have htick : Listed pending s.tick := by
    obtain ⟨rows, missing, hmissing, hlisted⟩ := h
    exact ⟨rows, missing, hmissing, hlisted.tick⟩
  exact List.foldlRecOn hashes _ (motive := Listed pending) htick
    fun _ h id _ => h.setRelayedOne method _ id

def idsOf (l : List PoolTx) : Set Hash := {x | x ∈ l.map PoolTx.id}

theorem sdiff_idsOf_concat (S : Set Hash) (l : List PoolTx) (t : PoolTx) :
    S \ idsOf (l ++ [t]) = (S \ idsOf l) \ {t.id} := by
  ext x
  simp [idsOf, and_assoc]

theorem collectStuck {rows order added : Set Hash} (l : List PoolTx) :
    ∀ {r : List PoolTx × TrackedPool},
      ListedAs rows (order \ idsOf r.1) (added \ idsOf r.1) r.2 →
      ListedAs rows (order \ idsOf (l.foldl (collectStuck clock) r).1)
        (added \ idsOf (l.foldl (collectStuck clock) r).1)
        (l.foldl (collectStuck clock) r).2 := by
  induction l with
  | nil => exact fun h => h
  | cons t rest ih =>
    intro r h
    refine ih ?_
    unfold TrackedPool.collectStuck
    split
    · have hout := h.tick.removeTxFromTransientLists clock t
      rw [← sdiff_idsOf_concat, ← sdiff_idsOf_concat] at hout
      refine hout.setPool ?_ ?_ ?_ <;> rfl
    · exact h.tick

theorem removeAll {rows order added : Set Hash} (l : List PoolTx) :
    ∀ {s : TrackedPool} {p : TxPool}, ListedAs rows order added (s.setPool p) →
      (∀ t ∈ l, t.id ∉ added) →
      ListedAs (rows \ idsOf l) (order \ idsOf l) added
        (s.setPool (l.foldl TxPool.removeTx p)) := by
  induction l generalizing rows order with
  | nil =>
    intro s p h _
    simpa [idsOf] using h
  | cons t rest ih =>
    intro s p h hnew
    have hout := ih (s := s) (h.setPool_removeTx (hnew t List.mem_cons_self))
      fun u hu => hnew u (List.mem_cons_of_mem _ hu)
    have hsets : ∀ S : Set Hash, (S \ {t.id}) \ idsOf rest = S \ idsOf (t :: rest) := fun S => by
      ext x
      simp [idsOf, and_assoc]
    rwa [hsets, hsets] at hout

/-- **Expiry keeps the lists**: what leaves them in the first loop leaves the tables in the
second. -/
theorem removeStuckTransactions (h : Listed pending s) :
    Listed pending (s.removeStuckTransactions clock) := by
  obtain ⟨rows, missing, hmissing, hlisted⟩ := h
  have hstart : ListedAs rows (rows \ idsOf []) ((rows \ missing) \ idsOf []) s := by
    simpa [idsOf] using hlisted
  have hcollected : ListedAs rows _ _
      (s.pool.txs.foldl (TrackedPool.collectStuck clock) ([], s)).2 :=
    collectStuck s.pool.txs hstart
  unfold TrackedPool.removeStuckTransactions
  generalize s.pool.txs.foldl (TrackedPool.collectStuck clock) ([], s) = r at hcollected
  have hout := removeAll r.1 (s := r.2) (p := r.2.pool) hcollected fun t ht hin =>
    hin.2 (List.mem_map_of_mem ht)
  refine ⟨rows \ idsOf r.1, missing, hmissing, ?_⟩
  have htwice : (rows \ idsOf r.1) \ idsOf r.1 = rows \ idsOf r.1 := by
    ext x
    simp
  rwa [htwice, Set.sdiff_sdiff_comm] at hout

end Listed

/-! ## Histories -/

theorem listedAs_initRow {listed : Set Hash} (h : ListedAs rows listed listed s)
    (hrow : initRow clock kept s t = some s') :
    ListedAs rows (if t.keptByBlock = kept then insert t.id listed else listed)
      (if t.keptByBlock = kept then insert t.id listed else listed) s' := by
  unfold initRow at hrow
  split at hrow
  · rename_i hkept
    cases hrow
    rw [if_neg hkept]
    exact h
  · rename_i hkept
    rw [if_pos (not_not.mp hkept)]
    dsimp only at hrow
    split at hrow
    · cases hrow
    · cases hrow
      have hin : ∀ images, ListedAs rows listed listed
          (s.setPool { s.pool with spentKeyImages := images }) := fun images => by
        refine h.setPool ?_ ?_ ?_ <;> rfl
      refine ((hin _).addTxToTransientLists clock _ _ _).setPool ?_ ?_ ?_ <;> rfl

theorem listedAs_initRows (l : List PoolTx) {s : TrackedPool} {listed : Set Hash}
    (h : ListedAs rows listed listed s) (hrows : l.foldlM (initRow clock kept) s = some s') :
    let listed' := listed ∪ {x | ∃ t ∈ l, t.keptByBlock = kept ∧ t.id = x}
    ListedAs rows listed' listed' s' := by
  induction l generalizing s listed with
  | nil =>
    cases hrows
    simpa using h
  | cons t rest ih =>
    rw [List.foldlM_cons] at hrows
    obtain ⟨s₁, hfirst, hrest⟩ := Option.bind_eq_some_iff.mp hrows
    have hlast := ih (listedAs_initRow h hfirst) hrest
    have hsets : (if t.keptByBlock = kept then insert t.id listed else listed) ∪
        {x | ∃ u ∈ rest, u.keptByBlock = kept ∧ u.id = x} =
        listed ∪ {x | ∃ u ∈ t :: rest, u.keptByBlock = kept ∧ u.id = x} := by
      ext x
      split
      · rename_i hkept
        simp [hkept, or_assoc, or_left_comm, eq_comm]
      · rename_i hkept
        simp [hkept]
    rwa [hsets] at hlast

/-- **After `init` the lists name what is stored.** -/
theorem listed_init {p : TxPool} (hids : (p.txs.map PoolTx.id).Nodup)
    (h : init clock p = some s) : Listed ∅ s := by
  obtain ⟨s₁, hfirst, hsecond⟩ := Option.bind_eq_some_iff.mp h
  have hstart : ListedAs {x | x ∈ p.txs.map PoolTx.id} ∅ ∅ { pool := { p with
      sorted := [], addedTxsById := [], spentKeyImages := [], txpoolWeight := 0, cookie := 0 } } :=
    ⟨⟨hids, fun _ => .rfl⟩, .nil, .nil, by simp⟩
  have hdone := listedAs_initRows p.txs (listedAs_initRows p.txs hstart hfirst) hsecond
  have hsets : (∅ ∪ {x | ∃ t ∈ p.txs, t.keptByBlock = false ∧ t.id = x}) ∪
      {x | ∃ t ∈ p.txs, t.keptByBlock = true ∧ t.id = x} = {x | x ∈ p.txs.map PoolTx.id} := by
    ext x
    simp only [Set.empty_union, Set.mem_union, Set.mem_ofPred_eq, List.mem_map]
    constructor
    · rintro (⟨t, ht, -, hid⟩ | ⟨t, ht, -, hid⟩) <;> exact ⟨t, ht, hid⟩
    · rintro ⟨t, ht, hid⟩
      cases hk : t.keptByBlock with
      | false => exact .inl ⟨t, ht, hk, hid⟩
      | true => exact .inr ⟨t, ht, hk, hid⟩
  rw [hsets] at hdone
  exact ⟨_, ∅, subset_rfl, by rwa [Set.sdiff_empty]⟩

theorem txs_initRows (l : List PoolTx) {s : TrackedPool}
    (h : l.foldlM (initRow clock kept) s = some s') : s'.pool.txs = s.pool.txs := by
  induction l generalizing s with
  | nil =>
    cases h
    rfl
  | cons t rest ih =>
    rw [List.foldlM_cons] at h
    obtain ⟨s₁, hfirst, hrest⟩ := Option.bind_eq_some_iff.mp h
    rw [ih hrest]
    rcases initRow_cases hfirst with ⟨-, rfl⟩ | ⟨-, htxs, -, -⟩
    · rfl
    · exact htxs

theorem txs_init {p : TxPool} (h : init clock p = some s) : s.pool.txs = p.txs := by
  obtain ⟨s₁, hfirst, hsecond⟩ := Option.bind_eq_some_iff.mp h
  exact (txs_initRows _ hsecond).trans (txs_initRows _ hfirst)

/-! ## Pruned transactions -/

def Unpruned (p : TxPool) : Prop :=
  ∀ t ∈ p.txs, t.tx.pruned = false ∧ t.info.pruned = false

namespace Unpruned

variable {p q : TxPool}

theorem sublist (h : Unpruned p) (hsub : q.txs.Sublist p.txs) : Unpruned q :=
  fun t ht => h t (hsub.subset ht)

theorem addTx (h : Unpruned p) (ctx : PoolContext) {tx : Transaction} (htx : tx.pruned = false)
    (id : Hash) (w : UInt64) (relay : RelayMethod) (relayed : Bool) (version nic : Nat) :
    Unpruned (p.addTx e ctx tx id w relay relayed version nic).2 := by
  have hstep := TxPool.addTx_step e ctx p tx id w relay relayed version nic
  generalize p.addTx e ctx tx id w relay relayed version nic = r at hstep
  cases hstep with
  | refused same => exact fun t ht => h t (same.txs ▸ ht)
  | marked txs _ _ =>
    intro t ht
    obtain ⟨u, hu, rfl⟩ := List.mem_map.mp (txs ▸ ht)
    unfold TxPool.markSeen
    split <;> exact h u hu
  | filed _ _ _ txs _ => exact fun t ht => h t (txs ▸ ht)
  | known _ _ same => exact fun t ht => h t (same.txs ▸ (TxPool.finishAdd_sublist w).subset ht)
  | @written q t _ _ row txs _ =>
    intro u hu
    have hmem : u ∈ q.txs := (TxPool.finishAdd_sublist w).subset hu
    rw [txs, List.mem_append, List.mem_singleton] at hmem
    rcases hmem with hmem | rfl
    · exact h u (Keyed.mem_erase_iff.mp hmem).1
    · exact ⟨row.txEq ▸ htx, row.pruned.trans htx⟩

theorem updateTxpoolTx (h : Unpruned p) {info : TxMeta} (hinfo : info.pruned = false) (id : Hash) :
    Unpruned (p.updateTxpoolTx id info) := by
  intro t ht
  obtain ⟨u, hu, rfl⟩ := List.mem_map.mp ht
  split
  · exact ⟨(h u hu).1, hinfo⟩
  · exact h u hu

theorem takeTx (h : Unpruned p) (id : Hash) : Unpruned (((p.takeTx id).map Prod.snd).getD p) := by
  unfold TxPool.takeTx
  cases p.find? id with
  | none => exact h
  | some t => exact h.sublist (TxPool.removeTx_sublist t)

theorem revalidate (h : Unpruned p) (ctx : PoolContext) (version : Nat)
    (ht : t.info.pruned = false) : Unpruned (p.revalidate e ctx version t) := by
  have htx : (((p.takeTx t.id).map fun r => r.1.tx).getD ({} : Transaction)).pruned = false := by
    unfold TxPool.takeTx
    cases hf : p.find? t.id with
    | none => rfl
    | some u => exact (h u (Keyed.mem_of_find? hf)).1
  unfold TxPool.revalidate
  dsimp only
  split
  · exact ((h.takeTx t.id).addTx ctx htx _ _ _ _ _ _).updateTxpoolTx ht _
  · exact (h.takeTx t.id).addTx ctx htx _ _ _ _ _ _

theorem validate (h : Unpruned p) (ctx : PoolContext) (version : Nat) :
    Unpruned (p.validate e ctx version) :=
  List.foldlRecOn _ _ (motive := Unpruned) (show Unpruned { p with addedTxsById := [] } from h)
    fun _ h t ht => h.revalidate ctx version (by simpa using (List.mem_filter.mp ht).2)

theorem removeStuckTransactions (h : Unpruned s.pool) :
    Unpruned (s.removeStuckTransactions clock).pool := by
  obtain ⟨hsame, -⟩ := collectStuck_foldl clock s.pool.txs ([], s)
  exact List.foldlRecOn _ _ (motive := Unpruned) (fun t ht => h t (hsame.txs ▸ ht))
    fun _ h t _ => h.sublist (TxPool.removeTx_sublist t)

theorem setRelayed (h : Unpruned s.pool) (hashes : List Hash) (method : RelayMethod) :
    Unpruned (s.setRelayed clock hashes method).pool := by
  refine List.foldlRecOn hashes _ (motive := fun s : TrackedPool => Unpruned s.pool) h
    fun s h id _ => ?_
  unfold TrackedPool.setRelayedOne
  cases hf : s.pool.find? id with
  | none => exact h
  | some t =>
    have hpruned := (h t (Keyed.mem_of_find? hf)).2
    dsimp only
    generalize (if t.info.relayMethod.rank < method.rank then method
      else t.info.relayMethod) = relayMethod
    have hupdated : Unpruned (s.pool.updateTxpoolTx id
        { t.info with relayMethod := relayMethod, relayed := true }) := by
      refine h.updateTxpoolTx ?_ id
      exact hpruned
    split <;> exact hupdated

end Unpruned

/-- A pruned transaction is not handed in: `pop_block_from_blockchain` leaves those out. -/
def PrunedLeftOut : PoolCall → Prop
  | .addTx _ tx _ _ _ _ _ _ => tx.pruned = false
  | _ => True

theorem Unpruned.call (h : Unpruned s.pool) {c : PoolCall} (hc : PrunedLeftOut c) :
    Unpruned (s.call e clock c).pool := by
  cases c with
  | addTx ctx tx id w relay relayed version nic =>
    show Unpruned (tables (s.addTx e clock ctx tx id w relay relayed version nic)).2
    rw [addTx_pool]
    exact h.addTx ctx hc _ _ _ _ _ _
  | takeTx id =>
    show Unpruned (s.takeTx clock id).pool
    rw [takeTx_pool]
    exact h.takeTx id
  | prune bytes =>
    show Unpruned (TrackedPool.pruneLoop clock _ _ s).pool
    rw [pruneLoop_pool]
    exact h.sublist (TxPool.pruneLoop_sublist _ _ _)
  | removeStuckTransactions => exact h.removeStuckTransactions
  | setRelayed hashes method => exact h.setRelayed hashes method
  | validate ctx version =>
    show Unpruned (s.validate e clock ctx version).pool
    rw [validate_pool]
    exact h.validate ctx version
  | onBlockchainChange => exact h

/-- **What a call leaves pending**: nothing new, as long as nothing stored is pruned. -/
theorem listed_call (h : Listed pending s) (hwhole : Unpruned s.pool) (c : PoolCall) :
    Listed pending (s.call e clock c) := by
  cases c with
  | addTx ctx tx id w relay relayed version nic =>
    exact h.addTx ctx tx id w relay relayed version nic
  | takeTx id => exact h.takeTx id
  | prune bytes => exact h.pruneLoop _ _
  | removeStuckTransactions => exact h.removeStuckTransactions
  | setRelayed hashes method => exact h.setRelayed hashes method
  | validate ctx version =>
    refine (h.validate ctx version).mono ?_
    rintro x ⟨t, ht, -, hpruned⟩
    exact absurd hpruned (by simp [(hwhole t ht).2])
  | onBlockchainChange => exact h.setPool rfl rfl rfl

theorem listed_calls (cs : List PoolCall) (h : Listed pending s) (hwhole : Unpruned s.pool)
    (hcs : ∀ c ∈ cs, PrunedLeftOut c) : Listed pending (s.calls e clock cs) := by
  induction cs generalizing s with
  | nil => exact h
  | cons c cs ih =>
    exact ih (listed_call h hwhole c) (hwhole.call (hcs c List.mem_cons_self))
      fun c' hc' => hcs c' (List.mem_cons_of_mem _ hc')

/-- **The lists match the tables.** After any history from `init` without a pruned transaction the
container in fee order and the map of times name the stored transactions, each once. -/
theorem pool_lists_match (e : Env) (clock : Nat → Nat) (p : TxPool)
    (hids : (p.txs.map PoolTx.id).Nodup) (hwhole : Unpruned p) (s₀ : TrackedPool)
    (hinit : init clock p = some s₀) (cs : List PoolCall) (hcs : ∀ c ∈ cs, PrunedLeftOut c) :
    let s := s₀.calls e clock cs
    (s.pool.txs.map PoolTx.id).Nodup ∧
      (s.pool.sorted.map SortedTx.id).Perm (s.pool.txs.map PoolTx.id) ∧
      (s.lists.addedTxsById.map Prod.fst).Perm (s.pool.txs.map PoolTx.id) := by
  intro s
  have hlisted : Listed ∅ s :=
    listed_calls cs (listed_init hids hinit) (fun t ht => hwhole t (txs_init hinit ▸ ht)) hcs
  exact ⟨hlisted.nodup, hlisted.container, hlisted.map_perm⟩

/-- One transaction comes along the stem and is then relayed, one comes back with a popped block,
one is taken out. -/
theorem pool_lists_match_relayed :
    let cs := [.addTx lenient (regtestTx 2 10 0 1) 2 100 .stem false 1 1,
      .setRelayed [2] .fluff, .addTx lenient (regtestTx 1 10 0 1) 1 100 .block true 1 1,
      .validate lenient 1, .takeTx 2]
    let s := ({} : TrackedPool).calls (regtest (schedule 1 [])) id cs
    init id {} = some {} ∧ s.pool.txs.map PoolTx.id = [1] ∧
      (s.pool.sorted.map SortedTx.id).Perm (s.pool.txs.map PoolTx.id) ∧
      (s.lists.addedTxsById.map Prod.fst).Perm (s.pool.txs.map PoolTx.id) := by
  intro cs s
  have hcs : ∀ c ∈ cs, PrunedLeftOut c := by simp [cs, PrunedLeftOut, regtestTx]
  exact ⟨rfl, by decide +kernel,
    (pool_lists_match _ id {} .nil (fun t ht => absurd ht (by simp)) {} rfl cs hcs).2⟩

end TrackedPool

end Oxyra
