import Oxyra.Logic.PoolInfo

/-!
# Invariants of the pool's tables

The operations of the pool come down to a few moves on its tables: a row is taken
out, what a row says about relaying is rewritten, a transaction is added.

* `Stable` names the moves a property has to survive; `Stable.prune`, `Stable.validate`,
  `removeStuckTransactions_of_stable` and `setRelayed_of_stable` are the operations made
  of them.
* What adding does is left to the property (`AddStep`); `validate` asks for it only for
  a row that has just been taken out.
* `call_of_stable` is the step of an induction over a history.
-/

namespace Oxyra

namespace TxPool

variable {e : Env} {ctx : PoolContext} {p q : TxPool} {id : Hash} {tx : Transaction}
  {t u : PoolTx} {version : Nat}

/-- Two rows for one transaction that agree on its weight and on whether it is kept by a
block. -/
structure SameRow (t u : PoolTx) : Prop where
  id : t.id = u.id
  tx : t.tx = u.tx
  weight : t.info.weight = u.info.weight
  kept : t.keptByBlock = u.keptByBlock

theorem SameRow.refl (t : PoolTx) : SameRow t t := ⟨rfl, rfl, rfl, rfl⟩

theorem SameRow.trans {v : PoolTx} (h : SameRow t u) (h' : SameRow u v) : SameRow t v :=
  ⟨h.id.trans h'.id, h.tx.trans h'.tx, h.weight.trans h'.weight, h.kept.trans h'.kept⟩

theorem sameRow_markSeen (hit : List Hash) (t : PoolTx) : SameRow (markSeen hit t) t := by
  unfold markSeen
  split <;> exact ⟨rfl, rfl, rfl, rfl⟩

/-- A change of rows that leaves transaction and weight alone and does not forget that a
row is kept by a block. -/
structure Rewrites (f : PoolTx → PoolTx) (l : List PoolTx) : Prop where
  id : ∀ t ∈ l, (f t).id = t.id
  tx : ∀ t ∈ l, (f t).tx = t.tx
  weight : ∀ t ∈ l, (f t).info.weight = t.info.weight
  kept : ∀ t ∈ l, t.keptByBlock = true → (f t).keptByBlock = true

theorem Rewrites.of_sameRow {f : PoolTx → PoolTx} (h : ∀ t, SameRow (f t) t) (l : List PoolTx) :
    Rewrites f l :=
  ⟨fun t _ => (h t).id, fun t _ => (h t).tx, fun t _ => (h t).weight,
    fun t _ hk => (h t).kept.trans hk⟩

/-- A property of the tables that survives taking rows out and rewriting them. -/
structure Stable (I : TxPool → Prop) : Prop where
  nodup : ∀ {p}, I p → (p.txs.map PoolTx.id).Nodup
  same : ∀ {p q}, I p → SameTables p q → I q
  remove : ∀ {p t}, I p → p.find? t.id = some t → I (p.removeTx t)
  rewrite : ∀ {p f}, I p → Rewrites f p.txs → I { p with txs := p.txs.map f }

namespace Stable

variable {I : TxPool → Prop} (hI : Stable I)
include hI

theorem takeTx (h : I p) (id : Hash) : I (((p.takeTx id).map Prod.snd).getD p) := by
  unfold TxPool.takeTx
  cases hf : p.find? id with
  | none => exact h
  | some t =>
    obtain rfl : t.id = id := Keyed.key_of_find? hf
    exact hI.remove h hf

theorem pruneLoop (h : I p) (bytes : UInt64) (l : List SortedTx) :
    I (TxPool.pruneLoop bytes l p) := by
  induction l generalizing p with
  | nil => exact h
  | cons x rest ih =>
    unfold TxPool.pruneLoop
    split
    · exact h
    · cases hf : p.find? x.id with
      | none => exact ih h
      | some t =>
        dsimp only
        split
        · exact ih h
        · have hid : t.id = x.id := Keyed.key_of_find? hf
          exact ih (hI.remove h (hid ▸ hf))

theorem prune (h : I p) (bytes : UInt64) : I (p.prune e bytes) :=
  hI.pruneLoop h _ _

theorem rewritten {f : PoolTx → PoolTx} (h : I p) (hf : Rewrites f p.txs)
    (htxs : q.txs = p.txs.map f) (hweight : q.txpoolWeight = p.txpoolWeight)
    (himages : q.spentKeyImages = p.spentKeyImages) : I q :=
  hI.same (hI.rewrite h hf) ⟨htxs, hweight, himages⟩

theorem updateTxpoolTx {info : TxMeta} (h : I p)
    (hw : ∀ u ∈ p.txs, u.id = id → info.weight = u.info.weight)
    (hk : ∀ u ∈ p.txs, u.id = id → u.keptByBlock = true → info.relayMethod = .block) :
    I (p.updateTxpoolTx id info) := by
  refine hI.rewritten h (f := fun u => if u.id = id then { u with info := info } else u)
    ⟨fun u _ => ?_, fun u _ => ?_, fun u hu => ?_, fun u hu hkept => ?_⟩ rfl rfl rfl
  · split <;> rfl
  · split <;> rfl
  · split
    · rename_i hid
      exact hw u hu hid
    · rfl
  · split
    · rename_i hid
      simpa [PoolTx.keptByBlock] using hk u hu hid hkept
    · exact hkept

theorem removeAll (h : I p) (l : List PoolTx) (hnd : (l.map PoolTx.id).Nodup)
    (hsub : ∀ t ∈ l, p.find? t.id = some t) : I (l.foldl TxPool.removeTx p) := by
  induction l generalizing p with
  | nil => exact h
  | cons t rest ih =>
    rw [List.map_cons, List.nodup_cons] at hnd
    refine ih (hI.remove h (hsub t List.mem_cons_self)) hnd.2 fun u hu => ?_
    have hne : u.id ≠ t.id := fun heq => hnd.1 (heq ▸ List.mem_map_of_mem hu)
    rw [find?_removeTx, if_neg hne]
    exact hsub u (List.mem_cons_of_mem _ hu)

end Stable

/-! ## Rows after adding and re-validating -/

theorem AddStep.rows {w : UInt64} {relay : RelayMethod} {nic : Nat} {r : Bool × TxPool}
    (h : AddStep e p tx id w relay version nic r) (hu : u ∈ r.2.txs) :
    (∃ v ∈ p.txs, SameRow u v) ∨ NewRow tx id w relay u := by
  cases h with
  | refused same => exact .inl ⟨u, same.txs ▸ hu, .refl u⟩
  | @marked q hit txs _ _ =>
    have hu : u ∈ q.txs := hu
    rw [txs] at hu
    obtain ⟨v, hv, rfl⟩ := List.mem_map.mp hu
    exact .inl ⟨v, hv, sameRow_markSeen hit v⟩
  | filed _ _ _ txs _ => exact .inl ⟨u, txs ▸ hu, .refl u⟩
  | known _ _ same => exact .inl ⟨u, same.txs ▸ (finishAdd_sublist w).subset hu, .refl u⟩
  | @written q t _ _ row txs _ =>
    have hmem : u ∈ q.txs := (finishAdd_sublist w).subset hu
    rw [txs, List.mem_append, List.mem_singleton] at hmem
    rcases hmem with hmem | rfl
    · exact .inl ⟨u, (Keyed.mem_erase_iff.mp hmem).1, .refl u⟩
    · exact .inr row

theorem AddStep.row_of_absent {w : UInt64} {relay : RelayMethod} {nic : Nat} {r : Bool × TxPool}
    (h : AddStep e p tx id w relay version nic r) (habs : p.find? id = none) (hu : u ∈ r.2.txs)
    (hid : u.id = id) : NewRow tx id w relay u := by
  refine (h.rows hu).resolve_left ?_
  rintro ⟨v, hv, hsame⟩
  exact Keyed.find?_eq_none_iff.mp habs v hv (hsame.id.symm.trans hid)

/-- One round of `validate`: every row afterwards was there before, or is the row of the
snapshot whose turn it was. -/
theorem revalidate_rows (hv : version ≠ 0) (ht : ∀ v ∈ p.txs, v.id = t.id → SameRow v t)
    (hu : u ∈ (revalidate e ctx version p t).txs) : (∃ v ∈ p.txs, SameRow u v) ∨ SameRow u t := by
  cases hf : p.find? t.id with
  | none =>
    rw [revalidate_of_absent hv hf] at hu
    exact .inl ⟨u, hu, .refl u⟩
  | some t' =>
    have hsame : SameRow t' t := ht t' (Keyed.mem_of_find? hf) (Keyed.key_of_find? hf)
    rw [revalidate_of_find hf] at hu
    have hstep := addTx_step e ctx (p.removeTx t') t'.tx t.id t.info.weight t.info.relayMethod
      t'.info.relayed version 0
    generalize (p.removeTx t').addTx e ctx t'.tx t.id t.info.weight t.info.relayMethod
      t'.info.relayed version 0 = r at hstep hu
    have habs : (p.removeTx t').find? t.id = none := by
      rw [find?_removeTx, if_pos (Keyed.key_of_find? hf).symm]
    have hadded : ∀ v ∈ r.2.txs, v.id = t.id → SameRow v t := fun v hvm hid =>
      have hrow := hstep.row_of_absent habs hvm hid
      ⟨hid, hrow.txEq.trans hsame.tx, hrow.weight, hrow.kept⟩
    have hkept : ∀ v ∈ r.2.txs, (∃ v' ∈ p.txs, SameRow v v') ∨ SameRow v t := fun v hvm => by
      rcases hstep.rows hvm with ⟨v', hv', hsame'⟩ | hrow
      · exact .inl ⟨v', (removeTx_sublist t').subset hv', hsame'⟩
      · exact .inr (hadded v hvm hrow.idEq)
    dsimp only at hu
    split at hu
    · -- the restored meta data is that of the snapshot
      obtain ⟨v, hvm, rfl⟩ := List.mem_map.mp hu
      split
      · rename_i hid
        exact .inr ⟨hid, (hadded v hvm hid).tx, rfl, rfl⟩
      · exact hkept v hvm
    · exact hkept u hu

namespace Stable

variable {I : TxPool → Prop} (hI : Stable I)

/-- Adding a row back that has just been taken out keeps the property. -/
def Readds (e : Env) (ctx : PoolContext) (version : Nat) (I : TxPool → Prop) : Prop :=
  ∀ {p : TxPool} {t : PoolTx} (relay : RelayMethod) (relayed : Bool), I p → p.find? t.id = some t →
    (relay = .block ↔ t.keptByBlock = true) →
    I ((p.removeTx t).addTx e ctx t.tx t.id t.info.weight relay relayed version 0).2

include hI

theorem revalidate (hadd : Readds e ctx version I) (hv : version ≠ 0) (h : I p)
    (ht : ∀ v ∈ p.txs, v.id = t.id → SameRow v t) : I (TxPool.revalidate e ctx version p t) := by
  cases hf : p.find? t.id with
  | none => rwa [revalidate_of_absent hv hf]
  | some t' =>
    have hsame : SameRow t' t := ht t' (Keyed.mem_of_find? hf) (Keyed.key_of_find? hf)
    have hmethod : t.info.relayMethod = .block ↔ t'.keptByBlock = true := by
      rw [hsame.kept, PoolTx.keptByBlock, decide_eq_true_eq]
    have hin := hadd t.info.relayMethod t'.info.relayed h (hsame.id ▸ hf) hmethod
    rw [hsame.weight, hsame.id] at hin
    rw [revalidate_of_find hf]
    have hstep := addTx_step e ctx (p.removeTx t') t'.tx t.id t.info.weight t.info.relayMethod
      t'.info.relayed version 0
    generalize (p.removeTx t').addTx e ctx t'.tx t.id t.info.weight t.info.relayMethod
      t'.info.relayed version 0 = r at hin hstep ⊢
    have habs : (p.removeTx t').find? t.id = none := by
      rw [find?_removeTx, if_pos (Keyed.key_of_find? hf).symm]
    dsimp only
    split
    · refine hI.updateTxpoolTx hin (fun u hu hid => ?_) fun u hu hid hk => ?_
      · exact (hstep.row_of_absent habs hu hid).weight.symm
      · rw [(hstep.row_of_absent habs hu hid).kept] at hk
        simpa using hk
    · exact hin

theorem revalidateAll (hadd : Readds e ctx version I) (hv : version ≠ 0) (l : List PoolTx)
    (hnd : (l.map PoolTx.id).Nodup) (h : I p)
    (hl : ∀ t ∈ l, ∀ v ∈ p.txs, v.id = t.id → SameRow v t) :
    I (l.foldl (TxPool.revalidate e ctx version) p) := by
  induction l generalizing p with
  | nil => exact h
  | cons t rest ih =>
    rw [List.map_cons, List.nodup_cons] at hnd
    have ht := hl t List.mem_cons_self
    refine ih hnd.2 (hI.revalidate hadd hv h ht) fun u hu v hvm hid => ?_
    -- the rows of the others are what they were
    rcases revalidate_rows hv ht hvm with ⟨v', hv', hsame⟩ | hsame
    · exact hsame.trans (hl u (List.mem_cons_of_mem _ hu) v' hv' (hsame.id.symm.trans hid))
    · have heq : u.id = t.id := hid.symm.trans hsame.id
      exact absurd (heq ▸ List.mem_map_of_mem hu) hnd.1

theorem validate (hadd : Readds e ctx version I) (hv : version ≠ 0) (h : I p) :
    I (p.validate e ctx version) := by
  have hnd := hI.nodup h
  refine hI.revalidateAll hadd hv _ (hnd.sublist (List.filter_sublist.map _))
    (hI.same h ⟨rfl, rfl, rfl⟩) fun t ht v hvm hid => ?_
  have hfind := Keyed.find?_of_mem hnd (List.mem_filter.mp ht).1
  rw [← hid, Keyed.find?_of_mem hnd hvm] at hfind
  cases hfind
  exact .refl t

end Stable

end TxPool

/-! ## Histories -/

namespace TrackedPool

variable {e : Env} {clock : Nat → Nat} {s : TrackedPool} {I : TxPool → Prop}

theorem collectStuck_same (clock : Nat → Nat) (r : List PoolTx × TrackedPool) (t : PoolTx) :
    TxPool.SameTables r.2.pool (collectStuck clock r t).2.pool ∧
      (collectStuck clock r t).1.Sublist (r.1 ++ [t]) := by
  unfold collectStuck
  split
  · exact ⟨⟨rfl, rfl, rfl⟩, .refl _⟩
  · exact ⟨⟨rfl, rfl, rfl⟩, List.sublist_append_left _ _⟩

theorem collectStuck_foldl (clock : Nat → Nat) (l : List PoolTx) (r : List PoolTx × TrackedPool) :
    TxPool.SameTables r.2.pool (l.foldl (collectStuck clock) r).2.pool ∧
      (l.foldl (collectStuck clock) r).1.Sublist (r.1 ++ l) := by
  induction l generalizing r with
  | nil => exact ⟨⟨rfl, rfl, rfl⟩, by simp⟩
  | cons t rest ih =>
    obtain ⟨hsame, hsub⟩ := collectStuck_same clock r t
    obtain ⟨hsame', hsub'⟩ := ih (collectStuck clock r t)
    refine ⟨⟨hsame'.txs.trans hsame.txs, hsame'.weight.trans hsame.weight,
      hsame'.images.trans hsame.images⟩, hsub'.trans ?_⟩
    have := hsub.append_right rest
    rwa [List.append_assoc] at this

theorem removeStuckTransactions_of_stable (hI : TxPool.Stable I) (h : I s.pool) :
    I (s.removeStuckTransactions clock).pool := by
  obtain ⟨hsame, hsub⟩ := collectStuck_foldl clock s.pool.txs ([], s)
  have hnd := hI.nodup h
  refine hI.removeAll (hI.same h hsame) _ (hnd.sublist (hsub.map _)) fun t ht => ?_
  show Keyed.find? PoolTx.id _ _ = _
  rw [hsame.txs]
  exact Keyed.find?_of_mem hnd (hsub.subset ht)

theorem setRelayedOne_of_stable (hI : TxPool.Stable I) (method : RelayMethod) (now : Nat)
    (id : Hash) (h : I s.pool) : I (s.setRelayedOne clock method now id).pool := by
  unfold setRelayedOne
  cases hf : s.pool.find? id with
  | none => exact h
  | some t =>
    have hrow : ∀ u ∈ s.pool.txs, u.id = id → u = t := fun u hu hid => by
      have hfind := Keyed.find?_of_mem (hI.nodup h) hu
      rw [hid] at hfind
      exact Option.some.inj (hfind.symm.trans hf)
    dsimp only
    generalize hm : (if t.info.relayMethod.rank < method.rank then method
      else t.info.relayMethod) = relayMethod
    have hupdated : I (s.pool.updateTxpoolTx id
        { t.info with relayMethod := relayMethod, relayed := true }) := by
      refine hI.updateTxpoolTx h (fun u hu hid => by rw [hrow u hu hid]) fun u hu hid hk => ?_
      -- nothing ranks above `block`
      rw [hrow u hu hid, PoolTx.keptByBlock, decide_eq_true_eq] at hk
      rw [← hm, hk]
      cases method <;> rfl
    split
    · exact hI.same hupdated ⟨rfl, rfl, rfl⟩
    · exact hupdated

theorem setRelayed_of_stable (hI : TxPool.Stable I) (hashes : List Hash) (method : RelayMethod)
    (h : I s.pool) : I (s.setRelayed clock hashes method).pool :=
  List.foldlRecOn hashes _ (motive := fun s : TrackedPool => I s.pool) h
    fun _ h id _ => setRelayedOne_of_stable hI method _ id h

/-- **What a call keeps**, given what adding keeps. -/
theorem call_of_stable (hI : TxPool.Stable I) (c : PoolCall) (h : I s.pool)
    (hadd : ∀ ctx tx id w relay relayed version nic,
      c = .addTx ctx tx id w relay relayed version nic →
        I (s.pool.addTx e ctx tx id w relay relayed version nic).2)
    (hvalidate : ∀ ctx version, c = .validate ctx version →
      version ≠ 0 ∧ TxPool.Stable.Readds e ctx version I) :
    I (s.call e clock c).pool := by
  cases c with
  | addTx ctx tx id w relay relayed version nic =>
    have hpool : (s.addTx e clock ctx tx id w relay relayed version nic).2.pool =
        (s.pool.addTx e ctx tx id w relay relayed version nic).2 :=
      congrArg Prod.snd (addTx_pool ctx tx id w relay relayed version nic s)
    show I (s.addTx e clock ctx tx id w relay relayed version nic).2.pool
    rw [hpool]
    exact hadd _ _ _ _ _ _ _ _ rfl
  | takeTx id =>
    show I (s.takeTx clock id).pool
    rw [takeTx_pool]
    exact hI.takeTx h id
  | prune bytes =>
    show I (TrackedPool.pruneLoop clock _ _ s).pool
    rw [pruneLoop_pool]
    exact hI.pruneLoop h _ _
  | removeStuckTransactions => exact removeStuckTransactions_of_stable hI h
  | setRelayed hashes method => exact setRelayed_of_stable hI hashes method h
  | validate ctx version =>
    obtain ⟨hv, hreadds⟩ := hvalidate ctx version rfl
    show I (s.validate e clock ctx version).pool
    rw [validate_pool]
    exact hI.validate hreadds hv h
  | onBlockchainChange => exact hI.same h ⟨rfl, rfl, rfl⟩

theorem initRow_cases {s' : TrackedPool} {kept : Bool} {t : PoolTx}
    (h : initRow clock kept s t = some s') :
    t.keptByBlock ≠ kept ∧ s' = s ∨
    t.keptByBlock = kept ∧ s'.pool.txs = s.pool.txs ∧
      s'.pool.txpoolWeight = s.pool.txpoolWeight + t.info.weight ∧
      TxPool.insertKeyImages (s.pool.matchesLegacy t.id) t.id t.info.relayMethod t.tx.vin
        s.pool.spentKeyImages = (true, s'.pool.spentKeyImages) := by
  unfold initRow at h
  split at h
  · rename_i hkept
    cases h
    exact .inl ⟨hkept, rfl⟩
  · rename_i hkept
    dsimp only at h
    split at h
    · cases h
    · rename_i hins
      cases h
      refine .inr ⟨not_not.mp hkept, rfl, rfl, Prod.ext ?_ rfl⟩
      simpa using hins

/-- Every call of a history meets a condition, in the state it is made in. -/
def Each (e : Env) (clock : Nat → Nat) (P : TrackedPool → PoolCall → Prop) :
    TrackedPool → List PoolCall → Prop
  | _, [] => True
  | s, c :: cs => P s c ∧ Each e clock P (s.call e clock c) cs

/-- A context in which inputs and fees are always good. -/
def lenient : PoolContext where
  now := 0
  topHeight := 0
  topId := nullHash
  checkTxInputs _ _ := some (0, nullHash)
  checkFee _ _ := true

end TrackedPool

end Oxyra
