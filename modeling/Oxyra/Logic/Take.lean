import Oxyra.Logic.Pool
import Oxyra.Logic.Accept

/-!
# The loop that pulls a block's transactions

`takeBlockTxs` removes the listed transactions from the pool one by one, with
the supplement as a second source. `Taking` is its invariant: the pool is the
one before the call minus what has been taken from it, and every taken record
describes the row or the supplement entry it came from.
-/

namespace Oxyra

variable {e : Env} {p : TxPool} {ps : PoolSupplement} {st st' : TakeState} {id : Hash}

/-- The supplement files each transaction under its own id, as its builders
do. -/
def PoolSupplement.Ok (e : Env) (ps : PoolSupplement) : Prop :=
  ∀ r ∈ ps.txsByTxid, r.1 = e.getTransactionHash r.2

theorem PoolSupplement.ok_empty : ({} : PoolSupplement).Ok e :=
  fun r hr => absurd hr (by simp)

def poolIds (taken : List TakenTx) : List Hash :=
  (taken.filter TakenTx.fromPool).map TakenTx.id

theorem poolIds_snoc (taken : List TakenTx) (t : TakenTx) :
    poolIds (taken ++ [t]) = poolIds taken ++ if t.fromPool then [t.id] else [] := by
  cases h : t.fromPool <;> simp [poolIds, h]

/-- The recorded weight of a pool once the records have been taken from it. -/
def weightWithout (p : TxPool) (taken : List TakenTx) : UInt64 :=
  (taken.filter TakenTx.fromPool).foldl (fun w t => TxPool.reducedWeight w t.weight) p.txpoolWeight

theorem weightWithout_snoc (p : TxPool) (taken : List TakenTx) (t : TakenTx) :
    weightWithout p (taken ++ [t]) =
      if t.fromPool then TxPool.reducedWeight (weightWithout p taken) t.weight
      else weightWithout p taken := by
  cases h : t.fromPool <;> simp [weightWithout, h]

/-- The fee-sorted container of a pool without the records taken from it. -/
def sortedWithout (p : TxPool) (taken : List TakenTx) : List SortedTx :=
  p.sorted.filter fun x => x.id ∉ poolIds taken

/-- Where a taken record came from: a row of the pool `p` or the supplement. -/
inductive TakenFrom (e : Env) (p : TxPool) (ps : PoolSupplement) (t : TakenTx) : Prop
  | pool (row : PoolTx) (found : p.find? t.id = some row)
      (eq : t = ⟨row.id, row.tx, row.info.weight, row.info.fee, row.info.pruned, true⟩)
  | supplement (found : ps.txsByTxid.lookup t.id = some t.tx)
      (eq : t = ⟨t.id, t.tx,
        if t.tx.pruned then e.getPrunedTransactionWeight t.tx else e.getTransactionWeight t.tx,
        getTxFee t.tx, t.tx.pruned, false⟩)

/-- The loop's invariant, over the pool and the supplement it started with. -/
structure Taking (e : Env) (p : TxPool) (ps : PoolSupplement) (st : TakeState) : Prop where
  pool : ∀ id, st.pool.find? id = if id ∈ poolIds st.taken then none else p.find? id
  sublist : st.pool.txs.Sublist p.txs
  supplement : ∀ id tx, st.ps.txsByTxid.lookup id = some tx → ps.txsByTxid.lookup id = some tx
  source : ∀ t ∈ st.taken, TakenFrom e p ps t
  nodup : (poolIds st.taken).Nodup
  gone : ∀ t ∈ st.taken, st.pool.find? t.id = none
  weight : st.pool.txpoolWeight = weightWithout p st.taken
  sorted : st.pool.sorted = sortedWithout p st.taken
  added : ∀ id ∈ poolIds st.taken, id ∉ st.pool.addedTxsById

theorem Taking.start (e : Env) (p : TxPool) (ps : PoolSupplement) :
    Taking e p ps { pool := p, ps := ps } where
  pool _ := by simp [poolIds]
  sublist := .refl _
  supplement _ _ h := h
  source _ h := absurd h (by simp)
  nodup := by simp [poolIds]
  gone _ h := absurd h (by simp)
  weight := rfl
  sorted := by simp [sortedWithout, poolIds]
  added _ h := absurd h (by simp [poolIds])

theorem Taking.takeOne (h : Taking e p ps st) {t : TakenTx}
    (ht : takeOne e st id = some (t, st')) :
    t.id = id ∧ st'.taken = st.taken ∧ Taking e p ps { st' with taken := st.taken ++ [t] } := by
  unfold Oxyra.takeOne TxPool.takeTx at ht
  cases hf : st.pool.find? id with
  | some row =>
    rw [hf] at ht
    obtain ⟨rfl, rfl⟩ := Prod.mk.inj (Option.some.inj ht)
    have hid : row.id = id := Keyed.key_of_find? hf
    have hp := h.pool id
    rw [hf] at hp
    -- the row was still there, so the id has not been taken before
    have hnew : id ∉ poolIds st.taken := fun hm => absurd hp (by simp [hm])
    rw [if_neg hnew] at hp
    refine ⟨rfl, rfl, ?_, ?_, h.supplement, ?_, ?_, ?_, ?_, ?_, ?_⟩
    · intro id'
      rw [TxPool.find?_removeTx, h.pool id', hid, poolIds_snoc]
      by_cases hm : id' = id <;> simp [hm]
    · exact (TxPool.removeTx_sublist row).trans h.sublist
    · intro u hu
      rcases List.mem_append.mp hu with hu | hu
      · exact h.source u hu
      · obtain rfl := List.mem_singleton.mp hu
        exact .pool row hp.symm (by rw [hid])
    · rw [poolIds_snoc]
      exact List.Nodup.append h.nodup (by simp) (by simpa using hnew)
    · intro u hu
      rw [TxPool.find?_removeTx, hid]
      rcases List.mem_append.mp hu with hu | hu
      · simp [h.gone u hu]
      · simp [List.mem_singleton.mp hu]
    · rw [weightWithout_snoc, if_pos rfl, ← h.weight]
      rfl
    · show st.pool.sorted.filter (fun x => x.id ≠ row.id) = _
      rw [h.sorted, sortedWithout, sortedWithout, List.filter_filter, poolIds_snoc, hid]
      refine List.filter_congr fun x _ => ?_
      simp [and_comm]
    · intro id' hid'
      show id' ∉ st.pool.addedTxsById.filter (· ≠ row.id)
      rw [poolIds_snoc, hid] at *
      rcases List.mem_append.mp hid' with hold | hnew'
      · exact fun hmem => h.added id' hold (List.mem_filter.mp hmem).1
      · simp_all
  | none =>
    rw [hf] at ht
    cases hl : st.ps.txsByTxid.lookup id with
    | none =>
      rw [hl] at ht
      exact absurd ht (by simp)
    | some tx =>
      rw [hl] at ht
      obtain ⟨rfl, rfl⟩ := Prod.mk.inj (Option.some.inj ht)
      refine ⟨rfl, rfl, ?_, h.sublist, ?_, ?_, ?_, ?_, ?_, ?_, ?_⟩
      · intro id'
        simpa [poolIds_snoc] using h.pool id'
      · exact fun id' tx' hl' => h.supplement id' tx' (Keyed.lookup_of_filter_ne hl')
      · intro u hu
        rcases List.mem_append.mp hu with hu | hu
        · exact h.source u hu
        · obtain rfl := List.mem_singleton.mp hu
          exact .supplement (h.supplement _ _ hl) rfl
      · simpa [poolIds_snoc] using h.nodup
      · intro u hu
        rcases List.mem_append.mp hu with hu | hu
        · exact h.gone u hu
        · obtain rfl := List.mem_singleton.mp hu
          exact hf
      · rw [weightWithout_snoc]
        exact h.weight
      · simpa [sortedWithout, poolIds_snoc] using h.sorted
      · simpa [poolIds_snoc] using h.added

/-- **The loop keeps the invariant**, whichever way it ends. In the end every
listed transaction is in hand, absent from the chain and has passed the check;
at an early exit those before it are. -/
theorem takeBlockTxs_spec (chain : Chain) (check : Transaction → Bool) (ids : List Hash)
    (h : Taking e p ps st) :
    match takeBlockTxs e chain check ids st with
    | .ok st' => Taking e p ps st' ∧ ∃ new, st'.taken = st.taken ++ new ∧
        new.map TakenTx.id = ids ∧ ∀ t ∈ new, check t.tx = true ∧ chain.txExists e t.id = false
    | .error (_, st') => Taking e p ps st' ∧ ∃ new, st'.taken = st.taken ++ new ∧
        new.map TakenTx.id <+: ids := by
  induction ids generalizing st with
  | nil => exact ⟨h, [], by simp⟩
  | cons txId rest ih =>
    unfold takeBlockTxs
    by_cases hex : chain.txExists e txId = true
    · rw [if_pos hex]
      exact ⟨h, [], by simp⟩
    rw [if_neg hex]
    cases ht : takeOne e st txId with
    | none => exact ⟨h, [], by simp⟩
    | some r =>
      obtain ⟨t, st₁⟩ := r
      obtain ⟨hid, htaken, h₁⟩ := h.takeOne ht
      dsimp only
      rw [htaken]
      by_cases hc : check t.tx = true
      case neg =>
        rw [if_neg hc]
        exact ⟨h₁, [t], rfl, by simp [hid]⟩
      rw [if_pos hc]
      have hrest := ih h₁
      cases hloop : takeBlockTxs e chain check rest { st₁ with taken := st.taken ++ [t] } with
      | ok st' =>
        rw [hloop] at hrest
        obtain ⟨hinv, new, heq, hmap, hall⟩ := hrest
        refine ⟨hinv, t :: new, by simpa using heq, by simp [hid, hmap], ?_⟩
        rintro u (_ | ⟨_, hu⟩)
        · exact ⟨hc, by simpa [hid] using hex⟩
        · exact hall u hu
      | error r =>
        obtain ⟨err, st'⟩ := r
        rw [hloop] at hrest
        obtain ⟨hinv, new, heq, hmap⟩ := hrest
        exact ⟨hinv, t :: new, by simpa using heq, by simpa [hid] using hmap⟩

end Oxyra
