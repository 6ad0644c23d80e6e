import Oxyra.Core.Template
import Oxyra.Logic.Pool

/-!
# The loop of `fill_block_template`

Looking at a transaction changes what is filed under its id and nothing else, so the loop
can be followed through the pool it started with.
-/

namespace Oxyra

open TxPool

variable {e : Env} {ctx : PoolContext} {p q : TxPool} {t : PoolTx} {st : FillState}

/-! ## Looking at one transaction -/

/-- Meta data that differ at most in where the inputs were found and when they failed. -/
structure SameTerms (i j : TxMeta) : Prop where
  weight : j.weight = i.weight
  fee : j.fee = i.fee
  relayMethod : j.relayMethod = i.relayMethod
  pruned : j.pruned = i.pruned

/-- All that looking at `t` does to the pool. -/
structure Touched (ctx : PoolContext) (t : PoolTx) (p q : TxPool) : Prop where
  ids : q.txs.map PoolTx.id = p.txs.map PoolTx.id
  sorted : q.sorted = p.sorted
  rows : ∀ id ≠ t.id, q.find? id = p.find? id
  own : p.find? t.id = some t →
    ∃ info, q.find? t.id = some { t with info := info } ∧ SameTerms t.info info
  cache : ∀ id ≠ t.id, q.inputCache.lookup id = p.inputCache.lookup id
  checked : q.inputCache.lookup t.id = p.inputCache.lookup t.id ∨
    q.inputCache.lookup t.id = some (ctx.checkTxInputs t.tx false)

theorem Touched.refl (ctx : PoolContext) (t : PoolTx) (p : TxPool) : Touched ctx t p p :=
  ⟨rfl, rfl, fun _ _ => rfl, fun h => ⟨t.info, h, rfl, rfl, rfl, rfl⟩, fun _ _ => rfl, .inl rfl⟩

/-- What the answer "ready" rests on, and the transaction as far as it was parsed. -/
def ReadyBy (ctx : PoolContext) (p : TxPool) (t : PoolTx) (tx : Transaction) : Prop :=
  (∃ r, p.inputCache.lookup t.id = some (some r)) ∧ tx = {} ∨
    p.inputCache.lookup t.id = none ∧ (∃ r, ctx.checkTxInputs t.tx false = some r) ∧ tx = t.tx

theorem checkTxInputs_cases (ctx : PoolContext) (p : TxPool) (t : PoolTx) :
    (∃ r, p.inputCache.lookup t.id = some r ∧ p.checkTxInputs ctx t.tx t.id false = (r, p)) ∨
    (p.inputCache.lookup t.id = none ∧ p.checkTxInputs ctx t.tx t.id false =
      (ctx.checkTxInputs t.tx false,
        { p with inputCache := (t.id, ctx.checkTxInputs t.tx false) :: p.inputCache })) := by
  unfold TxPool.checkTxInputs
  rw [if_neg (by simp)]
  cases h : p.inputCache.lookup t.id with
  | none => exact .inr ⟨rfl, rfl⟩
  | some r => exact .inl ⟨r, rfl, rfl⟩

theorem touched_checkTxInputs (ctx : PoolContext) (p : TxPool) (t : PoolTx) :
    Touched ctx t p (p.checkTxInputs ctx t.tx t.id false).2 := by
  rcases checkTxInputs_cases ctx p t with ⟨r, -, heq⟩ | ⟨-, heq⟩ <;> rw [heq]
  · exact .refl ctx t p
  · refine ⟨rfl, rfl, fun _ _ => rfl, fun h => ⟨t.info, h, rfl, rfl, rfl, rfl⟩, fun id hid => ?_,
      .inr ?_⟩
    · rw [List.lookup_cons, beq_eq_false_iff_ne.mpr hid]
    · rw [List.lookup_cons_self]

theorem Touched.updateTxpoolTx {info : TxMeta} (h : Touched ctx t p q)
    (hinfo : SameTerms t.info info) : Touched ctx t p (q.updateTxpoolTx t.id info) := by
  have hid : ∀ u : PoolTx, ({ u with info := info } : PoolTx).id = u.id := fun _ => rfl
  refine ⟨?_, h.sorted, fun id hne => ?_, fun hfind => ⟨info, ?_, hinfo⟩, h.cache, h.checked⟩
  · rw [← h.ids]
    exact ids_updateTxpoolTx q t.id info
  · rw [← h.rows id hne]
    exact Keyed.find?_update_ne hid hne
  · obtain ⟨info', hq, -⟩ := h.own hfind
    show Keyed.find? PoolTx.id (Keyed.update PoolTx.id q.txs t.id _) t.id = _
    rw [Keyed.find?_update_self hid, show Keyed.find? PoolTx.id q.txs t.id = _ from hq]
    rfl

theorem ready_cases (ctx : PoolContext) (p : TxPool) (t : PoolTx) :
    Touched ctx t p (isTransactionReadyToGo ctx p t).2.2 ∧
      ((isTransactionReadyToGo ctx p t).1 = true →
        ReadyBy ctx p t (isTransactionReadyToGo ctx p t).2.1) := by
  have htouched := touched_checkTxInputs ctx p t
  unfold isTransactionReadyToGo
  split
  · exact ⟨.refl ctx t p, fun h => by cases h⟩
  · dsimp only
    rcases checkTxInputs_cases ctx p t with ⟨r, hcached, heq⟩ | ⟨hcached, heq⟩ <;>
      rw [heq] at htouched ⊢
    · cases r with
      | none => exact ⟨htouched.updateTxpoolTx ⟨rfl, rfl, rfl, rfl⟩, fun h => by cases h⟩
      | some maxUsed =>
        refine ⟨htouched.updateTxpoolTx ⟨rfl, rfl, rfl, rfl⟩, fun _ => .inl ⟨⟨_, hcached⟩, ?_⟩⟩
        simp [hcached]
    · cases hchecked : ctx.checkTxInputs t.tx false with
      | none =>
        rw [hchecked] at htouched
        exact ⟨htouched.updateTxpoolTx ⟨rfl, rfl, rfl, rfl⟩, fun h => by cases h⟩
      | some maxUsed =>
        rw [hchecked] at htouched
        refine ⟨htouched.updateTxpoolTx ⟨rfl, rfl, rfl, rfl⟩,
          fun _ => .inr ⟨hcached, ⟨_, hchecked⟩, ?_⟩⟩
        simp [hcached]

/-- **All that can come of a transaction**: it is passed over, or it is ready, spends
nothing the transactions before it are known to spend, and is listed. -/
theorem considerTx_cases (ctx : PoolContext) (st : FillState) (t : PoolTx) (coinbase : UInt64) :
    Touched ctx t st.pool (considerTx ctx st t coinbase).pool ∧
      (considerTx ctx st t coinbase = { st with pool := (considerTx ctx st t coinbase).pool } ∨
        ∃ tx, ReadyBy ctx st.pool t tx ∧ haveKeyImages st.kImages tx.vin = false ∧
          considerTx ctx st t coinbase =
            { pool := (considerTx ctx st t coinbase).pool
              txHashes := st.txHashes ++ [t.id]
              totalWeight := st.totalWeight + t.info.weight
              fee := st.fee + t.info.fee
              bestCoinbase := coinbase
              kImages := appendKeyImages st.kImages tx.vin }) := by
  obtain ⟨htouched, hready⟩ := ready_cases ctx st.pool t
  unfold considerTx
  generalize isTransactionReadyToGo ctx st.pool t = r at htouched hready ⊢
  obtain ⟨_ | _, tx, pool⟩ := r
  · exact ⟨htouched, .inl rfl⟩
  · dsimp only
    split
    · exact ⟨htouched, .inl rfl⟩
    · rename_i himages
      exact ⟨htouched, .inr ⟨tx, hready rfl, by simpa using himages, rfl⟩⟩

/-! ## The loop -/

section Loop

variable {medianWeight maxWeight coins : UInt64} {version : Nat}
  {x : SortedTx} {rest : List SortedTx}

theorem fillLoop_cons :
    (fillLoop e ctx medianWeight maxWeight coins version (x :: rest) st =
        fillLoop e ctx medianWeight maxWeight coins version rest st ∧
      ∀ t, st.pool.find? x.id = some t →
        fillVerdict e medianWeight maxWeight coins version st t.info = .skip) ∨
    (fillLoop e ctx medianWeight maxWeight coins version (x :: rest) st = st ∧
      ∃ t, st.pool.find? x.id = some t ∧
        fillVerdict e medianWeight maxWeight coins version st t.info = .stop) ∨
    ∃ t coinbase, st.pool.find? t.id = some t ∧ t.id = x.id ∧
      fillVerdict e medianWeight maxWeight coins version st t.info = .consider coinbase ∧
      fillLoop e ctx medianWeight maxWeight coins version (x :: rest) st =
        fillLoop e ctx medianWeight maxWeight coins version rest
          (considerTx ctx st t coinbase) := by
  simp only [fillLoop]
  cases hfind : st.pool.find? x.id with
  | none => exact .inl ⟨rfl, fun t ht => by cases ht⟩
  | some t =>
    have hid : t.id = x.id := Keyed.key_of_find? hfind
    dsimp only
    cases hverdict : fillVerdict e medianWeight maxWeight coins version st t.info with
    | skip =>
      refine .inl ⟨rfl, fun u hu => ?_⟩
      cases hu
      exact hverdict
    | stop => exact .inr (.inl ⟨rfl, t, rfl, hverdict⟩)
    | consider coinbase =>
      exact .inr (.inr ⟨t, coinbase, by rw [hid, hfind], hid, hverdict, rfl⟩)

theorem fillLoop_invariant {I : FillState → Prop}
    (hstep : ∀ st t coinbase, I st → st.pool.find? t.id = some t →
      fillVerdict e medianWeight maxWeight coins version st t.info = .consider coinbase →
      I (considerTx ctx st t coinbase)) (l : List SortedTx) (h : I st) :
    I (fillLoop e ctx medianWeight maxWeight coins version l st) := by
  induction l generalizing st with
  | nil => exact h
  | cons x rest ih =>
    rcases fillLoop_cons with ⟨heq, -⟩ | ⟨heq, -⟩ | ⟨t, coinbase, hfind, -, hverdict, heq⟩ <;>
      rw [heq]
    · exact ih h
    · exact h
    · exact ih (hstep st t coinbase h hfind hverdict)

theorem fits_of_consider {info : TxMeta} {coinbase : UInt64}
    (h : fillVerdict e medianWeight maxWeight coins version st info = .consider coinbase) :
    st.totalWeight + info.weight ≤ maxWeight := by
  unfold fillVerdict at h
  split at h
  · cases h
  split at h
  · cases h
  split at h
  · cases h
  · rename_i hfits
    exact UInt64.not_lt.mp hfits

end Loop

end Oxyra
