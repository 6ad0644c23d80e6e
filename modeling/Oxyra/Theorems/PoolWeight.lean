import Oxyra.Logic.PoolSteps
import Oxyra.Logic.Regtest

/-!
# The weight of the pool

`m_txpool_weight` is adjusted by every operation that adds or removes a transaction.
It is the sum of the weights on file as long as `add_tx` is not given a transaction the
pool holds already: one that comes again, say first along the stem and then fluffed, is
counted again, whether or not its row is written anew.
-/

namespace Oxyra

namespace TxPool

variable {e : Env} {ctx : PoolContext} {p q : TxPool} {id : Hash} {tx : Transaction} {t : PoolTx}

/-- The weights of the transactions in the pool, added up. -/
def weightOnFile (p : TxPool) : Nat :=
  WordSum.natSum (p.txs.map fun t => t.info.weight)

structure Weighed (p : TxPool) : Prop where
  nodup : (p.txs.map PoolTx.id).Nodup
  weight : p.txpoolWeight.toNat = p.weightOnFile

theorem Weighed.of_txs (h : Weighed p) (htxs : q.txs = p.txs)
    (hweight : q.txpoolWeight = p.txpoolWeight) : Weighed q := by
  refine ⟨by rw [htxs]; exact h.nodup, ?_⟩
  rw [hweight, h.weight, weightOnFile, weightOnFile, htxs]

theorem weightOnFile_removeTx (hnd : (p.txs.map PoolTx.id).Nodup) (hf : p.find? t.id = some t) :
    p.weightOnFile = t.info.weight.toNat + (p.removeTx t).weightOnFile := by
  simp only [weightOnFile, WordSum.natSum, List.map_map]
  exact Keyed.sum_map_erase hnd hf

theorem Weighed.removeTx (h : Weighed p) (hf : p.find? t.id = some t) :
    Weighed (p.removeTx t) := by
  refine ⟨h.nodup.sublist ((removeTx_sublist t).map _), ?_⟩
  have hsum := weightOnFile_removeTx h.nodup hf
  have hle : t.info.weight ≤ p.txpoolWeight := by
    rw [UInt64.le_iff_toNat_le, h.weight]
    omega
  show (reducedWeight p.txpoolWeight t.info.weight).toNat = _
  rw [reducedWeight, if_neg (UInt64.not_lt.mpr hle), UInt64.toNat_sub_of_le _ _ hle, h.weight]
  omega

theorem Weighed.rewrite {f : PoolTx → PoolTx} (h : Weighed p) (hf : Rewrites f p.txs) :
    Weighed { p with txs := p.txs.map f } := by
  have hids : (p.txs.map f).map PoolTx.id = p.txs.map PoolTx.id := by
    rw [List.map_map]
    exact List.map_congr_left hf.id
  have hweights : ((p.txs.map f).map fun t => t.info.weight)
      = p.txs.map fun t => t.info.weight := by
    rw [List.map_map]
    exact List.map_congr_left hf.weight
  exact ⟨hids ▸ h.nodup, h.weight.trans (congrArg WordSum.natSum hweights.symm)⟩

theorem Weighed.stable : Stable Weighed where
  nodup h := h.nodup
  same h hsame := h.of_txs hsame.txs hsame.weight
  remove h hf := h.removeTx hf
  rewrite h hf := h.rewrite hf

theorem Weighed.finishAdd {w : UInt64} (h : Weighed p) (habs : p.find? id = none)
    (hfit : p.txpoolWeight.toNat + w.toNat < 2 ^ 64) (hid : t.id = id) (hw : t.info.weight = w)
    (htxs : q.txs = p.txs ++ [t]) (hweight : q.txpoolWeight = p.txpoolWeight) :
    Weighed (q.finishAdd e w) := by
  refine Weighed.stable.prune ⟨?_, ?_⟩ _
  · show (q.txs.map PoolTx.id).Nodup
    rw [htxs, List.map_append, List.map_singleton, hid]
    refine List.Nodup.append h.nodup (by simp) ?_
    rw [List.disjoint_singleton]
    intro hmem
    obtain ⟨u, hu, heq⟩ := List.mem_map.mp hmem
    exact Keyed.find?_eq_none_iff.mp habs u hu heq
  · show (q.txpoolWeight + w).toNat = WordSum.natSum (q.txs.map _)
    rw [UInt64.toNat_add, hweight, Nat.mod_eq_of_lt hfit, h.weight, htxs, List.map_append,
      WordSum.natSum_append, weightOnFile]
    simp [hw]

/-- **Adding counts once** what is not there yet. -/
theorem Weighed.addStep {w : UInt64} {relay : RelayMethod} {version nic : Nat}
    {r : Bool × TxPool} (h : Weighed p) (hstep : AddStep e p tx id w relay version nic r)
    (hnew : p.haveTx id = true → relay ≠ .block ∧ p.haveTxKeyimgesAsSpent tx id = true)
    (hfit : p.haveTx id = false → p.txpoolWeight.toNat + w.toNat < 2 ^ 64) : Weighed r.2 := by
  -- whatever passes the tests is new
  have hfresh : Passes e p tx id relay version nic → p.haveTx id = false := fun hpass => by
    by_contra hhave
    obtain ⟨hrelay, hspent⟩ := hnew (by simpa using hhave)
    exact absurd (hpass.unspent hrelay) (by simp [hspent])
  cases hstep with
  | refused same => exact Weighed.stable.same h same
  | @marked q hit txs weight images =>
    exact Weighed.stable.rewritten h (.of_sameRow (sameRow_markSeen hit) _) txs weight images
  | filed _ _ _ txs weight => exact h.of_txs txs weight
  | known passes present _ => exact absurd (hfresh passes) (by simp [present])
  | written passes _ row txs weight =>
    have habs : p.find? id = none := by simpa [haveTx] using hfresh passes
    rw [Keyed.erase_eq_self habs] at txs
    exact h.finishAdd habs (hfit (hfresh passes)) row.idEq row.weight txs weight

theorem Weighed.readds (e : Env) (ctx : PoolContext) (version : Nat) :
    Stable.Readds e ctx version Weighed := by
  intro p t relay relayed h hf _
  have hout := h.removeTx hf
  have habs : (p.removeTx t).haveTx t.id = false := by
    rw [haveTx, find?_removeTx, if_pos rfl]
    rfl
  refine hout.addStep (addTx_step e ctx _ t.tx t.id t.info.weight relay relayed version 0)
    (fun hhave => absurd hhave (by simp [habs])) fun _ => ?_
  have hsum := weightOnFile_removeTx h.nodup hf
  have hlt := p.txpoolWeight.toNat_lt
  rw [h.weight] at hlt
  rw [hout.weight]
  omega

end TxPool

namespace TrackedPool

variable {e : Env} {clock : Nat → Nat} {s s' : TrackedPool}

theorem initRows_weight {kept : Bool} (l : List PoolTx)
    (h : l.foldlM (initRow clock kept) s = some s') :
    s'.pool.txs = s.pool.txs ∧ s'.pool.txpoolWeight = s.pool.txpoolWeight +
      ((l.filter fun t => t.keptByBlock = kept).map fun t => t.info.weight).sum := by
  induction l generalizing s with
  | nil =>
    cases h
    simp
  | cons t rest ih =>
    rw [List.foldlM_cons] at h
    obtain ⟨s₁, hfirst, hrest⟩ := Option.bind_eq_some_iff.mp h
    obtain ⟨htxs, hweight⟩ := ih hrest
    rcases initRow_cases hfirst with ⟨hkept, rfl⟩ | ⟨hkept, htxs₁, hweight₁, -⟩
    · rw [List.filter_cons_of_neg (by simpa using hkept)]
      exact ⟨htxs, hweight⟩
    · rw [List.filter_cons_of_pos (by simpa using hkept), List.map_cons, List.sum_cons,
        ← add_assoc, ← hweight₁]
      exact ⟨htxs.trans htxs₁, hweight⟩

theorem weighed_init {p : TxPool} (hids : (p.txs.map PoolTx.id).Nodup)
    (hfit : p.weightOnFile < 2 ^ 64) (h : init clock p = some s) : s.pool.Weighed := by
  obtain ⟨s₁, hfirst, hsecond⟩ := Option.bind_eq_some_iff.mp h
  obtain ⟨htxs₁, hweight₁⟩ := initRows_weight p.txs hfirst
  obtain ⟨htxs, hweight⟩ := initRows_weight p.txs hsecond
  have hrows : s.pool.txs = p.txs := htxs.trans htxs₁
  have hsum : s.pool.txpoolWeight = (p.txs.map fun t => t.info.weight).sum := by
    rw [hweight, hweight₁]
    show 0 + _ + _ = _
    rw [zero_add]
    -- the two passes together go over every row
    have hsplit : ∀ l : List PoolTx,
        ((l.filter fun t => t.keptByBlock = false).map fun t => t.info.weight).sum +
          ((l.filter fun t => t.keptByBlock = true).map fun t => t.info.weight).sum =
        (l.map fun t => t.info.weight).sum := fun l => by
      induction l with
      | nil => simp
      | cons t rest ih =>
        cases hk : t.keptByBlock with
        | false => simp [hk, ← ih, add_assoc]
        | true => simp [hk, ← ih, add_left_comm]
    exact hsplit p.txs
  refine ⟨by rw [hrows]; exact hids, ?_⟩
  rw [hsum, WordSum.toNat_sum_of_lt hfit, TxPool.weightOnFile, hrows]

/-- `add_tx` is given what the pool does not hold and has room to count, or what it
refuses because a key image is spent; `validate` is given a version that exists. -/
def CountsOnce (s : TrackedPool) : PoolCall → Prop
  | .addTx _ tx id w relay _ _ _ =>
    s.pool.haveTx id = false ∧ s.pool.txpoolWeight.toNat + w.toNat < 2 ^ 64 ∨
      s.pool.haveTx id = true ∧ relay ≠ .block ∧ s.pool.haveTxKeyimgesAsSpent tx id = true
  | .validate _ version => version ≠ 0
  | _ => True

theorem weighed_call (h : s.pool.Weighed) {c : PoolCall} (hc : CountsOnce s c) :
    (s.call e clock c).pool.Weighed := by
  refine call_of_stable TxPool.Weighed.stable c h ?_ ?_
  · rintro ctx tx id w relay relayed version nic rfl
    have hstep := TxPool.addTx_step e ctx s.pool tx id w relay relayed version nic
    rcases hc with ⟨habs, hfit⟩ | ⟨hhave, hrefused⟩
    · exact h.addStep hstep (fun hhave => absurd hhave (by simp [habs])) fun _ => hfit
    · exact h.addStep hstep (fun _ => hrefused) fun habs => absurd hhave (by simp [habs])
  · rintro ctx version rfl
    exact ⟨hc, TxPool.Weighed.readds e ctx version⟩

theorem weighed_calls (h : s.pool.Weighed) (cs : List PoolCall)
    (hcs : Each e clock CountsOnce s cs) : (s.calls e clock cs).pool.Weighed := by
  induction cs generalizing s with
  | nil => exact h
  | cons c cs ih => exact ih (weighed_call h hcs.1) hcs.2

/-- **The counter is the sum of the weights on file**, after any history from `init` in
which no transaction is added that the pool holds already. -/
theorem pool_weight_exact (e : Env) (clock : Nat → Nat) (p : TxPool)
    (hids : (p.txs.map PoolTx.id).Nodup) (hfit : p.weightOnFile < 2 ^ 64) (s₀ : TrackedPool)
    (hinit : init clock p = some s₀) (cs : List PoolCall)
    (hcs : Each e clock CountsOnce s₀ cs) :
    (s₀.calls e clock cs).pool.txpoolWeight.toNat =
      (s₀.calls e clock cs).pool.weightOnFile :=
  (weighed_calls (weighed_init hids hfit hinit) cs hcs).weight

/-- The call that hands the transaction with a tag to `add_tx`. -/
def receive (tag : Nat) (w : UInt64) (relay : RelayMethod) : PoolCall :=
  .addTx lenient (regtestTx tag 10 0 1) (BitVec.ofNat 256 tag) w relay false 1 1

theorem pool_weight_exact_received :
    let cs := [receive 1 100 .stem, receive 2 50 .fluff, .takeTx 1, receive 2 50 .fluff,
      .validate lenient 1]
    Each (regtest (schedule 1 [])) id CountsOnce {} cs ∧
      (({} : TrackedPool).calls (regtest (schedule 1 [])) id cs).pool.txpoolWeight.toNat =
        (({} : TrackedPool).calls (regtest (schedule 1 [])) id cs).pool.weightOnFile := by
  intro cs
  have hcs : Each (regtest (schedule 1 [])) id CountsOnce {} cs :=
    ⟨.inl (by decide +kernel), .inl (by decide +kernel), trivial, .inr (by decide +kernel),
      Nat.one_ne_zero, trivial⟩
  exact ⟨hcs, pool_weight_exact _ id {} .nil (by decide) {} rfl cs hcs⟩

/-- A transaction that comes along the stem and then fluffed weighs 100 and is counted as
200. -/
theorem refluffed_counted_twice :
    let s := ({} : TrackedPool).calls (regtest (schedule 1 [])) id
      [receive 1 100 .stem, receive 1 100 .fluff]
    s.pool.txpoolWeight.toNat = 200 ∧ s.pool.weightOnFile = 100 := by
  decide +kernel

end TrackedPool

end Oxyra
