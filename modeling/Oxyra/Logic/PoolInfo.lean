import Mathlib.Data.List.Basic
import Mathlib.Order.Lattice
import Oxyra.Core.PoolInfo
import Oxyra.Logic.Pool

/-!
# The tables of the tracked pool

The tables of a tracked pool are those of the pool (`addTx_pool`,
`validate_pool`): tracking changes nothing that was there before.
-/

namespace Oxyra

namespace TrackedPool

variable {e : Env} {clock : Nat → Nat} {s : TrackedPool}

theorem takeTx_pool (id : Hash) :
    (s.takeTx clock id).pool = ((s.pool.takeTx id).map Prod.snd).getD s.pool := by
  unfold takeTx TxPool.takeTx
  cases s.pool.find? id <;> rfl

theorem pruneLoop_pool (bytes : UInt64) (l : List SortedTx) (s : TrackedPool) :
    (pruneLoop clock bytes l s).pool = TxPool.pruneLoop bytes l s.pool := by
  induction l generalizing s with
  | nil => rfl
  | cons x rest ih =>
    unfold pruneLoop TxPool.pruneLoop
    split
    · rfl
    · cases s.pool.find? x.id with
      | none => exact ih s
      | some t =>
        dsimp only
        split
        · exact ih s
        · exact ih (s.removeTx clock t)

theorem finishAdd_pool (w : UInt64) (s : TrackedPool) :
    (s.finishAdd e clock w).pool = s.pool.finishAdd e w :=
  pruneLoop_pool _ _ _

def tables (r : Bool × TrackedPool) : Bool × TxPool :=
  (r.1, r.2.pool)

theorem addUnverified_pool (ctx : PoolContext) (tx : Transaction) (id : Hash) (w : UInt64)
    (relay : RelayMethod) (relayed : Bool) :
    tables (s.addUnverified e clock ctx tx id w relay relayed) =
      s.pool.addUnverified e ctx tx id w relay relayed := by
  unfold addUnverified TxPool.addUnverified
  split
  · rfl
  · extract_lets info r p
    split
    · rfl
    · split
      · rfl
      · exact congrArg (Prod.mk true) (finishAdd_pool w _)

theorem addVerified_pool (ctx : PoolContext) (tx : Transaction) (id : Hash) (w : UInt64)
    (relay : RelayMethod) (relayed : Bool) (maxUsed : Nat × Hash) :
    tables (s.addVerified e clock ctx tx id w relay relayed maxUsed) =
      s.pool.addVerified e ctx tx id w relay relayed maxUsed := by
  unfold addVerified TxPool.addVerified
  extract_lets existing relay' previous info r p
  split
  · split
    · rfl
    · exact congrArg (Prod.mk true) (finishAdd_pool w _)
  · exact congrArg (Prod.mk true) (finishAdd_pool w _)

/-- **Tracking changes nothing that was there before**: the tables of the tracked
pool are those of the pool, and so are the answers. -/
theorem addTx_pool (ctx : PoolContext) (tx : Transaction) (id : Hash) (w : UInt64)
    (relay : RelayMethod) (relayed : Bool) (version nic : Nat) (s : TrackedPool) :
    tables (s.addTx e clock ctx tx id w relay relayed version nic) =
      s.pool.addTx e ctx tx id w relay relayed version nic := by
  unfold addTx TxPool.addTx
  dsimp only
  split
  · rfl
  split
  · rfl
  split
  · rfl
  split
  · rfl
  split
  · rfl
  split
  · rfl
  · generalize s.pool.checkTxInputs ctx tx id (decide (relay = .block)) = c
    obtain ⟨verdict, p⟩ := c
    cases verdict with
    | none => exact addUnverified_pool ctx tx id w relay relayed
    | some maxUsed => exact addVerified_pool ctx tx id w relay relayed maxUsed

theorem revalidate_pool (ctx : PoolContext) (version : Nat) (s : TrackedPool) (t : PoolTx) :
    (s.revalidate e clock ctx version t).pool = s.pool.revalidate e ctx version t := by
  have hadd : ∀ tx relayed, tables ((s.takeTx clock t.id).addTx e clock ctx tx t.id t.info.weight
      t.info.relayMethod relayed version 0) = (((s.pool.takeTx t.id).map Prod.snd).getD
        s.pool).addTx e ctx tx t.id t.info.weight t.info.relayMethod relayed version 0 := by
    intro tx relayed
    rw [addTx_pool, takeTx_pool]
  have htx : ((s.pool.takeTx t.id).map fun r => r.1.tx) = (s.pool.find? t.id).map PoolTx.tx := by
    unfold TxPool.takeTx
    cases s.pool.find? t.id <;> rfl
  have hrelayed : ((s.pool.takeTx t.id).map fun r => r.1.info.relayed)
      = (s.pool.find? t.id).map fun r => r.info.relayed := by
    unfold TxPool.takeTx
    cases s.pool.find? t.id <;> rfl
  unfold revalidate TxPool.revalidate
  dsimp only
  rw [htx, hrelayed, ← hadd]
  generalize (s.takeTx clock t.id).addTx e clock ctx _ t.id t.info.weight t.info.relayMethod _
    version 0 = r
  show (if r.1 then _ else _ : TrackedPool).pool = if r.1 then _ else _
  split <;> rfl

theorem validate_pool (ctx : PoolContext) (version : Nat) (s : TrackedPool) :
    (s.validate e clock ctx version).pool = s.pool.validate e ctx version := by
  unfold validate TxPool.validate
  exact (List.foldl_hom pool fun s t => (revalidate_pool ctx version s t).symm).symm

@[simp] theorem trackRemovedTx_addedTxsById (l : TransientLists) (r : RemovedTx) :
    (l.trackRemovedTx r).addedTxsById = l.addedTxsById := by
  unfold TransientLists.trackRemovedTx
  dsimp only
  split <;> rfl

theorem find?_takeTx (id : Hash) : (s.takeTx clock id).pool.find? id = none := by
  unfold takeTx
  cases h : s.pool.find? id with
  | none => exact h
  | some t =>
    show (s.pool.removeTx t).find? id = none
    rw [TxPool.find?_removeTx, if_pos (show id = t.id from (Keyed.key_of_find? h).symm)]

end TrackedPool

end Oxyra
