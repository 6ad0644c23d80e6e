import Oxyra.Lib.Built
import Oxyra.Logic.Take

/-!
# Chains accepted block by block

`Extends` is acceptance with the machinery gone: what a stored block satisfies
of the chain below it, in the version, at the time and for the difficulty it
was accepted with. Nothing in it mentions the pool, the caches or the weights.
-/

namespace Oxyra

variable {e : Env} {s : Blockchain} {bl : Block} {ps : PoolSupplement} {fast : Bool}
  {st : TakeState} {weight : UInt64} {r : UInt64 × Bool}

/-- What acceptance has established of a stored block, against the chain it was
put on. -/
structure Extends (e : Env) (fast : Bool) (version now difficulty : Nat) (pre : Chain)
    (sb : StoredBlock) : Prop where
  prev : sb.bl.prevId = pre.tailId e
  voted : sb.bl.majorVersion = version ∧ version ≤ getBlockVote sb.bl
  timestamp : checkBlockTimestamp now pre sb.bl = true
  nonzero : difficulty ≠ 0
  precomputed : checkPrecomputedHash e pre.length (sb.id e) = some fast
  pow : fast = true ∨ checkPow e pre sb.bl difficulty = true
  coinbase : prevalidateMinerTransaction sb.bl pre.length version = true
  hashes : sb.bl.txHashes = sb.txs.map e.getTransactionHash
  inputs : ∀ tx ∈ sb.txs,
    fast = true ∨ (checkTxInputs e now pre version tx).isSome = true
  reward : ∃ r, validateMinerTransaction sb.bl 0 0 (sb.txs.map getTxFee).sum
      pre.topAlreadyGeneratedCoins version = some r ∧
    sb.alreadyGeneratedCoins =
      if r.1 < moneySupply - pre.topAlreadyGeneratedCoins
      then pre.topAlreadyGeneratedCoins + r.1 else moneySupply
  work : sb.cumulativeDifficulty =
    (difficulty + pre.topCumulativeDifficulty) % difficultyModulus
  storable : pre.canAdd e sb = true

theorem Extends.getBlockHeight_eq {version now difficulty : Nat} {pre : Chain} {sb : StoredBlock}
    (h : Extends e fast version now difficulty pre sb) : getBlockHeight sb.bl = pre.length :=
  getBlockHeight_of_prevalidate h.coinbase

theorem feeSummary_eq (taken : List TakenTx) :
    feeSummary taken = (taken.map TakenTx.fee).sum := by
  simp [feeSummary, WordSum.foldl_add]

section Written

variable (hrows : TxPool.RowsOk e s.pool) (hps : ps.Ok e)

theorem TakenFrom.ok {p : TxPool} (hrows : TxPool.RowsOk e p) (hps : ps.Ok e) {t : TakenTx}
    (h : TakenFrom e p ps t) : t.id = e.getTransactionHash t.tx ∧ t.fee = getTxFee t.tx := by
  cases h with
  | pool row hf heq =>
    have hrow := hrows.row row (Keyed.mem_of_find? hf)
    rw [heq]
    exact ⟨hrow.idEq, hrow.fee⟩
  | supplement hl heq => exact ⟨hps _ (Keyed.mem_of_lookup hl), by rw [heq]⟩

theorem Taking.of_marked {p : TxPool} {version : Nat}
    (h : Taking e p (ps.marked fast version) st) : Taking e p ps st := by
  refine { h with supplement := by simpa using h.supplement, source := fun t ht => ?_ }
  cases h.source t ht with
  | pool row hf heq => exact .pool row hf heq
  | supplement hl heq => exact .supplement (by simpa using hl) heq

theorem takeFor_ok (h : s.takeFor e bl ps fast = .ok st) :
    Taking e s.pool ps st ∧ st.taken.map TakenTx.id = bl.txHashes ∧
      ∀ t ∈ st.taken, s.inputsOk e fast t.tx = true ∧ s.chain.txExists e t.id = false := by
  have hspec := takeBlockTxs_spec s.chain (s.inputsOk e fast) bl.txHashes
    (Taking.start e s.pool (ps.marked fast (s.hfVersion e)))
  rw [show takeBlockTxs e s.chain (s.inputsOk e fast) bl.txHashes _ = .ok st from h] at hspec
  obtain ⟨hinv, new, heq, hids, hall⟩ := hspec
  obtain rfl : st.taken = new := by simpa using heq
  exact ⟨hinv.of_marked, hids, hall⟩

theorem takeFor_error {err : TakeError} (h : s.takeFor e bl ps fast = .error (err, st)) :
    Taking e s.pool ps st ∧ st.taken.map TakenTx.id <+: bl.txHashes := by
  have hspec := takeBlockTxs_spec s.chain (s.inputsOk e fast) bl.txHashes
    (Taking.start e s.pool (ps.marked fast (s.hfVersion e)))
  rw [show takeBlockTxs e s.chain (s.inputsOk e fast) bl.txHashes _ = .error (err, st) from h]
    at hspec
  obtain ⟨hinv, new, heq, hids⟩ := hspec
  obtain rfl : st.taken = new := by simpa using heq
  exact ⟨hinv.of_marked, hids⟩

include hrows hps

/-- **A block that is written extends the chain.** -/
theorem Accepts.extends (h : Accepts e s bl (e.getBlockHash bl) ps fast st weight r) :
    Extends e fast (s.hfVersion e) (e.clock (s.reads + 1)) (s.getDifficultyForNextBlock e).1
      s.chain (s.written e bl weight r.1 st.taken) := by
  obtain ⟨hinv, hids, hall⟩ := takeFor_ok h.taken
  have hrec : ∀ t ∈ st.taken, t.id = e.getTransactionHash t.tx ∧ t.fee = getTxFee t.tx :=
    fun t ht => (hinv.source t ht).ok hrows hps
  have hfees : feeSummary st.taken = ((st.taken.map TakenTx.tx).map getTxFee).sum := by
    rw [feeSummary_eq, List.map_map]
    exact congrArg List.sum (List.map_congr_left fun t ht => (hrec t ht).2)
  have hvoted := h.version
  simp only [HardFork.check, Bool.and_eq_true, decide_eq_true_eq] at hvoted
  refine
    { prev := h.prev
      voted := hvoted
      timestamp := h.timestamp
      nonzero := h.difficulty
      precomputed := h.precomputed
      pow := h.pow
      coinbase := h.coinbase
      hashes := ?_
      inputs := ?_
      reward := ⟨r, ?_, by simp only [Blockchain.written, Blockchain.storedBlock]⟩
      work := rfl
      storable := h.storable }
  · show bl.txHashes = (st.taken.map TakenTx.tx).map e.getTransactionHash
    rw [← hids, List.map_map]
    exact List.map_congr_left fun t ht => (hrec t ht).1
  · intro tx htx
    obtain ⟨t, ht, rfl⟩ := List.mem_map.mp htx
    simpa [Blockchain.inputsOk] using (hall t ht).1
  · have hreward := h.reward
    unfold Blockchain.rewardFor at hreward
    rw [validateMinerTransaction_weight_irrelevant bl _ 0 _ 0, hfees] at hreward
    exact hreward

end Written

end Oxyra
