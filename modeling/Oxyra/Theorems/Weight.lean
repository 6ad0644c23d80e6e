import Oxyra.Logic.EmptyBlocks

/-!
# The block weight limit

`m_current_block_cumul_weight_limit` is computed after every block and handed to
the template, but the acceptance path only ever passes the weight to
`get_block_reward`, which does not look at it.
-/

namespace Oxyra

open Blockchain

variable {e : Env} {s : Blockchain} {bl : Block} {id : Hash} {ps : PoolSupplement}

/-! ## The limit plays no part -/

theorem canAdd_congr {chain : Chain} {sb sb' : StoredBlock} (hbl : sb.bl = sb'.bl)
    (htxs : sb.txs = sb'.txs) : chain.canAdd e sb = chain.canAdd e sb' := by
  cases sb
  cases sb'
  subst hbl htxs
  rfl

theorem Accepts.of_weights {fast : Bool} {st : TakeState} {weight : UInt64} {r : UInt64 × Bool}
    (h : Accepts e s bl id ps fast st weight r) (w : WeightState) :
    Accepts e { s with weights := w } bl id ps fast st weight r where
  prev := h.prev
  version := h.version
  timestamp := h.timestamp
  difficulty := h.difficulty
  precomputed := h.precomputed
  pow := h.pow
  coinbase := h.coinbase
  supplement := h.supplement
  taken := h.taken
  weighed := h.weighed
  reward := by
    rw [← h.reward]
    exact validateMinerTransaction_weight_irrelevant _ _ _ _ _ _ _ _
  storable := by
    rw [← h.storable]
    exact canAdd_congr rfl rfl

/-- **The limit is not looked at.** With other members behind the weight limit the verdict is the
same, and so are the weights that are stored. -/
theorem handleBlock_weights_irrelevant (s : Blockchain) (w : WeightState) (bl : Block) (id : Hash)
    (ps : PoolSupplement) :
    let o := s.handleBlockToMainChain e bl id ps
    let o' := ({ s with weights := w } : Blockchain).handleBlockToMainChain e bl id ps
    o'.ret = o.ret ∧
      o'.st.chain.map StoredBlock.blockWeight = o.st.chain.map StoredBlock.blockWeight := by
  intro o o'
  by_cases hret : o.ret = true
  · obtain ⟨fast, st, weight, r, ha, ho⟩ := accepts_of_ret hret
    have ho' : o' = _ := handleBlock_of_accepts (ha.of_weights w)
    rw [ho', show o = _ from ho]
    refine ⟨rfl, ?_⟩
    show (s.chain ++ [_]).map StoredBlock.blockWeight = (s.chain ++ [_]).map _
    rw [List.map_append, List.map_append]
    rfl
  · have hret' : ¬ o'.ret = true := fun h => by
      obtain ⟨fast, st, weight, r, ha⟩ := handleBlock_ret_iff.mp h
      exact hret (handleBlock_ret_iff.mpr ⟨fast, st, weight, r, ha.of_weights s.weights⟩)
    obtain ⟨_, _, _, _, _, _, ho, _⟩ := handleBlock_refused (by simpa using hret)
    obtain ⟨_, _, _, _, _, _, ho', _⟩ := handleBlock_refused (by simpa using hret')
    exact ⟨by simp only [hret, hret'], by rw [show o'.st = _ from ho', show o.st = _ from ho]⟩

/-! ## Any weight is accepted -/

theorem emptyLimit_update (weight : Nat → UInt64) (n : Nat) (w : UInt64) :
    emptyLimit (Function.update weight n w) n = emptyLimit weight n := by
  have hmap : (List.range n).map (Function.update weight n w) = (List.range n).map weight :=
    List.map_congr_left fun i hi =>
      Function.update_of_ne (Nat.ne_of_lt (List.mem_range.mp hi)) _ _
  rw [emptyLimit, hmap, emptyLimit]

/-- **The weight limit is never enforced.** The members behind it have no part in the verdict on a
block. They do hold a limit: twice a median that is never below the full-reward zone, and there
always are weights above it. But after blocks of any weights, and so whatever the limit in force,
a block of any weight `w` is accepted and stored with that weight. -/
theorem weight_limit_never (e : Env) (s : Blockchain) (weight : Nat → UInt64) (w : UInt64)
    (depth n : Nat) (hn : n < 2 ^ 64) :
    (∀ bl ps members,
      let o := s.handleBlockToMainChain e bl (e.getBlockHash bl) ps
      let o' := handleBlockToMainChain e { s with weights := members } bl (e.getBlockHash bl) ps
      o'.ret = o.ret ∧
        o'.st.chain.map StoredBlock.blockWeight = o.st.chain.map StoredBlock.blockWeight) ∧
    (let t := s.updateNextCumulativeWeightLimit e
     t.weights.limit = t.weights.median * 2 ∧ t.weights.limit < 18446744073709551615 ∧
      getMinBlockWeight (s.hfVersion e) ≤ t.weights.median ∧
      (t.weights.median.toNat < 2 ^ 63 →
        2 * (getMinBlockWeight (s.hfVersion e)).toNat ≤ t.weights.limit.toNat)) ∧
    let weight' := Function.update weight (n + 1) w
    let t := emptyRun 0 {} weight' depth n
    let o := t.addNewBlock (emptyRegtest 0 {} weight') depth (emptyBlock 0 (n + 1)) {}
    t.weights.limit = emptyLimit weight (n + 1) ∧ o.ret = true ∧
      o.st.chain.map StoredBlock.blockWeight = (List.range (n + 1)).map weight ++ [w] := by
  refine ⟨fun bl ps members => handleBlock_weights_irrelevant s members bl _ ps, ?_, ?_⟩
  · have hmin : getMinBlockWeight (s.hfVersion e)
        ≤ (s.updateNextCumulativeWeightLimit e).weights.median := WordSum.le_max_right _ _
    refine ⟨rfl, WordSum.mul_two_lt_max _, hmin, fun hlt => ?_⟩
    show _ ≤ ((s.updateNextCumulativeWeightLimit e).weights.median * 2).toNat
    rw [WordSum.toNat_mul_two hlt]
    exact Nat.mul_le_mul_left 2 hmin
  · intro weight' t o
    have ht : EmptyChain 0 weight' (n + 1) t := emptyChain_run depth (by omega)
    have ho : o = _ := ht.addNewBlock_eq (by omega) depth
    obtain ⟨hret, hnext⟩ := ht.next (c := {}) (by omega)
    refine ⟨(ht.limit (Nat.succ_ne_zero n)).trans (emptyLimit_update weight (n + 1) w), ?_, ?_⟩
    · rw [ho]
      exact hret
    · rw [ho, hnext.weights, List.range_succ, List.map_append]
      refine congrArg₂ _ (List.map_congr_left fun i hi => ?_) ?_
      · exact Function.update_of_ne (Nat.ne_of_lt (List.mem_range.mp hi)) _ _
      · exact congrArg (fun x => [x]) (Function.update_self (n + 1) w weight)

/-- The heaviest block there is, on top of a genesis block of weight 100. -/
theorem weight_limit_never_first :
    let weight' := Function.update (fun _ => 100) 1 (18446744073709551615 : UInt64)
    let s := emptyRun 0 {} weight' 0 0
    s.weights.limit = 40000 ∧
      ((s.addNewBlock (emptyRegtest 0 {} weight') 0 (emptyBlock 0 1) {}).st.chain.map
        StoredBlock.blockWeight) = [100, 18446744073709551615] := by
  obtain ⟨-, -, hlimit, -, hweights⟩ := weight_limit_never (regtest firstVersion) {}
    (fun _ => 100) 18446744073709551615 0 0 (by decide)
  exact ⟨hlimit.trans (by decide), hweights⟩

/-- A regression-test node whose transactions weigh a hundred times their
signature word. -/
def heavyRegtest : Env :=
  { regtest firstVersion with transactionWeight := fun tx => UInt64.ofNat (100 * tx.signatures) }

/-- An accepted block of three times the limit. -/
theorem overweight_block_accepted :
    let s := ({} : Blockchain).withGenesis heavyRegtest (regtestGenesis 1 [moneySupply]) {}
    let o := s.handleBlockToMainChain heavyRegtest (regtestBlock 1 1 0 1 [5] [5001#256]) 2#256
      (regtestSupplement (regtestTx 5000 moneySupply 0 5))
    s.weights.limit = 200000 ∧ o.ret = true ∧
      o.st.chain.map StoredBlock.blockWeight = [100000, 600100] := by
  decide +kernel

end Oxyra
