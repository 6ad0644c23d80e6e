import Oxyra.Logic.Regtest

/-!
# Chains of empty blocks

Under the fixed difficulty of the regtest mode a node takes empty blocks without end: whatever the
checkpoints record and whatever the blocks weigh, the next one is accepted (`EmptyChain.next`),
and `emptyRun` reaches every height.
-/

namespace Oxyra

open Blockchain

/-- A regression-test node on which the height of a block decides its id and its weight. -/
def emptyRegtest (salt : Nat) (c : Checkpoints) (weight : Nat → UInt64) : Env :=
  { regtest firstVersion with
    getBlockHash := fun b => BitVec.ofNat 256 (getBlockHeight b + salt)
    transactionWeight := fun tx => weight (tx.signatures - 1000)
    checkpoints := c }

/-- The empty block at height `n`; the first one claims the supply. -/
def emptyBlock (salt n : Nat) : Block :=
  { majorVersion := 1
    minorVersion := 1
    prevId := if n = 0 then nullHash else BitVec.ofNat 256 (n - 1 + salt)
    minerTx := regtestCoinbase n (if n = 0 then [moneySupply] else []) }

/-- The weight limit after `n` blocks: twice the median of the last ones, but for the minimum. -/
def emptyLimit (weight : Nat → UInt64) (n : Nat) : UInt64 :=
  max (median (((List.range n).map weight).drop (n - min n rewardBlocksWindow)))
    (getMinBlockWeight 1) * 2

/-- A node with `n` empty blocks and nothing else. -/
structure EmptyChain (salt : Nat) (weight : Nat → UInt64) (n : Nat) (s : Blockchain) : Prop where
  blocks : s.chain.map StoredBlock.bl = (List.range n).map (emptyBlock salt)
  weights : s.chain.map StoredBlock.blockWeight = (List.range n).map weight
  coins : s.chain.topAlreadyGeneratedCoins = if n = 0 then 0 else moneySupply
  limit : n ≠ 0 → s.weights.limit = emptyLimit weight n
  noAlt : s.altBlocks = []
  noInvalid : s.invalidBlocks = []

theorem versionAt_firstVersion (n : Nat) : firstVersion.versionAt n = 1 := by
  cases n <;> rfl

theorem median_replicate_zero (n : Nat) : median (List.replicate n 0) = 0 := by
  have hsorted : (List.replicate n 0).Pairwise (· ≤ ·) := List.pairwise_replicate.mpr (.inr le_rfl)
  have hget : ∀ i, (List.replicate n 0).getD i 0 = 0 := fun i => by
    rw [List.getD_eq_getElem?_getD, List.getElem?_replicate]
    split <;> rfl
  rw [median_eq, hsorted.insertionSort_eq, hget, hget]
  split <;> rfl

theorem ofNat_inj_of_lt {i j salt : Nat} (hi : i + salt < 2 ^ 256) (hj : j + salt < 2 ^ 256)
    (h : BitVec.ofNat 256 (i + salt) = BitVec.ofNat 256 (j + salt)) : i = j := by
  have htoNat := congrArg BitVec.toNat h
  rw [BitVec.toNat_ofNat, BitVec.toNat_ofNat, Nat.mod_eq_of_lt hi, Nat.mod_eq_of_lt hj] at htoNat
  omega

namespace EmptyChain

variable {salt n : Nat} {c : Checkpoints} {weight : Nat → UInt64} {s : Blockchain}

theorem height_eq (h : EmptyChain salt weight n s) : s.height = n := by
  have hlen := congrArg List.length h.blocks
  simpa [Blockchain.height] using hlen

theorem exists_eq (h : EmptyChain salt weight n s) {sb : StoredBlock} (hsb : sb ∈ s.chain) :
    ∃ i < n, sb.bl = emptyBlock salt i := by
  have hmem : sb.bl ∈ (List.range n).map (emptyBlock salt) :=
    h.blocks ▸ List.mem_map_of_mem hsb
  obtain ⟨i, hi, heq⟩ := List.mem_map.mp hmem
  exact ⟨i, List.mem_range.mp hi, heq.symm⟩

theorem idAt_eq (h : EmptyChain salt weight n s) {i : Nat} (hi : i < n) :
    s.chain[i]?.map (StoredBlock.id (emptyRegtest salt c weight)) =
      some (BitVec.ofNat 256 (i + salt)) := by
  have hget : (s.chain.map StoredBlock.bl)[i]? = some (emptyBlock salt i) := by
    rw [h.blocks, List.getElem?_map, List.getElem?_range hi]
    rfl
  rw [List.getElem?_map] at hget
  obtain ⟨sb, hsb, hbl⟩ := Option.map_eq_some_iff.mp hget
  rw [hsb, Option.map_some, StoredBlock.id, hbl]
  rfl

theorem tailId_eq (h : EmptyChain salt weight n s) :
    s.tailId (emptyRegtest salt c weight) = (emptyBlock salt n).prevId := by
  have hlen : s.chain.length = n := h.height_eq
  show (s.chain.getLast?.map _).getD nullHash = if n = 0 then nullHash else _
  rw [List.getLast?_eq_getElem?, hlen]
  split
  · rename_i hn
    subst hn
    rw [List.length_eq_zero_iff.mp hlen]
    rfl
  · rw [h.idAt_eq (by omega)]
    rfl

theorem recentTimestamps_eq (h : EmptyChain salt weight n s) :
    ∃ k, recentTimestamps s.chain = List.replicate k 0 := by
  refine ⟨_, List.eq_replicate_of_mem fun t ht => ?_⟩
  obtain ⟨sb, hsb, rfl⟩ := List.mem_map.mp ht
  obtain ⟨i, -, hbl⟩ := h.exists_eq (List.mem_of_mem_drop hsb)
  rw [hbl]
  rfl

theorem hfVersion_eq (s : Blockchain) : s.hfVersion (emptyRegtest salt c weight) = 1 :=
  versionAt_firstVersion _

theorem difficulty_eq (s : Blockchain) :
    (s.getDifficultyForNextBlock (emptyRegtest salt c weight)).1 = 1 := by
  show (if s.height = 0 then 1 else 1) = 1
  simp

theorem headerOk (h : EmptyChain salt weight n s) :
    HeaderOk (emptyRegtest salt c weight) s (emptyBlock salt n)
      (BitVec.ofNat 256 (n + salt)) {} false where
  prev := h.tailId_eq.symm
  version := by
    show (decide (1 = firstVersion.versionAt _) && decide (1 ≥ firstVersion.versionAt _)) = true
    rw [versionAt_firstVersion]
    rfl
  timestamp := by
    obtain ⟨k, hk⟩ := h.recentTimestamps_eq
    unfold checkBlockTimestamp checkTimestampMedian
    rw [hk, median_replicate_zero]
    simp [emptyBlock]
  difficulty := by
    rw [difficulty_eq]
    exact Nat.one_ne_zero
  precomputed := rfl
  pow := .inr (by
    unfold checkPow Env.getBlockLonghash
    rw [difficulty_eq]
    dsimp only
    split
    · decide +kernel
    · show checkHash (if (1 : Nat) ≥ 12 then 0 else 0) 1 = true
      decide +kernel)
  coinbase := by
    rw [hfVersion_eq, h.height_eq]
    unfold prevalidateMinerTransaction emptyBlock regtestCoinbase
    cases n with
    | zero => rfl
    | succ n =>
      simp [hfMinV2CoinbaseTx, hfRejectSigsInCoinbase, checkOutsOverflow, checkOutputTypes,
        WordSum.addsWithoutWrap]
  supplement := .inr (by simp [verSupplement])

def reward (n : Nat) : UInt64 :=
  if n = 0 then moneySupply else 0

/-- The chain has neither the id nor the coinbase of the next block. -/
theorem fresh (h : EmptyChain salt weight n s) (hn : n + salt + 1001 < 2 ^ 256) {sb : StoredBlock}
    (hsb : sb ∈ s.chain) :
    sb.id (emptyRegtest salt c weight) ≠ BitVec.ofNat 256 (n + salt) ∧
      BitVec.ofNat 256 (n + 1001) ∉ sb.txIds (emptyRegtest salt c weight) := by
  obtain ⟨i, hi, hbl⟩ := h.exists_eq hsb
  rw [StoredBlock.id, StoredBlock.txIds, hbl]
  refine ⟨fun heq => ?_, fun hmem => ?_⟩
  · have heq : BitVec.ofNat 256 (i + salt) = BitVec.ofNat 256 (n + salt) := heq
    exact absurd (ofNat_inj_of_lt (by omega) (by omega) heq) (by omega)
  · have heq : BitVec.ofNat 256 (n + 1001) = BitVec.ofNat 256 (1000 + i + 1) :=
      List.mem_singleton.mp hmem
    rw [show 1000 + i + 1 = i + 1001 from by omega] at heq
    exact absurd (ofNat_inj_of_lt (by omega) (by omega) heq) (by omega)

theorem blockExists_next (h : EmptyChain salt weight n s) (hn : n + salt + 1001 < 2 ^ 256) :
    s.chain.blockExists (emptyRegtest salt c weight) (BitVec.ofNat 256 (n + salt)) = false :=
  List.any_eq_false.mpr fun _ hsb hid => (h.fresh hn hsb).1 (of_decide_eq_true hid)

theorem canAdd (h : EmptyChain salt weight n s) (hn : n + salt + 1001 < 2 ^ 256)
    {sb : StoredBlock} (hbl : sb.bl = emptyBlock salt n) (htxs : sb.txs = []) :
    s.chain.canAdd (emptyRegtest salt c weight) sb = true := by
  have hids : sb.txIds (emptyRegtest salt c weight) = [BitVec.ofNat 256 (n + 1001)] := by
    rw [StoredBlock.txIds, hbl, show n + 1001 = 1000 + n + 1 from by omega]
    rfl
  have himages : sb.keyImages = [] := by
    rw [StoredBlock.keyImages, hbl, htxs]
    rfl
  have hstorable : storableInputs (emptyBlock salt n).minerTx &&
      storableOutputs (emptyBlock salt n).minerTx := by
    cases n with
    | zero => rfl
    | succ n => rfl
  have hnew : s.chain.blockExists (emptyRegtest salt c weight)
      (sb.id (emptyRegtest salt c weight)) = false := by
    rw [StoredBlock.id, hbl]
    exact h.blockExists_next hn
  have hnewTx : s.chain.txExists (emptyRegtest salt c weight)
      (BitVec.ofNat 256 (n + 1001)) = false :=
    List.any_eq_false.mpr fun sb' hsb' => by simpa using (h.fresh hn hsb').2
  have htail : s.chain.tailId (emptyRegtest salt c weight) =
      (emptyBlock salt n).prevId := h.tailId_eq
  have hhashes : (emptyBlock salt n).txHashes = [] := rfl
  have hmajor : (emptyBlock salt n).majorVersion = 1 := rfl
  unfold Chain.canAdd
  rw [hids, himages, hnew, hbl, htxs]
  simp [hstorable, hnewTx, htail, hhashes, hmajor]

theorem accepts (h : EmptyChain salt weight n s) (hn : n + salt + 1001 < 2 ^ 256) :
    Accepts (emptyRegtest salt c weight) s (emptyBlock salt n)
      (BitVec.ofNat 256 (n + salt)) {} false
      { pool := s.pool, ps := ({} : PoolSupplement).marked false
          (s.hfVersion (emptyRegtest salt c weight)) }
      (weight n) (reward n, false) where
  toHeaderOk := h.headerOk
  taken := rfl
  weighed := by
    show some (weight (1000 + n - 1000)) = some (weight n)
    rw [Nat.add_sub_cancel_left]
  reward := by
    unfold Blockchain.rewardFor validateMinerTransaction
    rw [h.coins, getBlockReward_eq, hfVersion_eq]
    cases n with
    | zero => rfl
    | succ n => rfl
  storable := h.canAdd hn rfl rfl

theorem limit_of_weights {t u : Blockchain}
    (ht : t.weights = (u.updateNextCumulativeWeightLimit (emptyRegtest salt c weight)).weights)
    (hchain : t.chain = u.chain)
    (hweights : t.chain.map StoredBlock.blockWeight = (List.range n).map weight) :
    t.weights.limit = emptyLimit weight n := by
  have hlen : u.height = n := by
    have hlen := congrArg List.length hweights
    simpa [hchain, Blockchain.height] using hlen
  rw [ht, emptyLimit, ← hweights, hchain, ← List.map_drop]
  unfold updateNextCumulativeWeightLimit nextWeightMedian
  rw [hfVersion_eq, ← hlen]
  rfl

/-- **The next empty block is accepted** and stored with its weight. -/
theorem next (h : EmptyChain salt weight n s) (hn : n + salt + 1001 < 2 ^ 256) :
    let o := s.handleBlockToMainChain (emptyRegtest salt c weight) (emptyBlock salt n)
      (BitVec.ofNat 256 (n + salt)) {}
    o.ret = true ∧ EmptyChain salt weight (n + 1) o.st := by
  intro o
  have ho : o = acceptedOutcome (emptyRegtest salt c weight) s (emptyBlock salt n) _
      (weight n) (reward n, false) := handleBlock_of_accepts (h.accepts hn)
  have hweights : o.st.chain.map StoredBlock.blockWeight = (List.range (n + 1)).map weight := by
    rw [ho]
    show (s.chain ++ [_]).map StoredBlock.blockWeight = _
    rw [List.map_append, h.weights, List.range_succ, List.map_append]
    rfl
  rw [ho] at hweights ⊢
  refine ⟨rfl, ?_, hweights, ?_, fun _ => ?_, h.noAlt, h.noInvalid⟩
  · show (s.chain ++ [_]).map StoredBlock.bl = _
    rw [List.map_append, h.blocks, List.range_succ, List.map_append]
    rfl
  · have hcoins : ∀ sb : StoredBlock, Chain.topAlreadyGeneratedCoins (s.chain ++ [sb]) =
        sb.alreadyGeneratedCoins := fun sb => by simp [Chain.topAlreadyGeneratedCoins]
    rw [if_neg (Nat.succ_ne_zero n)]
    refine (hcoins _).trans ?_
    unfold Blockchain.written Blockchain.storedBlock
    dsimp only
    rw [h.coins]
    cases n with
    | zero => decide
    | succ n =>
      rw [reward, if_neg (Nat.succ_ne_zero n), if_neg (Nat.succ_ne_zero n)]
      decide
  · exact limit_of_weights rfl rfl hweights

theorem addNewBlock_eq (h : EmptyChain salt weight n s) (hn : n + salt + 1001 < 2 ^ 256)
    (depth : Nat) :
    s.addNewBlock (emptyRegtest salt c weight) depth (emptyBlock salt n) {} =
      s.handleBlockToMainChain (emptyRegtest salt c weight) (emptyBlock salt n)
        (BitVec.ofNat 256 (n + salt)) {} := by
  have hnew : s.haveBlock (emptyRegtest salt c weight) (BitVec.ofNat 256 (n + salt)) =
      false := by
    simp [Blockchain.haveBlock, Blockchain.getAltBlock, Keyed.find?, h.blockExists_next hn, h.noAlt,
      h.noInvalid]
  unfold Blockchain.addNewBlock
  show (if s.haveBlock _ (BitVec.ofNat 256 (n + salt)) then _ else _ : Outcome) = _
  rw [hnew, if_neg Bool.false_ne_true, if_neg (not_not.mpr h.tailId_eq.symm)]
  rfl

end EmptyChain

/-- The first `n` blocks, the genesis block apart, one after the other. -/
def emptyEvents (salt n : Nat) : List Event :=
  ((List.range' 1 n).map fun i => (emptyBlock salt i, {})).map fun b => .block b.1 b.2

/-- The node after `n` empty blocks on top of the genesis block. -/
def emptyRun (salt : Nat) (c : Checkpoints) (weight : Nat → UInt64) (depth n : Nat) :
    Blockchain :=
  (({} : Blockchain).withGenesis (emptyRegtest salt c weight) (emptyBlock salt 0)
    {}).run (emptyRegtest salt c weight) depth (emptyEvents salt n)

section EmptyRun

variable {salt n : Nat} {c : Checkpoints} {weight : Nat → UInt64}

theorem emptyChain_init : EmptyChain salt weight 0 {} :=
  ⟨rfl, rfl, rfl, fun h => absurd rfl h, rfl, rfl⟩

theorem emptyGenesis_added (hsalt : salt < 2 ^ 64) :
    GenesisAdded (emptyRegtest salt c weight) {} (emptyBlock salt 0) {} :=
  .of_init rfl (emptyChain_init.next (by omega)).1

theorem emptyEvents_ok (e : Env) (depth : Nat) (s : Blockchain) :
    RunOk e (fun _ => True) depth s (emptyEvents salt n) := by
  refine RunOk.of_blocks fun b hb => ?_
  obtain ⟨i, -, rfl⟩ := List.mem_map.mp hb
  exact ⟨trivial, PoolSupplement.ok_empty⟩

/-- **Every height is reached.** -/
theorem emptyChain_run (depth : Nat) (hn : n + salt + 1001 < 2 ^ 256) :
    EmptyChain salt weight (n + 1) (emptyRun salt c weight depth n) := by
  induction n with
  | zero => exact (emptyChain_init.next (by omega)).2
  | succ n ih =>
    have hbefore := ih (by omega)
    have hstep : emptyRun salt c weight depth (n + 1) =
        ((emptyRun salt c weight depth n).addNewBlock
          (emptyRegtest salt c weight) depth (emptyBlock salt (n + 1)) {}).st := by
      unfold emptyRun emptyEvents Blockchain.run
      rw [List.range'_concat, List.map_append, List.map_append, List.foldl_append, Nat.one_mul,
        Nat.add_comm 1]
      rfl
    rw [hstep, hbefore.addNewBlock_eq hn]
    exact (hbefore.next hn).2

end EmptyRun

end Oxyra
