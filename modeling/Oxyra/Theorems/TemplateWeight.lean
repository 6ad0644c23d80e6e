import Oxyra.Logic.Template
import Oxyra.Logic.Regtest

/-!
# The weight of a template

`fill_block_template` keeps the chosen transactions under a multiple of the median less
the size reserved for the coinbase. The subtraction is one of machine words: below the
reserved size it wraps to a bound that nothing exceeds.
-/

namespace Oxyra

open TxPool

variable {e : Env} {ctx : PoolContext} {p : TxPool} {st : FillState}

/-- The multiple of the median before the reserved size is taken off. -/
def weightAllowance (medianWeight : UInt64) (version : Nat) : Nat :=
  if version ≥ 5 then 2 * medianWeight.toNat else 130 * medianWeight.toNat / 100

section Bound

variable {medianWeight : UInt64} {version : Nat}

theorem toNat_allowance (hm : medianWeight.toNat < 2 ^ 56) :
    (if version ≥ 5 then 2 * medianWeight else 130 * medianWeight / 100).toNat =
      weightAllowance medianWeight version := by
  unfold weightAllowance
  split
  · rw [UInt64.toNat_mul]
    simp only [UInt64.reduceToNat]
    omega
  · rw [UInt64.toNat_div, UInt64.toNat_mul]
    simp only [UInt64.reduceToNat]
    rw [Nat.mod_eq_of_lt (by omega)]

theorem maxTotalWeight_eq : maxTotalWeight medianWeight version =
    (if version ≥ 5 then 2 * medianWeight else 130 * medianWeight / 100) -
      coinbaseBlobReservedSize := by
  unfold maxTotalWeight
  split <;> rfl

theorem toNat_maxTotalWeight (hm : medianWeight.toNat < 2 ^ 56)
    (h : coinbaseBlobReservedSize.toNat ≤ weightAllowance medianWeight version) :
    (maxTotalWeight medianWeight version).toNat =
      weightAllowance medianWeight version - coinbaseBlobReservedSize.toNat := by
  have hle : coinbaseBlobReservedSize ≤
      if version ≥ 5 then 2 * medianWeight else 130 * medianWeight / 100 := by
    rw [UInt64.le_iff_toNat_le, toNat_allowance hm]
    exact h
  rw [maxTotalWeight_eq, UInt64.toNat_sub_of_le _ _ hle, toNat_allowance hm]

theorem maxTotalWeight_wraps (hm : medianWeight.toNat < 2 ^ 56)
    (h : weightAllowance medianWeight version < coinbaseBlobReservedSize.toNat) :
    2 ^ 64 - coinbaseBlobReservedSize.toNat ≤ (maxTotalWeight medianWeight version).toNat := by
  rw [maxTotalWeight_eq, UInt64.toNat_sub, toNat_allowance hm]
  simp only [coinbaseBlobReservedSize, UInt64.reduceToNat] at h ⊢
  omega

theorem weightAllowance_le : weightAllowance medianWeight version ≤ 2 * medianWeight.toNat := by
  unfold weightAllowance
  split <;> omega

end Bound

/-! ## The total -/

def TxPool.weightsOf (p : TxPool) (ids : List Hash) : List UInt64 :=
  ids.map fun id => ((p.find? id).map fun t => t.info.weight).getD 0

/-- The total is that of the listed transactions, by the weights of the pool `p`, and is
within the bound. -/
structure Loaded (p : TxPool) (maxWeight : UInt64) (st : FillState) : Prop where
  weights : ∀ id, (st.pool.find? id).map (fun t => t.info.weight) =
    (p.find? id).map fun t => t.info.weight
  total : st.totalWeight.toNat = WordSum.natSum (p.weightsOf st.txHashes)
  fits : st.totalWeight ≤ maxWeight

theorem Touched.weight {t : PoolTx} {q : TxPool} (h : Touched ctx t p q)
    (hfind : p.find? t.id = some t) (id : Hash) :
    (q.find? id).map (fun t => t.info.weight) = (p.find? id).map fun t => t.info.weight := by
  by_cases hid : id = t.id
  · obtain ⟨info, hq, hterms⟩ := h.own hfind
    rw [hid, hq, hfind, Option.map_some, Option.map_some, hterms.weight]
  · rw [h.rows id hid]

theorem Loaded.consider {maxWeight medianWeight coins coinbase : UInt64} {version : Nat}
    {t : PoolTx} (h : Loaded p maxWeight st) (hfind : st.pool.find? t.id = some t)
    (hlight : maxWeight.toNat + t.info.weight.toNat < 2 ^ 64)
    (hverdict : fillVerdict e medianWeight maxWeight coins version st t.info =
      .consider coinbase) : Loaded p maxWeight (considerTx ctx st t coinbase) := by
  obtain ⟨htouched, hcases⟩ := considerTx_cases ctx st t coinbase
  have hweights := fun id => (htouched.weight hfind id).trans (h.weights id)
  rcases hcases with heq | ⟨tx, -, -, heq⟩
  · refine ⟨hweights, ?_, ?_⟩ <;> rw [heq]
    · exact h.total
    · exact h.fits
  · have hfits := fits_of_consider hverdict
    have hle : st.totalWeight.toNat ≤ maxWeight.toNat := h.fits
    have hsum : (st.totalWeight + t.info.weight).toNat =
        st.totalWeight.toNat + t.info.weight.toNat := by
      rw [UInt64.toNat_add, Nat.mod_eq_of_lt (by omega)]
    have hown : (p.find? t.id).map (fun t => t.info.weight) = some t.info.weight := by
      rw [← h.weights, hfind]
      rfl
    refine ⟨hweights, ?_, ?_⟩ <;> rw [heq]
    · show (st.totalWeight + t.info.weight).toNat = _
      rw [hsum, h.total, weightsOf, weightsOf, List.map_append, WordSum.natSum_append]
      simp [hown]
    · exact hfits

/-- **The total never exceeds the bound**, as long as no transaction is so heavy that the
sum with it wraps. -/
theorem fillLoop_loaded {maxWeight medianWeight coins : UInt64} {version : Nat}
    (hlight : ∀ t ∈ p.txs, maxWeight.toNat + t.info.weight.toNat < 2 ^ 64) (l : List SortedTx)
    (h : Loaded p maxWeight st) :
    Loaded p maxWeight (fillLoop e ctx medianWeight maxWeight coins version l st) := by
  refine fillLoop_invariant (fun st t coinbase h hfind hverdict => ?_) l h
  refine h.consider hfind ?_ hverdict
  obtain ⟨t', ht', hw⟩ : ∃ t', p.find? t.id = some t' ∧ t'.info.weight = t.info.weight := by
    have hown := h.weights t.id
    rw [hfind] at hown
    obtain ⟨t', ht', hw⟩ := Option.map_eq_some_iff.mp hown.symm
    exact ⟨t', ht', hw⟩
  rw [← hw]
  exact hlight t' (Keyed.mem_of_find? ht')

theorem fillBlockTemplate_loaded {medianWeight coins : UInt64} {version : Nat}
    (hlight : ∀ t ∈ p.txs,
      (maxTotalWeight medianWeight version).toNat + t.info.weight.toNat < 2 ^ 64)
    (h : fillBlockTemplate e ctx p medianWeight coins version = some st) :
    Loaded p (maxTotalWeight medianWeight version) st := by
  obtain ⟨best, -, rfl⟩ := Option.map_eq_some_iff.mp h
  exact fillLoop_loaded hlight _ ⟨fun _ => rfl, rfl, UInt64.zero_le⟩

/-! ## One heavy transaction -/

/-- A context whose top block no transaction has failed at. -/
def freshContext : PoolContext where
  now := 0
  topHeight := 0
  topId := 1
  checkTxInputs _ _ := some (0, 1)
  checkFee _ _ := true

/-- A transaction heavier than twice any median that makes the bound wrap. -/
def heavyTx : PoolTx :=
  ⟨1, {}, { weight := 1000, fee := 0, relayMethod := .fluff }⟩

def heavyPool : TxPool :=
  { txs := [heavyTx], sorted := [⟨0, 0, 1⟩] }

theorem heavy_listed {medianWeight : UInt64} {version : Nat}
    (h : (1000 : UInt64) ≤ maxTotalWeight medianWeight version) :
    ∃ st, fillBlockTemplate e freshContext heavyPool medianWeight 1 version = some st ∧
      st.txHashes = [1] := by
  have hfits : ¬ maxTotalWeight medianWeight version < 0 + heavyTx.info.weight := by
    rw [zero_add]
    exact UInt64.not_lt.mpr h
  have hbase : baseRewardOf 1 = 0 := rfl
  have hverdict : fillVerdict e medianWeight (maxTotalWeight medianWeight version) 1 version
      { pool := heavyPool, bestCoinbase := 0 } heavyTx.info = .consider 0 := by
    unfold fillVerdict
    rw [if_neg (by simp [heavyTx, RelayMethod.matchesLegacy]), if_neg (by simp [heavyTx]),
      if_neg hfits]
    split
    · simp [getBlockReward_eq, hbase, templateAcceptThreshold, heavyTx]
    · rw [if_neg (by simp)]
  have hfound : heavyPool.find? 1 = some heavyTx := rfl
  refine ⟨_, by rw [fillBlockTemplate, getBlockReward_eq, hbase]; rfl, ?_⟩
  show (fillLoop e freshContext medianWeight _ 1 version [⟨0, 0, 1⟩] _).txHashes = _
  simp only [fillLoop, hfound, hverdict]
  rfl

/-- **The cap of the template weight.** What is chosen weighs at most twice the median for
every pool of transactions of less than 2^63, exactly if the multiple of the median is not
below the size reserved for the coinbase. -/
theorem template_weight_cap_iff (medianWeight : UInt64) (hm : medianWeight.toNat < 2 ^ 56)
    (version : Nat) :
    (∀ (e : Env) (ctx : PoolContext) (p : TxPool) (coins : UInt64) (st : FillState),
      (∀ t ∈ p.txs, t.info.weight.toNat < 2 ^ 63) →
      fillBlockTemplate e ctx p medianWeight coins version = some st →
        WordSum.natSum (p.weightsOf st.txHashes) ≤ 2 * medianWeight.toNat) ↔
    600 ≤ if version ≥ 5 then 2 * medianWeight.toNat else 130 * medianWeight.toNat / 100 := by
  show _ ↔ coinbaseBlobReservedSize.toNat ≤ weightAllowance medianWeight version
  have hallow : weightAllowance medianWeight version ≤ 2 * medianWeight.toNat := weightAllowance_le
  constructor
  · intro hcap
    by_contra hsmall
    have hwraps := maxTotalWeight_wraps hm (by omega :
      weightAllowance medianWeight version < coinbaseBlobReservedSize.toNat)
    simp only [coinbaseBlobReservedSize, UInt64.reduceToNat] at hsmall hwraps
    have hheavy : (1000 : UInt64) ≤ maxTotalWeight medianWeight version := by
      rw [UInt64.le_iff_toNat_le]
      simp only [UInt64.reduceToNat]
      omega
    obtain ⟨st, hst, hlisted⟩ := heavy_listed (e := regtest (schedule 1 [])) hheavy
    have hle := hcap _ _ heavyPool 1 st (by decide) hst
    rw [hlisted, show WordSum.natSum (heavyPool.weightsOf [1]) = 1000 from rfl] at hle
    -- a median that makes the bound wrap is below 462
    unfold weightAllowance at hsmall
    split at hsmall <;> omega
  · intro hlarge e ctx p coins st hlight hst
    have hmax := toNat_maxTotalWeight hm hlarge
    have hloaded := fillBlockTemplate_loaded (fun t ht => by have := hlight t ht; omega) hst
    have hfits : st.totalWeight.toNat ≤ (maxTotalWeight medianWeight version).toNat := hloaded.fits
    rw [hloaded.total] at hfits
    omega

/-! ## A small parent -/

theorem template_weight_cap_median_300 :
    (300 : UInt64).toNat < 2 ^ 56 ∧
      ∀ (e : Env) (ctx : PoolContext) (p : TxPool) (coins : UInt64) (st : FillState),
        (∀ t ∈ p.txs, t.info.weight.toNat < 2 ^ 63) →
        fillBlockTemplate e ctx p 300 coins 5 = some st →
          WordSum.natSum (p.weightsOf st.txHashes) ≤ 2 * (300 : UInt64).toNat :=
  ⟨by decide, (template_weight_cap_iff 300 (by decide) 5).mpr (by decide)⟩

/-- A node at its genesis block, which weighs 100, with a transaction of weight 1000 in
the pool. -/
def smallParentNode : Blockchain :=
  { ({} : Blockchain).withGenesis (regtest firstVersion) (regtestGenesis 1 [moneySupply]) {} with
    pool :=
      { txs := [⟨8, regtestTx 7 moneySupply 0 5,
          { weight := 1000, fee := 5, relayMethod := .fluff }⟩]
        sorted := [⟨0, 0, 8⟩] } }

/-- A template on the genesis block is filled for a median of 100 and gets a transaction
that weighs 1000. -/
theorem from_small_block_over_cap :
    ∃ base st, smallParentNode.fromBase (regtest (schedule 1 [])) 1 = some base ∧
      base.medianWeight = 100 ∧
      fillBlockTemplate (regtest (schedule 1 []))
        (smallParentNode.poolContext (regtest (schedule 1 []))) smallParentNode.pool
        base.medianWeight base.alreadyGeneratedCoins base.majorVersion = some st ∧
      WordSum.natSum (smallParentNode.pool.weightsOf st.txHashes) = 1000 := by
  refine ⟨_, _, rfl, ?_, rfl, ?_⟩ <;> decide +kernel

/-! ## The coinbase of a template -/

structure Unpaid (height : Nat) (tx : Transaction) : Prop where
  vin : tx.vin = [.gen height]
  vout : tx.vout = []
  version : tx.version = 2
  rct : tx.rctSignatures = {}

theorem construct_unpaid {a : CoinbaseArgs} (hcoins : a.alreadyGeneratedCoins ≠ 0) {txkey : Keypair}
    {tx tx' : Transaction} {weight : UInt64} (hrct : tx.rctSignatures = {})
    (h : a.construct e txkey tx weight = some tx') : Unpaid a.height tx' := by
  unfold CoinbaseArgs.construct constructMinerTx at h
  rw [getBlockReward_eq, baseRewardOf, if_neg hcoins] at h
  obtain ⟨extra, -, h⟩ := Option.bind_eq_some_iff.mp h
  obtain rfl := Option.some.inj h
  exact ⟨rfl, rfl, rfl, hrct⟩

theorem fitCoinbase_unpaid {height : Nat} (txsWeight cumulativeWeight : UInt64)
    {tx tx' : Transaction} (h : Unpaid height tx) :
    (fitCoinbase e txsWeight cumulativeWeight tx = .done tx' ∨
      ∃ w, fitCoinbase e txsWeight cumulativeWeight tx = .retry tx' w) → Unpaid height tx' := by
  have hextra : ∀ extra, Unpaid height { tx with extra := extra } :=
    fun _ => ⟨h.vin, h.vout, h.version, h.rct⟩
  unfold fitCoinbase padCoinbase
  dsimp only
  split_ifs
  all_goals simp only [FitResult.done.injEq, FitResult.retry.injEq, exists_and_left, exists_eq',
    and_true, false_or, or_false, exists_false, or_self, false_imp_iff]
  all_goals rintro rfl
  all_goals first | exact h | exact hextra _

theorem fitLoop_unpaid {a : CoinbaseArgs} (hcoins : a.alreadyGeneratedCoins ≠ 0)
    {keys : Nat → Keypair} (tries : Nat) {tx : Transaction} (hrct : tx.rctSignatures = {})
    {weight : UInt64} {r : Transaction × UInt64} (h : fitLoop e a keys tries tx weight = some r) :
    Unpaid a.height r.1 := by
  induction tries generalizing tx weight with
  | zero => exact absurd h (by simp [fitLoop])
  | succ tries ih =>
    obtain ⟨tx₁, htx₁, h⟩ := Option.bind_eq_some_iff.mp h
    have hfit := fun tx' => @fitCoinbase_unpaid e _ a.txsWeight weight _ tx'
      (construct_unpaid hcoins hrct htx₁)
    cases hres : fitCoinbase e a.txsWeight weight tx₁ with
    | fail =>
      rw [hres] at h
      exact absurd h (by simp)
    | retry tx₂ weight₂ =>
      rw [hres] at h
      exact ih (hfit tx₂ (.inr ⟨weight₂, hres⟩)).rct h
    | done tx₂ =>
      rw [hres] at h
      obtain rfl := Option.some.inj h
      exact hfit tx₂ (.inl hres)

/-- **The node refuses its own coinbase as soon as it lists a fee.** Above the genesis block,
whatever the pool holds and for every version, address and extra nonce, the coinbase of a
template passes `prevalidate_miner_transaction`, and it passes
`validate_miner_transaction` exactly if the fees of the block come to zero. -/
theorem template_coinbase_accepted_iff (s : Blockchain) (base : TemplateBase)
    (hcoins : base.alreadyGeneratedCoins ≠ 0) (address : AccountPublicAddress)
    (exNonce : List UInt8) (keys : Nat → Keypair) (t : BlockTemplate) (pool : TxPool)
    (h : s.fillTemplate e base address exNonce keys = some (t, pool)) :
    prevalidateMinerTransaction t.b base.height base.majorVersion = true ∧
      ∀ medianWeight weight fee,
        (validateMinerTransaction t.b medianWeight weight fee base.alreadyGeneratedCoins
          base.majorVersion).isSome = true ↔ fee = 0 := by
  unfold Blockchain.fillTemplate at h
  split at h
  · exact absurd h (by simp)
  obtain ⟨filled, -, h⟩ := Option.bind_eq_some_iff.mp h
  obtain ⟨coinbase, hmade, h⟩ := Option.bind_eq_some_iff.mp h
  obtain ⟨tx, htx, hloop⟩ := Option.bind_eq_some_iff.mp hmade
  obtain ⟨rfl, -⟩ := Prod.mk.inj (Option.some.inj h)
  have hunpaid := fitLoop_unpaid hcoins 10 (construct_unpaid hcoins rfl htx).rct hloop
  refine ⟨?_, fun medianWeight weight fee => ?_⟩
  · simp [prevalidateMinerTransaction, hunpaid.vin, hunpaid.vout, hunpaid.version, hunpaid.rct,
      checkOutsOverflow, checkOutputTypes, WordSum.addsWithoutWrap]
  · rw [Option.isSome_iff_exists]
    simp [validateMinerTransaction_iff hcoins, decomposedIfRequired, getOutsMoneyAmount,
      hunpaid.vout, eq_comm]

theorem template_coinbase_refused :
    ∃ base t pool, smallParentNode.fillTemplate (regtest firstVersion) base ⟨1, 1⟩ []
        (fun _ => ⟨1, 1⟩) = some (t, pool) ∧ t.b.txHashes = [8] ∧
      (validateMinerTransaction t.b 0 0 5 base.alreadyGeneratedCoins base.majorVersion).isSome
        = false := by
  let base := (smallParentNode.topBase (regtest firstVersion)).1
  have hlisted : (smallParentNode.fillTemplate (regtest firstVersion) base ⟨1, 1⟩ []
      fun _ => ⟨1, 1⟩).map (fun r => r.1.b.txHashes) = some [8] := by decide +kernel
  obtain ⟨⟨t, pool⟩, ht, hids⟩ := Option.map_eq_some_iff.mp hlisted
  refine ⟨base, t, pool, ht, hids, ?_⟩
  rw [← Bool.not_eq_true, (template_coinbase_accepted_iff smallParentNode base (by decide +kernel)
    _ _ _ t pool ht).2]
  decide

end Oxyra
