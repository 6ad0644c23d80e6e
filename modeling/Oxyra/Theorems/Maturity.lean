import Oxyra.Logic.Regtest

/-!
# Coinbase maturity

A coinbase output carries the `unlock_time` its miner wrote into it, and
`is_tx_spendtime_unlocked` goes by that word when a ring names the output. The
check that the word is `height + 60` is commented out of
`prevalidate_miner_transaction`, so nothing ties the two together.
-/

namespace Oxyra

open Blockchain

variable {e : Env} {s : Blockchain} {amount : UInt64} {chain : Chain} {keyOffsets : List UInt64}
  {now version : Nat} {r : UInt64 × OutputData} {tx : Transaction}

/-! ## Where an output comes from -/

theorem mem_outputRows :
    r ∈ chain.outputRows e ↔ ∃ h, ∃ sb : StoredBlock, chain[h]? = some sb ∧ r ∈ sb.outputs e h := by
  unfold Chain.outputRows
  rw [List.mem_flatMap]
  constructor
  · rintro ⟨⟨sb, h⟩, hmem, hr⟩
    exact ⟨h, sb, List.mk_mem_zipIdx_iff_getElem?.mp hmem, hr⟩
  · rintro ⟨h, sb, hsb, hr⟩
    exact ⟨(sb, h), List.mk_mem_zipIdx_iff_getElem?.mpr hsb, hr⟩

theorem mem_transactionOutputs {height : Nat} {ofMiner : Bool}
    (h : r ∈ transactionOutputs e height ofMiner tx) :
    r.2.height = height ∧ r.2.unlockTime = tx.unlockTime ∧ r.2.fromMinerTx = ofMiner ∧
      tx.vout ≠ [] := by
  obtain ⟨⟨o, i⟩, hmem, rfl⟩ := List.mem_map.mp h
  refine ⟨rfl, rfl, rfl, fun hnil => ?_⟩
  rw [hnil] at hmem
  exact absurd hmem (by simp)

theorem ofMiner_of_mem {height : Nat} {sb : StoredBlock} (h : r ∈ sb.outputs e height)
    (hm : r.2.fromMinerTx = true) :
    r.2.height = height ∧ r.2.unlockTime = sb.bl.minerTx.unlockTime ∧
      sb.bl.minerTx.vout ≠ [] := by
  rcases List.mem_append.mp h with hr | hr
  · obtain ⟨h1, h2, _, h3⟩ := mem_transactionOutputs hr
    exact ⟨h1, h2, h3⟩
  · obtain ⟨tx, _, hr⟩ := List.mem_flatMap.mp hr
    have := (mem_transactionOutputs hr).2.2.1
    exact absurd (this.symm.trans hm) (by simp)

theorem mem_of_ringOutputs {ring : List OutputData}
    (h : ringOutputs e chain amount keyOffsets = some ring) {o : OutputData} (ho : o ∈ ring) :
    (amount, o) ∈ chain.outputRows e := by
  unfold ringOutputs at h
  have hmem : ∀ (is : List UInt64) (ring : List OutputData),
      is.mapM (fun i => (chain.outputsOfAmount e amount)[i.toNat]?) = some ring →
      ∀ o ∈ ring, o ∈ chain.outputsOfAmount e amount := by
    intro is
    induction is with
    | nil =>
      intro ring h o ho
      obtain rfl : ring = [] := by simpa [eq_comm] using h
      exact absurd ho (by simp)
    | cons i is ih =>
      intro ring h o ho
      simp only [List.mapM_cons, Option.bind_eq_bind, Option.bind_eq_some_iff, Option.pure_def,
        Option.some.injEq] at h
      obtain ⟨o₀, ho₀, rest, hrest, rfl⟩ := h
      rcases List.mem_cons.mp ho with rfl | ho
      · exact List.mem_of_getElem? ho₀
      · exact ih rest hrest o ho
  obtain ⟨r, hr, rfl⟩ := List.mem_map.mp (hmem _ _ h o ho)
  obtain ⟨hr, hamount⟩ := List.mem_filter.mp hr
  rwa [← show r.1 = amount from by simpa using hamount]

/-! ## What the input check has established -/

theorem checkTxInputRings_mem (vin : List TxinV) {rings : List (List OutputData)}
    (h : checkTxInputRings e now chain version vin = some rings) {image : KeyImage}
    (hi : .toKey amount keyOffsets image ∈ vin) :
    ∃ ring, ringOutputs e chain amount keyOffsets = some ring ∧
      ∀ o ∈ ring, isTxSpendtimeUnlocked now chain version o.unlockTime = true := by
  induction vin generalizing rings with
  | nil => exact absurd hi (by simp)
  | cons i rest ih =>
    cases i with
    | toKey amount' keyOffsets' image' =>
      unfold checkTxInputRings at h
      split at h
      · exact absurd h (by simp)
      split at h
      · exact absurd h (by simp)
      obtain ⟨ring, hring, h⟩ := Option.bind_eq_some_iff.mp h
      obtain ⟨rs, hrs, -⟩ := Option.map_eq_some_iff.mp h
      rcases List.mem_cons.mp hi with heq | hi
      · obtain ⟨rfl, rfl, rfl⟩ := TxinV.toKey.inj heq
        obtain ⟨ring', hring', hif⟩ := Option.bind_eq_some_iff.mp hring
        split at hif
        · rename_i hall
          exact ⟨ring', hring', by simpa using hall⟩
        · exact absurd hif (by simp)
      · exact ih hrs hi
    | gen | toScript | toScripthash => exact absurd h (by simp [checkTxInputRings])

theorem checkTxInputs_rings (h : (checkTxInputs e now chain version tx).isSome = true) :
    ∃ rings, checkTxInputRings e now chain version tx.vin = some rings := by
  obtain ⟨maxUsed, h⟩ := Option.isSome_iff_exists.mp h
  unfold checkTxInputs at h
  split at h
  · exact absurd h (by simp)
  · obtain ⟨rings, hrings, _⟩ := Option.bind_eq_some_iff.mp h
    exact ⟨rings, hrings⟩

theorem unlockTime_le {unlockTime : Nat} (hne : chain ≠ []) (hlt : unlockTime < maxBlockNumber)
    (h : isTxSpendtimeUnlocked now chain version unlockTime = true) :
    unlockTime ≤ chain.length := by
  have hpos := List.length_pos_iff.mpr hne
  unfold isTxSpendtimeUnlocked lockedTxAllowedDeltaBlocks at h
  rw [if_pos hlt] at h
  simp only [ge_iff_le, decide_eq_true_eq] at h
  omega

/-! ## The window -/

/-- A coinbase that creates nothing, or locks what it creates for the window
(and by height, not by time). -/
def LocksCoinbase (bl : Block) : Prop :=
  bl.minerTx.vout = [] ∨
    getBlockHeight bl + minedMoneyUnlockWindow ≤ bl.minerTx.unlockTime ∧
      bl.minerTx.unlockTime < maxBlockNumber

instance (bl : Block) : Decidable (LocksCoinbase bl) :=
  inferInstanceAs (Decidable (_ ∨ _ ∧ _))

/-- A block whose transactions, if it lists any, have their inputs checked: there
is no precomputed hash for its height. -/
def ChecksInputs (e : Env) (bl : Block) : Prop :=
  bl.txHashes = [] ∨ ∀ r, e.blocksHashCheck[getBlockHeight bl]? = some r → r.1 = nullHash

/-- What a submitted block has to keep to. -/
def KeepsWindow (e : Env) (bl : Block) : Prop :=
  LocksCoinbase bl ∧ ChecksInputs e bl

/-- **One block against the chain below it.** -/
theorem Extends.matures {fast : Bool} {difficulty : Nat} {pre : Chain} {sb : StoredBlock}
    (h : Extends e fast version now difficulty pre sb) (hchecks : ChecksInputs e sb.bl)
    (hpre : Built (Admitted e) pre) (hlocks : ∀ sb ∈ pre, LocksCoinbase sb.bl) (htx : tx ∈ sb.txs)
    {image : KeyImage} (hi : .toKey amount keyOffsets image ∈ tx.vin) :
    ∃ ring, ringOutputs e pre amount keyOffsets = some ring ∧
      ∀ o ∈ ring, o.fromMinerTx = true → o.height + minedMoneyUnlockWindow ≤ pre.length := by
  have hslow : fast = false := by
    cases fast with
    | false => rfl
    | true =>
      rcases hchecks with hnil | hnull
      · -- no listed transaction, so none stored
        have := h.hashes
        rw [hnil] at this
        simp [List.map_eq_nil_iff.mp this.symm] at htx
      · rw [h.getBlockHeight_eq] at hnull
        have hpc := h.precomputed
        unfold checkPrecomputedHash at hpc
        split at hpc
        · exact absurd hpc (by simp)
        · rename_i expected w hget
          rw [if_pos (hnull _ hget)] at hpc
          exact absurd hpc (by simp)
  have hok := (h.inputs tx htx).resolve_left (by simp [hslow])
  obtain ⟨rings, hrings⟩ := checkTxInputs_rings hok
  obtain ⟨ring, hring, hunlocked⟩ := checkTxInputRings_mem tx.vin hrings hi
  refine ⟨ring, hring, fun o ho hm => ?_⟩
  -- the ring member is the coinbase's of the block at its height
  obtain ⟨height, sb', hsb', hrow⟩ := mem_outputRows.mp (mem_of_ringOutputs hring ho)
  obtain ⟨hheight, hunlock, hvout⟩ := ofMiner_of_mem (r := (amount, o)) hrow hm
  obtain ⟨hlt, rfl⟩ := List.getElem?_eq_some_iff.mp hsb'
  obtain ⟨_, _, _, _, hext⟩ := hpre.getElem height hlt
  have hname : getBlockHeight pre[height].bl = height := by
    rw [hext.getBlockHeight_eq, List.length_take]
    omega
  obtain ⟨hge, hmax⟩ := (hlocks _ (List.getElem_mem hlt)).resolve_left hvout
  have hne : pre ≠ [] := List.ne_nil_of_length_pos (by omega)
  have hopen := hunlocked o ho
  rw [show o.unlockTime = _ from hunlock] at hopen
  calc o.height + minedMoneyUnlockWindow
      = getBlockHeight pre[height].bl + minedMoneyUnlockWindow := by rw [hname, ← hheight]
    _ ≤ pre[height].bl.minerTx.unlockTime := hge
    _ ≤ pre.length := unlockTime_le hne hmax hopen

/-- **Coinbase maturity.** In every run of a node whose blocks all lock their
coinbases and have their inputs checked, a transaction in the block at height
`t` names no coinbase output younger than the window in any of its rings. -/
theorem coinbase_matures (depth : Nat) {g : Block} {ps : PoolSupplement}
    (hg : GenesisAdded e s g ps) (hlocks : LocksCoinbase g) (events : List Event)
    (hrun : RunOk e (KeepsWindow e) depth (s.withGenesis e g ps) events) :
    let chain := ((s.withGenesis e g ps).run e depth events).chain
    ∀ t sb tx amount keyOffsets image, chain[t]? = some sb → tx ∈ sb.txs →
      .toKey amount keyOffsets image ∈ tx.vin →
      ∃ ring, ringOutputs e (chain.take t) amount keyOffsets = some ring ∧
        ∀ o ∈ ring, o.fromMinerTx = true → o.height + minedMoneyUnlockWindow ≤ t := by
  have hknown : Known (KeepsWindow e) (s.withGenesis e g ps) := hg.known ⟨hlocks, .inl hg.alone⟩
  have hsound := hg.sound.run hknown events hrun
  have hk := hknown.steps (run_steps events hknown hrun)
  dsimp only
  generalize (s.withGenesis e g ps).run e depth events = s' at hsound hk
  intro t sb tx amount keyOffsets image hsb htx hi
  obtain ⟨hlt, rfl⟩ := List.getElem?_eq_some_iff.mp hsb
  obtain ⟨fast, version, now, difficulty, hext⟩ := hsound.built.getElem t hlt
  obtain ⟨ring, hring, hall⟩ := hext.matures (hk.chain _ (List.getElem_mem hlt)).2
    (hsound.built.take t) (fun sb hsb => (hk.chain sb (List.mem_of_mem_take hsb)).1) htx hi
  rw [List.length_take, Nat.min_eq_left (Nat.le_of_lt hlt)] at hall
  exact ⟨ring, hring, hall⟩

/-- The genesis block with its coinbase locked for the window. -/
def lockedGenesis : Block :=
  let g := regtestGenesis 1 [moneySupply]
  { g with minerTx := { g.minerTx with unlockTime := minedMoneyUnlockWindow } }

/-- Fifty-nine empty blocks and one that spends the genesis coinbase. -/
def maturingRun : List (Block × PoolSupplement) :=
  ((List.range 59).map fun i =>
    (regtestBlock 1 (i + 1) (UInt32.ofNat i) (UInt32.ofNat (i + 1)) [] [],
      ({} : PoolSupplement))) ++
  [(regtestBlock 1 60 59 60 [] [8#256], regtestSupplement (regtestTx 7 moneySupply 0 0))]

theorem maturingRun_ok : ∀ b ∈ maturingRun,
    KeepsWindow (regtest (schedule 1 [])) b.1 ∧ b.2.Ok (regtest (schedule 1 [])) := by
  intro b hb
  rcases List.mem_append.mp hb with hb | hb
  · obtain ⟨i, _, rfl⟩ := List.mem_map.mp hb
    exact ⟨⟨.inl rfl, .inl rfl⟩, PoolSupplement.ok_empty⟩
  · obtain rfl := List.mem_singleton.mp hb
    exact ⟨⟨.inl rfl, .inr fun r hr => absurd hr (by simp [regtest])⟩, regtestSupplement_ok _ _⟩

/-- The first block that may spend the genesis coinbase does. -/
theorem coinbase_matures_regtest :
    let e := regtest (schedule 1 [])
    let chain := ((({} : Blockchain).withGenesis e lockedGenesis {}).run e 1
      (maturingRun.map fun b => .block b.1 b.2)).chain
    chain[60]?.map StoredBlock.txs = some [regtestTx 7 moneySupply 0 0] ∧
      ∃ ring, ringOutputs e (chain.take 60) moneySupply [0] = some ring ∧
        ∀ o ∈ ring, o.fromMinerTx = true → o.height + minedMoneyUnlockWindow ≤ 60 := by
  have htop : ((({} : Blockchain).withGenesis (regtest (schedule 1 [])) lockedGenesis {}).run
      (regtest (schedule 1 [])) 1 (maturingRun.map fun b => .block b.1 b.2)).chain[60]?.map
      StoredBlock.txs = some [regtestTx 7 moneySupply 0 0] := by decide +kernel
  obtain ⟨sb, hsb, htxs⟩ := Option.map_eq_some_iff.mp htop
  exact ⟨htop, coinbase_matures 1 (.of_init rfl (by decide +kernel)) (by decide) _
    (RunOk.of_blocks maturingRun_ok) 60 sb (regtestTx 7 moneySupply 0 0) moneySupply [0]
    (BitVec.ofNat 256 7) hsb (by simp [htxs]) List.mem_cons_self⟩

/-- A coinbase without a lock, spent by the next block. -/
theorem coinbase_spent_at_once :
    let e := regtest (schedule 1 [])
    let chain := ((({} : Blockchain).withGenesis e (regtestGenesis 1 [moneySupply]) {}).run e 1
      [.block (regtestBlock 1 1 0 1 [5] [8#256]) (regtestSupplement (regtestTx 7 moneySupply 0 5)),
       .block (regtestBlock 1 2 1 2 [] [10#256]) (regtestSupplement (regtestTx 9 5 0 0))]).chain
    chain[2]?.map StoredBlock.txs = some [regtestTx 9 5 0 0] ∧
      (ringOutputs e (chain.take 2) 5 [0]).map (List.map fun o => (o.fromMinerTx, o.height))
        = some [(true, 1)] := by
  decide +kernel

end Oxyra
