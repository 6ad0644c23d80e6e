import Oxyra.Core.Genesis
import Oxyra.Logic.Regtest

/-!
# Agreement on the genesis block

The genesis block is stamped with `time(NULL)`, so two programs have the same
block 0 only if they made it within the same second. Everything else about it is
fixed: the transaction and the nonce are constants, and at difficulty 1 the
search for a nonce never moves (`genesisFor_eq`).
-/

namespace Oxyra

open Blockchain Wallet

variable {e : Env} {s : Blockchain} {net : NetworkType}

/-- A daemon before `Blockchain::init` has filled its database. -/
structure Unfilled (s : Blockchain) : Prop where
  chain : s.chain = []
  alt : s.altBlocks = []
  invalid : s.invalidBlocks = []
  diff : s.diff = {}

theorem Unfilled.difficulty (h : Unfilled s) : (s.getDifficultyForNextBlock e).1 = 1 := by
  unfold getDifficultyForNextBlock height tailId Chain.tailId
  rw [h.chain, h.diff]
  simp only [List.length_nil, if_true, List.getLast?_nil, Option.map_none, Option.getD_none]
  split <;> rfl

theorem generateGenesisBlock_eq_iff (genesisTx : String) (nonce : UInt32) (now now' : Nat) :
    generateGenesisBlock e genesisTx nonce now = generateGenesisBlock e genesisTx nonce now' ↔
      e.parseTx genesisTx = none ∨ now = now' := by
  rw [generateGenesisBlock_eq, generateGenesisBlock_eq]
  cases e.parseTx genesisTx <;> simp

/-- **Block 0 of a daemon** is the genesis block for the second it was started in. -/
theorem initGenesis_some {depth : Nat} {t : Blockchain} (h : Unfilled s)
    (hinit : s.initGenesis e depth net = some t) :
    ∃ b sb, genesisFor e net (s.now e) = some b ∧ sb.bl = b ∧ t.chain = [sb] := by
  obtain ⟨hchain, halt, hinvalid, hdiff⟩ := h
  have htick : Unfilled s.ticked := ⟨hchain, halt, hinvalid, hdiff⟩
  have hzero : ¬ s.height ≠ 0 := by simp [height, hchain]
  unfold initGenesis at hinit
  rw [if_neg hzero] at hinit
  dsimp only at hinit
  generalize hb : (genesisFor e net (s.now e)).getD {} = bl at hinit
  -- nothing is known yet and the parent is the null hash: the block goes to the main path
  have hpath : s.ticked.addNewBlock e depth bl {}
      = s.ticked.handleBlockToMainChain e bl (e.getBlockHash bl) {} := by
    have hprev : bl.prevId = nullHash := by
      rw [← hb, genesisFor_eq]
      cases e.parseTx (getConfig net).genesisTx <;> rfl
    have htail : s.ticked.tailId e = nullHash := by
      unfold tailId Chain.tailId
      rw [htick.chain]
      rfl
    have hhave : s.ticked.haveBlock e (e.getBlockHash bl) = false := by
      simp [haveBlock, Chain.blockExists, getAltBlock, htick.chain, htick.alt, htick.invalid]
    unfold addNewBlock
    simp [hhave, hprev, htail]
  have hparsed : s.ticked.hf.check e.forks bl = true → genesisFor e net (s.now e) = some bl := by
    intro hcheck
    cases hg : genesisFor e net (s.now e) with
    | some b => rw [← hb, hg]; rfl
    | none =>
      -- the empty block is of version 0, which no schedule has
      rw [hg] at hb
      subst hb
      simp only [HardFork.check, Bool.and_eq_true, decide_eq_true_eq] at hcheck
      exact absurd hcheck.1.symm (e.forks.versionAt_ne_zero _)
  have hnone : bl.txHashes = [] := by
    rw [← hb, genesisFor_eq]
    cases e.parseTx (getConfig net).genesisTx <;> rfl
  rw [hpath] at hinit
  have hexit := handleBlock_exit e s.ticked bl (e.getBlockHash bl) {}
  generalize s.ticked.handleBlockToMainChain e bl (e.getBlockHash bl) {} = o at hexit hinit
  cases hexit with
  | early _ hr =>
    obtain ⟨d, bvc, _, rfl, _, hflag⟩ := hr
    split at hinit
    · exact absurd hinit (by simp)
    · rename_i hv
      exact absurd (hflag.mp (by simpa using hv)).zero (by simp [htick.difficulty])
  | returned _ _ hr =>
    obtain ⟨_, _, bvc, _, rfl, _, hflag⟩ := hr
    simp [hflag] at hinit
  | bare _ ht hw =>
    -- without transactions none is pruned
    have hids := (takeFor_ok ht).2.1
    rw [hnone] at hids
    simp [cumulativeBlockWeight, List.map_eq_nil_iff.mp hids] at hw
  | @accepted fast st weight r ha =>
    obtain rfl : (acceptedOutcome e s.ticked bl st weight r).st = t := by
      simpa [acceptedOutcome] using hinit
    refine ⟨bl, s.ticked.written e bl weight r.1 st.taken, hparsed ha.version, rfl, ?_⟩
    show s.ticked.chain ++ _ = _
    rw [htick.chain]
    rfl

/-- No two genesis blocks of a network share an id. -/
def GenesisIdsDiffer (e : Env) (net : NetworkType) : Prop :=
  ∀ now now' b b', genesisFor e net now = some b → genesisFor e net now' = some b' →
    e.getBlockHash b = e.getBlockHash b' → b = b'

theorem genesis_id_eq_iff (hdiffer : GenesisIdsDiffer e net) {now now' : Nat} {b b' : Block}
    (hb : genesisFor e net now = some b) (hb' : genesisFor e net now' = some b') :
    e.getBlockHash b = e.getBlockHash b' ↔ now = now' := by
  constructor
  · intro h
    have heq := (generateGenesisBlock_eq_iff _ _ now now').mp
      ((hb.trans (congrArg some (hdiffer _ _ _ _ hb hb' h))).trans hb'.symm)
    refine heq.resolve_left fun hnone => ?_
    rw [genesisFor_eq, hnone] at hb
    exact absurd hb (by simp)
  · rintro rfl
    rw [Option.some.inj (hb.symm.trans hb')]

theorem setupNewBlockchain_checkGenesis {now : Nat} {b : Block}
    (hb : genesisFor e net now = some b) (id : Hash) :
    (setupNewBlockchain e net now).checkGenesis id = true ↔ id = e.getBlockHash b := by
  simp [setupNewBlockchain, HashChain.checkGenesis, HashChain.pushBack, walletGenesisHash, hb]

/-- **Agreement on the genesis block** is a matter of the clock, for every pair of
parties: two calls with the same transaction and nonce, two daemons on empty
databases, a wallet and its daemon, and a wallet that is opened again. The same
second is always enough; where ids do not collide it is also necessary. -/
theorem genesis_agree_iff (e : Env) (net : NetworkType) :
    (∀ genesisTx nonce now now',
      generateGenesisBlock e genesisTx nonce now = generateGenesisBlock e genesisTx nonce now' ↔
        e.parseTx genesisTx = none ∨ now = now') ∧
    (∀ clock clock' depth s s' t t', Unfilled s → Unfilled s' →
      initGenesis { e with clock := clock } depth s net = some t →
      initGenesis { e with clock := clock' } depth s' net = some t' →
      (t.chain.blocks = t'.chain.blocks ↔ clock s.reads = clock' s'.reads) ∧
      (GenesisIdsDiffer e net →
        (t.chain.idAt e 0 = t'.chain.idAt e 0 ↔ clock s.reads = clock' s'.reads))) ∧
    (∀ clock depth s t now, Unfilled s →
      initGenesis { e with clock := clock } depth s net = some t →
      (clock s.reads = now →
        (setupNewBlockchain e net now).checkGenesis (t.chain.idAt e 0) = true) ∧
      (GenesisIdsDiffer e net →
        ((setupNewBlockchain e net now).checkGenesis (t.chain.idAt e 0) = true ↔
          clock s.reads = now))) ∧
    (∀ now now', (e.parseTx (getConfig net).genesisTx).isSome = true →
      (now = now' → (loadGenesis e net now' (setupNewBlockchain e net now)).isSome = true) ∧
      (GenesisIdsDiffer e net →
        ((loadGenesis e net now' (setupNewBlockchain e net now)).isSome = true ↔ now = now'))) := by
  have hgen : ∀ now, (e.parseTx (getConfig net).genesisTx).isSome = true →
      ∃ b, genesisFor e net now = some b := by
    intro now h
    rw [genesisFor_eq]
    obtain ⟨tx, htx⟩ := Option.isSome_iff_exists.mp h
    exact ⟨_, by rw [htx]; rfl⟩
  refine ⟨generateGenesisBlock_eq_iff, ?_, ?_, ?_⟩
  · -- two daemons
    intro clock clock' depth s s' t t' hs hs' ht ht'
    obtain ⟨b, sb, hb, rfl, hchain⟩ := initGenesis_some hs ht
    obtain ⟨b', sb', hb', rfl, hchain'⟩ := initGenesis_some hs' ht'
    have hb : genesisFor e net (clock s.reads) = some sb.bl := hb
    have hb' : genesisFor e net (clock' s'.reads) = some sb'.bl := hb'
    rw [hchain, hchain']
    refine ⟨?_, fun hdiffer => genesis_id_eq_iff hdiffer hb hb'⟩
    have hsome : e.parseTx (getConfig net).genesisTx ≠ none := by
      intro hnone
      rw [genesisFor_eq, hnone] at hb
      exact absurd hb (by simp)
    have heq := generateGenesisBlock_eq_iff (e := e) (getConfig net).genesisTx
      (getConfig net).genesisNonce (clock s.reads) (clock' s'.reads)
    rw [show generateGenesisBlock e _ _ (clock s.reads) = some sb.bl from hb,
      show generateGenesisBlock e _ _ (clock' s'.reads) = some sb'.bl from hb'] at heq
    simpa [Chain.blocks, hsome] using heq
  · -- a wallet and its daemon
    intro clock depth s t now hs ht
    obtain ⟨b, sb, hb, rfl, hchain⟩ := initGenesis_some hs ht
    have hb : genesisFor e net (clock s.reads) = some sb.bl := hb
    rw [hchain]
    refine ⟨?_, fun hdiffer => ?_⟩
    · rintro rfl
      exact (setupNewBlockchain_checkGenesis hb _).mpr rfl
    · obtain ⟨b', hb'⟩ := hgen now (by
        rw [genesisFor_eq] at hb
        obtain ⟨tx, htx, _⟩ := Option.map_eq_some_iff.mp hb
        rw [htx]
        rfl)
      rw [setupNewBlockchain_checkGenesis hb']
      exact genesis_id_eq_iff hdiffer hb hb'
  · -- a wallet and itself
    intro now now' hparse
    obtain ⟨b, hb⟩ := hgen now hparse
    obtain ⟨b', hb'⟩ := hgen now' hparse
    have hload : (loadGenesis e net now' (setupNewBlockchain e net now)).isSome = true ↔
        e.getBlockHash b' = e.getBlockHash b := by
      unfold loadGenesis
      rw [if_neg (by simp [setupNewBlockchain, HashChain.pushBack, HashChain.isEmpty])]
      have hcheck := setupNewBlockchain_checkGenesis hb (e.getBlockHash b')
      simp only [walletGenesisHash, hb', Option.getD_some]
      split <;> simp_all
    rw [hload]
    refine ⟨?_, fun hdiffer => ?_⟩
    · rintro rfl
      rw [Option.some.inj (hb.symm.trans hb')]
    · rw [genesis_id_eq_iff hdiffer hb' hb]
      exact eq_comm

/-- A regression-test node whose block ids are the time stamps. -/
def stampRegtest (clock : Nat → Nat) : Env :=
  { regtest firstVersion with
    getBlockHash := fun b => BitVec.ofNat 256 (b.timestamp + 1)
    clock := clock }

/-- A wallet made in the second its daemon was started in. -/
theorem genesis_agree_iff_regtest :
    let e := stampRegtest fun _ => 100
    (initGenesis e 1 {} .mainnet).isSome = true ∧ ∀ t, initGenesis e 1 {} .mainnet = some t →
      (setupNewBlockchain e .mainnet 100).checkGenesis (t.chain.idAt e 0) = true :=
  ⟨by decide +kernel, fun t ht =>
    ((genesis_agree_iff (stampRegtest fun _ => 100) .mainnet).2.2.1 (fun _ => 100) 1 {} t 100
      ⟨rfl, rfl, rfl, rfl⟩ ht).1 rfl⟩

/-- Two daemons started at different times have different blocks 0, and a wallet
made at a third fits neither. -/
theorem genesis_blocks_differ :
    let e := stampRegtest fun _ => 100
    let e' := stampRegtest fun _ => 200
    (initGenesis e 1 {} .mainnet).map (fun t => t.chain.map (StoredBlock.id e))
      = some [101#256] ∧
    (initGenesis e' 1 {} .mainnet).map (fun t => t.chain.map (StoredBlock.id e'))
      = some [201#256] ∧
    (setupNewBlockchain e .mainnet 300).checkGenesis 101#256 = false ∧
    (setupNewBlockchain e .mainnet 300).checkGenesis 201#256 = false := by
  decide +kernel

end Oxyra
