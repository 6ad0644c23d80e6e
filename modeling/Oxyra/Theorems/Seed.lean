import Oxyra.Core.Template
import Oxyra.Logic.Ancestors
import Oxyra.Logic.Regtest

/-!
# One proof-of-work seed

The seed of a RandomX block is the id of an ancestor some way down. On the main
chain it is looked up by height. For an alternative block the ancestor may be on
either side of the fork: below it the main chain is asked, above it the list of
alternative rows is searched for the row *above* the ancestor, whose block names it.
`one_seed` says that all lookups end at the same ancestor.
-/

namespace Oxyra

open Blockchain

variable {e : Env} {s : Blockchain} {ancestors : Chain} {altChain : List AltBlock} {m : Nat}

/-- The alternative rows form a chain that is attached to the main chain just below
the first of them: each block names the ancestor before it. -/
structure Attached (e : Env) (s : Blockchain) (ancestors : Chain) (altChain : List AltBlock)
    (m : Nat) : Prop extends Split s ancestors altChain m where
  links : (altChain.map fun a => a.bl.prevId)
    = (List.range' m altChain.length).map fun height => ancestors.idAt e (height - 1)

/-- The seed the main path uses for the block on top of a chain. -/
def Chain.seed (e : Env) (chain : Chain) : Hash :=
  chain.idAt e (Env.rxSeedheight chain.length)

theorem checkPow_eq_seed (chain : Chain) (b : Block) (difficulty : Nat) :
    checkPow e chain b difficulty
      = checkHash (e.getBlockLonghash (chain.seed e) b chain.length) difficulty := rfl

theorem rxSeedheight_le (height : Nat) :
    Env.rxSeedheight height = 0 ∨ Env.rxSeedheight height + 65 ≤ height := by
  unfold Env.rxSeedheight
  split
  · exact .inl rfl
  · have := Nat.div_mul_le_self (height - 64 - 1) 2048
    omega

theorem find?_of_range' {α : Type} (f : α → Nat) (l : List α) (m i : Nat)
    (h : l.map f = List.range' m l.length) :
    (l.find? fun a => f a = m + i) = l[i]? := by
  induction l generalizing m i with
  | nil => rfl
  | cons a l ih =>
    rw [List.map_cons, List.length_cons, List.range'_succ] at h
    obtain ⟨hhead, htail⟩ := List.cons.inj h
    cases i with
    | zero => simp [hhead]
    | succ i =>
      rw [List.find?_cons_of_neg (by simp [hhead]), List.getElem?_cons_succ, ← ih _ i htail,
        show m + 1 + i = m + (i + 1) from by omega]

theorem Split.idAt_below (h : Split s ancestors altChain m) {height : Nat} (hlt : height < m) :
    s.chain.idAt e height = ancestors.idAt e height := by
  have hget : s.chain[height]? = ancestors[height]? := by
    rw [← List.getElem?_take_of_lt hlt, ← h.below, List.getElem?_take_of_lt hlt]
  rw [Chain.idAt, Chain.idAt, hget]

/-- **The seed of an alternative block** is that of its own chain. -/
theorem Attached.altSeedHash_eq (h : Attached e s ancestors altChain m) :
    s.altSeedHash e altChain ancestors.length = ancestors.seed e := by
  have hlen := h.length_eq
  have hpos := h.pos
  have hseed := rxSeedheight_le ancestors.length
  unfold altSeedHash Chain.seed
  dsimp only
  generalize Env.rxSeedheight ancestors.length = seedHeight at hseed
  split
  · rename_i front rest
    have hfront : front.height = m := by
      have := h.head_height
      simpa using this
    rw [hfront]
    split
    · -- the ancestor is alternative, and the row above it exists because of the lag
      rename_i hle
      have hheights := h.heights
      have hi : seedHeight + 1 - m < (front :: rest).length := by omega
      rw [show seedHeight + 1 = m + (seedHeight + 1 - m) from by omega,
        find?_of_range' AltBlock.height _ _ _ hheights, List.getElem?_eq_getElem hi]
      have hlink := List.getElem_of_eq h.links
        (i := seedHeight + 1 - m) (by simpa using hi)
      rw [List.getElem_map, List.getElem_map, List.getElem_range'] at hlink
      rw [Option.map_some, Option.getD_some, hlink]
      congr 1
      omega
    · exact h.idAt_below (by omega)
  · have hm : m = ancestors.length := by simpa using hlen.symm
    exact h.idAt_below (by omega)

/-! ## Templates -/

theorem fillTemplate_seed {base : TemplateBase} {address : AccountPublicAddress}
    {exNonce : List UInt8} {keys : Nat → Keypair} {r : BlockTemplate × TxPool}
    (h : s.fillTemplate e base address exNonce keys = some r) :
    r.1.seedHeight = base.seedHeight ∧ r.1.seedHash = base.seedHash ∧
      r.1.height = base.height := by
  unfold fillTemplate at h
  split at h
  · exact absurd h (by simp)
  · simp only [Option.bind_eq_bind, Option.bind_eq_some_iff] at h
    obtain ⟨filled, -, coinbase, -, h⟩ := h
    rw [← Option.some.inj h]
    exact ⟨rfl, rfl, rfl⟩

theorem fromBase_alt {fromBlock : Hash} {base : TemplateBase} {timestamps : List Nat}
    (hmain : s.chain.heightOf? e fromBlock = none)
    (hbuild : s.buildAltChain e fromBlock = some (altChain, timestamps))
    (hsplit : Split s ancestors altChain m) (h : s.fromBase e fromBlock = some base) :
    base.height = ancestors.length ∧ base.seedHeight = Env.rxSeedheight ancestors.length ∧
      base.seedHash = s.altSeedHash e altChain ancestors.length := by
  unfold fromBase at h
  rw [hmain, hbuild] at h
  dsimp only at h
  split at h
  · exact absurd h (by simp)
  · simp only [Option.bind_eq_bind, Option.bind_some, Option.bind_eq_some_iff] at h
    obtain ⟨back, hback, prevData, -, h⟩ := h
    have hheight : back.height + 1 = ancestors.length := by
      have hlast := congrArg List.getLast? hsplit.heights
      rw [List.getLast?_map, hback, List.getLast?_range'] at hlast
      have hlen := hsplit.length_eq
      have hne : altChain.length ≠ 0 := by
        intro h0
        rw [List.length_eq_zero_iff.mp h0] at hback
        exact absurd hback (by simp)
      rw [if_neg hne, Option.map_some] at hlast
      have := Option.some.inj hlast
      omega
    rw [← Option.some.inj h]
    exact ⟨hheight, by rw [hheight], by rw [hheight]⟩

theorem fromBase_main {fromBlock : Hash} {base : TemplateBase} {height : Nat}
    (hsound : Sound e s) (hversion : 12 ≤ s.hfVersion e)
    (hmain : s.chain.heightOf? e fromBlock = some height)
    (h : s.fromBase e fromBlock = some base) :
    base.height = height + 1 ∧ base.seedHeight = Env.rxSeedheight (height + 1) ∧
      base.seedHash = s.chain.idAt e (Env.rxSeedheight (height + 1)) := by
  have hlt : height < s.chain.length := (List.findIdx?_eq_some_iff_getElem.mp hmain).1
  have hnamed : getBlockHeight s.chain[height].bl = height := by
    obtain ⟨_, _, _, _, hext⟩ := hsound.built.getElem height hlt
    rw [hext.getBlockHeight_eq, List.length_take_of_le hlt.le]
  have hseed : s.mainSeed e (height + 1)
      = (Env.rxSeedheight (height + 1), s.chain.idAt e (Env.rxSeedheight (height + 1))) :=
    if_pos hversion
  unfold fromBase at h
  rw [hmain] at h
  dsimp only at h
  split at h
  · exact absurd h (by simp)
  · simp only [Option.bind_eq_bind, Option.bind_eq_some_iff, List.getElem?_eq_getElem hlt,
      Option.bind_some, hnamed, hseed] at h
    obtain ⟨_, -, h⟩ := h
    rw [← Option.some.inj h]
    exact ⟨rfl, rfl, rfl⟩

/-- **One seed.** For every split of a chain at a fork: the seed with which
`handle_alternative_block` verifies the next block, the one of a template built on
the last ancestor, and the one the main path would use on the same chain are the id
of one ancestor, that at `rx_seedheight`. -/
theorem one_seed (e : Env) (s : Blockchain) (ancestors : Chain) (altChain : List AltBlock)
    (m : Nat) (h : Attached e s ancestors altChain m) :
    (∀ b : Block, 12 ≤ b.majorVersion →
      s.altProofOfWork e altChain b ancestors.length
        = e.rxSlowHash (ancestors.idAt e (Env.rxSeedheight ancestors.length)) b) ∧
    (∀ (b : Block) (difficulty : Nat), 12 ≤ b.majorVersion → ancestors.length ≠ 202612 →
      checkPow e ancestors b difficulty
        = checkHash (s.altProofOfWork e altChain b ancestors.length) difficulty) ∧
    (∀ (fromBlock : Hash) (timestamps : List Nat) (address : AccountPublicAddress)
      (exNonce : List UInt8) (keys : Nat → Keypair) (r : BlockTemplate × Blockchain),
      s.buildAltChain e fromBlock = some (altChain, timestamps) →
      s.chain.heightOf? e fromBlock = none ∨
        (s.chain.heightOf? e fromBlock = some (m - 1) ∧ altChain = [] ∧ Sound e s ∧
          12 ≤ s.hfVersion e) →
      s.createBlockTemplate e (some fromBlock) address exNonce keys = some r →
      r.1.height = ancestors.length ∧ r.1.seedHeight = Env.rxSeedheight ancestors.length ∧
        r.1.seedHash = ancestors.idAt e (Env.rxSeedheight ancestors.length)) := by
  have hpow : ∀ b : Block, 12 ≤ b.majorVersion →
      s.altProofOfWork e altChain b ancestors.length = e.rxSlowHash (ancestors.seed e) b := by
    intro b hb
    rw [altProofOfWork, if_pos hb, h.altSeedHash_eq]
  refine ⟨hpow, ?_, ?_⟩
  · intro b difficulty hb hheight
    rw [hpow b hb, checkPow_eq_seed, Env.getBlockLonghash, if_neg hheight, if_pos hb]
  · intro fromBlock timestamps address exNonce keys r hbuild hparent hcreate
    obtain ⟨base, hbase, htemplate⟩ := Option.bind_eq_some_iff.mp hcreate
    obtain ⟨t, ht, rfl⟩ := Option.map_eq_some_iff.mp htemplate
    obtain ⟨h1, h2, h3⟩ := fillTemplate_seed ht
    rw [h1, h2, h3]
    rcases hparent with hmain | ⟨hmain, rfl, hsound, hversion⟩
    · have hsplit : Split s.ticked ancestors altChain m :=
        ⟨h.pos, h.main, h.below, h.above, h.heights⟩
      obtain ⟨h4, h5, h6⟩ := fromBase_alt (s := s.ticked) hmain hbuild hsplit hbase
      exact ⟨h4, h5, h6.trans h.altSeedHash_eq⟩
    · have hpos := h.pos
      have hm : ancestors.length = m := h.length_eq
      obtain ⟨h4, h5, h6⟩ := fromBase_main (s := s.ticked) ⟨hsound.rows, hsound.built⟩ hversion
        hmain hbase
      rw [Nat.sub_add_cancel hpos, ← hm] at h4 h5 h6
      refine ⟨h4, h5, h6.trans (h.idAt_below ?_)⟩
      have := rxSeedheight_le ancestors.length
      omega

/-! ## A fork of one block -/

/-- A stored genesis block, with one alternative block beside the main chain. -/
def forkedChain : Chain :=
  [{ bl := { regtestGenesis 12 [moneySupply] with majorVersion := 12 }, cumulativeDifficulty := 1 },
    { bl := regtestBlock 12 1 0 2 [] [], cumulativeDifficulty := 2 }]

def forkedRow : AltBlock where
  id := 3
  bl := regtestBlock 12 1 0 2 [] []
  height := 1
  cumulativeWeight := 0
  cumulativeDifficulty := 2
  alreadyGeneratedCoins := moneySupply

def forkedNode : Blockchain where
  chain := forkedChain.take 1 ++ [{ bl := regtestBlock 12 1 0 1 [] [], cumulativeDifficulty := 2 }]
  altBlocks := [forkedRow]

theorem one_seed_forked :
    Attached (regtest (schedule 12 [])) forkedNode forkedChain [forkedRow] 1 ∧
      ∃ r, forkedNode.createBlockTemplate (regtest (schedule 12 [])) (some 3) ⟨1, 1⟩ []
          (fun _ => ⟨1, 1⟩) = some r ∧
        r.1.height = 2 ∧ r.1.seedHash = forkedChain.idAt (regtest (schedule 12 [])) 0 := by
  have hattached : Attached (regtest (schedule 12 [])) forkedNode forkedChain [forkedRow] 1 :=
    ⟨⟨by decide, by decide, rfl, rfl, rfl⟩, by decide +kernel⟩
  obtain ⟨r, hr⟩ := Option.isSome_iff_exists.mp (show
    (forkedNode.createBlockTemplate (regtest (schedule 12 [])) (some 3) ⟨1, 1⟩ []
      (fun _ => ⟨1, 1⟩)).isSome = true by decide +kernel)
  obtain ⟨h1, -, h2⟩ := (one_seed _ forkedNode forkedChain [forkedRow] 1 hattached).2.2 3 [0]
    ⟨1, 1⟩ [] (fun _ => ⟨1, 1⟩) r (by decide +kernel) (.inl (by decide +kernel)) hr
  exact ⟨hattached, r, hr, h1, h2⟩

end Oxyra
