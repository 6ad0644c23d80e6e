import Oxyra.Logic.Regtest

/-!
# The money supply

The accounting of a chain: what its coinbases pay out and what its transactions
pay in fees.

* Once coins exist, the acceptance path forces every coinbase to pay out
  exactly the fees of its block (`Extends.paidOut_eq`). Nothing is burned
  unless no fee was paid.
* From a genesis block that claims the whole supply, every stored
  `already_generated_coins` stays at the supply, on the main chain and on
  every alternative (`Supplied`), and the circulating amount never moves.
-/

namespace Oxyra

open Blockchain

variable {e : Env} {Q : Block → Prop} {s s' : Blockchain} {difficulty now version : Nat}
  {fast : Bool} {g sb : StoredBlock} {pre : Chain}

def StoredBlock.paidOut (sb : StoredBlock) : Nat :=
  WordSum.natSum (sb.bl.minerTx.vout.map TxOut.amount)

def StoredBlock.fees (sb : StoredBlock) : Nat :=
  WordSum.natSum (sb.txs.map getTxFee)

/-- Everything ever paid out by coinbases less everything ever paid in fees. -/
def circulating (chain : Chain) : Int :=
  (chain.map fun sb => (sb.paidOut : Int) - sb.fees).sum

/-! ## One block -/

theorem Extends.outs_fit (h : Extends e fast version now difficulty pre sb) :
    checkOutsOverflow sb.bl.minerTx = true := by
  have hcb := h.coinbase
  unfold prevalidateMinerTransaction at hcb
  split at hcb
  · simp only [Bool.and_eq_true] at hcb
    exact hcb.1.2
  · exact absurd hcb (by simp)

/-- **Coinbase equals fees.** With coins in existence, a block that extends the
chain pays out its fees, in 64 bits. -/
theorem Extends.paidOut_eq (h : Extends e fast version now difficulty pre sb)
    (hagc : pre.topAlreadyGeneratedCoins ≠ 0) : sb.paidOut = sb.fees % 2 ^ 64 := by
  obtain ⟨r, hr, _⟩ := h.reward
  have hsum := ((validateMinerTransaction_iff hagc r).mp hr).2.1
  unfold StoredBlock.paidOut StoredBlock.fees
  rw [← toNat_getOutsMoneyAmount h.outs_fit, hsum, WordSum.toNat_sum]

theorem Extends.agc_eq (h : Extends e fast version now difficulty pre sb)
    (hagc : pre.topAlreadyGeneratedCoins = moneySupply) :
    sb.alreadyGeneratedCoins = moneySupply := by
  obtain ⟨r, hr, hset⟩ := h.reward
  have hne : pre.topAlreadyGeneratedCoins ≠ 0 := by
    rw [hagc]
    decide
  obtain rfl := ((validateMinerTransaction_iff hne r).mp hr).2.2
  rw [hset, hagc]
  decide

theorem altGeneratedCoins_moneySupply (b : Block) :
    altGeneratedCoins b moneySupply = moneySupply := by
  unfold altGeneratedCoins
  have hzero : ∀ w : UInt64, ¬ w < moneySupply - moneySupply := by
    intro w h
    have : w.toNat < (moneySupply - moneySupply).toNat := h
    simp at this
  rw [if_neg (hzero _)]

/-! ## The invariant -/

/-- The chain starts with `g` and every amount on file is the supply. -/
structure Supplied (g : StoredBlock) (s : Blockchain) : Prop where
  head : s.chain.head? = some g
  chain : ∀ sb ∈ s.chain, sb.alreadyGeneratedCoins = moneySupply
  alt : ∀ a ∈ s.altBlocks, a.alreadyGeneratedCoins = moneySupply

theorem Supplied.top (h : Supplied g s) :
    s.chain.topAlreadyGeneratedCoins = moneySupply := by
  have hne : s.chain ≠ [] := by
    intro hnil
    have := h.head
    rw [hnil] at this
    exact absurd this (by simp)
  unfold Chain.topAlreadyGeneratedCoins
  rw [List.getLast?_eq_getLast_of_ne_nil hne]
  exact h.chain _ (List.getLast_mem hne)

theorem mem_of_heightOf? {chain : Chain} {id : Hash} {h : Nat}
    (hh : chain.heightOf? e id = some h) : ∃ sb, chain[h]? = some sb ∧ sb.id e = id := by
  obtain ⟨hlt, hid, _⟩ := List.findIdx?_eq_some_iff_getElem.mp hh
  exact ⟨chain[h], List.getElem?_eq_getElem hlt, by simpa using hid⟩

theorem Filed.parent {b : Block} {altChain : List AltBlock} (h : Filed e s b altChain) :
    (∃ a ∈ s.altBlocks, altChain.getLast? = some a) ∨
    (altChain = [] ∧ ∃ sb, s.chain[s.parentHeight e b.prevId altChain]? = some sb ∧
      sb.id e = b.prevId) := by
  obtain ⟨timestamps, hbuild, _⟩ := h.built
  have heq := buildAltChain_some hbuild
  cases hlast : altChain.getLast? with
  | some a =>
    have hmem : a ∈ s.altChainOf b.prevId := heq ▸ List.mem_of_getLast? hlast
    exact .inl ⟨a, mem_altChainOf hmem, rfl⟩
  | none =>
    have hnil : altChain = [] := by simpa using hlast
    subst hnil
    unfold buildAltChain at hbuild
    rw [← heq] at hbuild
    obtain ⟨h', hh', _⟩ := Option.map_eq_some_iff.mp hbuild
    obtain ⟨sb, hsb, hid⟩ := mem_of_heightOf? hh'
    exact .inr ⟨rfl, sb, by simpa [parentHeight, hh'] using hsb, hid⟩

theorem Supplied.step (hsound : Sound e s) (h : Supplied g s) (hs : Step e Q s s') :
    Supplied g s' := by
  cases hs with
  | @handle bl ps hq hps =>
    cases hret : (s.handleBlockToMainChain e bl (e.getBlockHash bl) ps).ret with
    | false =>
      obtain ⟨_, _, _, _, _, _, ho, _⟩ := handleBlock_refused hret
      rw [ho]
      exact ⟨h.head, h.chain, h.alt⟩
    | true =>
      obtain ⟨fast, st, weight, r, ha, ho⟩ := accepts_of_ret hret
      rw [ho]
      have hext := ha.extends hsound.rows hps
      refine ⟨?_, ?_, h.alt⟩
      · show (s.chain ++ _).head? = some g
        rw [List.head?_append, h.head]
        rfl
      · intro sb hsb
        rcases List.mem_append.mp hsb with hsb | hsb
        · exact h.chain sb hsb
        · rw [List.mem_singleton.mp hsb]
          exact hext.agc_eq h.top
  | pop hp =>
    obtain ⟨hlen, top, htop, _, rfl⟩ := popBlock_some hp
    refine ⟨?_, fun sb hsb => h.chain sb (List.dropLast_subset _ hsb), h.alt⟩
    -- the genesis block is never popped
    have hhead := h.head
    rw [htop, List.head?_append_of_ne_nil] at hhead
    · exact hhead
    · intro hnil
      have : s.chain.length = 1 := by rw [htop, hnil]; rfl
      unfold height at hlen
      omega
  | @file b altChain weight _ hf =>
    refine ⟨h.head, h.chain, fun a ha => ?_⟩
    rcases List.mem_cons.mp ha with rfl | ha
    · -- the parent's amount is the supply, and the new one saturates
      have hprev : s.altPrevCoins altChain (s.parentHeight e b.prevId altChain)
          = moneySupply := by
        unfold altPrevCoins
        rcases hf.parent with ⟨a, ha, hlast⟩ | ⟨rfl, sb, hsb, _⟩
        · rw [hlast]
          exact h.alt a ha
        · rw [hsb]
          exact h.chain sb (List.mem_of_getElem? hsb)
      unfold filedRow altBlockOf
      dsimp only
      rw [hprev, altGeneratedCoins_moneySupply]
    · exact h.alt a ha
  | forget as => exact ⟨h.head, h.chain, fun a ha => h.alt a (mem_removeAltBlocks ha)⟩
  | supplement | hardFork | weights | reset | clock | cleanup | pool =>
    exact ⟨h.head, h.chain, h.alt⟩

/-! ## From the genesis block on -/

/-- The genesis coinbase claims the whole supply. Only the versions with the
"claim less" rule leave a choice. -/
def ClaimsAll (e : Env) (s : Blockchain) (g : Block) : Prop :=
  s.hfVersion e < 2 ∨ s.hfVersion e ≥ hfExactCoinbase ∨
    getOutsMoneyAmount g.minerTx = moneySupply

instance (s : Blockchain) (g : Block) : Decidable (ClaimsAll e s g) :=
  inferInstanceAs (Decidable (_ ∨ _ ∨ _))

theorem GenesisAdded.supplied {g : Block} {ps : PoolSupplement} (h : GenesisAdded e s g ps)
    (hall : ClaimsAll e s g) :
    ∃ sb, (s.withGenesis e g ps).chain = [sb] ∧ Supplied sb (s.withGenesis e g ps) ∧
      sb.paidOut = moneySupply.toNat ∧ sb.fees = 0 := by
  obtain ⟨fast, st, weight, r, ha, ho⟩ := accepts_of_ret h.accepted
  have hext := ha.extends h.rows h.supplement
  have hst : s.withGenesis e g ps = (acceptedOutcome e s g st weight r).st := by
    rw [withGenesis, ho]
  have htxs : (s.written e g weight r.1 st.taken).txs = [] := by
    have := hext.hashes
    rw [show (s.written e g weight r.1 st.taken).bl = g from rfl, h.alone] at this
    simpa using this.symm
  have hchain : (s.withGenesis e g ps).chain = [s.written e g weight r.1 st.taken] := by
    rw [hst]
    show s.chain ++ _ = _
    rw [h.empty]
    rfl
  obtain ⟨r', hr', hagc⟩ := hext.reward
  rw [htxs, h.empty] at hr'
  obtain ⟨hle, hr1, hexact⟩ := validateMinerTransaction_genesis hr'
  have hmoney : getOutsMoneyAmount g.minerTx = moneySupply := by
    rcases hall with hv | hv | hm
    · exact hexact (.inl hv)
    · exact hexact (.inr hv)
    · exact hm
  have hover : checkOutsOverflow g.minerTx = true := hext.outs_fit
  refine ⟨_, hchain, ⟨by rw [hchain]; rfl, ?_, ?_⟩, ?_, ?_⟩
  · intro sb hsb
    rw [hchain, List.mem_singleton] at hsb
    rw [hsb, hagc, h.empty]
    rw [show r'.1 = moneySupply from hr1.trans hmoney]
    decide
  · rw [hst]
    show ∀ a ∈ s.altBlocks, _
    rw [h.noAlt]
    simp
  · show WordSum.natSum (g.minerTx.vout.map TxOut.amount) = _
    rw [← toNat_getOutsMoneyAmount hover, hmoney]
  · unfold StoredBlock.fees
    rw [htxs]
    rfl

theorem Supplied.paidOut_eq (hsound : Sound e s) (h : Supplied g s) {i : Nat} (hi : 0 < i)
    (hsb : s.chain[i]? = some sb) :
    sb.paidOut = sb.fees % 2 ^ 64 := by
  obtain ⟨hlt, rfl⟩ := List.getElem?_eq_some_iff.mp hsb
  obtain ⟨fast, version, now, difficulty, hext⟩ := hsound.built.getElem i hlt
  refine hext.paidOut_eq ?_
  have hne : s.chain.take i ≠ [] := by
    intro hnil
    have := congrArg List.length hnil
    simp only [List.length_take, List.length_nil] at this
    omega
  unfold Chain.topAlreadyGeneratedCoins
  rw [List.getLast?_eq_getLast_of_ne_nil hne]
  simp only [Option.map_some, Option.getD_some]
  rw [h.chain _ (List.mem_of_mem_take (List.getLast_mem hne))]
  decide

theorem Supplied.run {depth : Nat} (hsound : Sound e s) (h : Supplied g s) (events : List Event)
    (hrun : RunOk e (fun _ => True) depth s events) :
    Sound e (s.run e depth events) ∧ Supplied g (s.run e depth events) :=
  run_invariant (I := fun s => Sound e s ∧ Supplied g s)
    (fun _ _ h hs => ⟨h.1.step hs, h.2.step h.1 hs⟩) events ⟨fun _ _ => trivial, fun _ _ => trivial⟩
    ⟨hsound, h⟩ hrun

theorem circulating_cons (sb : StoredBlock) (rest : Chain) :
    circulating (sb :: rest) = (sb.paidOut : Int) - sb.fees + circulating rest := by
  simp [circulating]

theorem Supplied.eq_cons (h : Supplied g s) : s.chain = g :: s.chain.tail := by
  have hhead := h.head
  cases hc : s.chain with
  | nil => exact absurd (hc ▸ hhead) (by simp)
  | cons b rest =>
    rw [hc, List.head?_cons] at hhead
    rw [Option.some.inj hhead, List.tail_cons]

theorem getElem?_succ_of_mem_tail {chain : Chain} (h : sb ∈ chain.tail) :
    ∃ i, 0 < i ∧ chain[i]? = some sb := by
  obtain ⟨i, hi, rfl⟩ := List.getElem_of_mem h
  exact ⟨i + 1, by omega, by rw [← List.getElem?_tail, List.getElem?_eq_getElem hi]⟩

/-- **No inflation.** From a genesis block that claims the whole supply, through
every run: each amount on file is the supply, on the main chain and for every
alternative block, so `MONEY_SUPPLY - already_generated_coins` is exactly zero;
each coinbase above genesis creates exactly its block's fees; and coinbase
outputs less fees add up to the supply. -/
theorem supply_conserved (depth : Nat) {s₀ : Blockchain} {g : Block} {ps : PoolSupplement}
    (hg : GenesisAdded e s₀ g ps) (hall : ClaimsAll e s₀ g) (events : List Event)
    (hrun : RunOk e (fun _ => True) depth (s₀.withGenesis e g ps) events) :
    let s := (s₀.withGenesis e g ps).run e depth events
    (∀ sb ∈ s.chain, sb.alreadyGeneratedCoins = moneySupply) ∧
    (∀ a ∈ s.altBlocks, a.alreadyGeneratedCoins = moneySupply) ∧
    (moneySupply - s.chain.topAlreadyGeneratedCoins).toNat
      = moneySupply.toNat - s.chain.topAlreadyGeneratedCoins.toNat ∧
    (∀ i sb, 0 < i → s.chain[i]? = some sb → sb.fees < 2 ^ 64 → sb.paidOut = sb.fees) ∧
    ((∀ sb ∈ s.chain, sb.fees < 2 ^ 64) → circulating s.chain = moneySupply.toNat) := by
  obtain ⟨g₀, hchain, hsup, hpaid, hfees⟩ := hg.supplied hall
  obtain ⟨hsound, h⟩ := hsup.run hg.sound events hrun
  generalize (s₀.withGenesis e g ps).run e depth events = s at hsound h
  have hpay : ∀ i sb, 0 < i → s.chain[i]? = some sb → sb.fees < 2 ^ 64 → sb.paidOut = sb.fees := by
    intro i sb hi hsb hlt
    rw [h.paidOut_eq hsound hi hsb, Nat.mod_eq_of_lt hlt]
  refine ⟨h.chain, h.alt, by rw [h.top]; decide, hpay, fun hlt => ?_⟩
  -- the genesis block contributes the supply, every other block nothing
  have hzero : circulating s.chain.tail = 0 := by
    unfold circulating
    apply List.sum_eq_zero
    intro d hd
    obtain ⟨sb, hsb, rfl⟩ := List.mem_map.mp hd
    obtain ⟨i, hi, hget⟩ := getElem?_succ_of_mem_tail hsb
    have := hpay i sb hi hget (hlt _ (List.mem_of_mem_tail hsb))
    omega
  rw [h.eq_cons, circulating_cons, hzero, hpaid, hfees]
  simp

/-- Two blocks, the second paying the fee of its transaction to the miner. -/
theorem supply_conserved_regtest :
    let e := regtest (schedule 1 [])
    let s := (({} : Blockchain).withGenesis e (regtestGenesis 1 [moneySupply]) {}).run e 1
      [.block (regtestBlock 1 1 0 1 [5] [8#256]) (regtestSupplement (regtestTx 7 moneySupply 0 5))]
    s.chain.length = 2 ∧ circulating s.chain = moneySupply.toNat := by
  refine ⟨by decide +kernel, (supply_conserved 1 regtestGenesis_added (by decide +kernel)
    [.block (regtestBlock 1 1 0 1 [5] [8#256]) (regtestSupplement (regtestTx 7 moneySupply 0 5))]
    ⟨⟨trivial, regtestSupplement_ok _ _⟩, trivial⟩).2.2.2.2 ?_⟩
  decide +kernel

/-- In a version with the "claim less" rule the genesis coinbase passes
validation without creating anything, and nothing is what is recorded. -/
theorem genesis_may_claim_nothing :
    let e := regtest (schedule 2 [])
    GenesisAdded e {} (regtestGenesis 2 []) {} ∧
      (({} : Blockchain).withGenesis e (regtestGenesis 2 []) {}).chain.map
        StoredBlock.alreadyGeneratedCoins = [0] :=
  ⟨.of_init rfl (by decide +kernel), by decide +kernel⟩

/-! ## Fees -/

def totalFees (chain : Chain) : Nat :=
  (chain.map StoredBlock.fees).sum

theorem circulating_eq (chain : Chain) :
    circulating chain = ((chain.map StoredBlock.paidOut).sum : Nat) - (totalFees chain : Int) := by
  induction chain with
  | nil => rfl
  | cons sb rest ih =>
    rw [circulating_cons, ih]
    simp only [totalFees, List.map_cons, List.sum_cons]
    push_cast
    ring

/-- **When fees are burned.** A block accepted once coins exist pays its miner
nothing exactly if its fees add up to zero in 64 bits. Over whole runs: no
coinbase pays anything, and the circulating amount is the supply less all fees,
exactly if that is so of every block above genesis. -/
theorem fees_burned_iff (e : Env) :
    (∀ s bl ps, Sound e s → s.chain.topAlreadyGeneratedCoins ≠ 0 → PoolSupplement.Ok e ps →
      (handleBlockToMainChain e s bl (e.getBlockHash bl) ps).ret = true →
      ∃ sb, (handleBlockToMainChain e s bl (e.getBlockHash bl) ps).st.chain = s.chain ++ [sb] ∧
        sb.bl = bl ∧ (sb.paidOut = 0 ↔ sb.fees % 2 ^ 64 = 0)) ∧
    (∀ depth s₀ g ps events, GenesisAdded e s₀ g ps → ClaimsAll e s₀ g →
      RunOk e (fun _ => True) depth (s₀.withGenesis e g ps) events →
      let chain := ((s₀.withGenesis e g ps).run e depth events).chain
      ((∀ sb ∈ chain.tail, sb.paidOut = 0) ↔ ∀ sb ∈ chain.tail, sb.fees % 2 ^ 64 = 0) ∧
      (circulating chain = (moneySupply.toNat : Int) - totalFees chain ↔
        ∀ sb ∈ chain.tail, sb.fees % 2 ^ 64 = 0)) := by
  refine ⟨?_, ?_⟩
  · intro s bl ps hsound hagc hps hret
    obtain ⟨fast, st, weight, r, ha, ho⟩ := accepts_of_ret hret
    rw [ho]
    exact ⟨_, rfl, rfl, by rw [(ha.extends hsound.rows hps).paidOut_eq hagc]⟩
  · intro depth s₀ g ps events hg hall hrun
    obtain ⟨g₀, hchain, hsup, hpaid, hfees⟩ := hg.supplied hall
    obtain ⟨hsound, h⟩ := hsup.run hg.sound events hrun
    generalize (s₀.withGenesis e g ps).run e depth events = s at hsound h
    have hpay : ∀ sb ∈ s.chain.tail, sb.paidOut = sb.fees % 2 ^ 64 := by
      intro sb hsb
      obtain ⟨i, hi, hget⟩ := getElem?_succ_of_mem_tail hsb
      exact h.paidOut_eq hsound hi hget
    have hiff : (∀ sb ∈ s.chain.tail, sb.paidOut = 0) ↔
        ∀ sb ∈ s.chain.tail, sb.fees % 2 ^ 64 = 0 :=
      forall₂_congr fun sb hsb => by rw [hpay sb hsb]
    refine ⟨hiff, ?_⟩
    rw [← hiff, circulating_eq, sub_left_inj, h.eq_cons]
    simp only [List.map_cons, List.sum_cons, List.tail_cons, hpaid]
    rw [Nat.cast_inj, Nat.add_eq_left, List.sum_eq_zero_iff]
    exact List.forall_mem_map

/-- A block with no transactions burns its fees, there being none. -/
theorem fees_burned_iff_regtest :
    let e := regtest (schedule 1 [])
    let chain := (({} : Blockchain).withGenesis e (regtestGenesis 1 [moneySupply]) {} |>.run e 1
      [.block (regtestBlock 1 1 0 1 [] []) {}]).chain
    chain.length = 2 ∧ circulating chain = (moneySupply.toNat : Int) - totalFees chain := by
  refine ⟨by decide +kernel, (((fees_burned_iff (regtest (schedule 1 []))).2 1 {}
    (regtestGenesis 1 [moneySupply]) {} [.block (regtestBlock 1 1 0 1 [] []) {}]
    regtestGenesis_added (by decide +kernel)
    ⟨⟨trivial, PoolSupplement.ok_empty⟩, trivial⟩).2).mpr ?_⟩
  decide +kernel

/-- An accepted block whose coinbase collects the fee of its transaction. -/
theorem miner_collects_fee :
    let e := regtest (schedule 1 [])
    let s := ({} : Blockchain).withGenesis e (regtestGenesis 1 [moneySupply]) {}
    let o := s.handleBlockToMainChain e (regtestBlock 1 1 0 1 [5] [8#256]) 2#256
      (regtestSupplement (regtestTx 7 moneySupply 0 5))
    o.ret = true ∧ o.st.chain.map StoredBlock.paidOut = [moneySupply.toNat, 5] := by
  decide +kernel

end Oxyra
