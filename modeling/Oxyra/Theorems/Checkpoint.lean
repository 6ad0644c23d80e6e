import Oxyra.Logic.EmptyBlocks

/-!
# Checkpoints

`checkpoints.h` promises that `check_block` rejects an id other than the one
recorded for a height. The code returns true for every block and reports none
as a checkpoint, and `is_in_checkpoint_zone` is constantly false, so on all
three paths to the chain nothing is compared. The one query that looks at the
container, `is_alternative_block_allowed`, works against the checkpoint: it keeps
the recorded block out once another has taken its height.
-/

namespace Oxyra

open Blockchain

variable {e : Env} {s : Blockchain} {c : Checkpoints}

/-! ## What the checkpoints promise -/

/-- Main chain and alternative rows agree with what is recorded for their heights. -/
structure Bound (e : Env) (t : Blockchain) : Prop where
  main : ∀ height sb, t.chain[height]? = some sb →
    e.checkpoints.documentedCheckBlock height (sb.id e) = true
  alt : ∀ a ∈ t.altBlocks, e.checkpoints.documentedCheckBlock a.height a.id = true

/-- The block recorded for a height at which the main chain has another one. -/
def Violated (e : Env) (t : Blockchain) (b : Block) : Prop :=
  e.checkpoints.find? (getBlockHeight b) = some (e.getBlockHash b) ∧
    ∃ sb, t.chain[getBlockHeight b]? = some sb ∧ sb.id e ≠ e.getBlockHash b

/-- A recorded block that the main chain violates is switched to when it comes. -/
def SwitchesTo (e : Env) (depth : Nat) (t : Blockchain) : Prop :=
  ∀ b ps, Violated e t b →
    (t.addNewBlock e depth b ps).st.chain.idAt e (getBlockHeight b) = e.getBlockHash b

/-! ## What the code does -/

theorem Checkpoints.mem_of_find? {height : Nat} {h : Hash} (hfind : c.find? height = some h) :
    (height, h) ∈ c.points := by
  obtain ⟨l₁, l₂, hsplit, -⟩ := List.lookup_eq_some_iff.mp hfind
  rw [hsplit]
  simp

theorem Checkpoints.find?_head {height : Nat} {h : Hash} {rest : List (Nat × Hash)}
    (hpoints : c.points = (height, h) :: rest) : c.find? height = some h := by
  rw [Checkpoints.find?, hpoints, List.lookup_cons_self]

/-- A checkpoint at or below the height of the chain keeps every alternative block out, at its
own height as below. -/
theorem Checkpoints.not_allowed {chainHeight height : Nat} {h : Hash}
    (hfind : c.find? height = some h) (hle : height ≤ chainHeight) :
    c.isAlternativeBlockAllowed chainHeight height = false := by
  have hmem : height ∈ (c.points.map Prod.fst).filter (· ≤ chainHeight) :=
    List.mem_filter.mpr
      ⟨List.mem_map_of_mem (Checkpoints.mem_of_find? hfind), decide_eq_true hle⟩
  unfold isAlternativeBlockAllowed
  split
  · rfl
  · cases hlast : c.lastAtOrBelow chainHeight with
    | none => exact absurd (List.max?_eq_none_iff.mp hlast) (List.ne_nil_of_mem hmem)
    | some last =>
      have hmax := (List.max?_eq_some_iff.mp hlast).2 height hmem
      exact decide_eq_false (Nat.not_lt.mpr hmax)

/-- **A recorded block comes too late.** Once the main chain has another block at its height it is
refused, and nothing is stored or switched. -/
theorem Violated.refused {b : Block} (hb : Violated e s b) (depth : Nat) (ps : PoolSupplement) :
    let o := s.addNewBlock e depth b ps
    o.ret = false ∧ o.st.chain = s.chain ∧ o.st.altBlocks = s.altBlocks := by
  obtain ⟨hfind, sb, hsb, -⟩ := hb
  have hlt : getBlockHeight b < s.height := (List.getElem?_eq_some_iff.mp hsb).1
  have hexamine : ∀ switch,
      let o := handleAlternativeWith e switch s b (e.getBlockHash b) ps
      o.ret = false ∧ o.st.chain = s.chain ∧ o.st.altBlocks = s.altBlocks := by
    intro switch
    have hnot : e.checkpoints.isAlternativeBlockAllowed s.resetDifficultyWindow.ticked.height
        (getBlockHeight b) = false := Checkpoints.not_allowed hfind hlt.le
    unfold handleAlternativeWith examineAlternative
    dsimp only
    rw [hnot]
    split <;> exact ⟨rfl, rfl, rfl⟩
  unfold addNewBlock
  dsimp only
  split
  · exact ⟨rfl, rfl, rfl⟩
  split
  · cases depth with
    | zero => exact hexamine _
    | succ depth => exact hexamine _
  · -- it would extend the chain, but its coinbase names a lower height
    have hret : (s.handleBlockToMainChain e b (e.getBlockHash b) ps).ret = false := by
      by_contra hret
      obtain ⟨_, _, _, _, ha, -⟩ := accepts_of_ret (by simpa using hret)
      exact hlt.ne (getBlockHeight_of_prevalidate ha.coinbase)
    obtain ⟨_, _, _, _, -, -, ho, -⟩ := handleBlock_refused hret
    exact ⟨hret, by rw [ho], by rw [ho]⟩

/-! ## Checkpoint sets -/

/-- An id of the empty block at `height` that is not the recorded one. -/
theorem exists_salt (height : Nat) (h : Hash) :
    ∃ salt ≤ 1, BitVec.ofNat 256 (height + salt) ≠ h := by
  by_cases h0 : BitVec.ofNat 256 (height + 0) = h
  · refine ⟨1, le_rfl, fun h1 => ?_⟩
    have htoNat := congrArg BitVec.toNat (h0.trans h1.symm)
    rw [BitVec.toNat_ofNat, BitVec.toNat_ofNat] at htoNat
    omega
  · exact ⟨0, by omega, h0⟩

/-- **What a set of checkpoints binds: nothing.** Every node that holds the set stays bound by it
and switches to its blocks, in every run, exactly if the set is empty. As soon as one checkpoint is
recorded there is a node that goes past its height with another block; and on every node, whatever
is recorded, a recorded block that the main chain violates is refused. -/
theorem checkpoints_bind_iff (c : Checkpoints) (hc : ∀ p ∈ c.points, p.1 < 2 ^ 64) :
    ((∀ e s g ps depth events, e.checkpoints = c → GenesisAdded e s g ps →
      RunOk e (fun _ => True) depth (s.withGenesis e g ps) events →
      let t := (s.withGenesis e g ps).run e depth events
      Bound e t ∧ SwitchesTo e depth t) ↔ c.points = []) ∧
    (∀ e s depth b ps, e.checkpoints = c → Violated e s b →
      let o := s.addNewBlock e depth b ps
      o.ret = false ∧ o.st.chain = s.chain ∧ o.st.altBlocks = s.altBlocks) := by
  refine ⟨⟨fun hall => ?_, fun hnone => ?_⟩,
    fun e s depth b ps _ hb => hb.refused depth ps⟩
  · by_contra hsome
    obtain ⟨⟨height, h⟩, rest, hpoints⟩ := List.exists_cons_of_ne_nil hsome
    have hheight : height < 2 ^ 64 := hc (height, h) (hpoints ▸ List.mem_cons_self)
    obtain ⟨salt, hsalt, hne⟩ := exists_salt height h
    -- the run of empty blocks up to the recorded height
    have hbound := (hall (emptyRegtest salt c fun _ => 100) {} (emptyBlock salt 0) {} 0
      (emptyEvents salt height) rfl (emptyGenesis_added (by omega)) (emptyEvents_ok _ _ _)).1
    have hchain : EmptyChain salt (fun _ => 100) (height + 1)
      (emptyRun salt c (fun _ => 100) 0 height) := emptyChain_run 0 (by omega)
    obtain ⟨sb, hsb, hid⟩ := Option.map_eq_some_iff.mp
      (hchain.idAt_eq (c := c) (Nat.lt_succ_self height))
    have hdoc := hbound.main height sb hsb
    rw [hid, Checkpoints.documentedCheckBlock,
      show (emptyRegtest salt c fun _ => 100).checkpoints = c from rfl,
      Checkpoints.find?_head hpoints] at hdoc
    exact hne (of_decide_eq_true hdoc)
  · intro e s g ps depth events he _ _ t
    have hfind : ∀ height, e.checkpoints.find? height = none := fun height => by
      rw [he, Checkpoints.find?, hnone]
      rfl
    refine ⟨⟨fun height sb _ => ?_, fun a _ => ?_⟩, fun b ps hb => ?_⟩
    · rw [Checkpoints.documentedCheckBlock, hfind]
    · rw [Checkpoints.documentedCheckBlock, hfind]
    · exact absurd (hb.1.symm.trans (hfind _)) (by simp)

/-- One checkpoint far up the chain. -/
theorem checkpoints_bind_iff_million :
    let c : Checkpoints := { points := [(1000000, 8#256)] }
    ¬ ∀ e s g ps depth events, e.checkpoints = c → GenesisAdded e s g ps →
      RunOk e (fun _ => True) depth (s.withGenesis e g ps) events →
      let t := (s.withGenesis e g ps).run e depth events
      Bound e t ∧ SwitchesTo e depth t := by
  intro c hall
  have hnone := (checkpoints_bind_iff c (by decide)).1.mp hall
  exact absurd hnone (by decide)

def checkpointRegtest (height : Nat) (id : Hash) : Env :=
  { regtest firstVersion with checkpoints := { points := [(height, id)] } }

/-- A block that is not the checkpoint of its height goes onto the chain and
stays there when the checkpointed block arrives. -/
theorem checkpoint_ignored :
    let e := checkpointRegtest 1 8#256
    let s := (({} : Blockchain).withGenesis e (regtestGenesis 1 [moneySupply]) {}).run e 1
      [.block (regtestBlock 1 1 0 1 [] []) {}]
    let o := s.addNewBlock e 1 (regtestBlock 1 1 0 7 [] []) {}
    e.checkpoints.find? 1 = some (e.getBlockHash (regtestBlock 1 1 0 7 [] [])) ∧
      s.chain.map (StoredBlock.id e) = [1#256, 2#256] ∧
      o.st.chain.map (StoredBlock.id e) = [1#256, 2#256] := by
  decide +kernel

end Oxyra
