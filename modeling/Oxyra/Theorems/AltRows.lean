import Oxyra.Theorems.ChainSafety
import Oxyra.Theorems.Timestamps

/-!
# Rows of the alternative table

The node decides between two branches by comparing numbers it stored when the
blocks came in: the cumulative difficulty of a row was computed from the row of
its parent and from a window stitched together from both sides of the fork, and
the fork has moved since. `alternative_rows_exact` says that the numbers are
still right: each row says what the retarget rule makes of its block's own
ancestors, from the genesis block on.
-/

namespace Oxyra

open Blockchain

variable {e : Env} {Q : Block → Prop} {s : Blockchain} {depth m : Nat} {l : List AltBlock}
  {id : Hash} {a : AltBlock}

/-- A row says what follows from the ancestors `bs` of its block. -/
structure Rooted (e : Env) (Q : Block → Prop) (bs : List Block) (a : AltBlock) : Prop where
  path : Path e Q (bs ++ [a.bl])
  id : a.id = e.getBlockHash a.bl
  height : a.height = bs.length
  points : pointsOf e (bs ++ [a.bl]) = pointsOf e bs ++ [(a.bl.timestamp, a.cumulativeDifficulty)]

def AltRooted (e : Env) (Q : Block → Prop) (s : Blockchain) : Prop :=
  ∀ a ∈ s.altBlocks, ∃ bs, Rooted e Q bs a

/-- The first `m` blocks of the main chain and the rows `l` make up the history that
ends in `id`. -/
structure History (e : Env) (Q : Block → Prop) (s : Blockchain) (m : Nat) (l : List AltBlock)
    (id : Hash) : Prop where
  pos : 0 < m
  main : m ≤ s.height
  path : Path e Q (Chain.blocks (s.chain.take m) ++ l.map AltBlock.bl)
  head : headId e (Chain.blocks (s.chain.take m) ++ l.map AltBlock.bl) = id
  points : pointsOf e (Chain.blocks (s.chain.take m) ++ l.map AltBlock.bl)
    = s.chain.points.take m ++ l.map fun a => (a.bl.timestamp, a.cumulativeDifficulty)
  heights : l.map AltBlock.height = List.range' m l.length

namespace History

theorem length_eq (h : History e Q s m l id) :
    (Chain.blocks (s.chain.take m) ++ l.map AltBlock.bl).length = m + l.length := by
  have := h.main
  unfold Blockchain.height at this
  simp only [List.length_append, length_blocks, List.length_take, List.length_map]
  omega

theorem main_part (hready : Ready e Q s) {h : Nat} (hh : s.chain.heightOf? e id = some h) :
    History e Q s (h + 1) [] id := by
  obtain ⟨hlt, hid, -⟩ := List.findIdx?_eq_some_iff_getElem.mp hh
  have hplaced := hready.placed.take (h + 1)
  refine ⟨Nat.succ_pos h, hlt, ?_, ?_, ?_, rfl⟩
  · simpa using path_of_placed hplaced
  · rw [List.map_nil, List.append_nil, ← tailId_eq_headId]
    simpa [Chain.tailId, List.getLast?_take, hlt] using hid
  · simpa [Chain.points, List.map_take] using (points_of_placed hplaced).symm

/-- One row further up: its own ancestors are the history it stands on, since the
id they end in is the same. -/
theorem snoc (hids : IdsOk e Q) (hrows : AltRooted e Q s) (h : History e Q s m l a.bl.prevId)
    (ha : a ∈ s.altBlocks) (hid : a.id = id) : History e Q s m (l ++ [a]) id := by
  obtain ⟨bs, hr⟩ := hrows a ha
  obtain ⟨hbs, ⟨-, hprev⟩, -⟩ := Built.snoc_iff.mp hr.path
  obtain rfl := Path.unique hids hbs h.path (hprev.symm.trans h.head.symm)
  have happ : Chain.blocks (s.chain.take m) ++ (l ++ [a]).map AltBlock.bl
      = (Chain.blocks (s.chain.take m) ++ l.map AltBlock.bl) ++ [a.bl] := by simp
  refine ⟨h.pos, h.main, happ ▸ hr.path, ?_, ?_, ?_⟩
  · rw [happ, headId, lastKey_snoc, ← hid, hr.id]
  · rw [happ, hr.points, h.points]
    simp
  · rw [List.map_append, h.heights, List.length_append, List.length_singleton,
      List.range'_1_concat, List.map_singleton, hr.height, h.length_eq]

/-- The walk of `build_alt_chain` follows the history down to the main chain. -/
theorem collect (hids : IdsOk e Q) (hready : Ready e Q s) (hrows : AltRooted e Q s) {h : Nat}
    (fuel : Nat) (id : Hash) (acc : List AltBlock) :
    ∃ l, collectAltChain s.altBlocks fuel id acc = l ++ acc ∧
      (s.chain.heightOf? e ((l.head?.map fun a => a.bl.prevId).getD id) = some h →
        History e Q s (h + 1) l id) := by
  induction fuel generalizing id acc with
  | zero => exact ⟨[], rfl, main_part hready⟩
  | succ fuel ih =>
    unfold collectAltChain
    cases hf : Keyed.find? AltBlock.id s.altBlocks id with
    | none => exact ⟨[], rfl, main_part hready⟩
    | some a =>
      obtain ⟨l, heq, hl⟩ := ih a.bl.prevId (a :: acc)
      refine ⟨l ++ [a], by simp [heq], fun hroot => ?_⟩
      refine (hl ?_).snoc hids hrows (Keyed.mem_of_find? hf) (Keyed.key_of_find? hf)
      cases l with
      | nil => exact hroot
      | cons => exact hroot

/-- The parent of a filed block ends a history made up of the main chain and the
rows found. -/
theorem of_filed (hids : IdsOk e Q) (hready : Ready e Q s) (hrows : AltRooted e Q s) {b : Block}
    (h : Filed e s b l) : ∃ m, History e Q s m l b.prevId ∧
      s.parentHeight e b.prevId l + 1 = m + l.length := by
  obtain ⟨_, hbuild, -⟩ := h.built
  obtain ⟨_, -, -, hanc, -⟩ := buildAltChain_ancestors hbuild
  obtain ⟨k, hh, -⟩ := Option.map_eq_some_iff.mp hanc
  rw [← buildAltChain_some hbuild] at hh
  obtain ⟨l', heq, hl⟩ := collect hids hready hrows (h := k) s.altBlocks.length b.prevId []
  obtain rfl : l = l' := by
    rw [buildAltChain_some hbuild, altChainOf, heq, List.append_nil]
  have hhist := hl hh
  refine ⟨k + 1, hhist, ?_⟩
  unfold parentHeight
  rcases List.eq_nil_or_concat' l with rfl | ⟨l, a, rfl⟩
  · have hh : s.chain.heightOf? e b.prevId = some k := hh
    simp [hh]
  · have := hhist.heights
    simp [List.range'_1_concat] at this
    simp [this.2]
    omega

/-- The two parts of a history, as the difficulty rule wants them. -/
theorem split (h : History e Q s m l id) : ∃ ancestors : Chain, Split s ancestors l m := by
  have hlen : (s.chain.take m).length = m := List.length_take_of_le h.main
  refine ⟨s.chain.take m ++ l.map fun a =>
    { bl := a.bl, cumulativeDifficulty := a.cumulativeDifficulty },
    h.pos, h.main, ?_, ?_, h.heights⟩
  · rw [List.take_left' hlen]
  · rw [List.drop_left' hlen, List.map_map]
    rfl

theorem topWork_eq (h : History e Q s m l id) {height : Nat} (hp : height + 1 = m + l.length) :
    s.altPrevDifficulty l height
      = topWork (pointsOf e (Chain.blocks (s.chain.take m) ++ l.map AltBlock.bl)) := by
  rw [h.points]
  unfold altPrevDifficulty topWork
  rcases List.eq_nil_or_concat' l with rfl | ⟨l, a, rfl⟩
  · obtain rfl : height + 1 = m := by simpa using hp
    have hlt : height < s.chain.length := h.main
    simp [Chain.points, List.getLast?_take, hlt]
  · simp

end History

/-- **The row filed for a new block says what follows from its ancestors.** -/
theorem Rooted.filed (hforks : e.forks.Standard) (hids : IdsOk e Q) (hready : Ready e Q s)
    (hrows : AltRooted e Q s) {b : Block} (hq : Q b) (h : Filed e s b l) (weight : UInt64) :
    ∃ bs, Rooted e Q bs (s.filedRow e b l weight) := by
  obtain ⟨m, hh, hparent⟩ := History.of_filed hids hready hrows h
  obtain ⟨ancestors, hsplit⟩ := hh.split
  refine ⟨_, Built.snoc hh.path ⟨⟨hq, hh.head.symm⟩, ?_⟩, rfl, ?_, ?_⟩
  · exact (getBlockHeight_of_prevalidate h.coinbase).trans (hparent.trans hh.length_eq.symm)
  · exact hparent.trans hh.length_eq.symm
  · have hdifficulty := hsplit.difficulty_eq hforks
    rw [hsplit.length_eq, ← hparent, hsplit.points_eq, ← hh.points] at hdifficulty
    rw [pointsOf, annotate_snoc, ← pointsOf, nextPoint, ← hdifficulty, ← hh.topWork_eq hparent,
      Nat.add_comm]
    rfl

theorem AltRooted.step (hforks : e.forks.Standard) (hids : IdsOk e Q) (hready : Ready e Q s)
    (h : AltRooted e Q s) {s' : Blockchain} (hs : Step e Q s s') : AltRooted e Q s' := by
  intro a ha
  cases hs with
  | @handle bl ps =>
    rw [(handleBlock_chain e s bl (e.getBlockHash bl) ps).1] at ha
    exact h a ha
  | pop hp =>
    obtain ⟨_, top, _, _, rfl⟩ := popBlock_some hp
    exact h a ha
  | file hq hf =>
    rcases List.mem_cons.mp ha with rfl | ha
    · exact Rooted.filed hforks hids hready h hq hf _
    · exact h a ha
  | forget as => exact h a (mem_removeAltBlocks ha)
  | supplement | hardFork | weights | reset | clock | cleanup | pool => exact h a ha

/-- **Alternative rows are exact.** After any batches from an empty node of which none is
aborted, through any number of reorganisations, every alternative block is filed under its id, its
ancestors `bs` are submitted blocks that reach down to a genesis block, its row has
their number for its height, and for its cumulative difficulty the one that the
retarget rule gives along them. -/
theorem alternative_rows_exact (hforks : e.forks.Standard) (hids : IdsOk e Q)
    (hs : Started e s) (batches : List Batch) (hrun : BatchesOk e Q depth s batches) :
    ∀ a ∈ (s.runBatches e depth batches).altBlocks, ∃ bs,
      Path e Q (bs ++ [a.bl]) ∧ a.id = e.getBlockHash a.bl ∧ a.height = bs.length ∧
      a.cumulativeDifficulty = topWork (pointsOf e (bs ++ [a.bl])) := by
  have hinv := Steps.invariant (I := fun s => Ready e Q s ∧ AltRooted e Q s)
    (fun _ _ h hs => ⟨h.1.step hforks hids hs, h.2.step hforks hids h.1 hs⟩)
    ⟨hs.ready hids, by simp [AltRooted, hs.noAlt]⟩ (runBatches_steps batches hs.known hrun)
  intro a ha
  obtain ⟨bs, hr⟩ := hinv.2 a ha
  exact ⟨bs, hr.path, hr.id, hr.height, by simp [hr.points, topWork]⟩

theorem alternative_rows_exact_fork :
    let s := ({} : Blockchain).runBatches (regtest firstVersion) 1 [⟨forkEvents, true⟩]
    s.altBlocks.map (fun a => (a.bl.nonce, a.cumulativeDifficulty)) = [(1, 2)] ∧
      ∀ a ∈ s.altBlocks, ∃ bs, Path (regtest firstVersion) (· ∈ forkBlocks) (bs ++ [a.bl]) ∧
        a.cumulativeDifficulty = topWork (pointsOf (regtest firstVersion) (bs ++ [a.bl])) := by
  refine ⟨by decide +kernel, fun a ha => ?_⟩
  obtain ⟨bs, hpath, -, -, hwork⟩ := alternative_rows_exact (schedule_standard 1 _ _) forkIds
    started_init _ (forkBatch_ok fun _ hb => hb) a ha
  exact ⟨bs, hpath, hwork⟩

end Oxyra
