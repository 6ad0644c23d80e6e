import Oxyra.Core.LongTermWeights
import Oxyra.Lib.Linked
import Oxyra.Logic.Regtest
import Oxyra.Theorems.RollingMedian

/-!
# The cached median is the median of the stored weights

The cache is recognised by its size and the hash of the tip it was filled for. A tip hash stands
for one chain only: the coinbase says how long the chain below is, the block names its last hash,
and the long-term weights stored with the blocks are computed from those below. So what the cache
was filled with is what the database holds now, or the cache is not used.
-/

namespace Oxyra

namespace WeightedChain

variable {e : Env} {blockWeight : Block → UInt64} {Q : Block → Prop} {rows rows' : List WeightRow}

/-- The long-term weight of a block over the weights below it. -/
def weightFor (e : Env) (blockWeight : Block → UInt64) (weights : List UInt64) (bl : Block) :
    UInt64 :=
  if bl.majorVersion < hfLongTermBlockWeight then blockWeight bl
  else constrainedWeight bl.majorVersion (blockWeight bl) (median (weights.rtake e.longTermWindow))

def blocks (rows : List WeightRow) : List Block := rows.map WeightRow.bl

def weights (rows : List WeightRow) : List UInt64 := rows.map WeightRow.longTermWeight

/-- A chain whose blocks name the one below and their own height, each with its weight. -/
structure WellStored (e : Env) (blockWeight : Block → UInt64) (Q : Block → Prop)
    (rows : List WeightRow) : Prop where
  linked : Linked e.getBlockHash Block.prevId nullHash Q (blocks rows)
  placed : Built (fun pre bl => getBlockHeight bl = pre.length) (blocks rows)
  weighed : Built (fun pre r => r.longTermWeight = weightFor e blockWeight (weights pre) r.bl) rows

def tipOf (e : Env) (rows : List WeightRow) : Hash := lastKey e.getBlockHash nullHash (blocks rows)

theorem tailId_eq (s : WeightedChain) : s.tailId e = tipOf e s.rows := by
  simp [tailId, tipOf, blocks, lastKey, List.getLast?_map, Function.comp_def]

theorem wellStored_nil : WellStored e blockWeight Q [] :=
  ⟨Built.nil, Built.nil, Built.nil⟩

theorem WellStored.dropLast (h : WellStored e blockWeight Q rows) :
    WellStored e blockWeight Q rows.dropLast := by
  have hblocks : blocks rows.dropLast = (blocks rows).dropLast := List.map_dropLast ..
  exact ⟨hblocks ▸ Built.dropLast h.linked, hblocks ▸ h.placed.dropLast, h.weighed.dropLast⟩

theorem wellStored_snoc {row : WeightRow} (h : WellStored e blockWeight Q rows) (hq : Q row.bl)
    (hprev : row.bl.prevId = tipOf e rows) (hheight : getBlockHeight row.bl = rows.length)
    (hweight : row.longTermWeight = weightFor e blockWeight (weights rows) row.bl) :
    WellStored e blockWeight Q (rows ++ [row]) := by
  have hblocks : blocks (rows ++ [row]) = blocks rows ++ [row.bl] := List.map_append
  refine ⟨?_, ?_, h.weighed.snoc hweight⟩
  · rw [hblocks]
    exact Built.snoc h.linked ⟨hq, hprev⟩
  · rw [hblocks]
    exact h.placed.snoc (by rw [hheight, blocks, List.length_map])

theorem WellStored.eq_of_blocks (h : WellStored e blockWeight Q rows)
    (h' : WellStored e blockWeight Q rows') (heq : blocks rows = blocks rows') : rows = rows' := by
  have hweights : weights rows = weights rows' := by
    unfold weights
    rw [Built.map_eq_annotate (weightFor e blockWeight) h.weighed,
      Built.map_eq_annotate (weightFor e blockWeight) h'.weighed]
    exact congrArg _ heq
  have hzip : ∀ l : List WeightRow,
      List.zipWith WeightRow.mk (blocks l) (weights l) = l := fun l => by
    simp [blocks, weights, List.zipWith_map]
  rw [← hzip rows, heq, hweights, hzip]

/-- **The tip stands for one chain.** -/
theorem WellStored.unique
    (hinj : ∀ b b', Q b → Q b' → e.getBlockHash b = e.getBlockHash b' → b = b')
    (h : WellStored e blockWeight Q rows) (h' : WellStored e blockWeight Q rows')
    (hne : rows ≠ []) (hne' : rows' ≠ []) (htip : tipOf e rows = tipOf e rows') : rows = rows' := by
  refine h.eq_of_blocks h' (Linked.unique_of_length hinj h.linked h'.linked ?_ htip)
  -- the last blocks are the same one, and it says how many are below it
  obtain ⟨pre, row, rfl⟩ := List.eq_nil_or_concat' rows |>.resolve_left hne
  obtain ⟨pre', row', rfl⟩ := List.eq_nil_or_concat' rows' |>.resolve_left hne'
  have hsnoc : ∀ (l : List WeightRow) r, blocks (l ++ [r]) = blocks l ++ [r.bl] := fun _ _ =>
    List.map_append
  have hlinked := h.linked
  have hlinked' := h'.linked
  have hplaced := h.placed
  have hplaced' := h'.placed
  rw [tipOf, tipOf, hsnoc, hsnoc, lastKey_snoc, lastKey_snoc] at htip
  rw [hsnoc] at hlinked hlinked' hplaced hplaced'
  have hsame := hinj _ _ (Built.snoc_iff.mp hlinked).2.1 (Built.snoc_iff.mp hlinked').2.1 htip
  have hbelow := (Built.snoc_iff.mp hplaced).2
  rw [hsame, (Built.snoc_iff.mp hplaced').2] at hbelow
  rw [hsnoc, hsnoc, List.length_append, List.length_append, hbelow]
  rfl

/-! ## One call -/

theorem rtake_of_length_le {l : List UInt64} {n : Nat} (h : l.length ≤ n) : l.rtake n = l := by
  rw [List.rtake, show l.length - n = 0 by omega, List.drop_zero]

theorem length_rtake_le (l : List UInt64) (n : Nat) : (l.rtake n).length ≤ n := by
  rw [List.rtake, List.length_drop]
  omega

theorem rtake_rtake (l : List UInt64) (n : Nat) : (l.rtake n).rtake n = l.rtake n :=
  rtake_of_length_le (length_rtake_le l n)

/-- The cache holds the end of some chain, and its tip is the one of that chain. -/
def CacheOk (e : Env) (blockWeight : Block → UInt64) (Q : Block → Prop) (c : LongTermCache) :
    Prop :=
  ∃ rows, WellStored e blockWeight Q rows ∧
    c.rollingMedian.Tracks e.longTermWindow (weights rows) ∧
    (rows ≠ [] → c.tipHash = tipOf e rows)

theorem range_eq (s : WeightedChain) :
    ((s.rows.drop (s.height - s.nblocks e)).take (s.nblocks e)).map WeightRow.longTermWeight =
      (weights s.rows).rtake e.longTermWindow := by
  have hstart : s.height - s.nblocks e = s.rows.length - e.longTermWindow := by
    simp only [nblocks, height]
    omega
  rw [hstart, List.rtake, weights, List.length_map, ← List.map_drop, List.take_of_length_le]
  simp only [nblocks, height, List.length_drop]
  omega

theorem hashAt_last (pre : List WeightRow) (row : WeightRow) (c : LongTermCache) :
    hashAt e ⟨pre ++ [row], c⟩ pre.length = tipOf e (pre ++ [row]) := by
  simp [hashAt, tipOf, blocks]

theorem hashAt_before (pre : List WeightRow) (row : WeightRow) (c : LongTermCache)
    (hne : pre ≠ []) : hashAt e ⟨pre ++ [row], c⟩ (pre.length - 1) = tipOf e pre := by
  obtain ⟨pre, last, rfl⟩ := List.eq_nil_or_concat' pre |>.resolve_left hne
  simp [hashAt, tipOf, blocks]

/-- **One call returns the median of the stored weights**, and leaves the cache filled for the
chain. -/
theorem callMedian_spec {s : WeightedChain}
    (hinj : ∀ b b', Q b → Q b' → e.getBlockHash b = e.getBlockHash b' → b = b')
    (hwindow : 1 ≤ e.longTermWindow) (hs : WellStored e blockWeight Q s.rows)
    (hc : CacheOk e blockWeight Q s.cache) (hne : s.rows ≠ []) :
    ∃ c, s.callMedian e = some (median ((weights s.rows).rtake e.longTermWindow), c) ∧
      CacheOk e blockWeight Q c := by
  obtain ⟨cached, hcached, htracks, htip⟩ := hc
  obtain ⟨rows, c⟩ := s
  obtain ⟨pre, row, rfl⟩ := List.eq_nil_or_concat' rows |>.resolve_left hne
  dsimp only at *
  have hheight : height ⟨pre ++ [row], c⟩ = pre.length + 1 := by simp [height]
  have hnb : nblocks e ⟨pre ++ [row], c⟩ = min e.longTermWindow (pre.length + 1) := by
    rw [nblocks, hheight]
  have htop : height ⟨pre ++ [row], c⟩ - nblocks e ⟨pre ++ [row], c⟩ +
      nblocks e ⟨pre ++ [row], c⟩ - 1 = pre.length := by
    rw [hnb, hheight]
    omega
  have hweights : weights (pre ++ [row]) ≠ [] := by simp [weights]
  -- a rolling median that holds the end of the chain answers rightly
  have hanswer : ∀ {rm : RollingMedian},
      rm.Tracks e.longTermWindow (weights (pre ++ [row])) →
      ∃ c', some (rm.medianOf, (⟨tipOf e (pre ++ [row]), rm⟩ : LongTermCache)) =
        some (median ((weights (pre ++ [row])).rtake e.longTermWindow), c') ∧
        CacheOk e blockWeight Q c' := fun {rm} hrm =>
    ⟨⟨tipOf e (pre ++ [row]), rm⟩, by rw [hrm.medianOf_eq hwindow hweights],
      pre ++ [row], hs, hrm, fun _ => rfl⟩
  have hsize := htracks.size_eq
  rw [weights, List.length_map] at hsize
  unfold callMedian getLongTermBlockWeightMedian
  dsimp only
  rw [htop, hashAt_last, if_pos (show pre.length < height ⟨pre ++ [row], c⟩ by omega),
    if_neg (show nblocks e ⟨pre ++ [row], c⟩ ≠ 0 by omega)]
  split
  · -- the tip and the size are those of the cache
    rename_i hhit
    have hfilled : cached ≠ [] := by
      rintro rfl
      simp only [List.length_nil] at hsize
      omega
    obtain rfl := hcached.unique hinj hs hfilled (by simp) ((htip hfilled).symm.trans hhit.2.2.symm)
    exact ⟨c, by rw [htracks.medianOf_eq hwindow hweights], _, hcached, htracks, htip⟩
  · split
    · -- the block below the tip is that of the cache
      rename_i hnext
      obtain ⟨⟨hpos, -⟩, hcount, hbefore⟩ := hnext
      have hpre : pre ≠ [] := List.length_pos_iff.mp hpos
      rw [hashAt_before pre row c hpre] at hbefore
      have hweight : longTermWeightAt ⟨pre ++ [row], c⟩ pre.length = row.longTermWeight := by
        simp [longTermWeightAt]
      rw [hweight]
      have hinsert := htracks.insert row.longTermWeight
      have hsnoc : weights (pre ++ [row]) = weights pre ++ [row.longTermWeight] := List.map_append
      by_cases hfilled : cached = []
      · -- an empty cache is asked about one block only
        subst hfilled
        simp only [List.length_nil] at hsize
        have hone : e.longTermWindow = 1 := by omega
        refine hanswer (hinsert.congr ?_)
        rw [hsnoc, hone]
        simp [weights, List.rtake]
      · have hsame : cached = pre := by
          have hpre' := hs.dropLast
          rw [List.dropLast_concat] at hpre'
          exact hcached.unique hinj hpre' hfilled hpre ((htip hfilled).symm.trans hbefore.symm)
        rw [hsame, ← hsnoc] at hinsert
        exact hanswer hinsert
    · have hrange := range_eq (e := e) ⟨pre ++ [row], c⟩
      rw [getLongTermBlockWeights, if_neg (by rw [hnb, hheight]; omega), Option.map_some, hrange]
      have hclear := RollingMedian.tracks_clear
        (m := c.rollingMedian) (by rw [htracks.N]; exact hwindow)
      rw [htracks.N] at hclear
      exact hanswer ((hclear.foldl_insert _).congr (rtake_rtake _ _))

/-! ## Histories -/

/-- What holds between the events of a history. -/
structure Coherent (e : Env) (blockWeight : Block → UInt64) (Q : Block → Prop)
    (s : WeightedChain) : Prop where
  started : s.rows ≠ []
  stored : WellStored e blockWeight Q s.rows
  cache : CacheOk e blockWeight Q s.cache

section Steps

variable {s s' : WeightedChain}
  (hinj : ∀ b b', Q b → Q b' → e.getBlockHash b = e.getBlockHash b' → b = b')
  (hwindow : 1 ≤ e.longTermWindow)

include hinj hwindow

theorem getNextLongTermBlockWeight_spec {hfVersion : Nat} {weight : UInt64}
    {r : UInt64 × LongTermCache} (hs : WellStored e blockWeight Q s.rows)
    (hc : CacheOk e blockWeight Q s.cache)
    (h : s.getNextLongTermBlockWeight e hfVersion weight = some r) :
    r.1 = (if hfVersion < hfLongTermBlockWeight then weight
      else constrainedWeight hfVersion weight (median ((weights s.rows).rtake e.longTermWindow))) ∧
      CacheOk e blockWeight Q r.2 := by
  unfold getNextLongTermBlockWeight at h
  split at h
  · rename_i hold
    obtain rfl := Option.some.inj h
    exact ⟨(if_pos hold).symm, hc⟩
  · rename_i hnew
    obtain ⟨r', hcall, rfl⟩ := Option.map_eq_some_iff.mp h
    have hne : s.rows ≠ [] := by
      -- on an empty chain the call throws
      intro hnil
      simp [callMedian, getLongTermBlockWeightMedian, nblocks, height, hnil] at hcall
    obtain ⟨c, hspec, hc'⟩ := callMedian_spec hinj hwindow hs hc hne
    obtain rfl := Option.some.inj (hcall.symm.trans hspec)
    exact ⟨(if_neg hnew).symm, hc'⟩

/-- **A block is stored with the weight its chain gives it.** -/
theorem coherent_addBlock {bl : Block} {hfVersion : Nat}
    (hs : WellStored e blockWeight Q s.rows) (hc : CacheOk e blockWeight Q s.cache) (hq : Q bl)
    (h : s.addBlock e blockWeight bl hfVersion = some s') : Coherent e blockWeight Q s' := by
  unfold addBlock at h
  split at h
  · cases h
  rename_i hprev
  split at h
  · cases h
  rename_i hversion
  split at h
  · cases h
  rename_i hcoinbase
  obtain ⟨r, hnext, rfl⟩ := Option.map_eq_some_iff.mp h
  obtain ⟨hweight, hc'⟩ := getNextLongTermBlockWeight_spec hinj hwindow hs hc hnext
  refine ⟨by simp, wellStored_snoc hs hq ?_ ?_ ?_, hc'⟩
  · exact (not_ne_iff.mp hprev).trans s.tailId_eq
  · have hpassed : prevalidateMinerTransaction bl s.height hfVersion = true := by
      simpa using hcoinbase
    exact getBlockHeight_of_prevalidate hpassed
  · rw [hweight, weightFor, not_ne_iff.mp hversion]

theorem Coherent.attempt {event : Event} (h : Coherent e blockWeight Q s)
    (hq : ∀ bl ∈ blocksOf [event], Q bl)
    (hstep : s.attempt e blockWeight event = some s') : Coherent e blockWeight Q s' := by
  cases event with
  | addBlock bl hfVersion =>
    exact coherent_addBlock hinj hwindow h.stored h.cache (hq bl (by simp [blocksOf])) hstep
  | popBlock =>
    change s.popBlock = some s' at hstep
    unfold popBlock at hstep
    split at hstep
    · rename_i hheight
      obtain rfl := Option.some.inj hstep
      refine ⟨?_, h.stored.dropLast, h.cache⟩
      rw [← List.length_pos_iff, List.length_dropLast]
      simp only [height] at hheight
      omega
    · cases hstep
  | update hfVersion =>
    change s.updateNextCumulativeWeightLimit e hfVersion = some s' at hstep
    unfold updateNextCumulativeWeightLimit at hstep
    split at hstep
    · obtain rfl := Option.some.inj hstep
      exact h
    · obtain ⟨r, hcall, rfl⟩ := Option.map_eq_some_iff.mp hstep
      obtain ⟨c, hspec, hc⟩ := callMedian_spec hinj hwindow h.stored h.cache h.started
      obtain rfl := Option.some.inj (hcall.symm.trans hspec)
      exact ⟨h.started, h.stored, hc⟩
  | restart memory =>
    change (freshCache e memory).map (fun cache => { s with cache := cache }) = some s' at hstep
    unfold freshCache at hstep
    rw [Option.map_map] at hstep
    obtain ⟨rm, hrm, rfl⟩ := Option.map_eq_some_iff.mp hstep
    exact ⟨h.started, h.stored, [], wellStored_nil, RollingMedian.tracks_construct hwindow hrm,
      fun hne => absurd rfl hne⟩

theorem coherent_run (events : List Event) (hs : Coherent e blockWeight Q s)
    (hq : ∀ bl ∈ blocksOf events, Q bl) :
    Coherent e blockWeight Q (events.foldl (fun s => s.step e blockWeight) s) := by
  induction events generalizing s with
  | nil => exact hs
  | cons event events ih =>
    refine ih ?_ fun bl hbl => hq bl ?_
    · show Coherent e blockWeight Q ((s.attempt e blockWeight event).getD s)
      cases hattempt : s.attempt e blockWeight event with
      | none => exact hs
      | some s' =>
        refine hs.attempt hinj hwindow (fun bl hbl => hq bl ?_) hattempt
        rw [blocksOf, List.filterMap_cons]
        rw [blocksOf, List.filterMap_cons] at hbl
        split at hbl
        · simp at hbl
        · simp_all
    · rw [blocksOf, List.filterMap_cons]
      split
      · exact hbl
      · exact List.mem_cons_of_mem _ hbl

end Steps

/-- **Whatever blocks are added and popped, and whenever the median is asked for, the answer is the
median of the long-term weights stored for the range.** -/
theorem long_term_median_cached (e : Env) (blockWeight : Block → UInt64)
    (hwindow : 1 ≤ e.longTermWindow) (memory : Nat → UInt64) (genesis : Block) (hfVersion : Nat)
    (events : List Event)
    (hdistinct : ∀ b ∈ genesis :: blocksOf events, ∀ b' ∈ genesis :: blocksOf events,
      e.getBlockHash b = e.getBlockHash b' → b = b')
    {s₀ : WeightedChain} (hinit : init e blockWeight memory genesis hfVersion = some s₀) :
    let s := events.foldl (fun s => s.step e blockWeight) s₀
    (s.getLongTermBlockWeightMedian e (s.height - s.nblocks e) (s.nblocks e)).map Prod.fst =
      some (median (((s.rows.drop (s.height - s.nblocks e)).take (s.nblocks e)).map
        WeightRow.longTermWeight)) := by
  intro s
  have hinj : ∀ b b', b ∈ genesis :: blocksOf events → b' ∈ genesis :: blocksOf events →
      e.getBlockHash b = e.getBlockHash b' → b = b' := fun b b' hb hb' => hdistinct b hb b' hb'
  obtain ⟨cache, hfresh, hadd⟩ := Option.bind_eq_some_iff.mp hinit
  obtain ⟨rm, hrm, rfl⟩ := Option.map_eq_some_iff.mp hfresh
  have hstart : Coherent e blockWeight (· ∈ genesis :: blocksOf events) s₀ :=
    coherent_addBlock hinj hwindow wellStored_nil
      ⟨[], wellStored_nil, RollingMedian.tracks_construct hwindow hrm, fun hne => absurd rfl hne⟩
      List.mem_cons_self hadd
  have hs : Coherent e blockWeight (· ∈ genesis :: blocksOf events) s :=
    coherent_run hinj hwindow events hstart fun bl hbl => List.mem_cons_of_mem _ hbl
  obtain ⟨c, hcall, -⟩ := callMedian_spec hinj hwindow hs.stored hs.cache hs.started
  rw [callMedian] at hcall
  rw [hcall, range_eq]
  rfl

/-- Two heavy blocks above the genesis block, of which the upper one is replaced. -/
theorem long_term_median_cached_replaced :
    let e : Env := { regtest (schedule 10 []) with longTermWindow := 2 }
    let blockWeight := fun b : Block => 300000 + 10000 * b.nonce.toUInt64
    let events := [Event.addBlock (regtestBlock 10 1 0 1 [] []) 10, .update 10,
      .addBlock (regtestBlock 10 2 1 2 [] []) 10, .update 10, .popBlock,
      .addBlock (regtestBlock 10 2 1 7 [] []) 10]
    ∃ s₀, init e blockWeight (fun _ => 0) (regtestGenesis 1 []) 1 = some s₀ ∧
      ((events.foldl (fun s => s.step e blockWeight) s₀).callMedian e).map Prod.fst =
        some 340000 := by
  intro e blockWeight events
  have hinit : (init e blockWeight (fun _ => 0) (regtestGenesis 1 []) 1).isSome = true := by
    decide +kernel
  obtain ⟨s₀, hs₀⟩ := Option.isSome_iff_exists.mp hinit
  refine ⟨s₀, hs₀, ?_⟩
  have hmedian := long_term_median_cached e blockWeight (by decide) (fun _ => 0)
    (regtestGenesis 1 []) 1 events (by decide +kernel) hs₀
  refine hmedian.trans ?_
  have hevents : (init e blockWeight (fun _ => 0) (regtestGenesis 1 []) 1).map (fun s₀ =>
      let s := events.foldl (fun s => s.step e blockWeight) s₀
      median (((s.rows.drop (s.height - s.nblocks e)).take (s.nblocks e)).map
        WeightRow.longTermWeight)) = some 340000 := by
    decide +kernel
  rwa [hs₀] at hevents

/-- The node keeps the window itself where the object keeps a rolling median of it. -/
structure Mirrors (e : Env) (node : Blockchain) (s : WeightedChain) : Prop where
  rows : s.rows = node.chain.map fun sb => ⟨sb.bl, sb.longTermBlockWeight⟩
  tipHash : s.cache.tipHash = node.weights.cacheTipHash
  window : s.cache.rollingMedian.Tracks e.longTermWindow node.weights.cacheWindow
  bounded : node.weights.cacheWindow.length ≤ e.longTermWindow

/-- **The node's call and the object's return the same median and stay mirrors.** -/
theorem callMedian_refines_node {node : Blockchain} {s : WeightedChain} (h : Mirrors e node s)
    (hwindow : 1 ≤ e.longTermWindow) (hsize : e.longTermWindow ≤ longTermBlockWeightWindowSize)
    (hne : s.rows ≠ []) :
    let r := node.getLongTermBlockWeightMedian e (min e.longTermWindow node.height)
    ∃ c, s.callMedian e = some (r.1, c) ∧
      Mirrors e { node with weights := r.2 } { s with cache := c } := by
  have hheight : s.height = node.height := by
    rw [height, h.rows, List.length_map]
    rfl
  have hpos : 0 < node.height := by
    rw [← hheight]
    exact List.length_pos_iff.mpr hne
  have hcount : s.nblocks e = min e.longTermWindow node.height := by rw [nblocks, hheight]
  have hhash : ∀ i, s.hashAt e i = node.chain.idAt e i := by
    intro i
    rw [hashAt, h.rows, Chain.idAt, List.getElem?_map, Option.map_map]
    rfl
  have htail : node.chain.idAt e (node.height - 1) = node.tailId e := by
    rw [Chain.idAt, Blockchain.tailId, Chain.tailId, List.getLast?_eq_getElem?]
    rfl
  have hrm : s.cache.rollingMedian.size = node.weights.cacheWindow.length := by
    rw [h.window.size_eq]
    have := h.bounded
    omega
  have htop : s.height - s.nblocks e + s.nblocks e - 1 = node.height - 1 := by
    rw [hcount, hheight]
    omega
  -- a rolling median over a window no longer than its capacity
  have hmirror : ∀ {rm : RollingMedian} {window : List UInt64},
      rm.Tracks e.longTermWindow window → window ≠ [] → window.length ≤ e.longTermWindow →
      ∃ c, some (rm.medianOf, (⟨node.tailId e, rm⟩ : LongTermCache)) = some (median window, c) ∧
        Mirrors e { node with weights := { node.weights with
          cacheTipHash := node.tailId e, cacheWindow := window } } { s with cache := c } := by
    intro rm window htracks hfilled hbounded
    refine ⟨⟨node.tailId e, rm⟩, ?_, h.rows, rfl, htracks, hbounded⟩
    rw [htracks.medianOf_eq hwindow hfilled, rtake_of_length_le hbounded]
  have hbounded := h.bounded
  unfold callMedian getLongTermBlockWeightMedian Blockchain.getLongTermBlockWeightMedian
  dsimp only
  rw [htop, hrm, hhash, hhash, htail, hcount, hheight, h.tipHash,
    if_pos (show node.height - 1 < node.height by omega), if_neg (by omega)]
  by_cases hhit : min e.longTermWindow node.height = node.weights.cacheWindow.length ∧
      node.tailId e = node.weights.cacheTipHash
  · rw [if_pos ⟨by omega, hhit⟩, if_pos hhit]
    have hfilled : node.weights.cacheWindow ≠ [] := by
      intro hnil
      rw [hnil, List.length_nil] at hhit
      omega
    refine ⟨s.cache, ?_, h⟩
    rw [h.window.medianOf_eq hwindow hfilled, rtake_of_length_le hbounded]
  · rw [if_neg fun hall => hhit hall.2, if_neg hhit]
    by_cases hnext : (node.height - 1 > 0 ∧ node.height - 1 < node.height) ∧
        (min e.longTermWindow node.height = node.weights.cacheWindow.length ∨
          min e.longTermWindow node.height = node.weights.cacheWindow.length + 1 ∧
            node.weights.cacheWindow.length < longTermBlockWeightWindowSize) ∧
        node.chain.idAt e (node.height - 1 - 1) = node.weights.cacheTipHash
    · rw [if_pos hnext, if_pos ⟨by omega, by omega, hnext.2.2⟩]
      have hweight : s.longTermWeightAt (node.height - 1) =
          (node.chain.getLast?.map StoredBlock.longTermBlockWeight).getD 0 := by
        rw [longTermWeightAt, h.rows, List.getElem?_map, Option.map_map,
          List.getLast?_eq_getElem?]
        rfl
      rw [hweight]
      generalize (node.chain.getLast?.map StoredBlock.longTermBlockWeight).getD 0 = w
      have hroll : Blockchain.rollIn e node.weights.cacheWindow w =
          (node.weights.cacheWindow ++ [w]).rtake e.longTermWindow := rfl
      rw [hroll]
      refine hmirror ((h.window.insert w).congr (rtake_rtake _ _).symm) ?_ (length_rtake_le _ _)
      rw [← List.length_pos_iff, List.rtake, List.length_drop, List.length_append,
        List.length_singleton]
      omega
    · rw [if_neg hnext, if_neg fun hall => hnext ⟨by omega, by omega, hall.2.2⟩]
      have hrange := range_eq (e := e) s
      rw [hcount, hheight] at hrange
      have hwhole : (node.chain.drop (node.height - min e.longTermWindow node.height)).map
          StoredBlock.longTermBlockWeight = (weights s.rows).rtake e.longTermWindow := by
        rw [← hrange, h.rows, ← List.map_drop, List.take_of_length_le (by
          rw [List.length_map, List.length_drop]
          simp only [Blockchain.height]
          omega), List.map_map]
        rfl
      rw [getLongTermBlockWeights, if_neg (by omega), Option.map_some, hrange, hwhole]
      have hclear := RollingMedian.tracks_clear
        (m := s.cache.rollingMedian) (by rw [h.window.N]; exact hwindow)
      rw [h.window.N] at hclear
      refine hmirror (hclear.foldl_insert _) ?_ (length_rtake_le _ _)
      rw [← List.length_pos_iff, List.rtake, List.length_drop, weights, List.length_map]
      have := List.length_pos_iff.mpr hne
      omega

end WeightedChain

end Oxyra
