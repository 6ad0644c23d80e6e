import Oxyra.Logic.Ancestors
import Oxyra.Logic.Regtest

/-!
# Two timestamp rules

A block has to be at least as young as the median of the timestamps below it. On
the main chain these are the last 60, and there is no such rule on a chain shorter
than that. For an alternative block they are collected by `build_alt_chain`: the
timestamps of all its alternative ancestors and, if these are fewer than 60, of as
many main-chain blocks as are missing, but never the genesis block, and whatever
the length of the chain.

So the two rules are about the same timestamps for a block with more than 60
ancestors of which at most 60 are alternative, and `timestamp_rules_iff` says when
they agree otherwise.
-/

namespace Oxyra

open Blockchain

variable {e : Env} {s : Blockchain} {b : Block} {altChain : List AltBlock}
  {timestamps : List Nat} {ancestors : List Block}

/-! ## What the two rules look at -/

/-- The ancestors of a block with parent `prevId`: the main chain up to where the
alternative blocks are attached, then these. -/
def Blockchain.ancestorsOf (e : Env) (s : Blockchain) (prevId : Hash) : Option (List Block) :=
  let altChain := s.altChainOf prevId
  let root := (altChain.head?.map fun a => a.bl.prevId).getD prevId
  (s.chain.heightOf? e root).map fun h =>
    Chain.blocks (s.chain.take (h + 1)) ++ altChain.map AltBlock.bl

/-- The timestamps the alternative rule uses, of a history `times` whose last `n`
blocks are alternative ones. -/
def altTimes (times : List Nat) (n : Nat) : List Nat :=
  times.drop (if n ≤ 60 then max 1 (times.length - 60) else times.length - n)

/-- The alternative rule, as a function of the history. -/
def AltPasses (times : List Nat) (n timestamp : Nat) : Prop :=
  median (altTimes times n) ≤ timestamp

def MainPasses (times : List Nat) (timestamp : Nat) : Prop :=
  times.length < 60 ∨ median (times.drop (times.length - 60)) ≤ timestamp

theorem buildAltChain_ancestors (h : s.buildAltChain e b.prevId = some (altChain, timestamps)) :
    ∃ m, 0 < m ∧ m ≤ s.height ∧
      s.ancestorsOf e b.prevId
        = some (Chain.blocks (s.chain.take m) ++ altChain.map AltBlock.bl) ∧
      timestamps = s.completeTimestampsVector (m - 1)
        (altChain.map fun a => a.bl.timestamp).reverse := by
  have halt := buildAltChain_some h
  have hlt : ∀ {id h}, s.chain.heightOf? e id = some h → h < s.height := by
    intro id h hh
    exact (List.findIdx?_eq_some_iff_getElem.mp hh).1
  unfold ancestorsOf
  rw [← halt]
  unfold buildAltChain at h
  dsimp only at h
  rw [← halt] at h
  cases altChain with
  | nil =>
    obtain ⟨h, hh, heq⟩ := Option.map_eq_some_iff.mp h
    refine ⟨h + 1, by omega, hlt hh, ?_, ?_⟩
    · simp [hh]
    · rw [← (Prod.mk.inj heq).2, Nat.add_sub_cancel]
  | cons front rest =>
    dsimp only at h
    split at h
    · exact absurd h (by simp)
    cases hh : s.chain.heightOf? e front.bl.prevId with
    | none =>
      rw [hh] at h
      exact absurd h (by simp)
    | some height =>
      rw [hh] at h
      dsimp only at h
      split at h
      · exact absurd h (by simp)
      · refine ⟨height + 1, by omega, hlt hh, ?_, ?_⟩
        · simp [hh]
        · rw [← (Prod.mk.inj (Option.some.inj h)).2, Nat.add_sub_cancel]

theorem completeTimestampsVector_reverse {m : Nat} (hpos : 0 < m) (hm : m ≤ s.height)
    (alt : List Nat) :
    (s.completeTimestampsVector (m - 1) alt.reverse).reverse
      = altTimes (((s.chain.take m).map fun sb => sb.bl.timestamp) ++ alt) alt.length := by
  have hlen : ((s.chain.take m).map fun sb => sb.bl.timestamp).length = m := by
    rw [List.length_map, List.length_take]
    exact min_eq_left hm
  unfold completeTimestampsVector altTimes timestampCheckWindow
  rw [List.length_reverse, List.length_append, hlen]
  split
  · -- enough alternative blocks
    rw [List.reverse_reverse, List.drop_append, hlen]
    have hdrop : (if alt.length ≤ 60 then max 1 (m + alt.length - 60)
        else m + alt.length - alt.length) = m := by
      split <;> omega
    rw [hdrop, Nat.sub_self, List.drop_zero, List.drop_eq_nil_of_le hlen.le, List.nil_append]
  · rw [if_neg (by omega), if_pos (by omega)]
    rw [List.reverse_append, List.reverse_reverse, List.reverse_reverse, Nat.sub_add_cancel hpos,
      List.drop_append_of_le_length (by rw [hlen]; omega), List.map_drop]
    congr 2
    omega

/-- **What the alternative check computes.** -/
theorem altCheck_iff (hbuild : s.buildAltChain e b.prevId = some (altChain, timestamps))
    (hancestors : s.ancestorsOf e b.prevId = some ancestors) :
    checkTimestampMedian timestamps b = true ↔
      AltPasses (ancestors.map Block.timestamp) altChain.length b.timestamp := by
  obtain ⟨m, hpos, hm, hanc, rfl⟩ := buildAltChain_ancestors hbuild
  obtain rfl := Option.some.inj (hancestors.symm.trans hanc)
  have hreverse := completeTimestampsVector_reverse hpos hm
    (altChain.map fun a => a.bl.timestamp)
  have htimes : (Chain.blocks (s.chain.take m) ++ altChain.map AltBlock.bl).map Block.timestamp
      = ((s.chain.take m).map fun sb => sb.bl.timestamp)
        ++ altChain.map fun a => a.bl.timestamp := by
    simp [Chain.blocks, Function.comp_def]
  rw [checkTimestampMedian, decide_eq_true_iff, AltPasses, htimes,
    ← median_perm (List.reverse_perm _), hreverse, List.length_map]

/-- **What the check of the main chain computes**, for a block that is not too far in
the future. -/
theorem mainCheck_iff {now : Nat} {chain : Chain} (hchain : chain.blocks = ancestors)
    (hnow : b.timestamp ≤ now + blockFutureTimeLimit) :
    checkBlockTimestamp now chain b = true ↔
      MainPasses (ancestors.map Block.timestamp) b.timestamp := by
  have htimes : ancestors.map Block.timestamp = chain.map fun sb => sb.bl.timestamp := by
    rw [← hchain]
    simp [Chain.blocks]
  unfold checkBlockTimestamp MainPasses recentTimestamps timestampCheckWindow
  rw [if_neg (by omega), htimes, List.length_map, ← List.map_drop]
  split
  · rename_i hshort
    simp [hshort]
  · rename_i hlong
    rw [checkTimestampMedian, decide_eq_true_iff]
    exact ⟨.inr, fun h => h.resolve_left hlong⟩

/-- The condition under which both rules say the same of a timestamp: they look at
the same timestamps, or there are too few for the rule of the main chain and the
other one is met, or the timestamp does not lie between the two medians. -/
def RulesAgree (times : List Nat) (n timestamp : Nat) : Prop :=
  (60 < times.length ∧ n ≤ 60) ∨
  (times.length < 60 ∧ median (times.drop 1) ≤ timestamp) ∨
  ((times.length = 60 ∨ 60 < n) ∧
    (timestamp < min (median (altTimes times n)) (median (times.drop (times.length - 60))) ∨
      max (median (altTimes times n)) (median (times.drop (times.length - 60))) ≤ timestamp))

theorem rulesAgree_iff {times : List Nat} {n timestamp : Nat} (hn : n < times.length) :
    (AltPasses times n timestamp ↔ MainPasses times timestamp) ↔ RulesAgree times n timestamp := by
  unfold AltPasses MainPasses RulesAgree
  rcases Nat.lt_trichotomy times.length 60 with hlt | heq | hgt
  · -- the main chain asks for nothing
    have halt : altTimes times n = times.drop 1 := by
      rw [altTimes, if_pos (by omega), show max 1 (times.length - 60) = 1 from by omega]
    rw [halt]
    simp only [hlt, true_or, iff_true, true_and]
    constructor
    · exact fun h => .inr (.inl h)
    · rintro (⟨h, -⟩ | h | ⟨h, -⟩)
      · omega
      · exact h
      · omega
  · generalize median (altTimes times n) = a
    generalize median (times.drop (times.length - 60)) = c
    omega
  · by_cases hsplit : n ≤ 60
    · -- the same window
      have halt : altTimes times n = times.drop (times.length - 60) := by
        rw [altTimes, if_pos hsplit,
          show max 1 (times.length - 60) = times.length - 60 from by omega]
      rw [halt]
      generalize median (times.drop (times.length - 60)) = c
      omega
    · generalize median (altTimes times n) = a
      generalize median (times.drop (times.length - 60)) = c
      omega

/-! ## Which splits are safe -/

theorem median_zeros_twos (k l : Nat) (hpos : 0 < k + l) :
    median (List.replicate k 0 ++ List.replicate l 2)
      = if l < k then 0 else if k = l then 1 else 2 := by
  have hsorted : (List.replicate k 0 ++ List.replicate l 2).Pairwise (· ≤ ·) := by
    rw [List.pairwise_append]
    refine ⟨List.pairwise_replicate.mpr (.inr le_rfl), List.pairwise_replicate.mpr (.inr le_rfl),
      ?_⟩
    intro x hx
    rw [(List.mem_replicate.mp hx).2]
    exact fun _ _ => Nat.zero_le _
  have hget : ∀ i, (List.replicate k 0 ++ List.replicate l 2).getD i 0
      = if i < k then 0 else if i < k + l then 2 else 0 := by
    intro i
    rw [List.getD_eq_getElem?_getD, List.getElem?_append, List.length_replicate]
    split
    · simp
    · rw [List.getElem?_replicate]
      split <;> split <;> first | rfl | omega
  rw [median_eq, hsorted.insertionSort_eq, hget, hget, List.length_append, List.length_replicate,
    List.length_replicate]
  split_ifs <;> first | rfl | omega

/-- **The splits that are safe whatever the timestamps are**: a block on the genesis
block, and one with more than 60 ancestors of which at most 60 are alternative. -/
theorem safe_split_iff {height n : Nat} (hn : n < height) :
    (∀ (times : List Nat) (timestamp : Nat), times.length = height →
      (AltPasses times n timestamp ↔ MainPasses times timestamp)) ↔
      height = 1 ∨ 60 < height ∧ n ≤ 60 := by
  constructor
  · intro hall
    by_contra hunsafe
    rcases Nat.lt_trichotomy height 60 with hlt | rfl | hgt
    · -- a short chain of equal timestamps, and a block before all of them
      have htimes := hall (List.replicate height 2) 0 (by simp)
      have hmedian := median_zeros_twos 0 (height - 1) (by omega)
      rw [List.replicate_zero, List.nil_append, if_neg (by omega), if_neg (by omega)] at hmedian
      have halt : altTimes (List.replicate height 2) n = List.replicate (height - 1) 2 := by
        rw [altTimes, List.length_replicate, if_pos (by omega), List.drop_replicate,
          show max 1 (height - 60) = 1 from by omega]
      rw [AltPasses, MainPasses, halt, hmedian, List.length_replicate] at htimes
      omega
    · -- the genesis block decides between the two middle timestamps
      have htimes := hall (2 :: (List.replicate 30 0 ++ List.replicate 29 2)) 0 (by simp)
      have hperm : (2 :: (List.replicate 30 0 ++ List.replicate 29 2)).Perm
          (List.replicate 30 0 ++ List.replicate 30 2) := List.perm_middle.symm
      have hlen : (2 :: (List.replicate 30 0 ++ List.replicate 29 2)).length = 60 := rfl
      rw [AltPasses, MainPasses, altTimes, hlen, if_pos (by omega), Nat.sub_self, Nat.max_zero,
        List.drop_succ_cons, List.drop_zero, List.drop_zero, median_perm hperm,
        median_zeros_twos 30 30 (by omega), median_zeros_twos 30 29 (by omega)] at htimes
      norm_num at htimes
    · -- more zeros further back in the alternative part
      have hlen : (List.replicate (height - 30) 0 ++ List.replicate 30 2).length = height := by
        simp only [List.length_append, List.length_replicate]
        omega
      have htimes := hall (List.replicate (height - 30) 0 ++ List.replicate 30 2) 0 hlen
      have hdrop : ∀ k ≤ height - 30,
          (List.replicate (height - 30) 0 ++ List.replicate 30 2).drop k
            = List.replicate (height - 30 - k) 0 ++ List.replicate 30 2 := by
        intro k hk
        rw [List.drop_append_of_le_length (by simpa using hk), List.drop_replicate]
      rw [AltPasses, MainPasses, altTimes, hlen, if_neg (by omega), hdrop _ (by omega),
        hdrop _ (by omega), median_zeros_twos _ _ (by omega), median_zeros_twos _ _ (by omega),
        if_pos (by omega), if_neg (by omega), if_pos (by omega)] at htimes
      omega
  · rintro hsafe times timestamp rfl
    refine (rulesAgree_iff hn).mpr ?_
    rcases hsafe with hone | hsafe
    · refine .inr (.inl ⟨by omega, ?_⟩)
      rw [List.drop_eq_nil_of_le hone.le]
      exact Nat.zero_le _
    · exact .inl hsafe

/-- **When the two rules agree.** For every block whose ancestors are partly
alternative, the check of `handle_alternative_block` and that of a main chain of the
same blocks agree exactly under `RulesAgree`; and for its numbers of ancestors and of
alternative ones they agree whatever the timestamps are exactly if there are more than
60 of which at most 60 are alternative, besides a block on the genesis block. -/
theorem timestamp_rules_iff {e : Env} {s : Blockchain} {b : Block} {altChain : List AltBlock}
    {timestamps : List Nat} {ancestors : List Block} {now : Nat} {chain : Chain}
    (hbuild : s.buildAltChain e b.prevId = some (altChain, timestamps))
    (hanc : s.ancestorsOf e b.prevId = some ancestors) (hchain : chain.blocks = ancestors)
    (hnow : b.timestamp ≤ now + blockFutureTimeLimit) :
    ((checkTimestampMedian timestamps b = true ↔ checkBlockTimestamp now chain b = true) ↔
      RulesAgree (ancestors.map Block.timestamp) altChain.length b.timestamp) ∧
    ((∀ times timestamp, times.length = ancestors.length →
      (AltPasses times altChain.length timestamp ↔ MainPasses times timestamp)) ↔
      ancestors.length = 1 ∨ 60 < ancestors.length ∧ altChain.length ≤ 60) := by
  obtain ⟨m, hpos, hm, hanc', -⟩ := buildAltChain_ancestors hbuild
  have hlen := congrArg List.length (Option.some.inj (hanc.symm.trans hanc'))
  rw [List.length_append, List.length_map, length_blocks, List.length_take] at hlen
  unfold Blockchain.height at hm
  refine ⟨?_, safe_split_iff (by omega)⟩
  rw [altCheck_iff hbuild hanc, mainCheck_iff hchain hnow]
  exact rulesAgree_iff (by rw [List.length_map]; omega)

/-! ## A block refused off the main chain -/

/-- A block with a timestamp at `height`, on the block with nonce `parent`. -/
def stampedBlock (height : Nat) (parent nonce : UInt32) (timestamp : Nat) : Block :=
  { regtestBlock 1 height parent nonce [] [] with timestamp := timestamp }

def stampedRun (blocks : List Block) : Blockchain :=
  ((({} : Blockchain).withGenesis (regtest firstVersion) (regtestGenesis 1 [moneySupply])
    {}).run (regtest firstVersion) 0 (blocks.map fun b => .block b {}))

theorem timestamp_rules_second :
    let s := stampedRun [stampedBlock 1 0 1 100, stampedBlock 2 1 2 100]
    s.buildAltChain (regtest (schedule 1 [])) (stampedBlock 2 1 3 200).prevId = some ([], [100]) ∧
      (checkTimestampMedian [100] (stampedBlock 2 1 3 200) = true ↔
        checkBlockTimestamp 0 (s.chain.take 2) (stampedBlock 2 1 3 200) = true) := by
  intro s
  have hbuild : s.buildAltChain (regtest (schedule 1 [])) (stampedBlock 2 1 3 200).prevId
      = some ([], [100]) := by
    decide +kernel
  have hanc : s.ancestorsOf (regtest (schedule 1 [])) (stampedBlock 2 1 3 200).prevId =
      some (Chain.blocks (s.chain.take 2)) := by
    decide +kernel
  refine ⟨hbuild, (timestamp_rules_iff hbuild hanc rfl ?_).1.mpr ?_⟩
  · decide
  · exact .inr (.inl (by decide +kernel))

/-- **The same block, accepted on top and refused beside it.** On a chain of two
blocks it becomes the third. Once another block has taken that place, it is refused
for its timestamp, which is below that of its parent. -/
theorem timestamp_rules_differ :
    let s := stampedRun [stampedBlock 1 0 1 100]
    let s' := stampedRun [stampedBlock 1 0 1 100, stampedBlock 2 1 2 100]
    (s.addNewBlock (regtest (schedule 1 [])) 0 (stampedBlock 2 1 3 50) {}).ret = true ∧
      (s'.addNewBlock (regtest (schedule 1 [])) 0 (stampedBlock 2 1 3 50) {}).ret = false ∧
      s'.buildAltChain (regtest (schedule 1 [])) (stampedBlock 2 1 3 50).prevId
        = some ([], [100]) ∧
      checkTimestampMedian [100] (stampedBlock 2 1 3 50) = false ∧
      checkBlockTimestamp (s'.now (regtest (schedule 1 []))) (s'.chain.take 2)
        (stampedBlock 2 1 3 50) = true := by
  refine ⟨?_, ?_, ?_, ?_, ?_⟩ <;> decide +kernel

end Oxyra
