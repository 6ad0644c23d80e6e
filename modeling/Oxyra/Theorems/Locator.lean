import Oxyra.Lib.Strides
import Oxyra.Core.Sync
import Oxyra.Logic.Path
import Oxyra.Logic.Regtest

/-!
# The locator finds a near split

The ids of `getShortChainHistory` belong to the heights `sz - o` for the offsets `o` of a
walk with growing strides, and the genesis block ends the list. Two chains whose ids do not
collide share a block only with everything below it, so the responder knows exactly the ids
from the split on, and the first one it finds is the first sample behind the split
(`locator_finds_split`): the split itself among the last eleven blocks, and less than twice
as far back elsewhere.
-/

namespace Oxyra

open Strides

variable {e : Env} {Q : Block → Prop} {chain mine theirs : Chain} {h sz : Nat}

/-! ## The ids sent -/

def locatorHeights (sz : Nat) : List Nat :=
  (strides 10 sz sz 0 1 1 ++ [sz]).map (sz - ·)

theorem shortChainLoop_eq (sz fuel : Nat) (i multiplier offset : Nat) :
    shortChainLoop e chain sz fuel i multiplier offset false =
      ((strides 10 sz fuel i multiplier offset).map fun o => chain.idAt e (sz - o), false) := by
  induction fuel generalizing i multiplier offset with
  | zero => rfl
  | succ fuel ih =>
    unfold shortChainLoop strides
    split
    · rename_i hlt
      -- the loop ends before the offset reaches the genesis block, so the flag stays off
      have hflag : (false || decide (sz - offset = 0)) = false := by
        rw [Bool.false_or]
        exact decide_eq_false (by omega)
      rw [hflag]
      split
      · simp only [ih, List.map_cons]
      · simp only [ih, List.map_cons]
    · rfl

theorem getShortChainHistory_eq (hne : chain ≠ []) :
    getShortChainHistory e chain = (locatorHeights chain.length).map (chain.idAt e) := by
  have hsz : chain.length ≠ 0 := fun h => hne (List.length_eq_zero_iff.mp h)
  simp [getShortChainHistory, hsz, shortChainLoop_eq, locatorHeights, Function.comp_def]

theorem locatorHeights_decreasing : (locatorHeights sz).Pairwise (· > ·) := by
  have hoffsets : (strides 10 sz sz 0 1 1 ++ [sz]).Pairwise (· < ·) :=
    List.pairwise_append.mpr ⟨strides_increasing sz le_rfl, List.pairwise_singleton _ _,
      fun x hx y hy => by
        obtain rfl := List.mem_singleton.mp hy
        exact (mem_strides_bounds hx).2⟩
  refine List.pairwise_map.mpr (hoffsets.imp_of_mem fun {a b} ha hb hlt => ?_)
  have hle : b ≤ sz := by
    rcases List.mem_append.mp hb with hb | hb
    · exact (mem_strides_bounds hb).2.le
    · exact (List.mem_singleton.mp hb).le
  omega

theorem mem_locatorHeights_lt (hsz : 0 < sz) (hh : h ∈ locatorHeights sz) :
    h < sz := by
  obtain ⟨o, ho, rfl⟩ := List.mem_map.mp hh
  rcases List.mem_append.mp ho with ho | ho
  · have := mem_strides_bounds ho
    omega
  · obtain rfl := List.mem_singleton.mp ho
    omega

theorem head?_locatorHeights (hsz : 0 < sz) :
    (locatorHeights sz).head? = some (sz - 1) := by
  obtain ⟨n, rfl⟩ : ∃ n, sz = n + 1 := ⟨sz - 1, by omega⟩
  unfold locatorHeights strides
  split
  · rfl
  · obtain rfl : n = 0 := by omega
    rfl

theorem getLast?_locatorHeights : (locatorHeights sz).getLast? = some 0 := by
  simp [locatorHeights]

/-! ## What the responder knows -/

/-- A chain of submitted blocks, each naming the one before it. -/
abbrev Chained (e : Env) (Q : Block → Prop) (chain : Chain) : Prop :=
  Linked e.getBlockHash Block.prevId nullHash Q chain.blocks

theorem idAt_eq (e : Env) (hh : h < chain.blocks.length) :
    chain.idAt e h = e.getBlockHash chain.blocks[h] := by
  have hlt : h < chain.length := by simpa using hh
  simp [Chain.idAt, Chain.blocks, StoredBlock.id, List.getElem?_eq_getElem hlt]

theorem heightOf?_eq_some {id : Hash} (hfind : chain.heightOf? e id = some h) :
    h < chain.blocks.length ∧ chain.idAt e h = id := by
  obtain ⟨hlt, hid, _⟩ := List.findIdx?_eq_some_iff_getElem.mp hfind
  refine ⟨by simpa using hlt, ?_⟩
  simpa [Chain.idAt, List.getElem?_eq_getElem hlt] using hid

theorem blockExists_eq (id : Hash) : chain.blockExists e id = (chain.heightOf? e id).isSome :=
  List.findIdx?_isSome.symm

theorem exists_heightOf? {id : Hash} (hh : h < chain.blocks.length) (hid : chain.idAt e h = id) :
    ∃ j, chain.heightOf? e id = some j := by
  have hlt : h < chain.length := by simpa using hh
  refine Option.isSome_iff_exists.mp ((blockExists_eq id).symm.trans (List.any_eq_true.mpr ?_))
  refine ⟨chain[h], List.getElem_mem hlt, ?_⟩
  simpa [Chain.idAt, List.getElem?_eq_getElem hlt] using hid

theorem height_unique (hids : IdsOk e Q) (hmine : Chained e Q mine) (htheirs : Chained e Q theirs)
    {i j : Nat} (hi : i < mine.blocks.length) (hj : j < theirs.blocks.length)
    (heq : mine.idAt e i = theirs.idAt e j) :
    i = j ∧ mine.blocks.take (i + 1) = theirs.blocks.take (i + 1) := by
  rw [idAt_eq e hi, idAt_eq e hj] at heq
  exact Linked.shared hids hmine htheirs hi hj heq

/-- The last shared block lies `d` blocks back from the end. -/
structure SplitAt (e : Env) (mine theirs : Chain) (d : Nat) : Prop where
  positive : 1 ≤ d
  bound : d ≤ mine.length
  shared : theirs.blockExists e (mine.idAt e (mine.length - d)) = true
  unshared : ∀ h, mine.length - d < h → h < mine.length →
    theirs.blockExists e (mine.idAt e h) = false

section Split

variable {d : Nat} (hids : IdsOk e Q) (hmine : Chained e Q mine) (htheirs : Chained e Q theirs)
  (hsplit : SplitAt e mine theirs d)

include hids hmine htheirs hsplit

theorem SplitAt.common : mine.length - d < theirs.length ∧
    mine.blocks.take (mine.length - d + 1) = theirs.blocks.take (mine.length - d + 1) := by
  have hshared := hsplit.shared
  rw [blockExists_eq, Option.isSome_iff_exists] at hshared
  obtain ⟨j, hj⟩ := hshared
  obtain ⟨hlt, hid⟩ := heightOf?_eq_some hj
  have hpos := hsplit.positive
  have hbound := hsplit.bound
  obtain ⟨rfl, htake⟩ := height_unique hids hmine htheirs
    (by rw [length_blocks]; omega : mine.length - d < mine.blocks.length) hlt hid.symm
  exact ⟨by simpa using hlt, htake⟩

theorem SplitAt.block_eq (hh : h ≤ mine.length - d) :
    mine.blocks[h]? = theirs.blocks[h]? := by
  have htake := (hsplit.common hids hmine htheirs).2
  have hget := congrArg (·[h]?) htake
  simpa only [List.getElem?_take_of_lt (by omega : h < mine.length - d + 1)] using hget

/-- **What the responder knows of the requester's ids.** -/
theorem SplitAt.heightOf?_idAt {o : Nat} (ho : 1 ≤ o) (hle : o ≤ mine.length) :
    theirs.heightOf? e (mine.idAt e (mine.length - o)) =
      if d ≤ o then some (mine.length - o) else none := by
  have hpos := hsplit.positive
  have hbound := hsplit.bound
  have hi : mine.length - o < mine.blocks.length := by rw [length_blocks]; omega
  split
  · rename_i hd
    have hcommon := (hsplit.common hids hmine htheirs).1
    have hj : mine.length - o < theirs.blocks.length := by rw [length_blocks]; omega
    have hsame : mine.blocks[mine.length - o] = theirs.blocks[mine.length - o] := by
      have hblock := hsplit.block_eq hids hmine htheirs (by omega : mine.length - o ≤ _)
      rwa [List.getElem?_eq_getElem hi, List.getElem?_eq_getElem hj, Option.some_inj] at hblock
    have hid : theirs.idAt e (mine.length - o) = mine.idAt e (mine.length - o) := by
      rw [idAt_eq e hi, idAt_eq e hj, hsame]
    obtain ⟨j, hfind⟩ := exists_heightOf? hj hid
    obtain ⟨hlt, hjd⟩ := heightOf?_eq_some hfind
    obtain ⟨rfl, _⟩ := height_unique hids hmine htheirs hi hlt hjd.symm
    exact hfind
  · rename_i hd
    have hunshared := hsplit.unshared (mine.length - o) (by omega) (by omega)
    rw [blockExists_eq] at hunshared
    exact Option.not_isSome_iff_eq_none.mp (by rw [hunshared]; exact Bool.false_ne_true)

end Split

theorem findSome?_ite {α β : Type} {f : α → Option β} {p : α → Bool} {g : α → β} {l : List α}
    (h : ∀ x ∈ l, f x = if p x then some (g x) else none) :
    l.findSome? f = (l.find? p).map g := by
  induction l with
  | nil => rfl
  | cons x l ih =>
    have hx := h x (List.mem_cons_self ..)
    have htail := ih fun y hy => h y (List.mem_cons_of_mem _ hy)
    cases hp : p x with
    | true => simp [hx, hp]
    | false => simp [hx, hp, htail]

/-- **The locator finds a near split.** Ids do not collide on the submitted blocks, and the
last block of the requester's chain that the responder has too lies `d` blocks back. The ids
sent start at the tip, go down, and end with the only mention of the genesis block; the
responder answers with the height of a common block, the split itself for the last eleven
blocks and less than twice as far back otherwise. -/
theorem locator_finds_split {d : Nat} (hids : IdsOk e Q) (hmine : Chained e Q mine)
    (htheirs : Chained e Q theirs) (hsplit : SplitAt e mine theirs d) :
    (∃ heights : List Nat,
      getShortChainHistory e mine = heights.map (mine.idAt e) ∧
      heights.head? = some (mine.length - 1) ∧ heights.Pairwise (· > ·) ∧
      heights.getLast? = some 0 ∧
      (getShortChainHistory e mine).count (mine.idAt e 0) = 1) ∧
    ∃ o, 1 ≤ o ∧ o ≤ mine.length ∧
      findBlockchainSupplement e theirs (getShortChainHistory e mine) = some (mine.length - o) ∧
      (∃ b, mine.blocks[mine.length - o]? = some b ∧ theirs.blocks[mine.length - o]? = some b) ∧
      (d ≤ 11 → o = d) ∧ (11 < d → d ≤ o ∧ o ≤ min mine.length (2 * d - 11)) := by
  have hpos := hsplit.positive
  have hbound := hsplit.bound
  have hne : mine ≠ [] := by
    rintro rfl
    exact absurd hbound (by simp; omega)
  have hsz : 0 < mine.length := by omega
  have hlast : (getShortChainHistory e mine).getLast? = some (mine.idAt e 0) := by
    rw [getShortChainHistory_eq hne, List.getLast?_map, getLast?_locatorHeights, Option.map_some]
  refine ⟨⟨locatorHeights mine.length, getShortChainHistory_eq hne, head?_locatorHeights hsz,
    locatorHeights_decreasing, getLast?_locatorHeights, ?_⟩, ?_⟩
  · -- distinct heights have distinct ids
    have hnodup : ((locatorHeights mine.length).map (mine.idAt e)).Nodup := by
      refine List.pairwise_map.mpr (locatorHeights_decreasing.imp_of_mem ?_)
      intro a b ha hb hgt heq
      have hla := mem_locatorHeights_lt hsz ha
      have hlb := mem_locatorHeights_lt hsz hb
      have := (height_unique hids hmine hmine (by simpa using hla) (by simpa using hlb) heq).1
      omega
    rw [getShortChainHistory_eq hne] at hlast ⊢
    exact List.count_eq_one_of_mem hnodup (List.mem_of_getLast? hlast)
  · have hstart : Stands 10 0 1 1 := .inl ⟨Nat.zero_le _, rfl, rfl⟩
    obtain ⟨o, hfind, hdo, hosz, hnear, hfar⟩ :=
      find?_strides mine.length hstart (by omega) hpos hbound
    have hanswer : (getShortChainHistory e mine).findSome? (theirs.heightOf? e) =
        some (mine.length - o) := by
      rw [getShortChainHistory_eq hne, locatorHeights, List.map_map, List.findSome?_map]
      refine (findSome?_ite (p := fun x => d ≤ x) (g := fun x => mine.length - x) ?_).trans ?_
      · intro x hx
        have hx' : 1 ≤ x ∧ x ≤ mine.length := by
          rcases List.mem_append.mp hx with hx | hx
          · have := mem_strides_bounds hx
            omega
          · obtain rfl := List.mem_singleton.mp hx
            omega
        simpa using hsplit.heightOf?_idAt hids hmine htheirs hx'.1 hx'.2
      · rw [hfind, Option.map_some]
    have hgenesis : mine.idAt e 0 = theirs.idAt e 0 := by
      have h0 := hsplit.block_eq hids hmine htheirs (Nat.zero_le _)
      have hmine0 : 0 < mine.blocks.length := by rw [length_blocks]; omega
      have htheirs0 : 0 < theirs.blocks.length := by
        have := (hsplit.common hids hmine htheirs).1
        rw [length_blocks]
        omega
      rw [List.getElem?_eq_getElem hmine0, List.getElem?_eq_getElem htheirs0,
        Option.some_inj] at h0
      rw [idAt_eq e hmine0, idAt_eq e htheirs0, h0]
    have hat : mine.length - o < mine.blocks.length := by rw [length_blocks]; omega
    have hsupplement : findBlockchainSupplement e theirs (getShortChainHistory e mine) =
        some (mine.length - o) := by
      unfold findBlockchainSupplement
      rw [hlast]
      simp only [hgenesis, ne_eq, not_true_eq_false, if_false, hanswer]
    refine ⟨o, by omega, hosz, hsupplement, ⟨mine.blocks[mine.length - o], ?_, ?_⟩,
      fun hd => hnear (by omega), fun hd => ⟨hdo, ?_⟩⟩
    · exact List.getElem?_eq_getElem hat
    · rw [← hsplit.block_eq hids hmine htheirs (by omega), List.getElem?_eq_getElem hat]
    · have := hfar (by omega)
      omega

/-! ## A split twelve blocks back -/

/-- A chain of regression-test blocks with the given nonces. -/
def nonceChain (nonces : List UInt32) : Chain :=
  { bl := regtestGenesis 1 [moneySupply] } ::
    ((0 :: nonces).zip nonces).map fun (parent, nonce) =>
      { bl := regtestBlock 1 0 parent nonce [] [] }

def requesterChain : Chain := nonceChain [1, 2, 3, 4, 5, 6, 7, 8, 9, 10, 11, 12, 13]

def responderChain : Chain := nonceChain [1, 2, 100, 101]

theorem locator_finds_split_twelve :
    let e := regtest (schedule 1 [])
    SplitAt e requesterChain responderChain 12 ∧
      (findBlockchainSupplement e responderChain (getShortChainHistory e requesterChain)).isSome ∧
      (getShortChainHistory e requesterChain).count (requesterChain.idAt e 0) = 1 := by
  intro e
  let Q : Block → Prop := (· ∈ requesterChain.blocks ++ responderChain.blocks)
  have hids : IdsOk e Q := by
    have hinj : ∀ x ∈ requesterChain.blocks ++ responderChain.blocks,
        ∀ y ∈ requesterChain.blocks ++ responderChain.blocks,
        (regtest (schedule 1 [])).getBlockHash x = (regtest (schedule 1 [])).getBlockHash y →
        x = y := by
      decide +kernel
    have hnull : ∀ x ∈ requesterChain.blocks ++ responderChain.blocks,
        (regtest (schedule 1 [])).getBlockHash x ≠ nullHash := by
      decide +kernel
    exact ⟨fun x y hx hy => hinj x hx y hy, hnull⟩
  have hmine : Chained e Q requesterChain := Built.of_getElem (by decide +kernel)
  have htheirs : Chained e Q responderChain := Built.of_getElem (by decide +kernel)
  have hsplit : SplitAt e requesterChain responderChain 12 := by
    refine ⟨by decide, by decide, by decide +kernel, ?_⟩
    have hrest : ∀ h < 14, 2 < h → responderChain.blockExists (regtest (schedule 1 []))
        (requesterChain.idAt (regtest (schedule 1 [])) h) = false := by
      decide +kernel
    exact fun h hlow hhigh => hrest h hhigh hlow
  obtain ⟨⟨_, _, _, _, _, hcount⟩, _, _, _, hfound, _⟩ :=
    locator_finds_split hids hmine htheirs hsplit
  exact ⟨hsplit, by rw [hfound]; rfl, hcount⟩

end Oxyra
