import Oxyra.Lib.Cycles
import Oxyra.Core.Permutation

/-!
# A vector is permuted in place

While a cycle is followed, a position that was passed is marked and has its element, a
position that was not passed has its own, and the element the cycle began with is at the
position the walk is at.
-/

namespace Oxyra.Permutation

open Cycles

variable {α : Type}

def target (permutation : List Nat) (j : Nat) : Nat := permutation.getD j j

section Check

variable {permutation : List Nat}

theorem check_iff : (List.range permutation.length).all (· ∈ permutation) = true ↔
    permutation.Perm (List.range permutation.length) := by
  rw [List.all_eq_true]
  simp only [decide_eq_true_eq]
  constructor
  · intro hall
    have hsub : (List.range permutation.length).Subperm permutation :=
      List.nodup_range.subperm hall
    exact (hsub.perm_of_length_le (by simp)).symm
  · exact fun hperm j hj => hperm.mem_iff.mpr hj

variable (hperm : permutation.Perm (List.range permutation.length))

theorem getElem?_eq_target {j : Nat} (hj : j < permutation.length) :
    permutation[j]? = some (target permutation j) := by
  rw [target, List.getD_eq_getElem?_getD, List.getElem?_eq_getElem hj, Option.getD_some]

include hperm

theorem target_lt {j : Nat} (hj : j < permutation.length) :
    target permutation j < permutation.length :=
  List.mem_range.mp (hperm.mem_iff.mp (List.mem_of_getElem? (getElem?_eq_target hj)))

theorem target_injective : Function.Injective (target permutation) := by
  have hnodup : permutation.Nodup := hperm.nodup_iff.mpr List.nodup_range
  have hbeyond {j : Nat} (hj : ¬ j < permutation.length) : target permutation j = j := by
    rw [target, List.getD_eq_getElem?_getD, List.getElem?_eq_none (not_lt.mp hj), Option.getD_none]
  intro j k heq
  by_cases hj : j < permutation.length <;> by_cases hk : k < permutation.length
  · have hjk := (getElem?_eq_target hj).trans (heq ▸ (getElem?_eq_target hk).symm)
    exact (List.getElem?_inj hj hnodup).mp hjk
  · have := target_lt hperm hj
    rw [heq, hbeyond hk] at this
    exact absurd this hk
  · have := target_lt hperm hk
    rw [← heq, hbeyond hj] at this
    exact absurd this hj
  · rwa [hbeyond hj, hbeyond hk] at heq

end Check

/-! ## One cycle -/

section Swap

variable {v : List α} {i₀ i₁ : Nat}

@[simp] theorem length_swapElements : (swapElements i₀ i₁ v).length = v.length := by
  rw [swapElements]
  split <;> simp

theorem getElem?_swapElements (h₀ : i₀ < v.length) (h₁ : i₁ < v.length) (hne : i₁ ≠ i₀) (j : Nat) :
    (swapElements i₀ i₁ v)[j]? = if j = i₁ then v[i₀]? else if j = i₀ then v[i₁]? else v[j]? := by
  rw [swapElements, List.getElem?_eq_getElem h₀, List.getElem?_eq_getElem h₁]
  by_cases hj₁ : j = i₁
  · subst hj₁
    rw [if_pos rfl, List.getElem?_set_self (by simpa using h₁)]
  · rw [if_neg hj₁, List.getElem?_set_ne (Ne.symm hj₁)]
    by_cases hj₀ : j = i₀
    · subst hj₀
      rw [if_pos rfl, List.getElem?_set_self h₀]
    · rw [if_neg hj₀, List.getElem?_set_ne (Ne.symm hj₀)]

end Swap

/-- Where the element at a position comes from once these positions were passed. -/
def settled (permutation : List Nat) (passed : Finset Nat) (j : Nat) : Nat :=
  if j ∈ passed then target permutation j else j

/-- The marks and the elements when these positions were passed; the element at `j` is
that of `source j`. -/
structure Midway (permutation : List Nat) (v : List α) (passed : Finset Nat)
    (source : Nat → Nat) (marks : List Nat) (w : List α) : Prop where
  bounded : ∀ j ∈ passed, j < permutation.length
  marked : ∀ j < permutation.length,
    marks[j]? = some (if j ∈ passed then j else target permutation j)
  length : w.length = v.length
  element : ∀ j, w[j]? = v[source j]?

section Cycle

variable {permutation : List Nat} {v : List α} {passed : Finset Nat} {source : Nat → Nat}
  {marks : List Nat} {w : List α} {i c : Nat}

theorem Midway.mark (h : Midway permutation v passed source marks w)
    (hc : c < permutation.length) {source' : Nat → Nat} {w' : List α}
    (hlength : w'.length = v.length) (helement : ∀ j, w'[j]? = v[source' j]?) :
    Midway permutation v (insert c passed) source' (marks.set c c) w' where
  bounded j hj := by
    rcases Finset.mem_insert.mp hj with rfl | hj
    · exact hc
    · exact h.bounded j hj
  marked j hj := by
    by_cases hjc : j = c
    · subst hjc
      have hlt : j < marks.length := (List.getElem?_eq_some_iff.mp (h.marked j hj)).1
      rw [List.getElem?_set_self hlt, if_pos (Finset.mem_insert_self j passed)]
    · rw [List.getElem?_set_ne (Ne.symm hjc), h.marked j hj]
      simp [hjc]
  length := hlength
  element := helement

variable (hperm : permutation.Perm (List.range permutation.length))
  (hlen : permutation.length = v.length)

include hperm hlen

/-- A turn of the loop: a position gets its element, and the next one what was there. -/
theorem Midway.turn
    (h : Midway permutation v passed (Function.update (settled permutation passed) c i) marks w)
    (hc : c < permutation.length) (hfresh : target permutation c ∉ insert c passed) :
    Midway permutation v (insert c passed)
      (Function.update (settled permutation (insert c passed)) (target permutation c) i)
      (marks.set c c) (swapElements c (target permutation c) w) := by
  have hne : target permutation c ≠ c :=
    ne_of_mem_of_not_mem (Finset.mem_insert_self c passed) hfresh |>.symm
  have hnot : target permutation c ∉ passed := fun hmem => hfresh (Finset.mem_insert_of_mem hmem)
  have hlt := target_lt hperm hc
  refine h.mark hc (length_swapElements.trans h.length) fun j => ?_
  rw [getElem?_swapElements (by rw [h.length]; omega) (by rw [h.length]; omega) hne, h.element,
    h.element, h.element]
  by_cases hjt : j = target permutation c
  · simp [hjt]
  · by_cases hjc : j = c
    · simp [hjc, hne, hne.symm, settled, hnot]
    · simp [hjt, hjc, settled]

/-- The loop passes the positions of a cycle, each once, and comes back to `i`. -/
theorem followCycle_spec (hwalk : Walk (target permutation) passed i c)
    (hc : c < permutation.length)
    (h : Midway permutation v passed (Function.update (settled permutation passed) c i) marks w)
    {fuel : Nat} (hfuel : permutation.length ≤ fuel + passed.card) :
    ∃ passed' marks' w', followCycle swapElements i fuel c marks w = some (marks', w') ∧
      passed ⊆ passed' ∧ Closed (target permutation) passed' ∧ c ∈ passed' ∧
      Midway permutation v passed' (settled permutation passed') marks' w' := by
  induction fuel generalizing passed c marks w with
  | zero =>
    -- all positions were passed, the current one among them
    have hsub : insert c passed ⊆ Finset.range permutation.length := fun j hj => by
      rcases Finset.mem_insert.mp hj with rfl | hj
      · exact Finset.mem_range.mpr hc
      · exact Finset.mem_range.mpr (h.bounded j hj)
    have hcard := Finset.card_le_card hsub
    rw [Finset.card_insert_of_notMem hwalk.fresh, Finset.card_range] at hcard
    omega
  | succ fuel ih =>
    have hnext : marks[c]? = some (target permutation c) := by
      rw [h.marked c hc, if_neg hwalk.fresh]
    rw [followCycle, hnext]
    dsimp only
    split_ifs with hback
    · refine ⟨insert c passed, _, _, rfl, Finset.subset_insert _ _, hwalk.close hback.symm,
        Finset.mem_insert_self _ _, h.mark hc h.length fun j => ?_⟩
      rw [h.element]
      by_cases hjc : j = c
      · simp [hjc, settled, hback]
      · simp [hjc, settled]
    · have hne : target permutation c ≠ i := Ne.symm hback
      have hinj := target_injective hperm
      have hcard := Finset.card_insert_of_notMem hwalk.fresh
      obtain ⟨passed', marks', w', hrun, hsub, hclosed, -, h'⟩ :=
        ih (hwalk.next hinj hne) (target_lt hperm hc)
          (h.turn hperm hlen hc (hwalk.next_fresh hinj hne)) (by omega)
      have hincl := (Finset.subset_insert c passed).trans hsub
      exact ⟨passed', marks', w', hrun, hincl, hclosed, hsub (Finset.mem_insert_self _ _), h'⟩

end Cycle

/-! ## All cycles -/

section Cycles

variable {permutation : List Nat} {v : List α}
  (hperm : permutation.Perm (List.range permutation.length))
  (hlen : permutation.length = v.length) {fuel : Nat} (hfuel : permutation.length ≤ fuel)

include hperm hlen hfuel

theorem followCycles_upTo {m : Nat} (hm : m ≤ permutation.length) :
    ∃ passed marks w,
      (List.range m).foldlM (fun r i => followCycle swapElements i fuel i r.1 r.2)
        (permutation, v) = some (marks, w) ∧
      Closed (target permutation) passed ∧ (∀ j < m, j ∈ passed) ∧
      Midway permutation v passed (settled permutation passed) marks w := by
  induction m with
  | zero =>
    refine ⟨∅, permutation, v, rfl, fun j hj => absurd hj (Finset.notMem_empty j),
      fun j hj => absurd hj (Nat.not_lt_zero j), ⟨fun j hj => absurd hj (Finset.notMem_empty j),
      fun j hj => ?_, rfl, fun j => rfl⟩⟩
    rw [getElem?_eq_target hj, if_neg (Finset.notMem_empty j)]
  | succ m ih =>
    obtain ⟨passed, marks, w, hrun, hclosed, hall, h⟩ := ih (Nat.le_of_succ_le hm)
    simp only [List.range_succ, List.foldlM_append, hrun, Option.bind_eq_bind, Option.bind_some,
      List.foldlM_cons, List.foldlM_nil, bind_pure]
    by_cases hmem : m ∈ passed
    · -- the position belongs to a cycle that was followed
      obtain ⟨fuel, rfl⟩ := Nat.exists_eq_add_of_le' (show 1 ≤ fuel by omega)
      have hself : marks[m]? = some m := by rw [h.marked m hm, if_pos hmem]
      refine ⟨insert m passed, marks.set m m, w, by rw [followCycle, hself]; simp, ?_, ?_, ?_⟩
      · rwa [Finset.insert_eq_of_mem hmem]
      · intro j hj
        rcases Nat.lt_succ_iff_lt_or_eq.mp hj with hj | rfl
        · exact Finset.mem_insert_of_mem (hall j hj)
        · exact Finset.mem_insert_self _ _
      · refine h.mark hm h.length ?_
        rw [Finset.insert_eq_of_mem hmem]
        exact h.element
    · have hsource : Function.update (settled permutation passed) m m =
          settled permutation passed := by
        rw [Function.update_eq_self_iff, settled, if_neg hmem]
      obtain ⟨passed', marks', w', hcycle, hsub, hclosed', hmem', h'⟩ :=
        followCycle_spec hperm hlen (.start hclosed hmem) hm (hsource ▸ h)
          (hfuel.trans (Nat.le_add_right _ _))
      refine ⟨passed', marks', w', hcycle, hclosed', fun j hj => ?_, h'⟩
      rcases Nat.lt_succ_iff_lt_or_eq.mp hj with hj | rfl
      · exact hsub (hall j hj)
      · exact hmem'

end Cycles

/-- **A vector is permuted in place**: with a permutation of its positions each position
gets the element the permutation names, with any other index vector an exception is
thrown. Either way the loops end, within as many turns as there are positions. -/
theorem apply_permutation_exact (permutation : List Nat) (v : List α)
    (hlen : permutation.length = v.length) (fuel : Nat) (hfuel : permutation.length ≤ fuel) :
    (permutation.Perm (List.range v.length) →
      ∃ w, applyPermutation fuel permutation v = some (.ok w) ∧
        ∀ i : Nat, w[i]? = permutation[i]?.bind (v[·]?)) ∧
    (¬ permutation.Perm (List.range v.length) →
      applyPermutation fuel permutation v = some (.error .badPermutation)) := by
  rw [applyPermutation, if_pos hlen, applyPermutationWith, ← hlen]
  refine ⟨fun hperm => ?_, fun hbad => if_neg (mt check_iff.mp hbad)⟩
  obtain ⟨passed, marks, w, hrun, -, hall, h⟩ := followCycles_upTo hperm hlen hfuel le_rfl
  rw [if_pos (check_iff.mpr hperm), followCycles, hrun]
  refine ⟨w, rfl, fun i => ?_⟩
  rw [h.element]
  by_cases hi : i < permutation.length
  · rw [getElem?_eq_target hi, settled, if_pos (hall i hi), Option.bind_some]
  · have hnot : i ∉ passed := fun hmem => hi (h.bounded i hmem)
    rw [settled, if_neg hnot, List.getElem?_eq_none (by omega), List.getElem?_eq_none (by omega),
      Option.bind_none]

/-- A cycle of three positions, and one that stays. -/
theorem apply_permutation_exact_cycle :
    ∃ w, applyPermutation 4 [2, 1, 3, 0] ['a', 'b', 'c', 'd'] = some (.ok w) ∧
      ∀ i : Nat, w[i]? = [2, 1, 3, 0][i]?.bind (['a', 'b', 'c', 'd'][·]?) :=
  (apply_permutation_exact [2, 1, 3, 0] ['a', 'b', 'c', 'd'] rfl 4 (by decide)).1 (by decide)

end Oxyra.Permutation
