import Mathlib

/-!
# Sorting around a pivot

A list that is a permutation of small elements, a pivot and large ones: sorted, the pivot stands
behind the small ones (`sorted_at_pivot`), and the greatest of the small ones right before it
(`sorted_before_pivot`).
-/

namespace SortedSplit

variable {κ : Type} [LinearOrder κ] {w small large : List κ} {pivot top : κ}

theorem sorted_eq (hperm : w.Perm (small ++ pivot :: large)) (hsmall : ∀ x ∈ small, x ≤ pivot)
    (hlarge : ∀ x ∈ large, pivot ≤ x) :
    w.insertionSort (· ≤ ·) =
      small.insertionSort (· ≤ ·) ++ pivot :: large.insertionSort (· ≤ ·) := by
  have hsorted : (small.insertionSort (· ≤ ·) ++ pivot :: large.insertionSort (· ≤ ·)).Pairwise
      (· ≤ ·) := by
    have hs : ∀ x ∈ small.insertionSort (· ≤ ·), x ≤ pivot := fun x hx =>
      hsmall x ((List.perm_insertionSort _ small).mem_iff.mp hx)
    have hl : ∀ x ∈ large.insertionSort (· ≤ ·), pivot ≤ x := fun x hx =>
      hlarge x ((List.perm_insertionSort _ large).mem_iff.mp hx)
    refine List.pairwise_append.mpr ⟨List.pairwise_insertionSort _ _,
      List.pairwise_cons.mpr ⟨hl, List.pairwise_insertionSort _ _⟩, fun x hx y hy => ?_⟩
    rcases List.mem_cons.mp hy with rfl | hy
    · exact hs x hx
    · exact (hs x hx).trans (hl y hy)
  refine List.Perm.eq_of_pairwise' (List.pairwise_insertionSort _ w) hsorted ?_
  refine (List.perm_insertionSort _ w).trans (hperm.trans ?_)
  exact (List.perm_insertionSort _ small).symm.append
    ((List.perm_insertionSort _ large).symm.cons pivot)

theorem sorted_at_pivot (hperm : w.Perm (small ++ pivot :: large))
    (hsmall : ∀ x ∈ small, x ≤ pivot) (hlarge : ∀ x ∈ large, pivot ≤ x) (d : κ) :
    (w.insertionSort (· ≤ ·)).getD small.length d = pivot := by
  rw [sorted_eq hperm hsmall hlarge, List.getD_append_right _ _ _ _ (by simp)]
  simp

theorem sorted_before_pivot (hperm : w.Perm (small ++ pivot :: large))
    (hsmall : ∀ x ∈ small, x ≤ pivot) (hlarge : ∀ x ∈ large, pivot ≤ x) (htop : top ∈ small)
    (hle : ∀ x ∈ small, x ≤ top) (d : κ) :
    (w.insertionSort (· ≤ ·)).getD (small.length - 1) d = top := by
  have hpos : 0 < small.length := List.length_pos_of_mem htop
  have hlast : small.length - 1 < (small.insertionSort (· ≤ ·)).length := by
    rw [List.length_insertionSort]
    omega
  rw [sorted_eq hperm hsmall hlarge, List.getD_append _ _ _ _ hlast, List.getD_eq_getElem _ _ hlast]
  have hmem := (List.perm_insertionSort (· ≤ ·) small)
  refine le_antisymm (hle _ (hmem.mem_iff.mp (List.getElem_mem hlast))) ?_
  obtain ⟨i, hi, rfl⟩ := List.mem_iff_getElem.mp (hmem.mem_iff.mpr htop)
  rcases Nat.lt_or_ge i (small.length - 1) with hlt | hge
  · exact List.pairwise_iff_getElem.mp (List.pairwise_insertionSort (· ≤ ·) small) i _ hi hlast hlt
  · have hsame : i = small.length - 1 := by
      rw [List.length_insertionSort] at hi
      omega
    exact le_of_eq (by congr 1)

end SortedSplit
