import Mathlib.Data.List.Sublists
import Mathlib.Data.List.Sort
import Mathlib.Data.List.Perm.Subperm

/-!
# Choices of a given size, in lexicographic order

`choices l k` are the sublists of `l` of length `k`, those with an earlier element of `l`
before those without it.
-/

namespace Choices

variable {α : Type}

def choices : List α → Nat → List (List α)
  | _, 0 => [[]]
  | [], _ + 1 => []
  | x :: xs, k + 1 => (choices xs k).map (x :: ·) ++ choices xs (k + 1)

theorem choices_zero (l : List α) : choices l 0 = [[]] := by
  cases l <;> rfl

theorem choices_perm (l : List α) (k : Nat) : (choices l k).Perm (List.sublistsLen k l) := by
  fun_induction choices l k with
  | case1 l => simp
  | case2 k => simp
  | case3 x xs k ih₁ ih₂ =>
    rw [List.sublistsLen_succ_cons]
    exact List.perm_append_comm.trans (ih₂.append (ih₁.map _))

theorem mem_choices {l c : List α} {k : Nat} : c ∈ choices l k ↔ c.Sublist l ∧ c.length = k := by
  rw [(choices_perm l k).mem_iff, List.mem_sublistsLen]

theorem length_choices (l : List α) (k : Nat) : (choices l k).length = l.length.choose k := by
  rw [(choices_perm l k).length_eq, List.length_sublistsLen]

theorem choices_eq_nil {l : List α} {k : Nat} (h : l.length < k) : choices l k = [] := by
  rw [← List.length_eq_zero_iff, length_choices, Nat.choose_eq_zero_of_lt h]

theorem choices_pairwise_lt [LinearOrder α] {l : List α} (hl : l.Pairwise (· < ·)) (k : Nat) :
    (choices l k).Pairwise (· < ·) := by
  fun_induction choices l k with
  | case1 l => simp
  | case2 k => simp
  | case3 x xs k ih₁ ih₂ =>
    obtain ⟨hx, hxs⟩ := List.pairwise_cons.mp hl
    refine List.pairwise_append.mpr ⟨?_, ih₂ hxs, ?_⟩
    · exact List.pairwise_map.mpr ((ih₁ hxs).imp List.Lex.cons)
    · -- a choice without `x` begins with a later element
      intro c hc d hd
      obtain ⟨c, -, rfl⟩ := List.mem_map.mp hc
      obtain ⟨hsub, hlen⟩ := mem_choices.mp hd
      cases d with
      | nil => simp at hlen
      | cons y d => exact List.Lex.rel (hx y (hsub.subset List.mem_cons_self))

theorem mem_choices_range {n k : Nat} {c : List Nat} : c ∈ choices (List.range n) k ↔
    c.length = k ∧ c.Pairwise (· < ·) ∧ ∀ i ∈ c, i < n := by
  rw [mem_choices, and_comm]
  refine and_congr_right fun _ => ⟨fun hsub => ?_, fun ⟨hasc, hlt⟩ => ?_⟩
  · exact ⟨List.pairwise_lt_range.sublist hsub, fun i hi => List.mem_range.mp (hsub.subset hi)⟩
  · have hnodup : c.Nodup := hasc.imp Nat.ne_of_lt
    have hsub : c.Subperm (List.range n) :=
      hnodup.subperm fun i hi => List.mem_range.mpr (hlt i hi)
    exact List.sublist_of_subperm_of_pairwise hsub hasc List.pairwise_lt_range

end Choices
