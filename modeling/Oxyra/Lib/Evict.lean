import Mathlib

/-!
# Evicting down to a limit

A loop goes over a list of candidates and drops them one after the other while the total weight is
over a limit; protected ones are passed over.
-/

namespace Evict

variable {α : Type} (weight : α → Nat) (kept : α → Bool) (limit : Nat)

def victims : Nat → List α → List α
  | _, [] => []
  | total, a :: rest =>
    if total ≤ limit then []
    else if kept a then victims total rest
    else a :: victims (total - weight a) rest

variable {weight kept limit}

theorem victims_of_le {total : Nat} (h : total ≤ limit) (l : List α) :
    victims weight kept limit total l = [] := by
  cases l with
  | nil => rfl
  | cons a rest => exact if_pos h

theorem victims_prefix (total : Nat) (l : List α) :
    victims weight kept limit total l <+: l.filter fun a => !kept a := by
  induction l generalizing total with
  | nil => exact List.prefix_rfl
  | cons a rest ih =>
    unfold victims
    split
    · exact List.nil_prefix
    · split
      · rename_i hkept
        rw [List.filter_cons_of_neg (by simp [hkept])]
        exact ih total
      · rename_i hkept
        rw [List.filter_cons_of_pos (by simpa using hkept)]
        exact (List.prefix_cons_inj a).mpr (ih _)

theorem over_of_victims {total : Nat} {l before behind : List α} {a : α}
    (h : victims weight kept limit total l = before ++ a :: behind) :
    limit < total - (before.map weight).sum := by
  induction l generalizing total before with
  | nil => simp [victims] at h
  | cons b rest ih =>
    unfold victims at h
    split at h
    · simp at h
    · rename_i hover
      split at h
      · exact ih h
      · cases before with
        | nil => simpa using hover
        | cons c before =>
          rw [List.cons_append, List.cons.injEq] at h
          obtain ⟨rfl, hrest⟩ := h
          rw [List.map_cons, List.sum_cons, ← Nat.sub_sub]
          exact ih hrest

theorem victims_done (total : Nat) (l : List α) :
    total - ((victims weight kept limit total l).map weight).sum ≤ limit ∨
      victims weight kept limit total l = l.filter fun a => !kept a := by
  induction l generalizing total with
  | nil => exact .inr rfl
  | cons a rest ih =>
    unfold victims
    split
    · rename_i hwithin
      exact .inl (by simpa using hwithin)
    · split
      · rename_i hkept
        rw [List.filter_cons_of_neg (by simp [hkept])]
        exact ih total
      · rename_i hkept
        rw [List.filter_cons_of_pos (by simpa using hkept), List.map_cons, List.sum_cons,
          ← Nat.sub_sub]
        exact (ih _).imp id (congrArg (a :: ·))

/-- Dropping from the back: whatever stands behind something dropped is dropped or protected. -/
theorem pairwise_of_prefix {l v : List α} {f : α → Bool} (hnd : l.Nodup)
    (hv : v <+: l.reverse.filter f) : l.Pairwise fun a b => a ∈ v → f b = true → b ∈ v := by
  induction l with
  | nil => exact .nil
  | cons a l ih =>
    obtain ⟨hfresh, hnd⟩ := List.nodup_cons.mp hnd
    rw [List.reverse_cons, List.filter_append] at hv
    have hsmall : v <+: l.reverse.filter f →
        (a :: l).Pairwise fun a b => a ∈ v → f b = true → b ∈ v := fun hv => by
      refine List.pairwise_cons.mpr ⟨fun b _ ha => ?_, ih hnd hv⟩
      exact absurd (List.mem_reverse.mp (List.mem_filter.mp (hv.subset ha)).1) hfresh
    cases hfa : f a with
    | false =>
      rw [List.filter_cons_of_neg (by simp [hfa]), List.filter_nil, List.append_nil] at hv
      exact hsmall hv
    | true =>
      rw [List.filter_cons_of_pos hfa, List.filter_nil, List.prefix_concat_iff] at hv
      rcases hv with rfl | hv
      · -- everything unprotected has been dropped
        have hall : ∀ b ∈ l, f b = true → b ∈ l.reverse.filter f ++ [a] := fun b hb hfb =>
          List.mem_append_left _ (List.mem_filter.mpr ⟨List.mem_reverse.mpr hb, hfb⟩)
        refine List.pairwise_cons.mpr ⟨fun b hb _ => hall b hb, ?_⟩
        exact List.pairwise_iff_forall_sublist.mpr fun hsub _ =>
          hall _ (hsub.subset (by simp))
      · exact hsmall hv

end Evict
