import Mathlib

/-!
# Stable sorting

A list sorted by a rank in such a way that elements of one rank keep their order. These two facts
determine the list (`StableSort.unique`), and collecting rank by rank produces it (`buckets`).
-/

variable {α κ : Type} [LinearOrder κ]

/-- `l'` is `l` sorted by `rank`, and elements of one rank stand in their old order. -/
structure StableSort (rank : α → κ) (l l' : List α) : Prop where
  sorted : l'.Pairwise fun a b => rank a ≤ rank b
  same : ∀ r, l'.filter (rank · = r) = l.filter (rank · = r)

/-- The elements of each of the given ranks, one rank after the other. -/
def buckets (rank : α → κ) (ranks : List κ) (l : List α) : List α :=
  ranks.flatMap fun r => l.filter (rank · = r)

namespace StableSort

variable {rank : α → κ} {l l' l'' : List α}

theorem mem_iff (h : StableSort rank l l') (x : α) : x ∈ l' ↔ x ∈ l := by
  have := congrArg (x ∈ ·) (h.same (rank x))
  simpa using this

theorem eq_of_filter_eq : ∀ {l l' : List α}, (l.Pairwise fun a b => rank a ≤ rank b) →
    (l'.Pairwise fun a b => rank a ≤ rank b) →
    (∀ r, l.filter (rank · = r) = l'.filter (rank · = r)) → l = l' := by
  have hmem : ∀ {l l' : List α}, (∀ r, l.filter (rank · = r) = l'.filter (rank · = r)) →
      ∀ x ∈ l, x ∈ l' := by
    intro l l' hsame x hx
    have : x ∈ l'.filter (rank · = rank x) := hsame (rank x) ▸ List.mem_filter.mpr ⟨hx, by simp⟩
    exact (List.mem_filter.mp this).1
  intro l
  induction l with
  | nil =>
    intro l' _ _ hsame
    exact (List.eq_nil_iff_forall_not_mem.mpr fun x hx =>
      absurd (hmem (fun r => (hsame r).symm) x hx) (by simp)).symm
  | cons x l ih =>
    intro l' hl hl' hsame
    cases l' with
    | nil => exact absurd (hmem hsame x List.mem_cons_self) (by simp)
    | cons y l' =>
      have hx := List.pairwise_cons.mp hl
      have hy := List.pairwise_cons.mp hl'
      -- the first elements have the least rank, and both are the first of it
      have hle : rank y ≤ rank x := by
        rcases List.mem_cons.mp (hmem hsame x List.mem_cons_self) with rfl | h
        · exact le_rfl
        · exact hy.1 x h
      have hge : rank x ≤ rank y := by
        rcases List.mem_cons.mp (hmem (fun r => (hsame r).symm) y List.mem_cons_self)
          with rfl | h
        · exact le_rfl
        · exact hx.1 y h
      have hrank : rank y = rank x := le_antisymm hle hge
      have hhead := hsame (rank x)
      rw [List.filter_cons_of_pos (by simp), List.filter_cons_of_pos (by simp [hrank]),
        List.cons.injEq] at hhead
      obtain rfl := hhead.1
      refine congrArg (x :: ·) (ih hx.2 hy.2 fun r => ?_)
      have hrest := hsame r
      by_cases hr : rank x = r
      · rwa [List.filter_cons_of_pos (by simp [hr]), List.filter_cons_of_pos (by simp [hr]),
          List.cons_inj_right] at hrest
      · rwa [List.filter_cons_of_neg (by simp [hr]), List.filter_cons_of_neg (by simp [hr])]
          at hrest

/-- **There is one stable sort.** -/
theorem unique (h : StableSort rank l l') (h' : StableSort rank l l'') : l' = l'' :=
  eq_of_filter_eq h.sorted h'.sorted fun r => (h.same r).trans (h'.same r).symm

theorem self (h : l.Pairwise fun a b => rank a ≤ rank b) : StableSort rank l l := ⟨h, fun _ => rfl⟩

theorem filter_buckets (ranks : List κ) (hnodup : ranks.Nodup) (l : List α) (r : κ) :
    (buckets rank ranks l).filter (rank · = r) =
      if r ∈ ranks then l.filter (rank · = r) else [] := by
  induction ranks with
  | nil => rfl
  | cons k ranks ih =>
    obtain ⟨hk, hranks⟩ := List.nodup_cons.mp hnodup
    have hbuckets : buckets rank (k :: ranks) l =
        l.filter (rank · = k) ++ buckets rank ranks l := rfl
    rw [hbuckets, List.filter_append, ih hranks, List.filter_filter]
    by_cases hr : r = k
    · subst hr
      rw [if_neg hk, if_pos List.mem_cons_self, List.append_nil]
      simp
    · have hnone : l.filter (fun a => decide (rank a = r) && decide (rank a = k)) = [] := by
        rw [List.filter_eq_nil_iff]
        intro a _ ha
        rw [Bool.and_eq_true, decide_eq_true_iff, decide_eq_true_iff] at ha
        exact hr (ha.1.symm.trans ha.2)
      rw [hnone, List.nil_append]
      simp [hr]

/-- **Collecting rank by rank sorts stably**, if no rank is left out. -/
theorem buckets_spec {ranks : List κ} (hranks : ranks.Pairwise (· < ·))
    (hall : ∀ x ∈ l, rank x ∈ ranks) : StableSort rank l (buckets rank ranks l) := by
  constructor
  · rw [buckets, List.pairwise_flatMap]
    refine ⟨fun r _ => ?_, hranks.imp fun {a b} hlt x hx y hy => ?_⟩
    · rw [List.pairwise_filter]
      refine List.pairwise_of_forall fun x y hx hy => ?_
      rw [decide_eq_true_iff] at hx hy
      rw [hx, hy]
    · simp only [List.mem_filter, decide_eq_true_iff] at hx hy
      rw [hx.2, hy.2]
      exact hlt.le
  · intro r
    rw [filter_buckets ranks (hranks.imp fun h => h.ne) l r]
    split
    · rfl
    · rename_i hr
      refine (List.filter_eq_nil_iff.mpr fun x hx hrank => hr ?_).symm
      rw [decide_eq_true_iff] at hrank
      exact hrank ▸ hall x hx

end StableSort
