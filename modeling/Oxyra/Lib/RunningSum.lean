import Mathlib

/-!
# Running sums

A delta-encoded list is decoded by adding up. Over integers positive deltas give
distinct values; over machine words they need not, because a sum can wrap around
to where it started. In any additive group the decoded values are distinct
exactly if no run of consecutive deltas adds up to zero (`nodup_cons_iff`).
-/

namespace RunningSum

variable {α : Type} [AddGroup α]

/-- The sums `acc + x₁`, `acc + x₁ + x₂`, … -/
def runningSums (acc : α) : List α → List α
  | [] => []
  | x :: l => (acc + x) :: runningSums (acc + x) l

theorem mem_runningSums_iff {acc y : α} {l : List α} :
    y ∈ runningSums acc l ↔ ∃ run, run ≠ [] ∧ run <+: l ∧ y = acc + run.sum := by
  induction l generalizing acc with
  | nil =>
    refine ⟨fun h => absurd h (by simp [runningSums]), ?_⟩
    rintro ⟨run, hne, hrun, -⟩
    exact absurd (List.prefix_nil.mp hrun) hne
  | cons x l ih =>
    rw [runningSums, List.mem_cons, ih]
    constructor
    · rintro (rfl | ⟨run, -, hrun, rfl⟩)
      · exact ⟨[x], by simp, by simp, by simp⟩
      · exact ⟨x :: run, by simp, by simpa using hrun, by simp [add_assoc]⟩
    · rintro ⟨run, hne, hrun, rfl⟩
      obtain ⟨z, run, rfl⟩ := List.exists_cons_of_ne_nil hne
      rw [List.cons_prefix_cons] at hrun
      obtain ⟨rfl, hrun⟩ := hrun
      by_cases hnil : run = []
      · exact .inl (by simp [hnil])
      · exact .inr ⟨run, hnil, hrun, by simp [add_assoc]⟩

/-- **Distinct sums.** No value comes back exactly if no run of consecutive
entries adds up to zero. -/
theorem nodup_cons_iff (acc : α) (l : List α) :
    (acc :: runningSums acc l).Nodup ↔ ∀ run, run ≠ [] → run <:+: l → run.sum ≠ 0 := by
  induction l generalizing acc with
  | nil =>
    refine ⟨fun _ run hne hrun => absurd (List.infix_nil.mp hrun) hne, fun _ => ?_⟩
    simp [runningSums]
  | cons x l ih =>
    rw [List.nodup_cons, mem_runningSums_iff, runningSums, ih]
    constructor
    · rintro ⟨hhead, hrest⟩ run hne hrun hsum
      rcases List.infix_cons_iff.mp hrun with hpre | hin
      · exact hhead ⟨run, hne, hpre, by simp [hsum]⟩
      · exact hrest run hne hin hsum
    · intro h
      refine ⟨?_, fun run hne hin => h run hne (List.infix_cons_iff.mpr (.inr hin))⟩
      rintro ⟨run, hne, hpre, heq⟩
      exact h run hne hpre.isInfix (by simpa using heq.symm)

end RunningSum
