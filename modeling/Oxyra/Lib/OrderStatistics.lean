import Mathlib

/-!
# Order statistics of a sliding window

The entry at index `i` of a sorted list is at most `b` if fewer than `length - i` entries
exceed `b`, whatever order they came in (`getElem_le_of_countP_lt`). Where the entries of
a list come with caps that grow along it, only those beyond a point can exceed a bound
(`countP_gt_le_of_capped`), and a window over the list holds no more of them.
-/

section OrderStatistics

variable {α β : Type} [LinearOrder β] {f : α → β} {b : β} {l : List α}

/-- **An entry of a sorted list, by counting.** -/
theorem getElem_le_of_countP_lt (hsorted : l.Pairwise fun x y => f x ≤ f y) {i : Nat}
    (hi : i < l.length) (hfew : l.countP (fun x => b < f x) < l.length - i) : f l[i] ≤ b := by
  by_contra hgt
  have habove : ∀ x ∈ l.drop i, (decide (b < f x)) = true := by
    intro x hx
    rw [List.drop_eq_getElem_cons hi] at hx
    rw [decide_eq_true_iff]
    rcases List.mem_cons.mp hx with hx | hx
    · rw [hx]
      exact not_le.mp hgt
    · have htail := hsorted.drop (i := i)
      rw [List.drop_eq_getElem_cons hi] at htail
      exact (not_le.mp hgt).trans_le ((List.pairwise_cons.mp htail).1 x hx)
  have hall : (l.drop i).countP (fun x => b < f x) = (l.drop i).length :=
    List.countP_eq_length.mpr habove
  have hpart := (List.drop_sublist i l).countP_le (p := fun x => decide (b < f x))
  rw [hall, List.length_drop] at hpart
  omega

/-- Entries that lie under caps up to an index do not exceed what bounds these caps. -/
theorem countP_gt_le_of_capped {m : Nat} (hcap : ∀ j (hj : j < l.length), j < m → f l[j] ≤ b) :
    l.countP (fun x => b < f x) ≤ l.length - m := by
  have hlow : (l.take m).countP (fun x => b < f x) = 0 := by
    rw [List.countP_eq_zero]
    intro x hx
    obtain ⟨j, hj, rfl⟩ := List.mem_take_iff_getElem.mp hx
    simpa using hcap j (by omega) (by omega)
  calc l.countP (fun x => b < f x)
      = (l.take m ++ l.drop m).countP (fun x => b < f x) := by rw [List.take_append_drop]
    _ = (l.drop m).countP (fun x => b < f x) := by rw [List.countP_append, hlow, Nat.zero_add]
    _ ≤ (l.drop m).length := List.countP_le_length
    _ = l.length - m := List.length_drop

end OrderStatistics
