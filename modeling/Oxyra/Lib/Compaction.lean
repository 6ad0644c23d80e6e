import Mathlib

/-!
# Compaction in place

A loop that reads a list by position and moves the elements to keep to the front of the same
list, and that may stop at an element. The writes stay behind the reads, so that what is read is
the original list, and what stands in front at the end is the filtered one (`loop_eq`).
-/

namespace Compaction

variable {α : Type} {classify : α → Option Bool}

/-- The loop at position `i` with `kept` elements moved to the front so far. An element is moved,
skipped, or stops the loop. -/
def loop (classify : α → Option Bool) : Nat → Nat → Nat → List α → Option (List α × Nat)
  | 0, _, kept, l => some (l, kept)
  | n + 1, i, kept, l =>
    match l[i]? with
    | none => some (l, kept)
    | some x =>
      match classify x with
      | none => none
      | some true => loop classify n (i + 1) (kept + 1) (l.set kept x)
      | some false => loop classify n (i + 1) kept l

/-- The loop over a whole list, cut to what was moved to the front. -/
def compact (classify : α → Option Bool) (l : List α) : Option (List α) :=
  (loop classify l.length 0 0 l).map fun r => r.1.take r.2

theorem loop_eq (n : Nat) : ∀ (i kept : Nat) (l : List α), kept ≤ i → i + n = l.length →
    (loop classify n i kept l).map (fun r => r.1.take r.2) =
      if (l.drop i).all fun x => (classify x).isSome then
        some (l.take kept ++ (l.drop i).filter fun x => classify x = some true)
      else none := by
  induction n with
  | zero =>
    intro i kept l _ hlen
    rw [List.drop_of_length_le (by omega)]
    simp [loop]
  | succ n ih =>
    intro i kept l hle hlen
    have hi : i < l.length := by omega
    obtain ⟨x, rest, hx, hdrop, hrest⟩ :
        ∃ x rest, l[i]? = some x ∧ l.drop i = x :: rest ∧ l.drop (i + 1) = rest :=
      ⟨l[i], l.drop (i + 1), List.getElem?_eq_getElem hi, List.drop_eq_getElem_cons hi, rfl⟩
    rw [loop, hx, hdrop]
    cases hc : classify x with
    | none => simp [hc]
    | some keep =>
      cases keep with
      | true =>
        -- the write is behind every later read
        have hset : (l.set kept x).drop (i + 1) = rest := by
          rw [List.drop_set_of_lt (by omega), hrest]
        have hfront : (l.set kept x).take (kept + 1) = l.take kept ++ [x] := by
          rw [List.take_add_one, List.take_set_of_le (Nat.le_refl _),
            List.getElem?_set_self (by omega)]
          rfl
        have h := ih (i + 1) (kept + 1) (l.set kept x) (by omega) (by simp; omega)
        rw [hset, hfront] at h
        simpa [hc] using h
      | false =>
        have h := ih (i + 1) kept l (by omega) (by omega)
        rw [hrest] at h
        simpa [hc] using h

/-- **Compacting in place is filtering**, unless an element stops it. -/
theorem compact_eq (l : List α) :
    compact classify l =
      if l.all fun x => (classify x).isSome then
        some (l.filter fun x => classify x = some true)
      else none := by
  have h := @loop_eq _ classify l.length 0 0 l (Nat.le_refl _) (by omega)
  simpa [compact] using h

end Compaction
