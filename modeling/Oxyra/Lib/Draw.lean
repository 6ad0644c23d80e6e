import Mathlib

/-!
# Drawing at random from a vector

The swaps by which a vector is shuffled and by which an element is drawn from it without putting it
back. `rand` gives the raw random words; an index below `n` is the word modulo `n`, so that all
choices of `rand` together are all choices of the indices.
-/

variable {α : Type}

def swapAt (l : List α) (i j : Nat) : List α :=
  match l[i]?, l[j]? with
  | some x, some y => (l.set i y).set j x
  | _, _ => l

/-- The swaps of a shuffle, for `n` positions from `i` on. -/
def shuffleFrom (rand : Nat → Nat) : Nat → Nat → List α → List α
  | 0, _, l => l
  | n + 1, i, l => shuffleFrom rand n (i + 1) (swapAt l i (i + rand i % (l.length - i)))

/-- A draw: a random element is swapped to the end and taken off. -/
def draw (r : Nat) (l : List α) : Option (α × List α) :=
  let l := swapAt l (l.length - 1) (r % l.length)
  l.getLast?.map fun x => (x, l.dropLast)

theorem swapAt_perm (l : List α) (i j : Nat) : (swapAt l i j).Perm l := by
  unfold swapAt
  split
  · rename_i x y hx hy
    obtain ⟨hi, rfl⟩ := List.getElem?_eq_some_iff.mp hx
    obtain ⟨hj, rfl⟩ := List.getElem?_eq_some_iff.mp hy
    -- as arrays, where the library has it
    have hswap := @Array.swap_perm α l.toArray i j hi hj
    exact Array.perm_iff_toList_perm.mp hswap
  · exact .refl l

theorem shuffleFrom_perm (rand : Nat → Nat) (n i : Nat) (l : List α) :
    (shuffleFrom rand n i l).Perm l := by
  induction n generalizing i l with
  | zero => exact .refl l
  | succ n ih => exact (ih _ _).trans (swapAt_perm _ _ _)

theorem draw_eq_none {r : Nat} {l : List α} : draw r l = none ↔ l = [] := by
  unfold draw
  rw [Option.map_eq_none_iff, List.getLast?_eq_none_iff, ← List.length_eq_zero_iff,
    (swapAt_perm l _ _).length_eq, List.length_eq_zero_iff]

/-- **A draw takes out one element.** -/
theorem draw_perm {r : Nat} {l rest : List α} {x : α} (h : draw r l = some (x, rest)) :
    (x :: rest).Perm l := by
  unfold draw at h
  obtain ⟨y, hlast, hy⟩ := Option.map_eq_some_iff.mp h
  obtain ⟨rfl, rfl⟩ := Prod.mk.inj hy
  have hsplit := List.dropLast_append_getLast? y hlast
  refine List.Perm.trans ?_ (swapAt_perm l (l.length - 1) (r % l.length))
  rw [← List.singleton_append]
  exact List.perm_append_comm.trans (.of_eq hsplit)
