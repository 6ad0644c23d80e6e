import Mathlib

/-!
# Sorted vectors searched by `lower_bound`

A vector that is kept in the order of a key serves as a set or a map: `std::lower_bound` gives the
first position whose key is not below the one looked for, and that position is where the entry is,
or where it has to be inserted.
-/

variable {α κ : Type} [LinearOrder κ]

def lowerBound (key : α → κ) (l : List α) (k : κ) : Nat :=
  l.findIdx fun x => !decide (key x < k)

namespace LowerBound

variable {key : α → κ} {l : List α} {k : κ} {x y : α}

theorem cons : lowerBound key (y :: l) k = if key y < k then lowerBound key l k + 1 else 0 := by
  unfold lowerBound
  rw [List.findIdx_cons]
  by_cases h : key y < k <;> simp [h]

theorem le_length : lowerBound key l k ≤ l.length := List.findIdx_le_length

/-- The entry at the position, if it has the key that was looked for. -/
def found (key : α → κ) (l : List α) (k : κ) : Option α :=
  l[lowerBound key l k]?.filter fun x => key x = k

theorem found_eq_some :
    found key l k = some x ↔ l[lowerBound key l k]? = some x ∧ key x = k := by
  rw [found, Option.filter_eq_some_iff, decide_eq_true_iff]

/-- **A search finds the key if it is there.** -/
theorem ne_of_found_eq_none (hl : l.Pairwise fun a b => key a ≤ key b)
    (h : found key l k = none) : ∀ y ∈ l, key y ≠ k := by
  induction l with
  | nil => simp
  | cons z l ih =>
    rw [List.pairwise_cons] at hl
    unfold found at h ih
    rw [cons] at h
    rw [List.forall_mem_cons]
    split at h
    · rename_i hlt
      exact ⟨hlt.ne, ih hl.2 h⟩
    · -- the search stops here, and what follows is not smaller
      rename_i hge
      have hne : key z ≠ k := by simpa using h
      have hlt : k < key z := lt_of_le_of_ne (not_lt.mp hge) hne.symm
      exact ⟨hne, fun y hy => (hlt.trans_le (hl.1 y hy)).ne'⟩

theorem pairwise_insertIdx (hl : l.Pairwise fun a b => key a < key b)
    (hnew : ∀ y ∈ l, key y ≠ key x) :
    (l.insertIdx (lowerBound key l (key x)) x).Pairwise fun a b => key a < key b := by
  induction l with
  | nil => simp [lowerBound]
  | cons z l ih =>
    rw [List.forall_mem_cons] at hnew
    have hz := List.pairwise_cons.mp hl
    rw [cons]
    split
    · rename_i hlt
      rw [List.insertIdx_succ_cons, List.pairwise_cons]
      refine ⟨fun y hy => ?_, ih hz.2 hnew.2⟩
      rcases List.mem_cons.mp ((List.perm_insertIdx x l le_length).mem_iff.mp hy) with rfl | hy
      · exact hlt
      · exact hz.1 y hy
    · rename_i hge
      have hlt : key x < key z := lt_of_le_of_ne (not_lt.mp hge) hnew.1.symm
      rw [List.insertIdx_zero, List.pairwise_cons, List.forall_mem_cons]
      exact ⟨⟨hlt, fun y hy => hlt.trans (hz.1 y hy)⟩, hl⟩

theorem pairwise_set {i : Nat} (hl : l.Pairwise fun a b => key a < key b)
    (hi : l[i]? = some y) (hkey : key x = key y) :
    (l.set i x).Pairwise fun a b => key a < key b := by
  have hmap : (l.set i x).map key = l.map key := by
    obtain ⟨hlt, rfl⟩ := List.getElem?_eq_some_iff.mp hi
    rw [List.map_set, hkey]
    apply List.ext_getElem?
    intro j
    rw [List.getElem?_set, List.length_map, List.getElem?_map]
    split
    · rename_i hij
      subst hij
      simp [hlt]
    · rfl
  rw [← List.pairwise_map (R := (· < ·))] at hl ⊢
  rw [hmap]
  exact hl

theorem eq_of_key_eq (hl : l.Pairwise fun a b => key a < key b) (hx : x ∈ l) (hy : y ∈ l)
    (h : key x = key y) : x = y := by
  have hnodup : (l.map key).Nodup := by
    rw [List.Nodup, List.pairwise_map]
    exact hl.imp fun hlt => hlt.ne
  exact List.inj_on_of_nodup_map hnodup hx hy h

theorem eq_filter_lt_append (hl : l.Pairwise fun a b => key a ≤ key b) (k : κ) :
    l = (l.filter fun x => key x < k) ++ l.filter fun x => k ≤ key x := by
  induction l with
  | nil => rfl
  | cons x l ih =>
    obtain ⟨hx, hl⟩ := List.pairwise_cons.mp hl
    by_cases h : key x < k
    · rw [List.filter_cons_of_pos (by simpa using h),
        List.filter_cons_of_neg (by simpa using h), List.cons_append, ← ih hl]
    · have hall : ∀ y ∈ x :: l, k ≤ key y := by
        intro y hy
        rcases List.mem_cons.mp hy with rfl | hy
        · exact not_lt.mp h
        · exact (not_lt.mp h).trans (hx y hy)
      rw [List.filter_eq_nil_iff.mpr fun y hy => by simpa using hall y hy, List.nil_append,
        List.filter_eq_self.mpr fun y hy => by simpa using hall y hy]

theorem dropWhile_lt_eq_filter (hl : l.Pairwise fun a b => key a ≤ key b) :
    (l.dropWhile fun x => key x < k) = l.filter fun x => k ≤ key x := by
  conv_lhs => rw [eq_filter_lt_append hl k]
  rw [List.dropWhile_append_of_pos fun x hx => (List.mem_filter.mp hx).2,
    List.dropWhile_eq_self_iff.mpr]
  intro hlen
  have hfirst := List.mem_filter.mp (List.getElem_mem hlen)
  simpa using hfirst.2

end LowerBound
