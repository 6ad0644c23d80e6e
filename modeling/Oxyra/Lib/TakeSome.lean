import Mathlib

/-!
# Answers up to the first missing one

A bulk query answers the keys it is given in order and stops at the first that has no answer.

* `takeSome f l` is such a query. A part of the answers, from a source that knew less, is completed
  by a second query for the remaining keys (`takeSome_complete`).
* Over a sorted list of keys without repetitions and a source that knows the keys below a bound, the
  answer to a key stands where the key does (`getElem?_takeSome_idxOf`).
-/

section Query

variable {κ α : Type} {f g : κ → Option α} {l : List κ}

/-- The answers to the keys of a list, up to the first key without one. -/
def takeSome (f : κ → Option α) : List κ → List α
  | [] => []
  | k :: l =>
    match f k with
    | none => []
    | some a => a :: takeSome f l

theorem takeSome_cons_none {k : κ} (h : f k = none) : takeSome f (k :: l) = [] := by
  rw [takeSome, h]

theorem takeSome_cons_some {k : κ} {a : α} (h : f k = some a) :
    takeSome f (k :: l) = a :: takeSome f l := by
  rw [takeSome, h]

theorem takeSome_congr (h : ∀ k ∈ l, f k = g k) : takeSome f l = takeSome g l := by
  induction l with
  | nil => rfl
  | cons k l ih =>
    have hk := h k (List.mem_cons_self ..)
    have hl := ih fun k hk => h k (List.mem_cons_of_mem _ hk)
    rw [takeSome, takeSome, hk, hl]

theorem getElem?_takeSome {i : Nat} {a : α} (h : (takeSome f l)[i]? = some a) :
    ∃ k, l[i]? = some k ∧ f k = some a := by
  induction l generalizing i with
  | nil => simp [takeSome] at h
  | cons k l ih =>
    cases hf : f k with
    | none => simp [takeSome_cons_none hf] at h
    | some b =>
      rw [takeSome_cons_some hf] at h
      cases i with
      | zero => exact ⟨k, rfl, hf.trans h⟩
      | succ i => exact ih h

theorem length_takeSome_eq_iff : (takeSome f l).length = l.length ↔ ∀ k ∈ l, (f k).isSome := by
  induction l with
  | nil => simp [takeSome]
  | cons k l ih =>
    cases hf : f k with
    | none => simp [takeSome_cons_none hf, hf]
    | some b => simp [takeSome_cons_some hf, hf, ih]

/-- **A partial answer is completed** by asking a better source for the remaining keys. -/
theorem takeSome_complete (hsub : ∀ k a, f k = some a → g k = some a) :
    takeSome g l = takeSome f l ++ takeSome g (l.drop (takeSome f l).length) := by
  induction l with
  | nil => rfl
  | cons k l ih =>
    cases hf : f k with
    | none => simp [takeSome_cons_none hf]
    | some b =>
      rw [takeSome_cons_some hf, takeSome_cons_some (hsub k b hf), ih]
      rfl

end Query

section Sorted

variable {κ α : Type} [LinearOrder κ] {f : κ → Option α} {l : List κ}

def sortUnique (l : List κ) : List κ :=
  (l.insertionSort (· ≤ ·)).destutter (· ≠ ·)

theorem mem_destutter_ne {k : κ} (h : k ∈ l) : k ∈ l.destutter (· ≠ ·) := by
  have hgen : ∀ (l : List κ) (a : κ), k ∈ a :: l → k ∈ l.destutter' (· ≠ ·) a := by
    intro l
    induction l with
    | nil => exact fun a h => h
    | cons b l ih =>
      intro a h
      by_cases hab : a = b
      · subst hab
        rw [List.destutter'_cons_neg _ (by simp)]
        exact ih a (by simpa using h)
      · rw [List.destutter'_cons_pos _ hab]
        rcases List.mem_cons.mp h with rfl | h
        · exact List.mem_cons_self ..
        · exact List.mem_cons_of_mem _ (ih b h)
  cases l with
  | nil => simp at h
  | cons a l => exact hgen l a h

theorem mem_sortUnique {k : κ} (h : k ∈ l) : k ∈ sortUnique l :=
  mem_destutter_ne ((List.mem_insertionSort (· ≤ ·)).mpr h)

theorem pairwise_sortUnique (l : List κ) : (sortUnique l).Pairwise (· < ·) := by
  have hsorted : (l.insertionSort (· ≤ ·)).Pairwise (· ≤ ·) :=
    List.pairwise_insertionSort (· ≤ ·) l
  have hle : (sortUnique l).Pairwise (· ≤ ·) := hsorted.sublist (List.destutter_sublist _ _)
  have hne : (sortUnique l).IsChain (· ≠ ·) := List.isChain_destutter _ _
  have hlt : (sortUnique l).IsChain (· < ·) := by
    rw [List.isChain_iff_getElem] at hne ⊢
    intro i hi
    have hi' : (sortUnique l)[i] ≤ (sortUnique l)[i + 1] :=
      List.pairwise_iff_getElem.mp hle i (i + 1) (by omega) hi (by omega)
    exact lt_of_le_of_ne hi' (hne i hi)
  exact List.isChain_iff_pairwise.mp hlt

/-- **Each answer stands where its key does**, if the source knows no key above one that it does
not know. -/
theorem getElem?_takeSome_idxOf (hdown : ∀ a b, a ≤ b → (f b).isSome → (f a).isSome)
    (hsorted : l.Pairwise (· < ·)) {k : κ} (hk : k ∈ l) : (takeSome f l)[l.idxOf k]? = f k := by
  induction l with
  | nil => simp at hk
  | cons b l ih =>
    obtain ⟨hb, hl⟩ := List.pairwise_cons.mp hsorted
    cases hf : f b with
    | none =>
      rw [takeSome_cons_none hf]
      have hle : b ≤ k := by
        rcases List.mem_cons.mp hk with rfl | hk
        · exact le_refl _
        · exact (hb k hk).le
      cases hfk : f k with
      | none => rfl
      | some a =>
        have hsome := hdown b k hle (by simp [hfk])
        simp [hf] at hsome
    | some a =>
      rw [takeSome_cons_some hf]
      rcases List.mem_cons.mp hk with rfl | hk
      · simp [hf]
      · have hne : b ≠ k := (hb k hk).ne
        rw [List.idxOf_cons_ne _ hne]
        exact ih hl hk

end Sorted
