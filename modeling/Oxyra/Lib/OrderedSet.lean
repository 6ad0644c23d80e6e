import Mathlib

/-!
# Sets ordered by a key

A container in the manner of `std::set` with a comparison that looks at one key
only: entries stand in the order of their keys, no two share one, and inserting
an entry whose key is taken does nothing. The order is part of the type, so that
what holds of lookups and insertions needs no side condition.
-/

/-- Entries in strictly increasing order of their keys. -/
structure OrderedSet {α κ : Type} [LinearOrder κ] (key : α → κ) where
  entries : List α
  sorted : entries.Pairwise fun a b => key a < key b

namespace OrderedSet

variable {α κ : Type} [LinearOrder κ] {key : α → κ} {x y : α} {s : OrderedSet key}

instance : Membership α (OrderedSet key) := ⟨fun s x => x ∈ s.entries⟩

variable {p : α → Bool}

theorem mem_def : x ∈ s ↔ x ∈ s.entries := Iff.rfl

def empty : OrderedSet key := ⟨[], .nil⟩

instance : EmptyCollection (OrderedSet key) := ⟨empty⟩

@[simp] theorem not_mem_empty : x ∉ (∅ : OrderedSet key) := List.not_mem_nil

/-- **One entry a key.** -/
theorem eq_of_key_eq (hx : x ∈ s) (hy : y ∈ s) (h : key x = key y) : x = y := by
  by_contra hne
  have hlt : key x < key y ∨ key y < key x := by
    obtain ⟨i, hi, rfl⟩ := List.mem_iff_getElem.mp hx
    obtain ⟨j, hj, rfl⟩ := List.mem_iff_getElem.mp hy
    rcases Nat.lt_trichotomy i j with hij | rfl | hij
    · exact .inl (List.pairwise_iff_getElem.mp s.sorted i j hi hj hij)
    · exact absurd rfl hne
    · exact .inr (List.pairwise_iff_getElem.mp s.sorted j i hj hi hij)
  rcases hlt with hlt | hlt
  · exact absurd h hlt.ne
  · exact absurd h hlt.ne'

/-! ## Insertion -/

/-- Insertion into a list in order; a key that is taken stays as it is. -/
def insertList (key : α → κ) (x : α) : List α → List α
  | [] => [x]
  | y :: l =>
    if key x < key y then x :: y :: l
    else if key x = key y then y :: l
    else y :: insertList key x l

theorem mem_insertList {l : List α} (h : l.Pairwise fun a b => key a < key b) :
    y ∈ insertList key x l ↔ y ∈ l ∨ y = x ∧ ∀ z ∈ l, key z ≠ key x := by
  induction l with
  | nil => simp [insertList]
  | cons z l ih =>
    rw [List.pairwise_cons] at h
    unfold insertList
    split
    · -- below the first entry, so below all of them
      rename_i hlt
      have hfree : ∀ w ∈ z :: l, key w ≠ key x := by
        intro w hw
        rcases List.mem_cons.mp hw with rfl | hw
        · exact hlt.ne'
        · exact (hlt.trans (h.1 w hw)).ne'
      rw [List.mem_cons]
      tauto
    · split
      · rename_i heq
        refine ⟨fun hy => .inl hy, fun hy => hy.resolve_right ?_⟩
        rintro ⟨-, hfree⟩
        exact hfree z List.mem_cons_self heq.symm
      · rename_i hne
        rw [List.mem_cons, ih h.2, List.mem_cons, List.forall_mem_cons]
        have : key z ≠ key x := Ne.symm hne
        tauto

theorem pairwise_insertList {l : List α} (h : l.Pairwise fun a b => key a < key b) :
    (insertList key x l).Pairwise fun a b => key a < key b := by
  induction l with
  | nil => simp [insertList]
  | cons z l ih =>
    have hz := List.pairwise_cons.mp h
    unfold insertList
    split
    · rename_i hlt
      refine List.pairwise_cons.mpr ⟨fun w hw => ?_, h⟩
      rcases List.mem_cons.mp hw with rfl | hw
      · exact hlt
      · exact hlt.trans (hz.1 w hw)
    · split
      · exact h
      · rename_i hnlt hne
        refine List.pairwise_cons.mpr ⟨fun w hw => ?_, ih hz.2⟩
        rcases (mem_insertList hz.2).mp hw with hw | ⟨rfl, -⟩
        · exact hz.1 w hw
        · exact lt_of_le_of_ne (not_lt.mp hnlt) (Ne.symm hne)

def insert (x : α) (s : OrderedSet key) : OrderedSet key :=
  ⟨insertList key x s.entries, pairwise_insertList s.sorted⟩

/-- **What an insertion leaves.** -/
theorem mem_insert : y ∈ s.insert x ↔ y ∈ s ∨ y = x ∧ ∀ z ∈ s, key z ≠ key x :=
  mem_insertList s.sorted

/-! ## Removal and lookup -/

def filter (p : α → Bool) (s : OrderedSet key) : OrderedSet key :=
  ⟨s.entries.filter p, s.sorted.filter p⟩

theorem mem_filter : y ∈ s.filter p ↔ y ∈ s ∧ p y = true :=
  List.mem_filter

def find? (p : α → Bool) (s : OrderedSet key) : Option α :=
  s.entries.find? p

theorem mem_of_find? (h : s.find? p = some x) : x ∈ s ∧ p x = true :=
  ⟨List.mem_of_find?_eq_some h, List.find?_some h⟩

theorem find?_eq_none : s.find? p = none ↔ ∀ x ∈ s, p x = false := by
  simp [find?, mem_def]

theorem find?_eq_some (hx : x ∈ s) (hp : p x = true) (hkey : ∀ y ∈ s, p y = true → key y = key x) :
    s.find? p = some x := by
  cases hf : s.find? p with
  | none => exact absurd hp (by simp [find?_eq_none.mp hf x hx])
  | some y =>
    obtain ⟨hy, hpy⟩ := mem_of_find? hf
    rw [eq_of_key_eq hy hx (hkey y hy hpy)]

end OrderedSet
