import Mathlib

/-!
# Containers with two indices

A container in the manner of `boost::multi_index` with two ordered indices: a unique
one over a key, and one over a rank that entries may share. The entries are kept in
the order of the rank, those of equal rank in the order they came in. Both orders
are part of the type, so that what holds of lookups and insertions needs no side
condition.
-/

/-- Entries in the order of their rank, no two with one key. -/
structure MultiIndex {α κ ρ : Type} [LinearOrder ρ] (key : α → κ) (rank : α → ρ) where
  entries : List α
  ordered : entries.Pairwise fun a b => rank a ≤ rank b
  unique : entries.Pairwise fun a b => key a ≠ key b

namespace MultiIndex

variable {α κ ρ : Type} [LinearOrder ρ] {key : α → κ} {rank : α → ρ} {x y z : α}
  {s : MultiIndex key rank}

instance : Membership α (MultiIndex key rank) := ⟨fun s x => x ∈ s.entries⟩

theorem mem_def : x ∈ s ↔ x ∈ s.entries := Iff.rfl

instance [DecidableEq α] (x : α) (s : MultiIndex key rank) : Decidable (x ∈ s) :=
  inferInstanceAs (Decidable (x ∈ s.entries))

def empty : MultiIndex key rank := ⟨[], .nil, .nil⟩

instance : EmptyCollection (MultiIndex key rank) := ⟨empty⟩

@[simp] theorem not_mem_empty : x ∉ (∅ : MultiIndex key rank) := List.not_mem_nil

/-- **One entry a key.** -/
theorem eq_of_key_eq (hx : x ∈ s) (hy : y ∈ s) (h : key x = key y) : x = y := by
  by_contra hne
  have : Std.Symm fun a b => key a ≠ key b := ⟨fun _ _ h => h.symm⟩
  exact s.unique.forall hx hy hne h

/-! ## Removal -/

def filter (p : α → Bool) (s : MultiIndex key rank) : MultiIndex key rank :=
  ⟨s.entries.filter p, s.ordered.filter p, s.unique.filter p⟩

theorem mem_filter {p : α → Bool} : y ∈ s.filter p ↔ y ∈ s ∧ p y = true :=
  List.mem_filter

/-- The `limit` entries of highest rank. -/
def trim (limit : Nat) (s : MultiIndex key rank) : MultiIndex key rank :=
  let n := s.entries.length - limit
  ⟨s.entries.drop n, s.ordered.drop, s.unique.drop⟩

theorem mem_of_mem_trim {limit : Nat} (h : y ∈ s.trim limit) : y ∈ s :=
  List.mem_of_mem_drop h

theorem length_trim_le {limit : Nat} : (s.trim limit).entries.length ≤ limit := by
  rw [trim, List.length_drop]
  omega

/-! ## Insertion -/

/-- Behind the entries of lower or equal rank. -/
def placeList (rank : α → ρ) (x : α) : List α → List α
  | [] => [x]
  | y :: l => if rank x < rank y then x :: y :: l else y :: placeList rank x l

theorem placeList_perm (l : List α) : (placeList rank x l).Perm (x :: l) := by
  induction l with
  | nil => exact .refl _
  | cons y l ih =>
    unfold placeList
    split
    · exact .refl _
    · exact (ih.cons y).trans (.swap x y l)

theorem placeList_ordered {l : List α} (h : l.Pairwise fun a b => rank a ≤ rank b) :
    (placeList rank x l).Pairwise fun a b => rank a ≤ rank b := by
  induction l with
  | nil => exact List.pairwise_singleton _ _
  | cons y l ih =>
    have hy := List.pairwise_cons.mp h
    unfold placeList
    split
    · -- in front of `y`, so in front of everything behind it
      rename_i hlt
      refine List.pairwise_cons.mpr ⟨fun z hz => ?_, h⟩
      rcases List.mem_cons.mp hz with rfl | hz
      · exact hlt.le
      · exact hlt.le.trans (hy.1 z hz)
    · rename_i hle
      refine List.pairwise_cons.mpr ⟨fun z hz => ?_, ih hy.2⟩
      rcases List.mem_cons.mp ((placeList_perm l).subset hz) with rfl | hz
      · exact not_lt.mp hle
      · exact hy.1 z hz

/-- The container with one more entry, whose key is free. -/
def place (x : α) (s : MultiIndex key rank) (hfree : ∀ y ∈ s, key y ≠ key x) :
    MultiIndex key rank where
  entries := placeList rank x s.entries
  ordered := placeList_ordered s.ordered
  unique := by
    refine (placeList_perm s.entries).symm.pairwise ?_ fun h => h.symm
    exact List.pairwise_cons.mpr ⟨fun y hy => (hfree y hy).symm, s.unique⟩

theorem mem_place {hfree : ∀ y ∈ s, key y ≠ key x} : y ∈ s.place x hfree ↔ y = x ∨ y ∈ s := by
  rw [mem_def, place, (placeList_perm s.entries).mem_iff, List.mem_cons]
  rfl

variable [DecidableEq κ]

def find? (s : MultiIndex key rank) (k : κ) : Option α :=
  s.entries.find? fun x => key x = k

theorem mem_of_find? {k : κ} (h : s.find? k = some x) : x ∈ s ∧ key x = k :=
  ⟨List.mem_of_find?_eq_some h, by simpa using List.find?_some h⟩

theorem find?_eq_none {k : κ} : s.find? k = none ↔ ∀ x ∈ s, key x ≠ k := by
  simp [find?, mem_def]

/-- `insert`: an entry whose key is taken is refused. -/
def insert (x : α) (s : MultiIndex key rank) : MultiIndex key rank :=
  if h : ∀ y ∈ s.entries, key y ≠ key x then s.place x h else s

theorem mem_insert : y ∈ s.insert x ↔ y ∈ s ∨ y = x ∧ ∀ z ∈ s, key z ≠ key x := by
  unfold insert
  split
  · rename_i hfree
    rw [mem_place, or_comm]
    exact or_congr_right ⟨fun h => ⟨h, hfree⟩, fun h => h.1⟩
  · rename_i htaken
    exact ⟨.inl, fun h => h.resolve_right fun h => htaken h.2⟩

def erase (k : κ) (s : MultiIndex key rank) : MultiIndex key rank :=
  s.filter fun x => key x ≠ k

theorem mem_erase {k : κ} : y ∈ s.erase k ↔ y ∈ s ∧ key y ≠ k := by
  rw [erase, mem_filter, decide_eq_true_iff]

/-! ## Replacement -/

/-- The list with the entries of `x`'s key replaced by `x`. -/
def putList (key : α → κ) (x : α) (l : List α) : List α :=
  l.map fun y => if key y = key x then x else y

/-- `replace` with an entry of the same key: in its place where the order allows it,
otherwise as if it were new. -/
def replace (x : α) (s : MultiIndex key rank) : MultiIndex key rank :=
  if h : (putList key x s.entries).Pairwise fun a b => rank a ≤ rank b then
    { entries := putList key x s.entries
      ordered := h
      unique := by
        have hkey : ∀ y : α, key (if key y = key x then x else y) = key y := by
          intro y
          split
          · rename_i hy
            exact hy.symm
          · rfl
        refine List.pairwise_map.mpr (s.unique.imp fun {a b} hab => ?_)
        rwa [hkey, hkey] }
  else (s.erase (key x)).place x fun _ hy => (mem_erase.mp hy).2

/-- **What a replacement leaves.** -/
theorem mem_replace (hx : ∃ z ∈ s, key z = key x) :
    y ∈ s.replace x ↔ y = x ∨ y ∈ s ∧ key y ≠ key x := by
  unfold replace
  split
  · show y ∈ putList key x s.entries ↔ _
    rw [putList, List.mem_map]
    constructor
    · rintro ⟨z, hz, rfl⟩
      split
      · exact .inl rfl
      · rename_i hne
        exact .inr ⟨hz, hne⟩
    · rintro (rfl | ⟨hy, hne⟩)
      · obtain ⟨z, hz, hkey⟩ := hx
        exact ⟨z, hz, if_pos hkey⟩
      · exact ⟨y, hy, if_neg hne⟩
  · rw [mem_place, mem_erase]

end MultiIndex
