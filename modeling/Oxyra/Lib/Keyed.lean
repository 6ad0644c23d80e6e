import Mathlib

/-!
# Tables as keyed lists

A table is a list whose entries carry their key. Lookup finds the first entry
with the key, erasure drops every one, update rewrites in place. The lemmas say
what a lookup returns after each operation; nothing assumes unique keys unless
it says so. The last section has two facts about plain association lists.
-/

namespace Keyed

variable {α κ : Type} [DecidableEq κ] (key : α → κ)

def find? (l : List α) (k : κ) : Option α :=
  l.find? fun a => key a = k

def erase (l : List α) (k : κ) : List α :=
  l.filter fun a => key a ≠ k

def update (l : List α) (k : κ) (f : α → α) : List α :=
  l.map fun a => if key a = k then f a else a

variable {key} {l : List α} {k k' : κ} {a : α}

@[simp] theorem find?_nil : find? key [] k = none := rfl

theorem key_of_find? (h : find? key l k = some a) : key a = k := by
  simpa using List.find?_some h

theorem mem_of_find? (h : find? key l k = some a) : a ∈ l :=
  List.mem_of_find?_eq_some h

theorem find?_eq_none_iff : find? key l k = none ↔ ∀ a ∈ l, key a ≠ k := by
  simp [find?]

theorem find?_isSome_iff : (find? key l k).isSome ↔ ∃ a ∈ l, key a = k := by
  simp [find?]

theorem find?_cons : find? key (a :: l) k = if key a = k then some a else find? key l k := by
  by_cases h : key a = k <;> simp [find?, h]

theorem erase_cons :
    erase key (a :: l) k = if key a = k then erase key l k else a :: erase key l k := by
  by_cases h : key a = k <;> simp [erase, h]

@[simp] theorem find?_erase_self : find? key (erase key l k) k = none := by
  rw [find?_eq_none_iff]
  intro a ha
  simpa using (List.mem_filter.mp ha).2

theorem find?_erase_ne (h : k' ≠ k) : find? key (erase key l k) k' = find? key l k' := by
  induction l with
  | nil => rfl
  | cons b l ih =>
    rw [erase_cons, find?_cons]
    by_cases hb : key b = k
    · -- the dropped entry is not the one looked for
      have hb' : key b ≠ k' := fun h' => h (h'.symm.trans hb)
      rw [if_pos hb, if_neg hb', ih]
    · rw [if_neg hb, find?_cons, ih]

theorem find?_append (l' : List α) :
    find? key (l ++ l') k = (find? key l k).or (find? key l' k) := by
  simp [find?]

theorem find?_map_of_mem {f : α → α} (hf : ∀ a ∈ l, key (f a) = key a) :
    find? key (l.map f) k = (find? key l k).map f := by
  induction l with
  | nil => rfl
  | cons b l ih =>
    rw [List.map_cons, find?_cons, find?_cons, ih fun a ha => hf a (List.mem_cons_of_mem _ ha),
      hf b List.mem_cons_self]
    split <;> rfl

theorem find?_map {f : α → α} (hf : ∀ a, key (f a) = key a) :
    find? key (l.map f) k = (find? key l k).map f :=
  find?_map_of_mem fun a _ => hf a

theorem find?_update_self {f : α → α} (hf : ∀ a, key (f a) = key a) :
    find? key (update key l k f) k = (find? key l k).map f := by
  rw [update, find?_map fun a => by split <;> simp [hf]]
  cases h : find? key l k with
  | none => rfl
  | some a => simp [key_of_find? h]

theorem find?_update_ne {f : α → α} (hf : ∀ a, key (f a) = key a) (h : k' ≠ k) :
    find? key (update key l k f) k' = find? key l k' := by
  rw [update, find?_map fun a => by split <;> simp [hf]]
  cases hf' : find? key l k' with
  | none => rfl
  | some a => simp [key_of_find? hf', h]

theorem erase_eq_self (h : find? key l k = none) : erase key l k = l := by
  rw [find?_eq_none_iff] at h
  exact List.filter_eq_self.mpr fun a ha => by simpa using h a ha

theorem find?_of_mem (hnd : (l.map key).Nodup) (ha : a ∈ l) : find? key l (key a) = some a := by
  induction l with
  | nil => exact absurd ha (by simp)
  | cons b l ih =>
    rw [List.map_cons, List.nodup_cons] at hnd
    rw [find?_cons]
    rcases List.mem_cons.mp ha with rfl | hal
    · rw [if_pos rfl]
    · have hne : key b ≠ key a := fun h => hnd.1 (h ▸ List.mem_map_of_mem hal)
      rw [if_neg hne, ih hnd.2 hal]

theorem mem_erase_iff : a ∈ erase key l k ↔ a ∈ l ∧ key a ≠ k := by
  simp [erase]

theorem sum_map_erase {f : α → Nat} (hnd : (l.map key).Nodup) (h : find? key l k = some a) :
    (l.map f).sum = f a + ((erase key l k).map f).sum := by
  induction l with
  | nil => cases h
  | cons b l ih =>
    rw [List.map_cons, List.nodup_cons] at hnd
    rw [find?_cons] at h
    by_cases hb : key b = k
    · rw [if_pos hb] at h
      cases h
      have habs : find? key l k = none := find?_eq_none_iff.mpr fun c hc heq =>
        hnd.1 (List.mem_map.mpr ⟨c, hc, heq.trans hb.symm⟩)
      rw [erase_cons, if_pos hb, erase_eq_self habs, List.map_cons, List.sum_cons]
    · rw [if_neg hb] at h
      rw [erase_cons, if_neg hb, List.map_cons, List.map_cons, List.sum_cons, List.sum_cons,
        ih hnd.2 h, Nat.add_left_comm]

variable {β : Type} {r : List (κ × β)} {b : β}

theorem mem_of_lookup (h : r.lookup k = some b) : (k, b) ∈ r := by
  obtain ⟨l₁, l₂, rfl, _⟩ := List.lookup_eq_some_iff.mp h
  simp

theorem lookup_filter_ne (h : k ≠ k') :
    (r.filter fun p => p.1 ≠ k').lookup k = r.lookup k := by
  induction r with
  | nil => rfl
  | cons p r ih =>
    obtain ⟨c, d⟩ := p
    by_cases hc : c = k'
    · subst hc
      rw [List.filter_cons_of_neg (by simp), ih, List.lookup_cons, beq_eq_false_iff_ne.mpr h]
    · rw [List.filter_cons_of_pos (by simpa using hc), List.lookup_cons, List.lookup_cons, ih]

theorem lookup_of_filter_ne (h : (r.filter fun p => p.1 ≠ k').lookup k = some b) :
    r.lookup k = some b := by
  have hne : k ≠ k' := by simpa using (List.mem_filter.mp (mem_of_lookup h)).2
  rwa [lookup_filter_ne hne] at h

end Keyed
