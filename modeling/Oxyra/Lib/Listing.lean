import Mathlib

/-!
# Names that name the members of a set

`Names l S`: the list names the members of the set, each once. Two lists that name the same set
differ only in order (`Names.perm`); dropping a key and adding one are operations on the set.
-/

variable {κ : Type} [DecidableEq κ]

/-- The list names the members of the set, each once. -/
structure Names (l : List κ) (S : Set κ) : Prop where
  nodup : l.Nodup
  mem : ∀ k, k ∈ l ↔ k ∈ S

namespace Names

variable {l l' : List κ} {S : Set κ} {k : κ}

omit [DecidableEq κ] in
theorem nil : Names ([] : List κ) ∅ := ⟨.nil, by simp⟩

omit [DecidableEq κ] in
theorem perm (h : Names l S) (h' : Names l' S) : l.Perm l' :=
  (List.perm_ext_iff_of_nodup h.nodup h'.nodup).mpr fun k => (h.mem k).trans (h'.mem k).symm

omit [DecidableEq κ] in
theorem of_perm (h : Names l S) (hp : l'.Perm l) : Names l' S :=
  ⟨hp.nodup_iff.mpr h.nodup, fun k => hp.mem_iff.trans (h.mem k)⟩

theorem drop (h : Names l S) (k : κ) : Names (l.filter (· ≠ k)) (S \ {k}) :=
  ⟨h.nodup.filter _, fun x => by simp [h.mem]⟩

omit [DecidableEq κ] in
theorem cons (h : Names l S) (hk : k ∉ S) : Names (k :: l) (insert k S) :=
  ⟨List.nodup_cons.mpr ⟨fun hin => hk ((h.mem k).mp hin), h.nodup⟩, fun x => by simp [h.mem]⟩

omit [DecidableEq κ] in
theorem of_mem (h : Names l S) (hk : k ∈ S) : Names l (insert k S) := by
  rwa [Set.insert_eq_of_mem hk]

theorem renew (h : Names l S) (k : κ) : Names (k :: l.filter (· ≠ k)) (insert k S) := by
  have hadd := (h.drop k).cons (k := k) (by simp)
  rwa [Set.insert_sdiff_singleton] at hadd

end Names
