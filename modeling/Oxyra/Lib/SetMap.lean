import Oxyra.Lib.Keyed

/-!
# Maps to sets

A map from keys to finite sets, as an association list of lists without repetition in
which no set is empty. `get` reads the set of a key, `put` replaces it and drops the
key when the set is empty.
-/

namespace SetMap

variable {κ ι : Type} [DecidableEq κ]

def get (m : List (κ × List ι)) (k : κ) : List ι :=
  (m.lookup k).getD []

def put (m : List (κ × List ι)) (k : κ) (ids : List ι) : List (κ × List ι) :=
  let rest := m.filter fun r => r.1 ≠ k
  if ids = [] then rest else (k, ids) :: rest

variable {m : List (κ × List ι)} {k k' : κ} {ids : List ι}

theorem get_put : get (put m k ids) k' = if k' = k then ids else get m k' := by
  have hrest : (m.filter fun r => r.1 ≠ k).lookup k = none := by
    rw [List.lookup_eq_none_iff]
    intro r hr
    have hne : r.1 ≠ k := by simpa using (List.mem_filter.mp hr).2
    exact bne_iff_ne.mpr hne.symm
  unfold get put
  by_cases hk : k' = k
  · subst hk
    rw [if_pos rfl]
    split
    · rename_i hids
      rw [hrest, hids]
      rfl
    · rw [List.lookup_cons_self]
      rfl
  · rw [if_neg hk]
    split
    · rw [Keyed.lookup_filter_ne hk]
    · rw [List.lookup_cons, beq_eq_false_iff_ne.mpr hk, Keyed.lookup_filter_ne hk]

/-- No set is empty and none lists an element twice. -/
structure Proper (m : List (κ × List ι)) : Prop where
  nonempty : ∀ r ∈ m, r.2 ≠ []
  nodup : ∀ k, (get m k).Nodup

theorem Proper.put (h : Proper m) (hids : ids.Nodup) : Proper (put m k ids) := by
  have hrest : ∀ r ∈ m.filter fun r => r.1 ≠ k, r.2 ≠ [] := fun r hr =>
    h.nonempty r (List.mem_filter.mp hr).1
  refine ⟨?_, fun k' => ?_⟩
  · unfold SetMap.put
    split
    · exact hrest
    · rename_i hne
      exact List.forall_mem_cons.mpr ⟨hne, hrest⟩
  · rw [get_put]
    split
    · exact hids
    · exact h.nodup k'

theorem proper_nil : Proper ([] : List (κ × List ι)) :=
  ⟨fun _ hr => absurd hr (by simp), fun _ => List.nodup_nil⟩

end SetMap
