import Oxyra.Lib.Keyed

/-!
# Truncating a list and its index

A list in the order of a rank is cut where the rank reaches a bound, and a map from
keys to positions in the list is cut along with it, one entry at a time.

* On an ordered list the cut keeps exactly the entries below the bound, whether it
  is found from the front (`take_findIdx_of_ordered`) or from the back
  (`rdropWhile_of_ordered`).
* `IndexOn key l P m`: the map `m` sends the keys of the entries at the positions in
  `P` to these positions, and holds nothing else. Entries may have no key.
-/

namespace Truncate

section Cut

variable {α ρ : Type} [LinearOrder ρ] (rank : α → ρ) (bound : ρ) {l : List α}

theorem take_findIdx_of_ordered (h : l.Pairwise fun a b => rank a ≤ rank b) :
    l.take (l.findIdx fun a => bound ≤ rank a) = l.filter fun a => rank a < bound := by
  induction l with
  | nil => rfl
  | cons a l ih =>
    obtain ⟨hfirst, hrest⟩ := List.pairwise_cons.mp h
    rw [List.findIdx_cons]
    by_cases ha : bound ≤ rank a
    · -- everything behind `a` ranks at least as high
      have hnone : (a :: l).filter (fun a => rank a < bound) = [] := by
        refine List.filter_eq_nil_iff.mpr fun b hb => ?_
        rcases List.mem_cons.mp hb with rfl | hb
        · simpa using ha
        · simpa using ha.trans (hfirst b hb)
      rw [hnone]
      simp [ha]
    · rw [List.filter_cons_of_pos (by simpa using ha), ← ih hrest]
      simp [ha]

theorem rdropWhile_of_ordered (h : l.Pairwise fun a b => rank a ≤ rank b) :
    l.rdropWhile (fun a => bound ≤ rank a) = l.filter fun a => rank a < bound := by
  induction l using List.reverseRecOn with
  | nil => rfl
  | append_singleton l a ih =>
    obtain ⟨hinit, -, hlast⟩ := List.pairwise_append.mp h
    by_cases ha : bound ≤ rank a
    · rw [List.rdropWhile_concat_pos _ _ _ (by simpa using ha), ih hinit, List.filter_append]
      simp [ha]
    · -- the entries in front rank no higher than `a`
      have hall : (l ++ [a]).filter (fun a => rank a < bound) = l ++ [a] := by
        refine List.filter_eq_self.mpr fun b hb => ?_
        rcases List.mem_append.mp hb with hb | hb
        · simpa using (hlast b hb a (by simp)).trans_lt (not_le.mp ha)
        · rw [List.mem_singleton.mp hb]
          simpa using ha
      rw [List.rdropWhile_concat_neg _ _ _ (by simpa using ha), hall]

end Cut

section Index

variable {α β κ : Type} [DecidableEq κ] {key : α → Option κ} {l : List α} {P Q : Nat → Prop}
  {m : List (κ × Nat)} {k : κ} {i : Nat} {a : α}

/-- The map of the keys at the positions in `P`. -/
def IndexOn (key : α → Option κ) (l : List α) (P : Nat → Prop) (m : List (κ × Nat)) : Prop :=
  ∀ k i, m.lookup k = some i ↔ P i ∧ ∃ a, l[i]? = some a ∧ key a = some k

/-- The map of all keys of a list. -/
def IsIndex (key : α → Option κ) (l : List α) (m : List (κ × Nat)) : Prop :=
  IndexOn key l (fun _ => True) m

theorem IndexOn.congr (h : IndexOn key l P m) (hpq : ∀ i < l.length, P i ↔ Q i) :
    IndexOn key l Q m := by
  intro k i
  rw [h k i]
  constructor
  · rintro ⟨hp, a, ha, hk⟩
    exact ⟨(hpq i (List.getElem?_eq_some_iff.mp ha).1).mp hp, a, ha, hk⟩
  · rintro ⟨hq, a, ha, hk⟩
    exact ⟨(hpq i (List.getElem?_eq_some_iff.mp ha).1).mpr hq, a, ha, hk⟩

theorem IndexOn.map {f : α → α} (hf : ∀ a, key (f a) = key a) (h : IndexOn key l P m) :
    IndexOn key (l.map f) P m := by
  intro k i
  rw [h k i, List.getElem?_map]
  refine and_congr_right fun _ => ⟨?_, ?_⟩
  · rintro ⟨a, ha, hk⟩
    exact ⟨f a, by rw [ha]; rfl, (hf a).trans hk⟩
  · rintro ⟨b, hb, hk⟩
    obtain ⟨a, ha, rfl⟩ := Option.map_eq_some_iff.mp hb
    exact ⟨a, ha, (hf a).symm.trans hk⟩

theorem IndexOn.take {n : Nat} (h : IndexOn key l (· < n) m) : IsIndex key (l.take n) m := by
  intro k i
  rw [h k i, true_and]
  constructor
  · rintro ⟨hi, a, ha, hk⟩
    exact ⟨a, by rw [List.getElem?_take_of_lt hi, ha], hk⟩
  · rintro ⟨a, ha, hk⟩
    obtain ⟨hi, -⟩ := List.getElem?_eq_some_iff.mp ha
    have hi : i < n := lt_of_lt_of_le hi (by simp)
    exact ⟨hi, a, by rwa [List.getElem?_take_of_lt hi] at ha, hk⟩

/-- **Erasing the key of one position.** No other position has the key, since the map
holds it once. -/
theorem IndexOn.erase (h : IndexOn key l P m) (hi : P i) (ha : l[i]? = some a)
    (hk : key a = some k) :
    IndexOn key l (fun j => P j ∧ j ≠ i) (m.filter fun e => e.1 ≠ k) := by
  have hat : m.lookup k = some i := (h k i).mpr ⟨hi, a, ha, hk⟩
  intro k' j
  by_cases hkk : k' = k
  · subst hkk
    have hgone : (m.filter fun e => e.1 ≠ k').lookup k' = none := by
      refine List.lookup_eq_none_iff.mpr fun e he => ?_
      have hne : e.1 ≠ k' := by simpa using (List.mem_filter.mp he).2
      exact bne_iff_ne.mpr hne.symm
    rw [hgone]
    constructor
    · simp
    · rintro ⟨⟨hj, hne⟩, b, hb, hk'⟩
      have hat' := (h k' j).mpr ⟨hj, b, hb, hk'⟩
      rw [hat] at hat'
      exact absurd (Option.some.inj hat').symm hne
  · have hsame : (m.filter fun e => e.1 ≠ k).lookup k' = m.lookup k' :=
      Keyed.lookup_filter_ne hkk
    rw [hsame, h k' j]
    constructor
    · rintro ⟨hj, b, hb, hk'⟩
      refine ⟨⟨hj, ?_⟩, b, hb, hk'⟩
      rintro rfl
      rw [ha] at hb
      cases hb
      exact hkk (Option.some.inj (hk'.symm.trans hk))
    · rintro ⟨⟨hj, -⟩, hb⟩
      exact ⟨hj, hb⟩

theorem IndexOn.skip (h : IndexOn key l P m) (ha : l[i]? = some a) (hk : key a = none) :
    IndexOn key l (fun j => P j ∧ j ≠ i) m := by
  intro k j
  rw [h k j]
  constructor
  · rintro ⟨hj, b, hb, hkb⟩
    refine ⟨⟨hj, ?_⟩, b, hb, hkb⟩
    rintro rfl
    rw [ha] at hb
    cases hb
    simp [hk] at hkb
  · rintro ⟨⟨hj, -⟩, hb⟩
    exact ⟨hj, hb⟩

end Index

end Truncate
