import Oxyra.Core.TxInputs

/-!
# The adjusted time

The vector of timestamps is sorted by the median before its last element is read, so that the
newest block's timestamp is in fact the largest of the window. `adjusted_time_iff` says when that
makes no difference.
-/

namespace Oxyra

/-- The allowance that is added to the median: half a window, and the block to come. -/
def medianAllowance : Nat := (timestampCheckWindow + 1) * difficultyTargetV2 / 2

theorem getLastD_insertionSort {l : List Nat} (hne : l ≠ []) :
    (l.insertionSort (· ≤ ·)).getLastD 0 ∈ l ∧
      ∀ x ∈ l, x ≤ (l.insertionSort (· ≤ ·)).getLastD 0 := by
  have hperm := List.perm_insertionSort (· ≤ ·) l
  have hsorted := List.pairwise_insertionSort (· ≤ ·) l
  have hne' : l.insertionSort (· ≤ ·) ≠ [] := fun h => hne (by simpa [h] using hperm.symm)
  have hlast : (l.insertionSort (· ≤ ·)).getLastD 0 = (l.insertionSort (· ≤ ·)).getLast hne' := by
    rw [List.getLastD_eq_getLast?, List.getLast?_eq_getLast_of_ne_nil hne']
    rfl
  rw [hlast]
  refine ⟨hperm.subset (List.getLast_mem hne'), fun x hx => ?_⟩
  rw [← List.dropLast_append_getLast hne', List.pairwise_append] at hsorted
  have hx' : x ∈ l.insertionSort (· ≤ ·) := hperm.symm.subset hx
  rw [← List.dropLast_append_getLast hne'] at hx'
  rcases List.mem_append.mp hx' with h | h
  · exact hsorted.2.2 x h _ (List.mem_singleton_self _)
  · exact (List.mem_singleton.mp h).le

/-- **The adjusted time is the documented one** exactly if the newest block of the window has its
largest timestamp, or a timestamp so large that the median decides. -/
theorem adjusted_time_iff (chain : Chain) (height : Nat) :
    (∀ now, getAdjustedTimeAt now chain height =
      some (min (median (timestampsBelow chain height) + medianAllowance)
        ((timestampsBelow chain height).getLastD 0 + difficultyTargetV2))) ↔
    timestampCheckWindow ≤ height ∧ height ≤ chain.length ∧
      ((∀ ts ∈ timestampsBelow chain height, ts ≤ (timestampsBelow chain height).getLastD 0) ∨
        median (timestampsBelow chain height) + medianAllowance ≤
          (timestampsBelow chain height).getLastD 0 + difficultyTargetV2) := by
  by_cases hlow : height < timestampCheckWindow
  · -- the clock is returned, whatever it shows
    refine ⟨fun h => ?_, fun h => absurd h.1 (by omega)⟩
    have h0 := h 0
    have h1 := h 1
    simp only [getAdjustedTimeAt, if_pos hlow] at h0 h1
    rw [← h1] at h0
    simp at h0
  · by_cases hhigh : height > chain.length
    · refine ⟨fun h => ?_, fun h => absurd h.2.1 (by omega)⟩
      have h0 := h 0
      simp only [getAdjustedTimeAt, if_neg hlow, if_pos hhigh] at h0
      simp at h0
    · have hlen : (timestampsBelow chain height).length = timestampCheckWindow := by
        simp only [timestampsBelow, List.length_map, List.length_drop, List.length_take]
        omega
      have hne : timestampsBelow chain height ≠ [] := fun h => by
        rw [h] at hlen
        simp [timestampCheckWindow] at hlen
      obtain ⟨hmem, hmax⟩ := getLastD_insertionSort hne
      have hlast : (timestampsBelow chain height).getLastD 0 ∈ timestampsBelow chain height := by
        rw [List.getLastD_eq_getLast?, List.getLast?_eq_getLast_of_ne_nil hne]
        exact List.getLast_mem hne
      have hle := hmax _ hlast
      simp only [getAdjustedTimeAt, if_neg hlow, if_neg hhigh, Option.some.injEq, forall_const]
      rw [show (timestampCheckWindow + 1) * difficultyTargetV2 / 2 = medianAllowance from rfl]
      generalize (timestampsBelow chain height).getLastD 0 = newest at *
      generalize ((timestampsBelow chain height).insertionSort (· ≤ ·)).getLastD 0 = largest at *
      generalize median (timestampsBelow chain height) + medianAllowance = projected at *
      constructor
      · intro heq
        refine ⟨by omega, by omega, ?_⟩
        by_cases hsmall : projected ≤ newest + difficultyTargetV2
        · exact .inr hsmall
        · refine .inl fun ts hts => ?_
          have hts' := hmax ts hts
          split at heq <;> omega
      · rintro ⟨-, -, h | h⟩
        · have := h largest hmem
          split <;> omega
        · split <;> omega

def blockAt (timestamp : Nat) : StoredBlock :=
  { bl := { timestamp := timestamp } }

/-- A chain in which the second-newest block of the window is ahead of its time. -/
def aheadChain : Chain :=
  List.replicate 58 (blockAt 1000) ++ [blockAt 5000, blockAt 1000]

/-- The newest block is of time 1000, but the adjusted time is 4660. -/
theorem adjusted_time_reads_largest :
    getAdjustedTimeAt 0 aheadChain 60 = some 4660 ∧
      min (median (timestampsBelow aheadChain 60) + medianAllowance)
        ((timestampsBelow aheadChain 60).getLastD 0 + difficultyTargetV2) = 1120 := by
  decide +kernel

end Oxyra
