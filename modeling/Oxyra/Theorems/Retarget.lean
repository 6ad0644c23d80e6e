import Oxyra.Theorems.Pow

/-!
# The retarget rule

* `exactQuotient` is the rule without widths: the work of the cut window times the target, divided
  by its time and rounded up.
* `next_difficulty` is that quotient, at least 1, or 0 where the quotient does not fit in 128 bits.
* The timestamps are sorted first, so that their order does not matter.
* `next_difficulty_64` computes the same quotient whenever it does not refuse.
-/

namespace Oxyra.Words

open Oxyra (nextDifficulty difficultyOfWork difficultyModulus)

variable {ts cds : List Nat} {target : Nat}

/-- The time between the ends of the cut window, at least 1. -/
def timeSpan (ts : List Nat) : Nat :=
  max 1 ((ts.insertionSort (· ≤ ·)).getD (cutEnd ts.length - 1) 0
    - (ts.insertionSort (· ≤ ·)).getD (cutBegin ts.length) 0)

def totalWork (cds : List Nat) : Nat :=
  cds.getD (cutEnd cds.length - 1) 0 - cds.getD (cutBegin cds.length) 0

def exactQuotient (ts cds : List Nat) (target : Nat) : Nat :=
  if ts.length ≤ 1 then 1 else (totalWork cds * target) ⌈/⌉ timeSpan ts

theorem cut_bounds {n : Nat} (h1 : 1 < n) (hwin : n ≤ difficultyWindow) :
    cutBegin n < cutEnd n - 1 ∧ cutEnd n - 1 < n := by
  unfold cutEnd cutBegin
  by_cases h : n ≤ difficultyWindow - 2 * difficultyCut
  · simp only [if_pos h]
    omega
  · simp only [if_neg h]
    unfold difficultyWindow difficultyCut at *
    omega

theorem timeSpan_perm {us : List Nat} (h : ts.Perm us) : timeSpan ts = timeSpan us := by
  have hsorted : ts.insertionSort (· ≤ ·) = us.insertionSort (· ≤ ·) :=
    List.Perm.eq_of_pairwise' (List.pairwise_insertionSort _ ts)
      (List.pairwise_insertionSort _ us)
      ((List.perm_insertionSort _ ts).trans (h.trans (List.perm_insertionSort _ us).symm))
  rw [timeSpan, timeSpan, hsorted, h.length_eq]

theorem getD_lt_getD (hinc : cds.Pairwise (· < ·)) {i j : Nat} (hij : i < j)
    (hj : j < cds.length) : cds.getD i 0 < cds.getD j 0 := by
  rw [List.getD_eq_getElem _ _ (by omega), List.getD_eq_getElem _ _ hj]
  exact List.pairwise_iff_getElem.mp hinc i j (by omega) hj hij

theorem totalWork_pos (hinc : cds.Pairwise (· < ·)) (h1 : 1 < cds.length)
    (hwin : cds.length ≤ difficultyWindow) : 0 < totalWork cds := by
  obtain ⟨hlt, hend⟩ := cut_bounds h1 hwin
  have := getD_lt_getD hinc hlt hend
  rw [totalWork]
  omega

theorem nextDifficulty_eq (hlen : ts.length = cds.length) (hwin : ts.length ≤ difficultyWindow)
    (hinc : cds.Pairwise (· < ·)) (hcds : ∀ c ∈ cds, c < 2 ^ 128) :
    nextDifficulty ts cds target =
      if exactQuotient ts cds target > 2 ^ 128 - 1 then 0 else exactQuotient ts cds target := by
  unfold nextDifficulty exactQuotient
  rw [List.take_of_length_le hwin, List.take_of_length_le (hlen ▸ hwin)]
  dsimp only
  by_cases h1 : ts.length ≤ 1
  · rw [if_pos h1, if_pos h1]
    norm_num
  · rw [if_neg h1, if_neg h1]
    show difficultyOfWork ((cds.getD (cutEnd ts.length - 1) 0 + difficultyModulus
      - cds.getD (cutBegin ts.length) 0) % difficultyModulus) target (timeSpan ts) = _
    have hpos := totalWork_pos hinc (by omega) (hlen ▸ hwin)
    have hend : cds.getD (cutEnd cds.length - 1) 0 < 2 ^ 128 := by
      have hlt := (cut_bounds (by omega : 1 < cds.length) (hlen ▸ hwin)).2
      rw [List.getD_eq_getElem _ _ hlt]
      exact hcds _ (List.getElem_mem hlt)
    have hwork : (cds.getD (cutEnd ts.length - 1) 0 + difficultyModulus
        - cds.getD (cutBegin ts.length) 0) % difficultyModulus = totalWork cds := by
      rw [hlen]
      unfold totalWork difficultyModulus at *
      omega
    rw [hwork, Nat.ceilDiv_eq_add_pred_div]
    unfold difficultyOfWork difficultyModulus
    dsimp only
    split <;> split <;> omega

theorem one_le_exactQuotient (hlen : ts.length = cds.length) (hwin : ts.length ≤ difficultyWindow)
    (hinc : cds.Pairwise (· < ·)) (htarget : 0 < target) : 1 ≤ exactQuotient ts cds target := by
  unfold exactQuotient
  split
  · exact Nat.le_refl 1
  · have hpos := totalWork_pos hinc (by omega) (hlen ▸ hwin)
    have hspan : 0 < timeSpan ts := Nat.lt_of_lt_of_le Nat.one_pos (Nat.le_max_left ..)
    have hprod : 0 < totalWork cds * target := Nat.mul_pos hpos htarget
    rw [Nat.ceilDiv_eq_add_pred_div, Nat.le_div_iff_mul_le hspan]
    omega

section Narrow

variable {ts64 cds64 : List UInt64} {target64 : UInt64}

theorem toNat_timeSpan (h1 : 1 < ts64.length) (hwin : ts64.length ≤ difficultyWindow) :
    let span := (ts64.insertionSort (· ≤ ·)).getD (cutEnd ts64.length - 1) 0
      - (ts64.insertionSort (· ≤ ·)).getD (cutBegin ts64.length) 0
    (if span = 0 then 1 else span).toNat = timeSpan (ts64.map UInt64.toNat) := by
  intro span
  obtain ⟨hlt, hend⟩ := cut_bounds h1 hwin
  have hsorted := List.pairwise_insertionSort (· ≤ ·) (ts64.map UInt64.toNat)
  have hlen : ((ts64.map UInt64.toNat).insertionSort (· ≤ ·)).length = ts64.length := by
    rw [List.length_insertionSort, List.length_map]
  have hle : ((ts64.map UInt64.toNat).insertionSort (· ≤ ·)).getD (cutBegin ts64.length) 0 ≤
      ((ts64.map UInt64.toNat).insertionSort (· ≤ ·)).getD (cutEnd ts64.length - 1) 0 := by
    rw [List.getD_eq_getElem _ _ (by omega), List.getD_eq_getElem _ _ (by omega)]
    exact List.pairwise_iff_getElem.mp hsorted _ _ (by omega) (by omega) hlt
  have hspan : span.toNat =
      ((ts64.map UInt64.toNat).insertionSort (· ≤ ·)).getD (cutEnd ts64.length - 1) 0
        - ((ts64.map UInt64.toNat).insertionSort (· ≤ ·)).getD (cutBegin ts64.length) 0 := by
    rw [← map_toNat_sorted, ← toNat_getD, ← toNat_getD] at hle ⊢
    exact UInt64.toNat_sub_of_le _ _ (UInt64.le_iff_toNat_le.mpr hle)
  rw [timeSpan, List.length_map, ← hspan]
  split
  · rename_i hzero
    rw [hzero]
    rfl
  · rename_i hne
    have hpos : span.toNat ≠ 0 := fun h => hne (UInt64.toNat_inj.mp h)
    omega

theorem toNat_totalWork (hinc : (cds64.map UInt64.toNat).Pairwise (· < ·)) (h1 : 1 < cds64.length)
    (hwin : cds64.length ≤ difficultyWindow) :
    (cds64.getD (cutEnd cds64.length - 1) 0 - cds64.getD (cutBegin cds64.length) 0).toNat =
      totalWork (cds64.map UInt64.toNat) := by
  obtain ⟨hlt, hend⟩ := cut_bounds h1 hwin
  have hle := getD_lt_getD hinc hlt (by simpa using hend)
  rw [totalWork, List.length_map, ← toNat_getD, ← toNat_getD]
  rw [← toNat_getD, ← toNat_getD] at hle
  exact UInt64.toNat_sub_of_le _ _ (UInt64.le_iff_toNat_le.mpr hle.le)

theorem toNat_add_sub_one {low span : UInt64} (hpos : 1 ≤ span.toNat)
    (hwrap : ¬low + span - 1 < low) : (low + span - 1).toNat = low.toNat + span.toNat - 1 := by
  have hl := low.toNat_lt
  have hs := span.toNat_lt
  have hone : (1 : UInt64).toNat = 1 := rfl
  rw [UInt64.lt_iff_toNat_lt, UInt64.toNat_sub, UInt64.toNat_add, hone] at hwrap
  rw [UInt64.toNat_sub, UInt64.toNat_add, hone]
  omega

/-- **The 64-bit rule**: the exact quotient, or 0. -/
theorem toNat_nextDifficulty64 (p : Platform) (hlen : ts64.length = cds64.length)
    (hwin : ts64.length ≤ difficultyWindow) (hinc : (cds64.map UInt64.toNat).Pairwise (· < ·))
    (hne : nextDifficulty64 p ts64 cds64 target64 ≠ 0) :
    (nextDifficulty64 p ts64 cds64 target64).toNat =
      exactQuotient (ts64.map UInt64.toNat) (cds64.map UInt64.toNat) target64.toNat := by
  unfold nextDifficulty64 at hne ⊢
  unfold exactQuotient
  rw [List.take_of_length_le hwin, List.take_of_length_le (hlen ▸ hwin)] at hne ⊢
  rw [List.length_map]
  dsimp only at hne ⊢
  by_cases h1 : ts64.length ≤ 1
  · rw [if_pos h1, if_pos h1]
    rfl
  · rw [if_neg h1] at hne ⊢
    rw [if_neg h1]
    have hspan := toNat_timeSpan (by omega : 1 < ts64.length) hwin
    have hwork := toNat_totalWork hinc (by omega) (hlen ▸ hwin)
    dsimp only at hspan
    rw [hlen] at hspan hne ⊢
    generalize (if (ts64.insertionSort (· ≤ ·)).getD (cutEnd cds64.length - 1) 0
      - (ts64.insertionSort (· ≤ ·)).getD (cutBegin cds64.length) 0 = 0 then 1
      else (ts64.insertionSort (· ≤ ·)).getD (cutEnd cds64.length - 1) 0
        - (ts64.insertionSort (· ≤ ·)).getD (cutBegin cds64.length) 0) = span at *
    generalize cds64.getD (cutEnd cds64.length - 1) 0 - cds64.getD (cutBegin cds64.length) 0 =
      work at *
    obtain ⟨hlow, hhigh⟩ := mul_spec p work target64
    split at hne
    · exact absurd rfl hne
    · rename_i hfit
      rw [if_neg hfit]
      rw [Bool.or_eq_true, not_or, decide_eq_true_eq, decide_eq_true_eq, not_not] at hfit
      obtain ⟨hzero, hwrap⟩ := hfit
      -- one word holds the product
      have hprod : (mul p work target64).1.toNat = work.toNat * target64.toNat := by
        rw [hzero] at hhigh
        have hdiv : work.toNat * target64.toNat / 2 ^ 64 = 0 := hhigh.symm
        rw [hlow]
        omega
      have hpos : 1 ≤ span.toNat := hspan ▸ Nat.le_max_left ..
      have hsum := toNat_add_sub_one hpos hwrap
      rw [UInt64.toNat_div, hsum, hprod, hspan, hwork, Nat.ceilDiv_eq_add_pred_div]

end Narrow

/-- **The retarget rule.** For equally long lists of up to a window of timestamps and of strictly
increasing cumulative difficulties, and a positive target: the next difficulty is at least 1, and 0
only where the exact quotient does not fit in 128 bits; permuting the timestamps changes nothing;
and where every value fits in 64 bits, the 64-bit rule agrees unless it returns 0. -/
theorem retarget_exact (p : Platform) (ts cds : List Nat) (target : Nat)
    (hlen : ts.length = cds.length) (hwin : ts.length ≤ difficultyWindow)
    (hcds : ∀ c ∈ cds, c < 2 ^ 128) (hinc : cds.Pairwise (· < ·)) (htarget : 0 < target) :
    (exactQuotient ts cds target ≤ 2 ^ 128 - 1 → 1 ≤ nextDifficulty ts cds target) ∧
    (exactQuotient ts cds target > 2 ^ 128 - 1 → nextDifficulty ts cds target = 0) ∧
    (∀ us, ts.Perm us → nextDifficulty us cds target = nextDifficulty ts cds target) ∧
    ∀ (ts64 cds64 : List UInt64) (target64 : UInt64), ts64.map UInt64.toNat = ts →
      cds64.map UInt64.toNat = cds → target64.toNat = target →
      nextDifficulty64 p ts64 cds64 target64 ≠ 0 →
      (nextDifficulty64 p ts64 cds64 target64).toNat = nextDifficulty ts cds target := by
  have heq : ∀ us : List Nat, ts.Perm us → nextDifficulty us cds target =
      if exactQuotient ts cds target > 2 ^ 128 - 1 then 0 else exactQuotient ts cds target := by
    intro us hus
    rw [nextDifficulty_eq (hus.length_eq ▸ hlen) (hus.length_eq ▸ hwin) hinc hcds]
    unfold exactQuotient
    rw [hus.length_eq, timeSpan_perm hus]
  have hself := heq ts (List.Perm.refl _)
  have hone := @one_le_exactQuotient ts cds target hlen hwin hinc htarget
  refine ⟨fun h => ?_, fun h => ?_, fun us hus => ?_, ?_⟩
  · rw [hself, if_neg (by omega)]
    exact hone
  · rw [hself, if_pos h]
  · rw [heq us hus, hself]
  · rintro ts64 cds64 target64 rfl rfl rfl hne
    have hnarrow := toNat_nextDifficulty64 p (by simpa using hlen) (by simpa using hwin) hinc hne
    have hlt := (nextDifficulty64 p ts64 cds64 target64).toNat_lt
    rw [hself, if_neg (by omega), hnarrow]

/-- Three blocks a minute apart with a work of 6 each. -/
theorem retarget_exact_three :
    nextDifficulty [0, 120, 60] [6, 12, 18] 120 = 12 ∧
      (nextDifficulty64 .other [0, 120, 60] [6, 12, 18] 120).toNat =
        nextDifficulty [0, 120, 60] [6, 12, 18] 120 :=
  ⟨by decide +kernel,
    (retarget_exact .other [0, 120, 60] [6, 12, 18] 120 rfl (by decide) (by decide +kernel)
      (by decide) (by decide)).2.2.2 [0, 120, 60] [6, 12, 18] 120 rfl rfl rfl
      (by decide +kernel)⟩

end Oxyra.Words
