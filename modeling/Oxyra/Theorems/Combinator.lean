import Oxyra.Lib.Choices
import Oxyra.Core.Combinator

/-!
# The combinations of a vector

A call adds the combinations that begin with the positions chosen so far and go on behind
`start`. The loop of the count is at a binomial coefficient after each turn.
-/

namespace Oxyra.Combinator

open Choices

variable {α : Type}

/-! ## The combinations -/

def positions (n start : Nat) : List Nat := List.range' start (n - start)

theorem positions_of_lt {n start : Nat} (h : start < n) :
    positions n start = start :: positions n (start + 1) := by
  rw [positions, positions, show n - start = (n - (start + 1)) + 1 by omega, List.range'_succ]

/-- The object with combinations added, each of which begins with `chosen`. -/
def adding (c : Combinator α) (chosen : List Nat) (more : List (List Nat)) : Combinator α :=
  { c with combinations := c.combinations ++ more.map fun t => elementsAt c.origin (chosen ++ t) }

section Loop

variable {c : Combinator α} {chosen : List Nat}

@[simp] theorem adding_nil : c.adding chosen [] = c := by simp [adding]

/-- The loop adds what is added at each position. The position it was at last is still
behind those chosen. -/
theorem foldl_visit {origin : List α} {k : Nat} {visit : Nat → Combinator α → Combinator α}
    (hvisit : ∀ i c, c.origin = origin → c.current = chosen ++ [i] →
      visit i c = c.adding (chosen ++ [i]) (choices (positions origin.length (i + 1)) k))
    (hk : k + 1 ≤ origin.length) (x start : Nat) (horigin : c.origin = origin)
    (hcurrent : c.current = chosen ++ [x]) :
    ∃ y, (List.range' start (origin.length - (k + 1) + 1 - start)).foldl
        (fun c i => visit i (c.setBack i)) c =
      { c.adding chosen (choices (positions origin.length start) (k + 1)) with
        current := chosen ++ [y] } := by
  generalize hm : origin.length - (k + 1) + 1 - start = m
  induction m generalizing c start x with
  | zero =>
    -- too few positions are left
    have hshort : (positions origin.length start).length < k + 1 := by
      rw [positions, List.length_range']
      omega
    refine ⟨x, ?_⟩
    rw [choices_eq_nil hshort, adding_nil, ← hcurrent]
    rfl
  | succ m ih =>
    have hback : (c.setBack start).current = chosen ++ [start] := by
      rw [setBack, hcurrent, List.dropLast_concat]
    rw [List.range'_succ, List.foldl_cons, hvisit start (c.setBack start) horigin hback]
    obtain ⟨y, hy⟩ := @ih ((c.setBack start).adding (chosen ++ [start])
      (choices (positions origin.length (start + 1)) k)) start (start + 1) horigin hback
      (by omega)
    refine ⟨y, hy.trans ?_⟩
    rw [positions_of_lt (show start < origin.length by omega), choices]
    simp [adding, setBack, Function.comp_def]

end Loop

theorem eachPosition_eq {c : Combinator α} {k : Nat} {visit : Nat → Combinator α → Combinator α}
    (hvisit : ∀ i c', c'.origin = c.origin → c'.current = c.current ++ [i] →
      visit i c' = c'.adding (c.current ++ [i]) (choices (positions c.origin.length (i + 1)) k))
    (hk : k + 1 ≤ c.origin.length) (start : Nat) :
    c.eachPosition (k + 1) start visit =
      c.adding c.current (choices (positions c.origin.length start) (k + 1)) := by
  obtain ⟨y, hy⟩ := @foldl_visit _ { c with current := c.current ++ [0] } c.current c.origin k
    visit hvisit hk 0 start rfl rfl
  rw [eachPosition, hy]
  simp [adding]

theorem doCombine_eq {k : Nat} (c : Combinator α) (hk : k + 1 ≤ c.origin.length) (start : Nat) :
    doCombine (k + 1) start c =
      c.adding c.current (choices (positions c.origin.length start) (k + 1)) := by
  induction k generalizing c start with
  | zero =>
    refine eachPosition_eq (fun i c' _ hcurrent => ?_) hk start
    rw [choices_zero, emit, hcurrent]
    simp [adding, hcurrent]
  | succ k ih =>
    refine eachPosition_eq (fun i c' horigin hcurrent => ?_) hk start
    rw [ih c' (by rw [horigin]; omega), horigin, hcurrent]

theorem combine_eq {c : Combinator α} (hcurrent : c.current = []) {k : Nat} (hpos : 1 ≤ k)
    (hle : k ≤ c.origin.length) :
    c.combine k = (.ok ((choices (List.range c.origin.length) k).map (elementsAt c.origin)),
      { c with
        combinations := (choices (List.range c.origin.length) k).map (elementsAt c.origin) }) := by
  obtain ⟨k, rfl⟩ := Nat.exists_eq_add_of_le' hpos
  have hall : positions c.origin.length 0 = List.range c.origin.length := by
    rw [positions, Nat.sub_zero, List.range_eq_range']
  have hcall := doCombine_eq { c with combinations := [] } hle 0
  rw [combine, if_neg (not_lt.mpr hle), if_neg (Nat.succ_ne_zero k), hcall]
  simp [adding, hall, hcurrent]

theorem afterCalls_spec (origin : List α) (earlier : List Nat) :
    (afterCalls origin earlier).origin = origin ∧ (afterCalls origin earlier).current = [] := by
  rw [afterCalls]
  have hstep (c : Combinator α) (hc : c.origin = origin ∧ c.current = []) (k : Nat) :
      (c.combine k).2.origin = origin ∧ (c.combine k).2.current = [] := by
    by_cases hle : k ≤ c.origin.length
    · by_cases hzero : k = 0
      · rw [combine, if_neg (not_lt.mpr hle), if_pos hzero]
        exact hc
      · rw [combine_eq hc.2 (Nat.pos_of_ne_zero hzero) hle]
        exact hc
    · rw [combine, if_pos (not_le.mp hle)]
      exact hc
  have hstart : ({ origin := origin } : Combinator α).origin = origin ∧
      ({ origin := origin } : Combinator α).current = [] := ⟨rfl, rfl⟩
  generalize ({ origin := origin } : Combinator α) = c at hstart
  induction earlier generalizing c with
  | nil => exact hstart
  | cons k earlier ih => exact ih _ (hstep c hstart k)

/-! ## Their number -/

theorem countLoop_eq {top : Nat} {left i : Nat} {n : UInt32} {c : UInt64}
    (hn : n.toNat = top - i) (hc : c.toNat = top.choose i) (hi : i + left ≤ top)
    (htop : top < 2 ^ 32)
    (hfit : ∀ p ∈ products left (i + 1) (top - i) (top.choose i), p < 2 ^ 64) :
    (countLoop left (UInt64.ofNat (i + 1)) n c).toNat = top.choose (i + left) := by
  induction left generalizing i n c with
  | zero => exact hc
  | succ left ih =>
    obtain ⟨hproduct, hrest⟩ := List.forall_mem_cons.mp hfit
    have hexact : top.choose i * (top - i) / (i + 1) = top.choose (i + 1) := by
      rw [← Nat.choose_succ_right_eq, Nat.mul_div_cancel _ (Nat.succ_pos i)]
    have hdiv : (c * n.toUInt64 / UInt64.ofNat (i + 1)).toNat = top.choose (i + 1) := by
      rw [UInt64.toNat_div, UInt64.toNat_mul, UInt32.toNat_toUInt64, hc, hn,
        Nat.mod_eq_of_lt hproduct, UInt64.toNat_ofNat', Nat.mod_eq_of_lt (by omega), hexact]
    have hnext : (n - 1).toNat = top - (i + 1) := by
      have hone : (1 : UInt32).toNat = 1 := rfl
      have hpos : (1 : UInt32) ≤ n := UInt32.le_iff_toNat_le.mpr (by omega)
      rw [UInt32.toNat_sub_of_le _ _ hpos, hn, hone, Nat.sub_sub]
    have hindex : UInt64.ofNat (i + 1) + 1 = UInt64.ofNat (i + 1 + 1) := by
      rw [UInt64.ofNat_add (i + 1) 1]
      rfl
    rw [hexact, Nat.sub_sub] at hrest
    rw [countLoop, hindex, ih hnext hdiv (by omega) hrest, Nat.add_assoc, Nat.add_comm 1]

theorem combinationsCount_eq {k n : UInt32} (hle : k ≤ n)
    (hfit : ∀ p ∈ products k.toNat 1 n.toNat 1, p < 2 ^ 64) :
    ∃ count, combinationsCount k n = .ok count ∧ count.toNat = n.toNat.choose k.toNat := by
  have hcount := @countLoop_eq n.toNat k.toNat 0 n 1 rfl (Nat.choose_zero_right _).symm
    (by simpa using UInt32.le_iff_toNat_le.mp hle) n.toNat_lt (by simpa using hfit)
  refine ⟨_, by rw [combinationsCount, if_neg (UInt32.not_lt.mpr hle)], ?_⟩
  rw [Nat.zero_add k.toNat] at hcount
  exact hcount

/-- **Every choice of `k` positions gives one combination, in lexicographic order**, also
after other calls, and their number is the one counted, if the products of the count fit
their type. -/
theorem combine_exact (origin : List α) (earlier : List Nat) (k : Nat) (hpos : 1 ≤ k)
    (hle : k ≤ origin.length) :
    ∃ chosen : List (List Nat),
      ((afterCalls origin earlier).combine k).1 = .ok (chosen.map (elementsAt origin)) ∧
      chosen.Pairwise (· < ·) ∧
      (∀ c, c ∈ chosen ↔ c.length = k ∧ c.Pairwise (· < ·) ∧ ∀ i ∈ c, i < origin.length) ∧
      ∀ k' n' : UInt32, k'.toNat = k → n'.toNat = origin.length →
        (∀ p ∈ products k 1 origin.length 1, p < 2 ^ 64) →
        ∃ count, combinationsCount k' n' = .ok count ∧ count.toNat = chosen.length := by
  obtain ⟨horigin, hcurrent⟩ := afterCalls_spec origin earlier
  refine ⟨choices (List.range origin.length) k, ?_, choices_pairwise_lt List.pairwise_lt_range k,
    fun c => mem_choices_range, ?_⟩
  · have hle' : k ≤ (afterCalls origin earlier).origin.length := horigin.symm ▸ hle
    rw [combine_eq hcurrent hpos hle', horigin]
  · rintro k' n' rfl hn hfit
    rw [length_choices, List.length_range, ← hn]
    exact combinationsCount_eq (UInt32.le_iff_toNat_le.mpr (hn ▸ hle)) (hn ▸ hfit)

theorem combine_exact_two :
    ∃ chosen : List (List Nat),
      ((afterCalls ['a', 'b', 'c'] [1]).combine 2).1 =
        .ok (chosen.map (elementsAt ['a', 'b', 'c'])) ∧
      chosen.Pairwise (· < ·) ∧
      (∀ c, c ∈ chosen ↔ c.length = 2 ∧ c.Pairwise (· < ·) ∧ ∀ i ∈ c, i < 3) ∧
      ∀ k' n' : UInt32, k'.toNat = 2 → n'.toNat = 3 → (∀ p ∈ products 2 1 3 1, p < 2 ^ 64) →
        ∃ count, combinationsCount k' n' = .ok count ∧ count.toNat = chosen.length :=
  combine_exact ['a', 'b', 'c'] [1] 2 (by decide) (by decide)

end Oxyra.Combinator
