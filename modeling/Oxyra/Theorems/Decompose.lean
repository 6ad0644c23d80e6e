import Oxyra.Core.Amounts
import Oxyra.Lib.WeighedDigits

/-!
# Decomposition of amounts

The low digits of an amount go out as dust, together, and every other digit that is not zero
as a chunk. The coinbase gets the values of these calls.
-/

namespace Oxyra.Amounts

open WeighedDigits

variable {dustThreshold amount dust : UInt64} {i : Nat}

/-! ## One turn of the loop -/

/-- The power of ten of a turn. It is exact as long as there is an amount left. -/
def orderOf (i : Nat) : UInt64 := UInt64.ofNat (10 ^ i)

theorem orderOf_succ (i : Nat) : orderOf i * 10 = orderOf (i + 1) := by
  rw [orderOf, orderOf, Nat.pow_succ, UInt64.ofNat_mul]
  rfl

theorem toNat_div_ten (amount : UInt64) : (amount / 10).toNat = amount.toNat / 10 :=
  UInt64.toNat_div amount 10

theorem toNat_pos (h : amount ≠ 0) : 0 < amount.toNat :=
  Nat.pos_of_ne_zero fun h0 => h (UInt64.toNat_inj.mp h0)

/-- What is left to hand out, when `dust` has been collected from `i` digits. -/
def Fits (amount dust : UInt64) (i : Nat) : Prop := dust.toNat + amount.toNat * 10 ^ i < 2 ^ 64

theorem split_digit (n i : Nat) : n % 10 * 10 ^ i + n / 10 * 10 ^ (i + 1) = n * 10 ^ i := by
  rw [Nat.pow_succ]
  calc n % 10 * 10 ^ i + n / 10 * (10 ^ i * 10) = (n % 10 + 10 * (n / 10)) * 10 ^ i := by ring
    _ = n * 10 ^ i := by rw [Nat.mod_add_div]

/-- **The chunk is a digit times its power of ten: nothing wraps.** -/
theorem toNat_chunk (h0 : amount ≠ 0) (h : Fits amount dust i) :
    (amount % 10 * orderOf i).toNat = amount.toNat % 10 * 10 ^ i := by
  have hpow : 10 ^ i ≤ amount.toNat * 10 ^ i := Nat.le_mul_of_pos_left _ (toNat_pos h0)
  have horder : (orderOf i).toNat = 10 ^ i := by
    rw [orderOf, UInt64.toNat_ofNat']
    exact Nat.mod_eq_of_lt (by unfold Fits at h; omega)
  have hsplit := split_digit amount.toNat i
  rw [UInt64.toNat_mul, horder, UInt64.toNat_mod]
  refine Nat.mod_eq_of_lt ?_
  show amount.toNat % 10 * 10 ^ i < 2 ^ 64
  unfold Fits at h
  omega

theorem toNat_dust_add_chunk (h0 : amount ≠ 0) (h : Fits amount dust i) :
    (dust + amount % 10 * orderOf i).toNat = dust.toNat + amount.toNat % 10 * 10 ^ i := by
  have hsplit := split_digit amount.toNat i
  rw [UInt64.toNat_add, toNat_chunk h0 h]
  refine Nat.mod_eq_of_lt ?_
  unfold Fits at h
  omega

theorem fits_of_chunk (h : Fits amount dust i) : Fits (amount / 10) dust (i + 1) := by
  have hsplit := split_digit amount.toNat i
  unfold Fits at h ⊢
  rw [toNat_div_ten]
  omega

/-! ## The loop -/

def chunksFrom (i : Nat) (amount : UInt64) : List Call :=
  (weigh 10 i (Nat.digits 10 amount.toNat)).map fun n => .chunk (UInt64.ofNat n)

theorem chunksFrom_of_ne (h0 : amount ≠ 0) (h : Fits amount dust i) :
    chunksFrom i amount =
      (if amount % 10 * orderOf i ≠ 0 then [.chunk (amount % 10 * orderOf i)] else []) ++
        chunksFrom (i + 1) (amount / 10) := by
  have hchunk := toNat_chunk h0 h
  rw [chunksFrom, Nat.digits_def' (by decide) (toNat_pos h0), weigh, List.map_append,
    ← toNat_div_ten]
  refine congrArg (· ++ _) ?_
  have hzero : amount.toNat % 10 ≠ 0 ↔ amount % 10 * orderOf i ≠ 0 := by
    rw [not_iff_not, ← UInt64.toNat_inj, hchunk]
    show _ ↔ amount.toNat % 10 * 10 ^ i = 0
    rw [Nat.mul_eq_zero, or_iff_left (Nat.pow_pos (by decide)).ne']
  by_cases hd : amount.toNat % 10 ≠ 0
  · rw [if_pos hd, if_pos (hzero.mp hd), List.map_singleton, ← hchunk, UInt64.ofNat_toNat]
  · rw [if_neg hd, if_neg (hzero.not.mp hd), List.map_nil]

theorem chunksFrom_zero (i : Nat) : chunksFrom i 0 = [] := rfl

/-- **Once a digit has gone past the threshold, all others do.** The dust stays what it is, and has
been handed out if there is any. -/
theorem decomposeCalls_chunks {isDustHandled : Bool} (h : Fits amount dust i)
    (hpast : dustThreshold.toNat < dust.toNat + 10 ^ i) (hle : dust ≤ dustThreshold)
    (hdust : isDustHandled = true ∨ dust = 0) :
    decomposeCalls dustThreshold amount dust (orderOf i) isDustHandled = chunksFrom i amount := by
  have hhandled : (!isDustHandled && decide (dust ≠ 0)) = false := by
    rcases hdust with rfl | rfl <;> simp
  induction hn : amount.toNat using Nat.strong_induction_on generalizing amount i with
  | h n ih =>
    subst hn
    rw [decomposeCalls]
    by_cases h0 : amount = 0
    · rw [if_pos h0, h0, hhandled, chunksFrom_zero]
      rfl
    have hstep := ih _ (by
      rw [toNat_div_ten]
      exact Nat.div_lt_self (toNat_pos h0) (by decide)) (fits_of_chunk h)
      (hpast.trans_le (Nat.add_le_add_left (Nat.pow_le_pow_right (by decide) (Nat.le_succ i)) _))
      rfl
    have hsum := toNat_dust_add_chunk h0 h
    rw [if_neg h0, chunksFrom_of_ne h0 h]
    simp only [hhandled, orderOf_succ, Bool.or_false, Bool.false_eq_true, if_false,
      List.nil_append]
    by_cases hchunk : amount % 10 * orderOf i = 0
    · -- a digit zero adds nothing to the dust
      rw [hchunk, UInt64.add_zero, if_pos hle, if_neg (by simp), List.nil_append]
      exact hstep
    · have hdigit : amount.toNat % 10 ≠ 0 := by
        intro hzero
        refine hchunk (UInt64.toNat_inj.mp ?_)
        rw [toNat_chunk h0 h, hzero, Nat.zero_mul]
        rfl
      have hlt : ¬ dust + amount % 10 * orderOf i ≤ dustThreshold := by
        rw [UInt64.le_iff_toNat_le, hsum]
        have := Nat.le_mul_of_pos_left (10 ^ i) (Nat.pos_of_ne_zero hdigit)
        omega
      rw [if_neg hlt, hstep]

/-- **Until then the digits are collected as dust.** -/
theorem decomposeCalls_eq (h : Fits amount dust i) (hlow : dust.toNat < 10 ^ i)
    (hle : dust ≤ dustThreshold) :
    ∃ (j : Nat) (low high : UInt64),
      dust.toNat + amount.toNat * 10 ^ i = low.toNat + high.toNat * 10 ^ j ∧
      low.toNat < 10 ^ j ∧ low ≤ dustThreshold ∧
      decomposeCalls dustThreshold amount dust (orderOf i) false =
        (if low ≠ 0 then [.dust low] else []) ++ chunksFrom j high := by
  induction hn : amount.toNat using Nat.strong_induction_on generalizing amount dust i with
  | h n ih =>
    subst hn
    rw [decomposeCalls]
    by_cases h0 : amount = 0
    · refine ⟨i, dust, amount, rfl, hlow, hle, ?_⟩
      rw [if_pos h0, h0, chunksFrom_zero, List.append_nil]
      simp
    have hsum := toNat_dust_add_chunk h0 h
    have hsplit := split_digit amount.toNat i
    have hdigit : amount.toNat % 10 * 10 ^ i ≤ 9 * 10 ^ i :=
      Nat.mul_le_mul_right _ (by omega)
    have hpow : 10 ^ (i + 1) = 10 * 10 ^ i := by rw [Nat.pow_succ, Nat.mul_comm]
    rw [if_neg h0]
    simp only [orderOf_succ]
    by_cases hfits : dust + amount % 10 * orderOf i ≤ dustThreshold
    · rw [if_pos hfits]
      obtain ⟨j, low, high, hvalue, hrest⟩ := @ih _ (by
        rw [toNat_div_ten]
        exact Nat.div_lt_self (toNat_pos h0) (by decide)) (amount / 10)
        (dust + amount % 10 * orderOf i) (i + 1) (by
          unfold Fits at h ⊢
          rw [hsum, toNat_div_ten]
          omega) (by omega) hfits rfl
      refine ⟨j, low, high, ?_, hrest⟩
      rw [hsum, toNat_div_ten] at hvalue
      omega
    · -- the first digit past the threshold: the dust is what has been collected
      have hpast : dustThreshold.toNat < dust.toNat + 10 ^ (i + 1) := by
        rw [UInt64.le_iff_toNat_le, hsum] at hfits
        omega
      refine ⟨i, dust, amount, rfl, hlow, hle, ?_⟩
      rw [if_neg hfits, decomposeCalls_chunks (fits_of_chunk h) hpast hle (by
        by_cases hd : dust = 0 <;> simp [hd]), chunksFrom_of_ne h0 h, List.append_assoc]
      simp

/-- **The low digits go out as dust, and each of the others as a chunk.** -/
theorem decomposeAmount_eq (amount dustThreshold : UInt64) :
    ∃ (j : Nat) (low high : UInt64), amount.toNat = low.toNat + high.toNat * 10 ^ j ∧
      low.toNat < 10 ^ j ∧ low ≤ dustThreshold ∧
      decomposeAmount amount dustThreshold =
        (if low ≠ 0 then [.dust low] else []) ++ chunksFrom j high := by
  have hfits : Fits amount 0 0 := by
    show 0 + amount.toNat * 1 < 2 ^ 64
    have := amount.toNat_lt
    omega
  obtain ⟨j, low, high, hvalue, hlow, hle, heq⟩ :=
    @decomposeCalls_eq dustThreshold amount 0 0 hfits (by decide) UInt64.zero_le
  refine ⟨j, low, high, ?_, hlow, hle, ?_⟩
  · rw [← hvalue]
    simp
  · rw [← heq, decomposeAmount]
    by_cases h0 : amount = 0
    · rw [if_pos h0, decomposeCalls, if_pos h0]
      rfl
    · rw [if_neg h0]
      rfl

/-! ## What the handlers get -/

theorem stripTrailingZeros_eq {v d : UInt64} {e fuel : Nat} (hd : d.toNat % 10 ≠ 0)
    (hv : v.toNat = d.toNat * 10 ^ e) (he : e < fuel) : stripTrailingZeros fuel v = d := by
  induction e generalizing fuel v with
  | zero =>
    obtain ⟨fuel, rfl⟩ := Nat.exists_eq_add_of_lt he
    have hvd : v = d := UInt64.toNat_inj.mp (hv.trans (Nat.mul_one _))
    rw [stripTrailingZeros, if_neg, hvd]
    rw [hvd, ← UInt64.toNat_inj, UInt64.toNat_mod]
    exact hd
  | succ e ih =>
    obtain ⟨fuel, rfl⟩ : ∃ n, fuel = n + 1 := ⟨fuel - 1, by omega⟩
    rw [Nat.pow_succ, ← Nat.mul_assoc] at hv
    have hzero : v % 10 = 0 := by
      rw [← UInt64.toNat_inj, UInt64.toNat_mod, hv]
      exact Nat.mul_mod_left _ 10
    rw [stripTrailingZeros, if_pos hzero]
    refine ih ?_ (by omega)
    rw [toNat_div_ten, hv, Nat.mul_div_cancel _ (by decide)]

theorem isValidDecomposedAmount_of_eq {v : UInt64} {digit power : Nat} (hpos : digit ≠ 0)
    (hlt : digit < 10) (hv : v.toNat = digit * 10 ^ power) : isValidDecomposedAmount v = true := by
  have hdigit : (UInt64.ofNat digit).toNat = digit :=
    UInt64.toNat_ofNat_of_lt' (show digit < 2 ^ 64 by omega)
  have hle : 10 ^ power ≤ v.toNat := hv ▸ Nat.le_mul_of_pos_left _ (Nat.pos_of_ne_zero hpos)
  have hpower : power < 20 := by
    by_contra hge
    have := Nat.pow_le_pow_right (show 0 < 10 by decide) (Nat.not_lt.mp hge)
    have := v.toNat_lt
    omega
  have hne : v ≠ 0 := by
    rintro rfl
    exact Nat.not_lt.mpr hle (Nat.pow_pos (by decide))
  rw [isValidDecomposedAmount, if_neg hne, decide_eq_true_eq,
    stripTrailingZeros_eq (d := UInt64.ofNat digit) (by rw [hdigit]; omega) (by rw [hdigit, hv])
      hpower, UInt64.lt_iff_toNat_lt, hdigit]
  exact hlt

def chunksOf (calls : List Call) : List UInt64 := calls.filterMap Call.chunk?

def dustOf (calls : List Call) : List UInt64 := calls.filterMap Call.dust?

theorem chunksOf_append_chunks (low : UInt64) (ns : List Nat) :
    chunksOf ((if low ≠ 0 then [.dust low] else []) ++ ns.map fun n => .chunk (UInt64.ofNat n)) =
      ns.map UInt64.ofNat := by
  have hdust : chunksOf (if low ≠ 0 then [.dust low] else []) = [] := by
    split_ifs <;> rfl
  rw [chunksOf, List.filterMap_append, ← chunksOf, hdust, List.nil_append, List.filterMap_map]
  exact congrFun (List.filterMap_eq_map (f := UInt64.ofNat)) ns

theorem dustOf_append_chunks (low : UInt64) (ns : List Nat) :
    dustOf ((if low ≠ 0 then [.dust low] else []) ++ ns.map fun n => .chunk (UInt64.ofNat n)) =
      if low ≠ 0 then [low] else [] := by
  have hnone : (ns.map fun n => Call.chunk (UInt64.ofNat n)).filterMap Call.dust? = [] := by
    rw [List.filterMap_eq_nil_iff]
    intro call hcall
    obtain ⟨n, -, rfl⟩ := List.mem_map.mp hcall
    rfl
  rw [dustOf, List.filterMap_append, hnone, List.append_nil]
  split_ifs <;> rfl

section Parts

variable {j : Nat} {low high : UInt64} (hvalue : amount.toNat = low.toNat + high.toNat * 10 ^ j)

include hvalue

theorem toNat_of_mem_weigh {n : Nat} (hn : n ∈ weigh 10 j (Nat.digits 10 high.toNat)) :
    (UInt64.ofNat n).toNat = n := by
  have hle := List.le_sum_of_mem hn
  have hlt := amount.toNat_lt
  rw [sum_weigh, Nat.ofDigits_digits] at hle
  exact UInt64.toNat_ofNat_of_lt' (show n < 2 ^ 64 by omega)

theorem sum_calls :
    (((if low ≠ 0 then [Call.dust low] else []) ++ chunksFrom j high).map
      fun call => call.value.toNat).sum = amount.toNat := by
  have hchunks : ((chunksFrom j high).map fun call => call.value.toNat) =
      weigh 10 j (Nat.digits 10 high.toNat) := by
    rw [chunksFrom, List.map_map]
    exact (List.map_congr_left fun n hn => toNat_of_mem_weigh hvalue hn).trans (List.map_id _)
  rw [List.map_append, List.sum_append, hchunks, sum_weigh, Nat.ofDigits_digits, hvalue]
  congr 1
  by_cases h : low = 0 <;> simp [h, Call.value]

theorem exists_digit_of_mem {n : Nat} (hlow : low.toNat < 10 ^ j)
    (hn : n ∈ weigh 10 j (Nat.digits 10 high.toNat)) :
    ∃ power, amount.toNat / 10 ^ power % 10 ≠ 0 ∧
      n = amount.toNat / 10 ^ power % 10 * 10 ^ power := by
  obtain ⟨k, hne, hnk⟩ :=
    exists_digit_of_mem_weigh (by decide) (fun d => Nat.digits_lt_base (by decide)) hn
  rw [Nat.ofDigits_digits] at hne hnk
  have hhigh : amount.toNat / 10 ^ j = high.toNat := by
    rw [hvalue, Nat.add_mul_div_right _ _ (Nat.pow_pos (by decide)), Nat.div_eq_of_lt hlow,
      Nat.zero_add]
  have hplace : amount.toNat / 10 ^ (j + k) = high.toNat / 10 ^ k := by
    rw [Nat.pow_add, ← Nat.div_div_eq_div_mul, hhigh]
  exact ⟨j + k, by rwa [hplace], by rwa [hplace]⟩

end Parts

/-- **A decomposition conserves the amount.** The values handed out add up to it, as numbers; there
is dust at most once, and not more than the threshold; the chunks are digits of the amount at their
place, each of them a valid denomination, and they grow. -/
theorem decompose_conserves (amount dustThreshold : UInt64) :
    ((decomposeAmount amount dustThreshold).map fun call => call.value.toNat).sum = amount.toNat ∧
    ((dustOf (decomposeAmount amount dustThreshold)).length ≤ 1 ∧
      ∀ v ∈ dustOf (decomposeAmount amount dustThreshold), 1 ≤ v ∧ v ≤ dustThreshold) ∧
    (∀ v ∈ chunksOf (decomposeAmount amount dustThreshold),
      (∃ power, amount.toNat / 10 ^ power % 10 ≠ 0 ∧
        v.toNat = amount.toNat / 10 ^ power % 10 * 10 ^ power) ∧
      isValidDecomposedAmount v = true) ∧
    (chunksOf (decomposeAmount amount dustThreshold)).Pairwise (· < ·) := by
  obtain ⟨j, low, high, hvalue, hlow, hle, heq⟩ := decomposeAmount_eq amount dustThreshold
  refine ⟨heq ▸ sum_calls hvalue, ?_⟩
  rw [heq, chunksFrom, chunksOf_append_chunks, dustOf_append_chunks]
  refine ⟨⟨?_, ?_⟩, ?_, ?_⟩
  · split_ifs <;> simp
  · intro v hv
    by_cases h : low = 0
    · simp [h] at hv
    · rw [if_pos h, List.mem_singleton] at hv
      subst hv
      exact ⟨toNat_pos h, hle⟩
  · intro v hv
    obtain ⟨n, hn, rfl⟩ := List.mem_map.mp hv
    obtain ⟨power, hne, hnp⟩ := exists_digit_of_mem hvalue hlow hn
    have hv : (UInt64.ofNat n).toNat = amount.toNat / 10 ^ power % 10 * 10 ^ power :=
      (toNat_of_mem_weigh hvalue hn).trans hnp
    exact ⟨⟨power, hne, hv⟩, isValidDecomposedAmount_of_eq hne (Nat.mod_lt _ (by decide)) hv⟩
  · rw [List.pairwise_map]
    refine (pairwise_weigh (by decide) fun d => Nat.digits_lt_base (by decide)).imp_of_mem
      fun hx hy hxy => ?_
    rw [UInt64.lt_iff_toNat_lt, toNat_of_mem_weigh hvalue hx, toNat_of_mem_weigh hvalue hy]
    exact hxy

theorem decomposeLoop_eq {fuel : Nat} (hfuel : amount.toNat < 10 ^ fuel) (order : UInt64)
    (isDustHandled : Bool) (outs : List UInt64) :
    decomposeLoop dustThreshold fuel amount dust order isDustHandled outs =
      outs ++ (decomposeCalls dustThreshold amount dust order isDustHandled).map Call.value := by
  induction fuel generalizing amount dust order isDustHandled outs with
  | zero =>
    obtain rfl : amount = 0 := UInt64.toNat_inj.mp (Nat.lt_one_iff.mp hfuel)
    rw [decomposeLoop, decomposeCalls, if_pos rfl]
    split_ifs <;> simp [Call.value]
  | succ fuel ih =>
    have hdiv : (amount / 10).toNat < 10 ^ fuel := by
      rw [toNat_div_ten]
      exact Nat.div_lt_of_lt_mul (by rwa [Nat.pow_succ'] at hfuel)
    rw [decomposeLoop, decomposeCalls]
    by_cases h0 : amount = 0
    · rw [if_pos h0, if_pos h0]
      split_ifs <;> simp [Call.value]
    rw [if_neg h0, if_neg h0]
    simp only []
    by_cases hfits : dust + amount % 10 * order ≤ dustThreshold
    · rw [if_pos hfits, if_pos hfits, ih hdiv]
    · rw [if_neg hfits, if_neg hfits, ih hdiv, List.map_append, List.map_append]
      split_ifs <;> simp [Call.value]

/-- **The coinbase pays what the handlers get, in their order.** -/
theorem decomposeAmountIntoDigits_eq (amount dustThreshold : UInt64) :
    decomposeAmountIntoDigits amount dustThreshold =
      (decomposeAmount amount dustThreshold).map Call.value := by
  rw [decomposeAmountIntoDigits, decomposeAmount]
  by_cases h0 : amount = 0
  · rw [if_pos h0, if_pos h0, List.map_nil]
  · rw [if_neg h0, if_neg h0, decomposeLoop_eq (amount.toNat_lt.trans (by decide)),
      List.nil_append]

end Oxyra.Amounts
