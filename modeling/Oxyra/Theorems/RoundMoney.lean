import Oxyra.Core.Fee
import Oxyra.Lib.SignificantDigits

/-!
# Rounding of fees

`round_money_up` works on the decimal text of an amount: the digits behind the significant ones
become zeros, and if one of them was none before, the others are bumped with a carry.
-/

namespace Oxyra

open SignificantDigits

/-! ## Texts of digits -/

def bigEndian (buf : List Nat) : Nat := Nat.ofDigits 10 buf.reverse

theorem bigEndian_append (l l' : List Nat) :
    bigEndian (l ++ l') = bigEndian l * 10 ^ l'.length + bigEndian l' := by
  rw [bigEndian, List.reverse_append, Nat.ofDigits_append, List.length_reverse,
    bigEndian, bigEndian]
  ring

theorem bigEndian_cons (d : Nat) (l : List Nat) :
    bigEndian (d :: l) = d * 10 ^ l.length + bigEndian l := by
  rw [← List.singleton_append, bigEndian_append]
  exact congrArg (· * _ + _) Nat.ofDigits_singleton

theorem bigEndian_lt {l : List Nat} (hl : ∀ d ∈ l, d < 10) : bigEndian l < 10 ^ l.length := by
  rw [show l.length = l.reverse.length from List.length_reverse.symm]
  exact Nat.ofDigits_lt_base_pow_length (by decide) fun d hd => hl d (List.mem_reverse.mp hd)

theorem bigEndian_zeros {α : Type} (l : List α) : bigEndian (l.map fun _ => 0) = 0 := by
  induction l with
  | nil => rfl
  | cons x l ih => rw [List.map_cons, bigEndian_cons, ih, Nat.zero_mul]

theorem bigEndian_pos_iff (l : List Nat) : 0 < bigEndian l ↔ l.any (· ≠ 0) = true := by
  induction l with
  | nil => simp [bigEndian]
  | cons d l ih =>
    have hpow : 0 < 10 ^ l.length := Nat.pow_pos (by decide)
    rw [bigEndian_cons, List.any_cons, Bool.or_eq_true, ← ih, Nat.add_pos_iff_pos_or_pos,
      Nat.mul_pos_iff_of_pos_right hpow, decide_eq_true_eq, Nat.pos_iff_ne_zero]

/-! ## The loops -/

theorem length_bumpDigits (l : List Nat) : (bumpDigits l).1.length = l.length := by
  induction l with
  | nil => rfl
  | cons d l ih =>
    rw [bumpDigits]
    split_ifs <;> simp [ih]

/-- **Bumping adds one.** -/
theorem bigEndian_bumpDigits (l : List Nat) :
    (if (bumpDigits l).2 then 10 ^ l.length else 0) + bigEndian (bumpDigits l).1 =
      bigEndian l + 1 := by
  induction l with
  | nil => rfl
  | cons d l ih =>
    have hlength := length_bumpDigits l
    rw [bumpDigits, bigEndian_cons, List.length_cons, Nat.pow_succ]
    by_cases hcarry : (bumpDigits l).2 = true
    · rw [if_pos hcarry] at ih ⊢
      by_cases hnine : d = 9
      · -- the carry goes on
        simp only [hnine, if_true]
        rw [bigEndian_cons, hlength]
        omega
      · simp only [if_neg hnine, Bool.false_eq_true, if_false]
        rw [bigEndian_cons, hlength, Nat.add_mul]
        omega
    · rw [if_neg hcarry] at ih ⊢
      simp only [Bool.false_eq_true, if_false]
      rw [bigEndian_cons, hlength]
      omega

theorem bigEndian_carry (l : List Nat) :
    bigEndian (if (bumpDigits l).2 then 1 :: (bumpDigits l).1 else (bumpDigits l).1) =
      bigEndian l + 1 := by
  rw [← bigEndian_bumpDigits]
  by_cases hcarry : (bumpDigits l).2 = true
  · rw [if_pos hcarry, if_pos hcarry, bigEndian_cons, length_bumpDigits, Nat.one_mul]
  · rw [if_neg hcarry, if_neg hcarry, Nat.zero_add]

/-- **The text is rounded up to the least number with so few digits.** Its first digit may only be a
zero if all of it is significant. -/
theorem roundsUp_roundDigits {d : Nat} (hd : 0 < d) {buf : List Nat} (hbuf : ∀ x ∈ buf, x < 10)
    (hlead : d < buf.length → 10 ^ (buf.length - 1) ≤ bigEndian buf) :
    RoundsUp 10 d (bigEndian buf) (bigEndian (roundDigits d buf)) := by
  have hhead : bigEndian (buf.take d) < 10 ^ d :=
    (bigEndian_lt fun x hx => hbuf x (List.mem_of_mem_take hx)).trans_le
      (Nat.pow_le_pow_right (by decide) (List.length_take_le d buf))
  have hsplit : bigEndian buf =
      bigEndian (buf.take d) * 10 ^ (buf.drop d).length + bigEndian (buf.drop d) := by
    rw [← bigEndian_append, List.take_append_drop]
  rw [roundDigits]
  by_cases hrest : (buf.drop d).any (· ≠ 0) = true
  · have htail : 0 < bigEndian (buf.drop d) := (bigEndian_pos_iff _).mpr hrest
    have hlong : d < buf.length := by
      by_contra hge
      rw [List.drop_of_length_le (Nat.not_lt.mp hge)] at htail
      exact Nat.lt_irrefl 0 htail
    rw [if_pos hrest, bigEndian_append, bigEndian_carry, bigEndian_zeros, List.length_map,
      Nat.add_zero]
    refine roundsUp_cut (by decide) hd hsplit htail
      (bigEndian_lt fun x hx => hbuf x (List.mem_of_mem_drop hx)) hhead ?_
    rw [List.length_drop, Nat.add_sub_cancel' hlong.le]
    exact hlead hlong
  · rw [if_neg hrest]
    have hzero : bigEndian (buf.drop d) = 0 :=
      Nat.eq_zero_of_not_pos fun h => hrest ((bigEndian_pos_iff _).mp h)
    refine roundsUp_self ⟨bigEndian (buf.take d), (buf.drop d).length, hhead, ?_⟩
    rw [hsplit, hzero, Nat.add_zero]

/-! ## Amounts -/

theorem bigEndian_decimalDigits (amount : UInt64) :
    bigEndian (decimalDigits amount) = amount.toNat := by
  rw [decimalDigits]
  by_cases h : amount = 0
  · rw [if_pos h, h]
    rfl
  · rw [if_neg h, bigEndian, List.reverse_reverse, Nat.ofDigits_digits]

theorem lt_ten_of_mem_decimalDigits {amount : UInt64} : ∀ d ∈ decimalDigits amount, d < 10 := by
  intro d hd
  rw [decimalDigits] at hd
  by_cases h : amount = 0
  · rw [if_pos h, List.mem_singleton] at hd
    omega
  · rw [if_neg h, List.mem_reverse] at hd
    exact Nat.digits_lt_base (by decide) hd

theorem decimalDigits_lead {amount : UInt64} (h : 1 < (decimalDigits amount).length) :
    10 ^ ((decimalDigits amount).length - 1) ≤ amount.toNat := by
  by_cases h0 : amount = 0
  · rw [decimalDigits, if_pos h0] at h
    exact absurd h (Nat.lt_irrefl 1)
  have hne : amount.toNat ≠ 0 := fun h => h0 (UInt64.toNat_inj.mp h)
  rw [decimalDigits, if_neg h0, List.length_reverse] at h ⊢
  obtain ⟨k, hk⟩ := Nat.exists_eq_add_of_lt h
  have hpow := Nat.base_pow_length_digits_le 10 amount.toNat (by decide) hne
  rw [hk, Nat.pow_succ] at hpow
  rw [hk, Nat.add_sub_cancel]
  omega

/-- **What `round_money_up` returns is the rounded amount, if that fits.** -/
theorem roundMoneyUp_eq {d : Nat} (hd : 0 < d) (amount : UInt64) :
    ∃ r, RoundsUp 10 d amount.toNat r ∧
      roundMoneyUp amount d = if r < 2 ^ 64 then some (UInt64.ofNat r) else none := by
  have hround := roundsUp_roundDigits hd (@lt_ten_of_mem_decimalDigits amount)
    (fun h => bigEndian_decimalDigits amount ▸ decimalDigits_lead (by omega))
  rw [bigEndian_decimalDigits] at hround
  refine ⟨_, hround, ?_⟩
  rw [roundMoneyUp, if_neg hd.ne']
  show (if 2 ^ 64 ≤ bigEndian (roundDigits d (decimalDigits amount)) then none else _) = _
  by_cases hfits : bigEndian (roundDigits d (decimalDigits amount)) < 2 ^ 64
  · rw [if_neg (Nat.not_le.mpr hfits), if_pos hfits]
    refine if_neg fun h => h.2 (UInt64.toNat_inj.mp ?_)
    exact Nat.eq_zero_of_le_zero (hround.1.1.trans_eq h.1)
  · rw [if_pos (Nat.not_lt.mp hfits), if_neg hfits]

/-- **Fees are rounded up to the least number with so few digits**, and the function throws exactly
if that number is too large. So it is monotone, and rounding again changes nothing. -/
theorem round_money_up_least {d : Nat} (hd : 1 ≤ d) :
    (∀ amount : UInt64, ∃ r,
      IsLeast {m | amount.toNat ≤ m ∧ ∃ significand exponent, significand < 10 ^ d ∧
        m = significand * 10 ^ exponent} r ∧
      roundMoneyUp amount d = if r < 2 ^ 64 then some (UInt64.ofNat r) else none) ∧
    (∀ a b : UInt64, a ≤ b → ∀ b', roundMoneyUp b d = some b' →
      ∃ a', roundMoneyUp a d = some a' ∧ a' ≤ b') ∧
    (∀ a a', roundMoneyUp a d = some a' → roundMoneyUp a' d = some a') := by
  have hspec : ∀ {a a' : UInt64}, roundMoneyUp a d = some a' → RoundsUp 10 d a.toNat a'.toNat := by
    intro a a' h
    obtain ⟨r, hr, heq⟩ := roundMoneyUp_eq hd a
    rw [heq] at h
    split_ifs at h with hfits
    cases h
    rwa [UInt64.toNat_ofNat_of_lt' hfits]
  have hret : ∀ {a : UInt64} {r : Nat}, RoundsUp 10 d a.toNat r → r < 2 ^ 64 →
      roundMoneyUp a d = some (UInt64.ofNat r) := by
    intro a r hr hfits
    obtain ⟨r', hr', heq⟩ := roundMoneyUp_eq hd a
    rw [heq, hr'.unique hr, if_pos hfits]
  refine ⟨roundMoneyUp_eq hd, ?_, ?_⟩
  · intro a b hab b' hb
    obtain ⟨r, hr, -⟩ := roundMoneyUp_eq hd a
    have hle : r ≤ b'.toNat := hr.mono (hspec hb) hab
    have hfits : r < 2 ^ 64 := hle.trans_lt b'.toNat_lt
    refine ⟨_, hret hr hfits, ?_⟩
    rw [UInt64.le_iff_toNat_le, UInt64.toNat_ofNat_of_lt' hfits]
    exact hle
  · intro a a' h
    rw [hret (hspec h).again a'.toNat_lt, UInt64.ofNat_toNat]

theorem round_money_up_least_two_digits : 1 ≤ 2 ∧
    (∀ a b : UInt64, a ≤ b → ∀ b', roundMoneyUp b 2 = some b' →
      ∃ a', roundMoneyUp a 2 = some a' ∧ a' ≤ b') ∧
    (∀ a a', roundMoneyUp a 2 = some a' → roundMoneyUp a' 2 = some a') :=
  ⟨by decide, (round_money_up_least (by decide)).2⟩

end Oxyra
