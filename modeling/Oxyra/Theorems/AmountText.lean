import Oxyra.Core.Amounts

/-!
# Amounts as text

`parse_amount` reads what `print_money` writes, and all texts of amounts but one kind: if no
digits are allowed behind the point, a text of a point and zeros loses all of its digits.
-/

namespace Oxyra.Amounts

variable {decimalPoint : Nat} {s whole fraction : Bytes} {v : UInt64}

/-- The texts of digits with at most one point and at least one digit, where only zeros stand behind
the places an amount has, and the amount: the text as a number, in atomic units. -/
def IsAmountText (decimalPoint : Nat) (text : Bytes) (v : UInt64) : Prop :=
  ∃ whole fraction : Bytes,
    ((text = whole ∧ fraction = []) ∨ text = whole ++ point :: fraction) ∧
    (∀ c ∈ whole ++ fraction, isDigit c = true) ∧ whole ++ fraction ≠ [] ∧
    (∀ c ∈ fraction.drop decimalPoint, c = zero) ∧
    v.toNat * 10 ^ fraction.length = digitsValue (whole ++ fraction) * 10 ^ decimalPoint

/-! ## Digits -/

theorem isDigit_ofNat {d : Nat} (hd : d < 10) : isDigit (UInt8.ofNat (48 + d)) = true := by
  interval_cases d <;> rfl

theorem decimal_ne_nil (n : Nat) : decimal n ≠ [] := by
  rw [decimal]
  split_ifs with h
  · exact List.cons_ne_nil _ _
  · simpa using Nat.digits_ne_nil_iff_ne_zero.mpr h

theorem isDigit_of_mem_decimal {n : Nat} : ∀ c ∈ decimal n, isDigit c = true := by
  rw [decimal]
  split_ifs with h
  · intro c hc
    rw [List.mem_singleton.mp hc]
    rfl
  · intro c hc
    obtain ⟨d, hd, rfl⟩ := List.mem_map.mp hc
    exact isDigit_ofNat (Nat.digits_lt_base (by decide) (List.mem_reverse.mp hd))

theorem digitsValue_reverse {l : List Nat} (hl : ∀ d ∈ l, d < 10) :
    digitsValue (l.reverse.map fun d => UInt8.ofNat (48 + d)) = Nat.ofDigits 10 l := by
  induction l with
  | nil => rfl
  | cons d l ih =>
    have hd : d < 10 := hl d List.mem_cons_self
    have htoNat : (UInt8.ofNat (48 + d)).toNat = 48 + d :=
      UInt8.toNat_ofNat_of_lt' (show 48 + d < 256 by omega)
    have hl' := ih fun e he => hl e (List.mem_cons_of_mem d he)
    rw [digitsValue] at hl' ⊢
    rw [List.reverse_cons, List.map_append, List.foldl_append, hl', Nat.ofDigits_cons]
    simp only [List.map_cons, List.map_nil, List.foldl_cons, List.foldl_nil, htoNat]
    omega

theorem digitsValue_decimal (n : Nat) : digitsValue (decimal n) = n := by
  rw [decimal]
  split_ifs with h
  · rw [h]
    rfl
  · rw [digitsValue_reverse fun d hd => Nat.digits_lt_base (by decide) hd, Nat.ofDigits_digits]

theorem digitsValue_snoc (s : Bytes) (c : UInt8) :
    digitsValue (s ++ [c]) = 10 * digitsValue s + (c.toNat - 48) := by
  rw [digitsValue, List.foldl_append]
  rfl

theorem digitsValue_append_zeros (s : Bytes) (n : Nat) :
    digitsValue (s ++ List.replicate n zero) = digitsValue s * 10 ^ n := by
  induction n with
  | zero => rw [List.replicate_zero, List.append_nil, Nat.pow_zero, Nat.mul_one]
  | succ n ih =>
    rw [List.replicate_succ', ← List.append_assoc, digitsValue_snoc, ih, Nat.pow_succ]
    show 10 * _ + 0 = _
    ring

theorem digitsValue_zeros_append (n : Nat) (s : Bytes) :
    digitsValue (List.replicate n zero ++ s) = digitsValue s := by
  induction n with
  | zero => rfl
  | succ n ih => exact ih

theorem isDigit_zero : isDigit zero = true := rfl

theorem point_notMem (h : ∀ c ∈ s, isDigit c = true) : point ∉ s := by
  intro hp
  exact absurd (h _ hp) (by decide)

theorem trim_of_forall_not_space (h : ∀ c ∈ s, isSpace c = false) : trim s = s := by
  have hkeep : ∀ {l : Bytes}, (∀ c ∈ l, isSpace c = false) → l.dropWhile isSpace = l := by
    intro l hl
    cases l with
    | nil => rfl
    | cons c l => exact List.dropWhile_cons_of_neg (by simp [hl c List.mem_cons_self])
  rw [trim, hkeep h, hkeep fun c hc => h c (List.mem_reverse.mp hc), List.reverse_reverse]

theorem not_isSpace_of_isDigit {c : UInt8} (h : isDigit c = true) : isSpace c = false := by
  simp [isDigit, isSpace, UInt8.le_iff_toNat_le, ← UInt8.toNat_inj] at h ⊢
  omega

/-! ## The parts of `parse_amount` -/

theorem parseDigits_eq_some {n : Nat} :
    parseDigits decimalPoint s n = some v ↔
      s ≠ [] ∧ (∀ c ∈ s, isDigit c = true) ∧
        v.toNat = digitsValue s * 10 ^ (decimalPoint - n) := by
  have hvalue := digitsValue_append_zeros s (decimalPoint - n)
  rw [parseDigits]
  by_cases hs : s = []
  · rw [if_pos hs]
    exact ⟨fun h => (by cases h), fun h => absurd hs h.1⟩
  have hne : s ++ List.replicate (decimalPoint - n) zero ≠ [] :=
    List.append_ne_nil_of_left_ne_nil hs _
  rw [if_neg hs, getXtypeFromString, lexicalCast, if_neg hne, hvalue]
  have hdigits : (s ++ List.replicate (decimalPoint - n) zero).all isDigit = true ↔
      ∀ c ∈ s, isDigit c = true := by
    rw [List.all_append, List.all_replicate, isDigit_zero, Bool.and_eq_true, List.all_eq_true]
    exact and_iff_left (by split_ifs <;> rfl)
  constructor
  · intro h
    split_ifs at h with hall hfits
    cases h
    exact ⟨hs, hdigits.mp hall, UInt64.toNat_ofNat_of_lt' hfits⟩
  · rintro ⟨-, hall, hv⟩
    rw [if_pos (hdigits.mpr hall), ← hv, if_pos v.toNat_lt, UInt64.ofNat_toNat]

/-- **The loop takes off zeros at the end**, down to the places an amount has. -/
theorem eraseZeros_eq (front fraction : Bytes) :
    ∃ (kept : Bytes) (n : Nat), fraction = kept ++ List.replicate n zero ∧
      eraseZeros decimalPoint fraction.length (front ++ fraction) = (front ++ kept, kept.length) ∧
      (n = 0 ∨ decimalPoint ≤ kept.length) ∧
      (decimalPoint < kept.length → kept.getLast? ≠ some zero) := by
  induction fraction using List.reverseRecOn with
  | nil => exact ⟨[], 0, rfl, rfl, .inl rfl, fun h => absurd h (Nat.not_lt_zero _)⟩
  | append_singleton fraction c ih =>
    rw [List.length_append, List.length_singleton, eraseZeros, ← List.append_assoc,
      List.getLast?_concat, List.dropLast_concat]
    by_cases h : decimalPoint < fraction.length + 1 ∧ some c = some zero
    · obtain ⟨hlt, hc⟩ := h
      obtain ⟨kept, n, hfraction, heq, hn, hlast⟩ := ih
      rw [if_pos ⟨hlt, hc⟩, heq]
      refine ⟨kept, n + 1, ?_, rfl, .inr ?_, hlast⟩
      · rw [hfraction, Option.some.inj hc, List.append_assoc, ← List.replicate_succ']
      · rcases hn with rfl | hn
        · rw [List.replicate_zero, List.append_nil] at hfraction
          rw [← hfraction]
          omega
        · exact hn
    · rw [if_neg h]
      refine ⟨fraction ++ [c], 0, ?_, ?_, .inl rfl, fun hlt hlast => h ⟨?_, ?_⟩⟩
      · rw [List.replicate_zero, List.append_nil]
      · rw [List.append_assoc, List.length_append, List.length_singleton]
      · rwa [List.length_append, List.length_singleton] at hlt
      · rwa [List.getLast?_concat] at hlast

theorem findIdx_point (hwhole : point ∉ whole) (fraction : Bytes) :
    (whole ++ point :: fraction).findIdx? (· == point) = some whole.length := by
  have hnone : whole.findIdx? (· == point) = none := by
    rw [List.findIdx?_eq_none_iff]
    intro c hc
    simp only [beq_eq_false_iff_ne, ne_eq]
    rintro rfl
    exact hwhole hc
  rw [List.findIdx?_append, hnone, List.findIdx?_cons]
  simp

theorem isAmountText_plain (hs : point ∉ s) :
    IsAmountText decimalPoint s v ↔
      s ≠ [] ∧ (∀ c ∈ s, isDigit c = true) ∧ v.toNat = digitsValue s * 10 ^ decimalPoint := by
  constructor
  · rintro ⟨whole, fraction, ⟨rfl, rfl⟩ | rfl, hdigits, hne, -, hv⟩
    · rw [List.append_nil] at hdigits hne hv
      exact ⟨hne, hdigits, by rwa [List.length_nil, Nat.pow_zero, Nat.mul_one] at hv⟩
    · exact absurd (List.mem_append_right _ List.mem_cons_self) hs
  · rintro ⟨hne, hdigits, hv⟩
    refine ⟨s, [], .inl ⟨rfl, rfl⟩, ?_, ?_, ?_, ?_⟩
    · rwa [List.append_nil]
    · rwa [List.append_nil]
    · rw [List.drop_nil]
      exact fun c hc => absurd hc List.not_mem_nil
    · rwa [List.append_nil, List.length_nil, Nat.pow_zero, Nat.mul_one]

theorem parse_plain_iff (hs : point ∉ trim s) :
    parseAmount decimalPoint s = some v ↔ IsAmountText decimalPoint (trim s) v := by
  have hnone : (trim s).findIdx? (· == point) = none := by
    rw [List.findIdx?_eq_none_iff]
    intro c hc
    simp only [beq_eq_false_iff_ne, ne_eq]
    rintro rfl
    exact hs hc
  rw [parseAmount, hnone, isAmountText_plain hs]
  exact parseDigits_eq_some

/-! ## Texts with a point -/

theorem isAmountText_point (hwhole : point ∉ whole) :
    IsAmountText decimalPoint (whole ++ point :: fraction) v ↔
      (∀ c ∈ whole ++ fraction, isDigit c = true) ∧ whole ++ fraction ≠ [] ∧
      (∀ c ∈ fraction.drop decimalPoint, c = zero) ∧
      v.toNat * 10 ^ fraction.length = digitsValue (whole ++ fraction) * 10 ^ decimalPoint := by
  refine ⟨?_, fun h => ⟨whole, fraction, .inr rfl, h⟩⟩
  rintro ⟨whole', fraction', ⟨htext, rfl⟩ | htext, hdigits, hrest⟩
  · -- the point would be among the digits
    rw [List.append_nil, ← htext] at hdigits
    exact absurd (List.mem_append_right _ List.mem_cons_self) (point_notMem hdigits)
  · have hnot := point_notMem hdigits
    rw [List.mem_append, not_or] at hnot
    obtain ⟨rfl, -, rfl⟩ := (List.append_cons_inj_of_notMem hnot.1 hnot.2).mp htext.symm
    exact ⟨hdigits, hrest⟩

section Kept

variable {kept : Bytes} {n : Nat}

theorem isAmountText_kept (hwhole : point ∉ whole) (hlength : kept.length ≤ decimalPoint) :
    IsAmountText decimalPoint (whole ++ point :: (kept ++ List.replicate n zero)) v ↔
      (∀ c ∈ whole ++ kept, isDigit c = true) ∧ whole ++ (kept ++ List.replicate n zero) ≠ [] ∧
      v.toNat = digitsValue (whole ++ kept) * 10 ^ (decimalPoint - kept.length) := by
  have hzeros : ∀ c ∈ (kept ++ List.replicate n zero).drop decimalPoint, c = zero := by
    intro c hc
    rw [List.drop_append, List.drop_of_length_le hlength, List.nil_append] at hc
    exact List.eq_of_mem_replicate (List.mem_of_mem_drop hc)
  have hdigits : (∀ c ∈ whole ++ (kept ++ List.replicate n zero), isDigit c = true) ↔
      ∀ c ∈ whole ++ kept, isDigit c = true := by
    rw [← List.append_assoc, List.forall_mem_append]
    refine and_iff_left fun c hc => ?_
    rw [List.eq_of_mem_replicate hc]
    exact isDigit_zero
  have hvalue : (v.toNat * 10 ^ (kept ++ List.replicate n zero).length =
      digitsValue (whole ++ (kept ++ List.replicate n zero)) * 10 ^ decimalPoint) ↔
      v.toNat = digitsValue (whole ++ kept) * 10 ^ (decimalPoint - kept.length) := by
    have hpow : 0 < 10 ^ (kept.length + n) := Nat.pow_pos (by decide)
    have hscale : digitsValue (whole ++ kept) * 10 ^ n * 10 ^ decimalPoint =
        digitsValue (whole ++ kept) * 10 ^ (decimalPoint - kept.length) *
          10 ^ (kept.length + n) := by
      rw [Nat.mul_assoc, Nat.mul_assoc, ← Nat.pow_add, ← Nat.pow_add]
      congr 2
      omega
    rw [← List.append_assoc, digitsValue_append_zeros, List.length_append, List.length_replicate,
      hscale]
    exact Nat.mul_left_inj hpow.ne'
  rw [isAmountText_point hwhole, hdigits, hvalue]
  exact ⟨fun h => ⟨h.1, h.2.1, h.2.2.2⟩, fun h => ⟨h.1, h.2.1, hzeros, h.2.2⟩⟩

theorem not_isAmountText_of_long (hwhole : point ∉ whole) (hlength : decimalPoint < kept.length)
    (hlast : kept.getLast? ≠ some zero) :
    ¬ IsAmountText decimalPoint (whole ++ point :: (kept ++ List.replicate n zero)) v := by
  intro h
  have hzeros := ((isAmountText_point hwhole).mp h).2.2.1
  obtain ⟨front, c, rfl⟩ := List.eq_nil_or_concat' kept |>.resolve_left (by
    rintro rfl
    exact Nat.not_lt_zero _ hlength)
  rw [List.getLast?_concat] at hlast
  rw [List.length_append, List.length_singleton] at hlength
  refine hlast (congrArg some (hzeros c ?_))
  rw [List.append_assoc, List.drop_append_of_le_length (by omega)]
  exact List.mem_append_right _ List.mem_cons_self

end Kept

/-- **A text with a point is read as it should be, unless all of its digits are zeros that are taken
off.** -/
theorem parse_point_iff (hs : trim s = whole ++ point :: fraction) (hwhole : point ∉ whole) :
    (∀ v, parseAmount decimalPoint s = some v ↔ IsAmountText decimalPoint (trim s) v) ↔
      ¬(decimalPoint = 0 ∧ whole = [] ∧ ∃ n, fraction = List.replicate (n + 1) zero) := by
  obtain ⟨kept, n, rfl, herase, hn, hlast⟩ :=
    @eraseZeros_eq decimalPoint (whole ++ [point]) fraction
  rw [List.append_assoc, List.append_assoc, List.singleton_append, List.singleton_append] at herase
  have hsize : (whole ++ point :: (kept ++ List.replicate n zero)).length - whole.length - 1 =
      (kept ++ List.replicate n zero).length := by
    rw [List.length_append, List.length_cons]
    omega
  have hpoint : (whole ++ point :: kept).eraseIdx whole.length = whole ++ kept := by
    rw [List.eraseIdx_append_of_length_le (Nat.le_refl _), Nat.sub_self, List.eraseIdx_cons_zero]
  have hparse : parseAmount decimalPoint s =
      if decimalPoint < kept.length then none
      else parseDigits decimalPoint (whole ++ kept) kept.length := by
    rw [parseAmount, hs, findIdx_point hwhole]
    simp only [hsize, herase, hpoint]
  rw [hparse, hs]
  by_cases hlong : decimalPoint < kept.length
  · rw [if_pos hlong]
    refine iff_of_true (fun v => ⟨fun h => (by cases h), fun h =>
      absurd h (not_isAmountText_of_long hwhole hlong (hlast hlong))⟩) ?_
    rintro ⟨-, -, m, hm⟩
    -- then the last byte that is kept would be a zero
    refine hlast hlong ?_
    rw [(List.append_eq_replicate_iff.mp hm).2.1, List.getLast?_replicate, if_neg (by omega)]
  rw [if_neg hlong]
  have hlength := Nat.not_lt.mp hlong
  simp only [parseDigits_eq_some, isAmountText_kept hwhole hlength]
  by_cases hempty : whole ++ kept = []
  · obtain ⟨rfl, rfl⟩ := List.append_eq_nil_iff.mp hempty
    cases n with
    | zero =>
      refine iff_of_true (fun v => ⟨fun h => absurd rfl h.1, fun h => absurd rfl h.2.1⟩) ?_
      rintro ⟨-, -, m, hm⟩
      cases hm
    | succ m =>
      -- all digits are gone: the text is refused, and stands for zero
      obtain rfl : decimalPoint = 0 := Nat.eq_zero_of_le_zero (hn.resolve_left (by omega))
      refine iff_of_false (fun h => ?_) (fun h => h ⟨rfl, rfl, m, rfl⟩)
      refine absurd rfl ((h 0).mpr ⟨?_, ?_, rfl⟩).1
      · exact fun c hc => absurd hc List.not_mem_nil
      · exact List.cons_ne_nil _ _
  · refine iff_of_true (fun v => ?_) ?_
    · refine ⟨fun h => ⟨h.2.1, fun hnil => hempty ?_, h.2.2⟩, fun h => ⟨hempty, h.1, h.2.2⟩⟩
      rw [← List.append_assoc] at hnil
      exact (List.append_eq_nil_iff.mp hnil).1
    · rintro ⟨rfl, rfl, -⟩
      exact hempty (List.eq_nil_of_length_eq_zero (Nat.eq_zero_of_le_zero hlength))

/-- A point and zeros, where no digits are allowed behind the point. -/
def OnlyPointAndZeros (decimalPoint : Nat) (text : Bytes) : Prop :=
  decimalPoint = 0 ∧ ∃ n, text = point :: List.replicate (n + 1) zero

theorem parse_iff (decimalPoint : Nat) (s : Bytes) :
    (∀ v, parseAmount decimalPoint s = some v ↔ IsAmountText decimalPoint (trim s) v) ↔
      ¬ OnlyPointAndZeros decimalPoint (trim s) := by
  by_cases hp : point ∈ trim s
  · obtain ⟨whole, fraction, hs, hwhole⟩ := List.eq_append_cons_of_mem hp
    rw [parse_point_iff hs hwhole, hs, not_iff_not]
    refine and_congr_right fun _ => ⟨?_, ?_⟩
    · rintro ⟨rfl, n, rfl⟩
      exact ⟨n, rfl⟩
    · rintro ⟨n, hn⟩
      cases whole with
      | nil => exact ⟨rfl, n, (List.cons.inj hn).2⟩
      | cons c whole =>
        rw [List.cons_append] at hn
        exact absurd ((List.cons.inj hn).1 ▸ List.mem_cons_self) hwhole
  · refine iff_of_true (fun v => parse_plain_iff hp) ?_
    rintro ⟨-, n, hn⟩
    exact hp (hn ▸ List.mem_cons_self)

/-! ## Round trip -/

theorem printMoney_eq (amount : UInt64) (decimalPoint : Nat) :
    ∃ digits : Bytes, digits ≠ [] ∧ (∀ c ∈ digits, isDigit c = true) ∧
      digitsValue digits = amount.toNat ∧ decimalPoint < digits.length ∧
      printMoney amount decimalPoint =
        if decimalPoint > 0 then
          digits.take (digits.length - decimalPoint) ++
            point :: digits.drop (digits.length - decimalPoint)
        else digits := by
  have hne := decimal_ne_nil amount.toNat
  have hdigits : ∀ c ∈ decimal amount.toNat, isDigit c = true := isDigit_of_mem_decimal
  have hvalue := digitsValue_decimal amount.toNat
  rw [printMoney, insertMoneyDecimalPoint]
  by_cases hshort : (decimal amount.toNat).length < decimalPoint + 1
  · rw [if_pos hshort]
    refine ⟨_, List.append_ne_nil_of_right_ne_nil _ hne, ?_, ?_, ?_, rfl⟩
    · rw [List.forall_mem_append]
      refine ⟨fun c hc => ?_, hdigits⟩
      rw [List.eq_of_mem_replicate hc]
      exact isDigit_zero
    · rw [digitsValue_zeros_append, hvalue]
    · rw [List.length_append, List.length_replicate]
      omega
  · rw [if_neg hshort]
    exact ⟨_, hne, hdigits, hvalue, by omega, rfl⟩

theorem isAmountText_printMoney (amount : UInt64) (decimalPoint : Nat) :
    IsAmountText decimalPoint (printMoney amount decimalPoint) amount ∧
      ∀ c ∈ printMoney amount decimalPoint, isSpace c = false := by
  obtain ⟨digits, hne, hdigits, hvalue, hlength, hprint⟩ := printMoney_eq amount decimalPoint
  rw [hprint]
  by_cases hpos : decimalPoint > 0
  · have hfraction : (digits.drop (digits.length - decimalPoint)).length = decimalPoint := by
      rw [List.length_drop]
      omega
    rw [if_pos hpos]
    constructor
    · refine ⟨_, _, .inr rfl, ?_, ?_, ?_, ?_⟩
      · rwa [List.take_append_drop]
      · rwa [List.take_append_drop]
      · rw [List.drop_of_length_le hfraction.le]
        exact fun c hc => absurd hc List.not_mem_nil
      · rw [List.take_append_drop, hfraction, hvalue]
    · intro c hc
      rcases List.mem_append.mp hc with hc | hc
      · exact not_isSpace_of_isDigit (hdigits c (List.mem_of_mem_take hc))
      · rcases List.mem_cons.mp hc with rfl | hc
        · rfl
        · exact not_isSpace_of_isDigit (hdigits c (List.mem_of_mem_drop hc))
  · obtain rfl : decimalPoint = 0 := Nat.eq_zero_of_not_pos hpos
    rw [if_neg hpos]
    refine ⟨(isAmountText_plain (point_notMem hdigits)).mpr ⟨hne, hdigits, ?_⟩, fun c hc =>
      not_isSpace_of_isDigit (hdigits c hc)⟩
    rw [hvalue, Nat.pow_zero, Nat.mul_one]

theorem parse_print (amount : UInt64) (decimalPoint : Nat) :
    parseAmount decimalPoint (printMoney amount decimalPoint) = some amount := by
  obtain ⟨htext, hspace⟩ := isAmountText_printMoney amount decimalPoint
  have htrim := trim_of_forall_not_space hspace
  refine ((parse_iff decimalPoint _).mpr ?_ amount).mpr (htrim.symm ▸ htext)
  rintro ⟨rfl, n, hn⟩
  -- without places for a fraction no point is printed
  obtain ⟨digits, -, hdigits, -, -, hprint⟩ := printMoney_eq amount 0
  rw [htrim, hprint, if_neg (Nat.lt_irrefl 0)] at hn
  exact point_notMem hdigits (hn ▸ List.mem_cons_self)

/-- **Amounts are read back as they are printed, and `parse_amount` accepts the texts of amounts,
with their value, and no others, exactly if the text is not a point and zeros where no digits are
allowed behind the point.** -/
theorem parse_amount_iff (decimalPoint : Nat) (s : Bytes) :
    (∀ amount, parseAmount decimalPoint (printMoney amount decimalPoint) = some amount) ∧
    ((∀ v, parseAmount decimalPoint s = some v ↔ IsAmountText decimalPoint (trim s) v) ↔
      ¬(decimalPoint = 0 ∧ ∃ n, trim s = point :: List.replicate (n + 1) zero)) :=
  ⟨fun amount => parse_print amount decimalPoint, parse_iff decimalPoint s⟩

/-- `.0` in atomic units is refused, though it stands for zero. -/
theorem parse_point_zero_refused :
    parseAmount 0 [point, zero] = none ∧ IsAmountText 0 (trim [point, zero]) 0 := by
  refine ⟨by decide, [], [zero], .inr (by decide), ?_, List.cons_ne_nil _ _, ?_, rfl⟩
  · intro c hc
    rw [List.mem_singleton.mp hc]
    exact isDigit_zero
  · exact fun c hc => List.mem_singleton.mp hc

end Oxyra.Amounts
