import Oxyra.Core.Hex

/-!
# Three decoders of hexadecimal text

All of them decode pairs of digits, and they differ in what they take for a digit and in what they
leave out:

* `parse_hexstr` takes the null byte for a digit, because `strchr` finds it at the end of the string
  of digits. On texts that have one, and nothing else that is not a digit, it succeeds where
  `from_hex` refuses (`parse_hexstr_agrees_iff`).
* `from_hex_locale` leaves out separators between bytes. It does not leave out one between the two
  digits of a byte, but takes it for the second digit and throws (`locale_hex_iff`).
-/

namespace Oxyra.Hex

open DigitPairs

variable {c : UInt8} {s : Bytes}

def hexDigit (c : UInt8) : Option Nat := if isx c = 0xff then none else some (isx c)

def AllHex (s : Bytes) : Prop := ∀ c ∈ s, (hexDigit c).isSome = true

theorem decode_hexDigit_isSome_iff (s : Bytes) :
    (decode hexDigit s).isSome = true ↔ s.length % 2 = 0 ∧ AllHex s :=
  decode_isSome_iff

theorem forall_byte {P : UInt8 → Prop} (h : ∀ n < 256, P (UInt8.ofNat n)) (c : UInt8) : P c := by
  have hc := h c.toNat c.toNat_lt
  rwa [UInt8.ofNat_toNat] at hc

/-! ## The two that refuse separators -/

theorem fromHexToString_eq (s : Bytes) : fromHexToString s = decode hexDigit s := by
  refine eq_decode rfl fun high low rest => ?_
  rw [toBufferLoop, hexDigit, hexDigit]
  dsimp only
  split
  · rfl
  rw [Option.bind_some]
  split
  · rfl
  · rfl

def strDigit (c : UInt8) : Option Nat := strchr hex (atolower c)

theorem parseHexstr_eq (s : Bytes) : parseHexstr s = decode strDigit s := by
  refine eq_decode rfl fun high low rest => ?_
  rw [parseHexstrLoop, strDigit, strDigit]
  cases strchr hex (atolower high) with
  | none => rfl
  | some h =>
    cases strchr hex (atolower low) with
    | none => rfl
    | some l => rfl

theorem strDigit_eq (c : UInt8) : strDigit c = if c = 0 then some 16 else hexDigit c :=
  forall_byte (P := fun c => strDigit c = if c = 0 then some 16 else hexDigit c)
    (by decide +kernel) c

theorem hexDigit_zero : hexDigit 0 = none := by decide

/-- **The two decoders agree, null bytes apart.** They succeed on the same texts, those of an even
number of hexadecimal digits, with the same bytes, exactly if the text does not have a null byte
among an even number of bytes that are hexadecimal digits or null. -/
theorem parse_hexstr_agrees_iff (s : Bytes) :
    (((parseHexstr s).isSome = true ↔ s.length % 2 = 0 ∧ AllHex s) ∧
      ((fromHexToString s).isSome = true ↔ s.length % 2 = 0 ∧ AllHex s) ∧
      parseHexstr s = fromHexToString s) ↔
    ¬ (0 ∈ s ∧ s.length % 2 = 0 ∧ ∀ c ∈ s, c = 0 ∨ (hexDigit c).isSome = true) := by
  rw [parseHexstr_eq, fromHexToString_eq]
  constructor
  · rintro ⟨hparse, -, -⟩ ⟨hnull, heven, hall⟩
    -- the null byte passes for a digit in one and not in the other
    have hsome : (decode strDigit s).isSome = true := by
      refine decode_isSome_iff.mpr ⟨heven, fun c hc => ?_⟩
      rw [strDigit_eq]
      split
      · rfl
      · rename_i hne
        exact (hall c hc).resolve_left hne
    have hhex := (hparse.mp hsome).2 0 hnull
    rw [hexDigit_zero] at hhex
    cases hhex
  · intro hcond
    have hagree : decode strDigit s = decode hexDigit s := by
      by_cases hnull : 0 ∈ s
      · -- something else is wrong with the text
        have hnone : decode strDigit s = none := by
          rw [← Option.not_isSome_iff_eq_none, decode_isSome_iff]
          rintro ⟨heven, hall⟩
          refine hcond ⟨hnull, heven, fun c hc => ?_⟩
          have hdigit := hall c hc
          rw [strDigit_eq] at hdigit
          by_cases h0 : c = 0
          · exact .inl h0
          · rw [if_neg h0] at hdigit
            exact .inr hdigit
        rw [hnone, decode_eq_none hnull hexDigit_zero]
      · refine decode_congr fun c hc => ?_
        have hne : c ≠ 0 := fun h0 => hnull (h0 ▸ hc)
        rw [strDigit_eq, if_neg hne]
    rw [hagree]
    exact ⟨decode_hexDigit_isSome_iff s, decode_hexDigit_isSome_iff s, rfl⟩

/-- Two null bytes are read as one byte. -/
theorem parse_hexstr_null :
    parseHexstr [0, 0] = some [16] ∧ fromHexToString [0, 0] = none := by
  decide +kernel

/-! ## Separators -/

theorem charToInt_eq (c : UInt8) : charToInt c = hexDigit c :=
  forall_byte (P := fun c => charToInt c = hexDigit c) (by decide +kernel) c

theorem hexDigit_of_not_included (c : UInt8) (h : included c = false) : hexDigit c = none :=
  forall_byte (P := fun c => included c = false → hexDigit c = none) (by decide +kernel) c h

/-- Every separator has an even number of other characters before it. -/
def Between (s : Bytes) : Prop :=
  ∀ pre sep post, s = pre ++ sep :: post → included sep = false →
    (pre.filter included).length % 2 = 0

theorem between_skip (hc : included c = false) :
    Between (c :: s) ↔ Between s := by
  constructor
  · intro h pre sep post hs hsep
    have hpre := h (c :: pre) sep post (by rw [hs]; rfl) hsep
    rwa [List.filter_cons_of_neg (by rw [hc]; decide)] at hpre
  · intro h pre sep post hs hsep
    cases pre with
    | nil => rfl
    | cons d pre =>
      rw [List.cons_append, List.cons.injEq] at hs
      obtain ⟨rfl, hs⟩ := hs
      rw [List.filter_cons_of_neg (by rw [hc]; decide)]
      exact h pre sep post hs hsep

theorem between_pair {d : UInt8} (hc : included c = true) (hd : included d = true) :
    Between (c :: d :: s) ↔ Between s := by
  constructor
  · intro h pre sep post hs hsep
    have hpre := h (c :: d :: pre) sep post (by rw [hs]; rfl) hsep
    rw [List.filter_cons_of_pos hc, List.filter_cons_of_pos hd, List.length_cons,
      List.length_cons] at hpre
    omega
  · intro h pre sep post hs hsep
    match pre, hs with
    | [], hs =>
      cases hs
      rw [hc] at hsep
      cases hsep
    | [x], hs =>
      cases hs
      rw [hd] at hsep
      cases hsep
    | x :: y :: pre, hs =>
      rw [List.cons_append, List.cons_append, List.cons.injEq, List.cons.injEq] at hs
      obtain ⟨rfl, rfl, hs⟩ := hs
      have hpre := h pre sep post hs hsep
      rw [List.filter_cons_of_pos hc, List.filter_cons_of_pos hd, List.length_cons,
        List.length_cons]
      omega

theorem not_between {d : UInt8} (hc : included c = true) (hd : included d = false) :
    ¬ Between (c :: d :: s) := by
  intro h
  have hpre := h [c] d s rfl hd
  rw [List.filter_cons_of_pos hc] at hpre
  cases hpre

theorem toVectorLoop_spec (s : Bytes) (heven : (s.filter included).length % 2 = 0) :
    toVectorLoop s ≠ .error .pastEnd ∧ ∀ bytes, toVectorLoop s = .ok bytes ↔
      decode hexDigit (s.filter included) = some bytes ∧ Between s := by
  induction s using toVectorLoop.induct with
  | case1 =>
    refine ⟨by simp [toVectorLoop], fun bytes => ?_⟩
    have hbetween : Between [] := fun pre sep post hs => by simp at hs
    simp [toVectorLoop, decode, hbetween]
  | case2 c data hskip ih =>
    have hc : included c = false := by simpa using hskip
    rw [List.filter_cons_of_neg (by rw [hc]; decide)] at heven ⊢
    rw [toVectorLoop, if_pos hskip, between_skip hc]
    exact ih heven
  | case3 c data hskip hdigit =>
    have hc : included c = true := by simpa using hskip
    have hnone : decode hexDigit ((c :: data).filter included) = none := by
      rw [List.filter_cons_of_pos hc]
      exact decode_eq_none List.mem_cons_self (charToInt_eq c ▸ hdigit)
    rw [toVectorLoop.eq_def, hnone]
    simp [hskip, hdigit]
  | case4 c hskip h hdigit =>
    -- the last character that counts would be half a pair
    have hc : included c = true := by simpa using hskip
    rw [List.filter_cons_of_pos hc] at heven
    cases heven
  | case5 c hskip h hdigit d data hlow =>
    have hc : included c = true := by simpa using hskip
    have hloop : toVectorLoop (c :: d :: data) = .error .rangeError := by
      rw [toVectorLoop.eq_def]
      simp [hskip, hdigit, hlow]
    rw [hloop]
    refine ⟨by simp, fun bytes => ⟨fun heq => (by cases heq), ?_⟩⟩
    rintro ⟨hdecode, hbetween⟩
    by_cases hd : included d = true
    · have hmem : d ∈ (c :: d :: data).filter included := by simp [hd]
      rw [decode_eq_none hmem (charToInt_eq d ▸ hlow)] at hdecode
      cases hdecode
    · exact absurd hbetween (not_between hc (by simpa using hd))
  | case6 c hskip h hdigit d data l hlow ih =>
    have hc : included c = true := by simpa using hskip
    have hd : included d = true := by
      by_contra hsep
      rw [charToInt_eq, hexDigit_of_not_included d (by simpa using hsep)] at hlow
      cases hlow
    have hfilter : (c :: d :: data).filter included = c :: d :: data.filter included := by
      rw [List.filter_cons_of_pos hc, List.filter_cons_of_pos hd]
    rw [hfilter, List.length_cons, List.length_cons] at heven
    obtain ⟨hend, hok⟩ := ih (by omega)
    have hloop : toVectorLoop (c :: d :: data) = (toVectorLoop data).map (join h l :: ·) := by
      rw [toVectorLoop.eq_def]
      simp [hskip, hdigit, hlow]
    rw [charToInt_eq] at hdigit hlow
    rw [hloop, hfilter, decode, hdigit, hlow, between_pair hc hd, Option.bind_some,
      Option.bind_some]
    cases hdata : toVectorLoop data with
    | error fault =>
      rw [hdata] at hend hok
      refine ⟨by simpa [Except.map] using hend, fun bytes => ⟨fun heq => (by cases heq), ?_⟩⟩
      rintro ⟨hdecode, hbetween⟩
      obtain ⟨rest, hrest, -⟩ := Option.map_eq_some_iff.mp hdecode
      exact absurd ((hok rest).mpr ⟨hrest, hbetween⟩) (by simp)
    | ok rest =>
      rw [hdata] at hok
      obtain ⟨hrest, hbetween⟩ := (hok rest).mp rfl
      rw [hrest]
      simp [Except.map, hbetween]

def succeeded (r : Except Fault Bytes) : Option Bytes :=
  match r with
  | .ok bytes => some bytes
  | .error _ => none

theorem fromHexLocaleToVector_spec (s : Bytes) :
    fromHexLocaleToVector s ≠ .error .pastEnd ∧ ∀ bytes, fromHexLocaleToVector s = .ok bytes ↔
      decode hexDigit (s.filter included) = some bytes ∧ Between s := by
  unfold fromHexLocaleToVector
  rw [List.countP_eq_length_filter]
  split
  · rename_i hodd
    refine ⟨by simp, fun bytes => ⟨fun h => (by cases h), ?_⟩⟩
    rintro ⟨hdecode, -⟩
    have hsome : (decode hexDigit (s.filter included)).isSome = true := by
      rw [hdecode]
      rfl
    exact absurd (decode_isSome_iff.mp hsome).1 hodd
  · rename_i heven
    exact toVectorLoop_spec s (not_not.mp heven)

/-- **Separators between bytes are ignored.** No call reads behind the end of its text. A call
succeeds exactly if the text without spaces and colons is an even number of hexadecimal digits, and
returns the decoding of that text, exactly if every separator has an even number of other
characters before it, or that text cannot be decoded anyway. -/
theorem locale_hex_iff (s : Bytes) :
    (fromHexLocaleToVector s ≠ .error .pastEnd ∧
      ((succeeded (fromHexLocaleToVector s)).isSome = true ↔
        (s.filter included).length % 2 = 0 ∧ AllHex (s.filter included)) ∧
      (∀ bytes, fromHexLocaleToVector s = .ok bytes →
        decode hexDigit (s.filter included) = some bytes)) ↔
    (Between s ∨ ¬ ((s.filter included).length % 2 = 0 ∧ AllHex (s.filter included))) := by
  obtain ⟨hend, hok⟩ := fromHexLocaleToVector_spec s
  constructor
  · rintro ⟨-, hsucceeds, -⟩
    by_cases hhex : (s.filter included).length % 2 = 0 ∧ AllHex (s.filter included)
    · have hsome := hsucceeds.mpr hhex
      cases hres : fromHexLocaleToVector s with
      | error fault =>
        rw [hres] at hsome
        cases hsome
      | ok bytes => exact .inl ((hok bytes).mp hres).2
    · exact .inr hhex
  · intro hcond
    refine ⟨hend, ⟨fun hsome => ?_, fun hhex => ?_⟩, fun bytes hbytes => ((hok bytes).mp hbytes).1⟩
    · cases hres : fromHexLocaleToVector s with
      | error fault =>
        rw [hres] at hsome
        cases hsome
      | ok bytes =>
        refine (decode_hexDigit_isSome_iff _).mp ?_
        rw [((hok bytes).mp hres).1]
        rfl
    · obtain ⟨bytes, hbytes⟩ := Option.isSome_iff_exists.mp
        ((decode_hexDigit_isSome_iff _).mpr hhex)
      have hbetween : Between s := hcond.resolve_right fun h => h hhex
      rw [(hok bytes).mpr ⟨hbytes, hbetween⟩]
      rfl

/-- `a b` is refused. -/
theorem locale_hex_split :
    fromHexLocaleToVector [97, 32, 98] = .error .rangeError ∧
      decode hexDigit ([97, 32, 98].filter included) = some [0xab] := by
  decide +kernel

end Oxyra.Hex
