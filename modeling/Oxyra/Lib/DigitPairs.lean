import Mathlib

/-!
# Bytes written as pairs of digits

A text is decoded two digits a byte, the high one first. What the decoder gives depends on the text
only through the value of each digit.
-/

namespace DigitPairs

variable {α : Type} {digit : α → Option Nat} {l : List α}

def join (high low : Nat) : UInt8 := UInt8.ofNat ((high <<< 4) ||| low)

/-- The bytes that the pairs stand for. Half a pair and an unknown digit are errors. -/
def decode (digit : α → Option Nat) : List α → Option (List UInt8)
  | [] => some []
  | [_] => none
  | high :: low :: rest =>
    (digit high).bind fun h => (digit low).bind fun l =>
      (decode digit rest).map fun bytes => join h l :: bytes

theorem decode_congr {digit' : α → Option Nat} (h : ∀ c ∈ l, digit c = digit' c) :
    decode digit l = decode digit' l := by
  induction l using decode.induct with
  | case1 => rfl
  | case2 => rfl
  | case3 high low rest ih =>
    simp only [List.forall_mem_cons] at h
    rw [decode, decode, h.1, h.2.1, ih h.2.2]

theorem decode_isSome_iff :
    (decode digit l).isSome = true ↔ l.length % 2 = 0 ∧ ∀ c ∈ l, (digit c).isSome = true := by
  induction l using decode.induct with
  | case1 => simp [decode]
  | case2 => simp [decode]
  | case3 high low rest ih =>
    have hlen : (high :: low :: rest).length % 2 = rest.length % 2 := by
      rw [List.length_cons, List.length_cons]
      omega
    rw [decode, hlen, List.forall_mem_cons, List.forall_mem_cons]
    cases digit high with
    | none => simp
    | some h =>
      cases digit low with
      | none => simp
      | some l => simpa using ih

theorem decode_eq_none {c : α} (hc : c ∈ l) (h : digit c = none) : decode digit l = none := by
  rw [← Option.not_isSome_iff_eq_none, decode_isSome_iff]
  intro hall
  have hsome := hall.2 c hc
  rw [h] at hsome
  cases hsome

/-- A loop that decodes pair by pair, entered only if there is no half pair. -/
theorem eq_decode {loop : List α → Option (List UInt8)} (hnil : loop [] = some [])
    (hcons : ∀ high low rest, loop (high :: low :: rest) =
      (digit high).bind fun h => (digit low).bind fun l => (loop rest).map (join h l :: ·)) :
    (if l.length % 2 ≠ 0 then none else loop l) = decode digit l := by
  split
  · rename_i hodd
    rw [eq_comm, ← Option.not_isSome_iff_eq_none, decode_isSome_iff]
    exact fun h => hodd h.1
  rename_i heven
  induction l using decode.induct with
  | case1 => exact hnil
  | case2 => exact absurd Nat.one_ne_zero heven
  | case3 high low rest ih =>
    rw [List.length_cons, List.length_cons] at heven
    rw [hcons, decode, ih (by omega)]

end DigitPairs
