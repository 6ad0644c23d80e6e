import Mathlib.Data.Nat.Digits.Lemmas

/-!
# Numerals of a fixed width

The digits of a number below `b ^ width`, padded to the width, and the number a list
of digits stands for (`Nat.ofDigits`) determine each other. So do, in base 256, the
bytes of a word and its value.
-/

namespace Numeral

variable {b width n : Nat} {l : List Nat}

/-- The `width` lowest digits of a number, the lowest first. -/
def toDigits (b : Nat) : Nat → Nat → List Nat
  | 0, _ => []
  | width + 1, n => n % b :: toDigits b width (n / b)

@[simp] theorem length_toDigits : (toDigits b width n).length = width := by
  induction width generalizing n with
  | zero => rfl
  | succ width ih => rw [toDigits, List.length_cons, ih]

theorem toDigits_lt (hb : 0 < b) : ∀ d ∈ toDigits b width n, d < b := by
  induction width generalizing n with
  | zero => exact fun _ h => absurd h List.not_mem_nil
  | succ width ih =>
    intro d hd
    rcases List.mem_cons.mp hd with rfl | hd
    · exact Nat.mod_lt n hb
    · exact ih d hd

theorem ofDigits_toDigits (h : n < b ^ width) : Nat.ofDigits b (toDigits b width n) = n := by
  induction width generalizing n with
  | zero =>
    rw [Nat.pow_zero, Nat.lt_one_iff] at h
    rw [h]
    rfl
  | succ width ih =>
    have hdiv : n / b < b ^ width := Nat.div_lt_of_lt_mul (by rwa [Nat.pow_succ'] at h)
    rw [toDigits, Nat.ofDigits_cons, ih hdiv]
    exact Nat.mod_add_div n b

theorem toDigits_ofDigits (hl : ∀ d ∈ l, d < b) : toDigits b l.length (Nat.ofDigits b l) = l := by
  induction l with
  | nil => rfl
  | cons d l ih =>
    have hd : d < b := hl d List.mem_cons_self
    rw [List.length_cons, toDigits, Nat.ofDigits_cons, Nat.add_mul_mod_self_left,
      Nat.mod_eq_of_lt hd, Nat.add_mul_div_left _ _ (by omega), Nat.div_eq_of_lt hd,
      Nat.zero_add, ih fun d' hd' => hl d' (List.mem_cons_of_mem _ hd')]

variable {bs : List UInt8}

/-- The number whose lowest byte stands first. -/
def ofBytes (bs : List UInt8) : Nat := Nat.ofDigits 256 (bs.map UInt8.toNat)

/-- The `width` lowest bytes of a number, the lowest first. -/
def toBytes (width n : Nat) : List UInt8 := (toDigits 256 width n).map UInt8.ofNat

@[simp] theorem length_toBytes : (toBytes width n).length = width := by
  rw [toBytes, List.length_map, length_toDigits]

theorem map_toNat_lt (bs : List UInt8) : ∀ d ∈ bs.map UInt8.toNat, d < 256 := by
  intro d hd
  obtain ⟨b, -, rfl⟩ := List.mem_map.mp hd
  exact b.toNat_lt

theorem ofBytes_lt (bs : List UInt8) : ofBytes bs < 256 ^ bs.length := by
  have h := Nat.ofDigits_lt_base_pow_length (by decide) (map_toNat_lt bs)
  rwa [List.length_map] at h

theorem ofBytes_toBytes (h : n < 256 ^ width) : ofBytes (toBytes width n) = n := by
  have hsame : (toDigits 256 width n).map (UInt8.toNat ∘ UInt8.ofNat) = toDigits 256 width n := by
    refine (List.map_congr_left fun d hd => ?_).trans (List.map_id _)
    exact UInt8.toNat_ofNat_of_lt' (toDigits_lt (by decide) d hd)
  rw [ofBytes, toBytes, List.map_map, hsame, ofDigits_toDigits h]

theorem toBytes_ofBytes (bs : List UInt8) : toBytes bs.length (ofBytes bs) = bs := by
  have hdigits := toDigits_ofDigits (map_toNat_lt bs)
  rw [List.length_map] at hdigits
  rw [toBytes, ofBytes, hdigits, List.map_map]
  exact (List.map_congr_left fun b _ => UInt8.ofNat_toNat).trans (List.map_id _)

end Numeral
