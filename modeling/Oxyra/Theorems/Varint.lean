import Oxyra.Core.Varint

/-!
# The varint codec

The loop over machine words does what `Codec.readVarint` does over numbers (`readLoop_of_strict`),
so that what is written is read back and what is read was written by the writer. What that loop
leaves out are the error codes, which are determined here for every form of a number: bytes that
announce another one, and a last one that does not (`varint_codec`).
-/

namespace Oxyra.Varint

variable {w bits shift read : Nat} {write : BitVec w} {bs rest : List UInt8}

/-! ## Bytes -/

theorem low_bits (b : UInt8) : (b &&& 0x7f).toNat = b.toNat % 128 := by
  rw [UInt8.toNat_and]
  exact Nat.and_two_pow_sub_one_eq_mod b.toNat 7

theorem continues_iff (b : UInt8) : b &&& 0x80 = 0 ↔ b.toNat < 128 := by
  have hall : ∀ n < 256, n &&& 128 = 0 ↔ n < 128 := by decide +kernel
  rw [← UInt8.toNat_inj, UInt8.toNat_and]
  exact hall b.toNat b.toNat_lt

theorem continued_byte (n : Nat) :
    (UInt8.ofNat n &&& 0x7f) ||| 0x80 = UInt8.ofNat (n % 128 + 128) := by
  have hall : ∀ k < 256, k &&& 127 ||| 128 = k % 128 + 128 := by decide +kernel
  rw [← UInt8.toNat_inj, UInt8.toNat_or, UInt8.toNat_and, UInt8.toNat_ofNat', UInt8.toNat_ofNat']
  refine (hall (n % 256) (by omega)).trans ?_
  omega

theorem writeVarint_eq (i : BitVec w) : writeVarint i = Codec.writeVarint i.toNat := by
  induction i using writeVarint.induct with
  | case1 i hle ih =>
    have hdiv : (i >>> 7).toNat = i.toNat / 128 := by
      rw [BitVec.toNat_ushiftRight, Nat.shiftRight_eq_div_pow]
    rw [writeVarint, if_pos hle, continued_byte, ih, hdiv, Codec.writeVarint_of_le hle]
  | case2 i hlt =>
    rw [writeVarint, if_neg hlt, Codec.writeVarint_of_lt (Nat.not_le.mp hlt)]

theorem or_shift {x : Nat} (hwrite : write.toNat < 2 ^ shift) (hx : x * 2 ^ shift < 2 ^ w) :
    (write ||| (BitVec.ofNat w x <<< shift)).toNat = write.toNat + x * 2 ^ shift := by
  have hlt : x < 2 ^ w := lt_of_le_of_lt (Nat.le_mul_of_pos_right x (Nat.two_pow_pos shift)) hx
  rw [BitVec.toNat_or, BitVec.toNat_shiftLeft, BitVec.toNat_ofNat, Nat.mod_eq_of_lt hlt,
    Nat.shiftLeft_eq, Nat.mod_eq_of_lt hx, Nat.or_comm, Nat.mul_comm,
    ← Nat.two_pow_add_eq_or_of_lt hwrite, Nat.add_comm]

theorem low_add_lt (b : UInt8) (hwrite : write.toNat < 2 ^ shift) :
    b.toNat % 128 * 2 ^ shift + write.toNat < 2 ^ (shift + 7) := by
  have hle : b.toNat % 128 * 2 ^ shift ≤ 127 * 2 ^ shift := Nat.mul_le_mul_right _ (by omega)
  rw [Nat.pow_add]
  omega

theorem readLoop_of_strict (hbits : bits ≤ w) {n : Nat} (hshift : shift < bits)
    (hwrite : write.toNat < 2 ^ shift)
    (h : Codec.readVarint bits .strict shift write.toNat bs = some (n, rest)) :
    readLoop bits shift read write bs =
      ⟨(read + (bs.length - rest.length) : Nat), BitVec.ofNat w n, rest⟩ := by
  induction bs generalizing shift read write with
  | nil => cases h
  | cons b bs ih =>
    obtain ⟨hzero, hcase⟩ := Codec.readVarint_cons h
    have hguard : ¬ (b = 0 ∧ shift ≠ 0) := fun hb => hzero hb.2 hb.1
    have hpow : 2 ^ bits = 2 ^ (bits - shift) * 2 ^ shift := by
      rw [← Nat.pow_add, Nat.sub_add_cancel hshift.le]
    have htop : 2 ^ bits ≤ 2 ^ w := Nat.pow_le_pow_right (by decide) hbits
    unfold readLoop
    rw [Nat.one_shiftLeft, if_neg hguard]
    rcases hcase with ⟨hlt, hfit, rfl, rfl⟩ | ⟨hge, hnext, h⟩
    · -- the last byte fits under the width
      have hx : b.toNat * 2 ^ shift < 2 ^ w :=
        lt_of_lt_of_le (hpow ▸ Nat.mul_lt_mul_of_pos_right hfit (Nat.two_pow_pos shift)) htop
      have hword := or_shift hwrite hx
      rw [if_neg (fun hb => by omega), if_pos ((continues_iff b).mpr hlt), low_bits,
        Nat.mod_eq_of_lt hlt]
      have hcount : read + ((b :: rest).length - rest.length) = read + 1 := by
        rw [List.length_cons]
        omega
      rw [hcount, ← hword, BitVec.ofNat_toNat, BitVec.setWidth_eq]
      rfl
    · -- another byte follows
      have hfit := low_add_lt b hwrite
      have hx : b.toNat % 128 * 2 ^ shift < 2 ^ w := by
        have hle : 2 ^ (shift + 7) ≤ 2 ^ bits := Nat.pow_le_pow_right (by decide) hnext.le
        omega
      have hword := or_shift hwrite hx
      have hlast : ¬ b &&& 0x80 = 0 := fun h0 => absurd ((continues_iff b).mp h0) (by omega)
      rw [if_neg (fun hb => by omega), if_neg hlast, low_bits]
      rw [← hword] at h
      rw [ih hnext (by rw [hword]; omega) h]
      have hrest : rest.length ≤ bs.length := by
        obtain ⟨k, -, -, -, rfl⟩ := Codec.readVarint_strict hnext h
        rw [List.length_append]
        omega
      rw [List.length_cons]
      congr 2
      omega

theorem readLoop_cases (hbits : bits ≤ w) (hshift : shift < bits)
    (hwrite : write.toNat < 2 ^ shift) :
    (∃ n, Codec.readVarint bits .strict shift write.toNat bs =
        some (n, (readLoop bits shift read write bs).rest)) ∨
      (readLoop bits shift read write bs).ret < 0 ∨
      (readLoop bits shift read write bs).rest = [] ∧ ∀ b ∈ bs, 128 ≤ b.toNat := by
  induction bs generalizing shift read write with
  | nil => exact .inr (.inr ⟨rfl, List.forall_mem_nil _⟩)
  | cons b bs ih =>
    unfold readLoop Codec.readVarint
    simp only [Nat.one_shiftLeft]
    by_cases hfit : shift + 7 ≥ bits ∧ b.toNat ≥ 2 ^ (bits - shift)
    · simp only [if_pos hfit]
      exact .inr (.inl (by decide))
    by_cases hzero : b = 0 ∧ shift ≠ 0
    · simp only [if_neg hfit, if_pos hzero]
      exact .inr (.inl (by decide))
    simp only [if_neg hfit, if_neg hzero]
    by_cases hlt : b.toNat < 128
    · simp only [if_pos ((continues_iff b).mpr hlt), if_pos hlt]
      exact .inl ⟨_, rfl⟩
    · have hlast : ¬ b &&& 0x80 = 0 := fun h0 => hlt ((continues_iff b).mp h0)
      have hnext : shift + 7 < bits := by
        by_contra hs
        have hpow : 2 ^ (bits - shift) ≤ 2 ^ 7 := Nat.pow_le_pow_right (by decide) (by omega)
        exact hfit ⟨by omega, by omega⟩
      have hadd := low_add_lt b hwrite
      have htop : 2 ^ (shift + 7) ≤ 2 ^ w := Nat.pow_le_pow_right (by decide) (by omega)
      have hword := @or_shift w shift write (b.toNat % 128) hwrite (by omega)
      simp only [if_neg hlast, if_neg hlt, low_bits, ← hword]
      rcases ih hnext (by rw [hword]; omega) with hn | hneg | ⟨hrest, hall⟩
      · exact .inl hn
      · exact .inr (.inl hneg)
      · exact .inr (.inr ⟨hrest, List.forall_mem_cons.mpr ⟨Nat.not_lt.mp hlt, hall⟩⟩)

/-! ## Error codes -/

/-- The value of seven bits a byte, whatever the eighth. -/
def formValue : List UInt8 → Nat
  | [] => 0
  | b :: bs => b.toNat % 128 + 128 * formValue bs

/-- Bytes that announce another one. -/
def Announcing (init : List UInt8) : Prop := ∀ b ∈ init, 128 ≤ b.toNat

section Codes

variable {init : List UInt8} {last : UInt8}

theorem readLoop_beyond {b : UInt8} (hb : 128 ≤ b.toNat) (hs : bits ≤ shift + 7) :
    (readLoop bits shift read write (b :: rest)).ret = evarintOverflow := by
  have hpow : 2 ^ (bits - shift) ≤ 2 ^ 7 := Nat.pow_le_pow_right (by decide) (by omega)
  have hfit : shift + 7 ≥ bits ∧ b.toNat ≥ 1 <<< (bits - shift) := by
    rw [Nat.one_shiftLeft]
    omega
  rw [readLoop, if_pos hfit]

theorem readLoop_within {b : UInt8} (hb : 128 ≤ b.toNat) (hs : shift + 7 < bits) :
    ∃ write', readLoop bits shift read write (b :: rest) =
      readLoop bits (shift + 7) (read + 1) write' rest := by
  have hzero : ¬ (b = 0 ∧ shift ≠ 0) := by
    rintro ⟨rfl, -⟩
    exact absurd hb (by decide)
  have hlast : ¬ b &&& 0x80 = 0 := fun h0 => absurd ((continues_iff b).mp h0) (by omega)
  refine ⟨write ||| (BitVec.ofNat w (b &&& 0x7f).toNat <<< shift), ?_⟩
  rw [readLoop, if_neg (fun h => by omega), if_neg hzero]
  rw [if_neg hlast]

theorem readLoop_overlong (hinit : Announcing init) (hne : init ≠ [] ∨ shift ≠ 0)
    (hs : shift + 7 * init.length < bits) :
    (readLoop bits shift read write (init ++ 0 :: rest)).ret = evarintRepresent := by
  induction init generalizing shift read write with
  | nil =>
    have hshift : shift ≠ 0 := hne.resolve_left fun h => h rfl
    have hfit : ¬ (shift + 7 ≥ bits ∧ (0 : UInt8).toNat ≥ 1 <<< (bits - shift)) := by
      rw [Nat.one_shiftLeft]
      rintro ⟨-, hge⟩
      exact absurd hge (Nat.not_le.mpr (Nat.two_pow_pos _))
    rw [List.nil_append, readLoop, if_neg hfit, if_pos ⟨rfl, hshift⟩]
  | cons b init ih =>
    rw [Announcing, List.forall_mem_cons] at hinit
    rw [List.length_cons] at hs
    obtain ⟨write', heq⟩ := @readLoop_within w bits shift read write (init ++ 0 :: rest) b
      hinit.1 (by omega)
    rw [List.cons_append, heq]
    exact ih hinit.2 (.inr (by omega)) (by omega)

theorem readLoop_too_long (hinit : Announcing init) (hshift : shift < bits)
    (hs : bits ≤ shift + 7 * init.length) :
    (readLoop bits shift read write (init ++ rest)).ret = evarintOverflow := by
  induction init generalizing shift read write with
  | nil =>
    rw [List.length_nil] at hs
    omega
  | cons b init ih =>
    rw [Announcing, List.forall_mem_cons] at hinit
    rw [List.length_cons] at hs
    rw [List.cons_append]
    by_cases hnext : shift + 7 < bits
    · obtain ⟨write', heq⟩ := @readLoop_within w bits shift read write (init ++ rest) b
        hinit.1 hnext
      rw [heq]
      exact ih hinit.2 hnext (by omega)
    · exact readLoop_beyond hinit.1 (by omega)

theorem readLoop_overflow (hinit : Announcing init) (hlast : last.toNat < 128)
    (hshift : shift < bits) (hvalue : 2 ^ (bits - shift) ≤ formValue (init ++ [last])) :
    (readLoop bits shift read write (init ++ last :: rest)).ret = evarintOverflow := by
  induction init generalizing shift read write with
  | nil =>
    have hge : 2 ^ (bits - shift) ≤ last.toNat := by
      rw [List.nil_append, formValue, formValue, Nat.mod_eq_of_lt hlast] at hvalue
      omega
    have hsmall : shift + 7 ≥ bits := by
      by_contra hs
      have hpow : 2 ^ 7 ≤ 2 ^ (bits - shift) := Nat.pow_le_pow_right (by decide) (by omega)
      omega
    rw [List.nil_append, readLoop, Nat.one_shiftLeft, if_pos ⟨hsmall, hge⟩]
  | cons b init ih =>
    rw [Announcing, List.forall_mem_cons] at hinit
    rw [List.cons_append]
    by_cases hnext : shift + 7 < bits
    · obtain ⟨write', heq⟩ := @readLoop_within w bits shift read write (init ++ last :: rest) b
        hinit.1 hnext
      rw [heq]
      refine ih hinit.2 hnext ?_
      -- the low seven bits do not matter
      have hsplit : 2 ^ (bits - shift) = 2 ^ (bits - (shift + 7)) * 128 := by
        rw [show bits - shift = bits - (shift + 7) + 7 by omega, Nat.pow_add]
      rw [List.cons_append, formValue] at hvalue
      omega
    · exact readLoop_beyond hinit.1 (by omega)

end Codes

theorem writeVarint_formValue {init : List UInt8} {last : UInt8} (hinit : Announcing init)
    (hlast : last.toNat < 128) (hlong : init ≠ [] → last ≠ 0) :
    Codec.writeVarint (formValue (init ++ [last])) = init ++ [last] ∧
      (init ≠ [] → formValue (init ++ [last]) ≠ 0) := by
  induction init with
  | nil =>
    rw [List.nil_append, formValue, formValue, Nat.mod_eq_of_lt hlast, Nat.mul_zero,
      Nat.add_zero, Codec.writeVarint_of_lt hlast, UInt8.ofNat_toNat]
    exact ⟨rfl, fun h => absurd rfl h⟩
  | cons b init ih =>
    rw [Announcing, List.forall_mem_cons] at hinit
    have hlast0 : last ≠ 0 := hlong (List.cons_ne_nil b init)
    obtain ⟨hwrite, hne⟩ := ih hinit.2 fun _ => hlast0
    have hpos : formValue (init ++ [last]) ≠ 0 := by
      by_cases hnil : init = []
      · subst hnil
        rw [List.nil_append, formValue, formValue, Nat.mod_eq_of_lt hlast]
        intro h0
        exact hlast0 (UInt8.toNat_inj.mp (by simpa using h0))
      · exact hne hnil
    rw [List.cons_append, formValue]
    have hle : 128 ≤ b.toNat % 128 + 128 * formValue (init ++ [last]) := by omega
    refine ⟨?_, fun _ => by omega⟩
    rw [Codec.writeVarint_of_le hle,
      show (b.toNat % 128 + 128 * formValue (init ++ [last])) / 128 =
        formValue (init ++ [last]) by omega,
      show (b.toNat % 128 + 128 * formValue (init ++ [last])) % 128 = b.toNat % 128 by omega,
      Codec.ofNat_add_128 hinit.1, hwrite]

/-- **The varint codec.** For every unsigned type and every number of bits that it has room for:

* a value is read back from what is written for it, whatever follows, and exactly the bytes written
  are consumed;
* if the reader returns a positive count and the last byte it consumed announces no other, those
  bytes are as many as it says, and they are what is written for the value read;
* a form, bytes that announce another one and a last one, is read as its value if that fits and the
  last byte is not a superfluous zero. A value that does not fit is an overflow. A superfluous zero
  is the other error, or an overflow too if it lies beyond the width. -/
theorem varint_codec (hbits : bits ≤ w) (hpos : 0 < bits) :
    (∀ (v : BitVec w) (rest : List UInt8), v.toNat < 2 ^ bits →
      readVarint bits (writeVarint v ++ rest) = ⟨(writeVarint v).length, v, rest⟩) ∧
    (∀ (bs init : List UInt8) (last : UInt8),
      0 < (readVarint bits bs : Reading w).ret →
      bs = init ++ last :: (readVarint bits bs : Reading w).rest → last &&& 0x80 = 0 →
      (readVarint bits bs : Reading w).ret = (init.length + 1 : Nat) ∧
        init ++ [last] = writeVarint (readVarint bits bs : Reading w).write) ∧
    (∀ (init rest : List UInt8) (last : UInt8), Announcing init → last.toNat < 128 →
      ((init ≠ [] → last ≠ 0) → formValue (init ++ [last]) < 2 ^ bits →
        (readVarint bits (init ++ last :: rest) : Reading w) =
          ⟨(init.length + 1 : Nat), BitVec.ofNat w (formValue (init ++ [last])), rest⟩) ∧
      ((init ≠ [] → last ≠ 0) → 2 ^ bits ≤ formValue (init ++ [last]) →
        (readVarint bits (init ++ last :: rest) : Reading w).ret = evarintOverflow) ∧
      (init ≠ [] → last = 0 →
        (readVarint bits (init ++ last :: rest) : Reading w).ret =
          if 7 * init.length < bits then evarintRepresent else evarintOverflow)) := by
  have hzero : (0 : BitVec w).toNat = 0 := BitVec.toNat_zero
  have hone : (0 : BitVec w).toNat < 2 ^ 0 := by
    rw [hzero]
    decide
  have htop : 2 ^ bits ≤ 2 ^ w := Nat.pow_le_pow_right (by decide) hbits
  -- what is written for a number is read as that number
  have hback : ∀ (k : Nat) (rest : List UInt8), k < 2 ^ bits →
      (readVarint bits (Codec.writeVarint k ++ rest) : Reading w) =
        ⟨(Codec.writeVarint k).length, BitVec.ofNat w k, rest⟩ := by
    intro k rest hk
    have hread := @Codec.readVarint_writeVarint bits 0 0 k hpos (fun h => absurd rfl h) hk rest
    rw [Nat.pow_zero, Nat.mul_one, Nat.zero_add, ← hzero] at hread
    rw [readVarint, readLoop_of_strict hbits hpos hone hread]
    congr 2
    rw [List.length_append]
    omega
  refine ⟨?_, ?_, ?_⟩
  · intro v rest hv
    rw [writeVarint_eq, hback v.toNat rest hv, BitVec.ofNat_toNat, BitVec.setWidth_eq]
  · intro bs init last hret hbs hlast
    rcases @readLoop_cases w bits 0 0 0 bs hbits hpos hone with ⟨n, hn⟩ | hneg | ⟨hrest, hall⟩
    · have hread := @readLoop_of_strict w bits 0 0 0 bs _ hbits n hpos hone hn
      obtain ⟨k, hk, -, hfit, hbytes⟩ := Codec.readVarint_strict hpos hn
      rw [Nat.pow_zero, Nat.mul_one, hzero, Nat.zero_add] at hk
      subst hk
      change bs = Codec.writeVarint n ++ (readVarint bits bs : Reading w).rest at hbytes
      have hinit : init ++ [last] = Codec.writeVarint n := by
        have hsame : (init ++ [last]) ++ (readVarint bits bs : Reading w).rest =
            Codec.writeVarint n ++ (readVarint bits bs : Reading w).rest := by
          rw [← hbytes, List.append_assoc]
          exact hbs.symm
        exact List.append_cancel_right hsame
      have hvalue : (readVarint bits bs : Reading w).write = BitVec.ofNat w n := by
        rw [readVarint, hread]
      have hcount := hback n (readVarint bits bs : Reading w).rest hfit
      rw [← hbytes] at hcount
      rw [hvalue, writeVarint_eq, BitVec.toNat_ofNat, Nat.mod_eq_of_lt (hfit.trans_le htop)]
      refine ⟨?_, hinit⟩
      rw [hcount, ← hinit, List.length_append]
      rfl
    · exact absurd hret (by rw [readVarint]; omega)
    · -- every byte announces another one
      have hmem : last ∈ bs := by
        rw [hbs]
        simp
      exact absurd ((continues_iff last).mp hlast) (Nat.not_lt.mpr (hall last hmem))
  · intro init rest last hinit hlast
    have hsplit : init ++ last :: rest = (init ++ [last]) ++ rest := by simp
    refine ⟨fun hlong hfit => ?_, fun _ hvalue => ?_, fun hne hz => ?_⟩
    · have hwrite := (writeVarint_formValue hinit hlast hlong).1
      have hread := hback _ rest hfit
      rw [hwrite] at hread
      rw [hsplit, hread, List.length_append, List.length_singleton]
    · exact readLoop_overflow hinit hlast hpos hvalue
    · subst hz
      split
      · rename_i hs
        exact readLoop_overlong hinit (.inl hne) (by omega)
      · rename_i hs
        exact readLoop_too_long hinit hpos (by omega)

/-- The widths of the types, and one that ends within a byte's seven bits. -/
theorem varint_codec_widths :
    (readVarint 64 (writeVarint (300 : BitVec 64) ++ [7]) : Reading 64) = ⟨2, 300, [7]⟩ ∧
      (readVarint 8 [0x80, 0x80, 0x00] : Reading 8).ret = evarintOverflow ∧
      (readVarint 16 [0x80, 0x80, 0x00] : Reading 16).ret = evarintRepresent := by
  have hword := (varint_codec (le_refl 64) (by decide)).1 300 [7] (by decide)
  have hwritten : writeVarint (300 : BitVec 64) = [0xac, 0x02] := by decide +kernel
  have hannounce : Announcing [0x80, 0x80] := by
    intro b hb
    rw [show b = 0x80 by simpa using hb]
    decide
  have hform := fun (w : Nat) (hw : 0 < w) =>
    ((varint_codec (w := w) (le_refl w) hw).2.2 [0x80, 0x80] [] 0 hannounce (by decide)).2.2
      (by decide) rfl
  rw [hwritten] at hword ⊢
  exact ⟨hword, hform 8 (by decide), hform 16 (by decide)⟩

end Oxyra.Varint
