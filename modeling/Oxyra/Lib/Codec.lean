import Mathlib.Data.List.Basic
import Mathlib.Tactic.Ring

/-!
# Binary formats read and written by one description

A `Codec` is a reader and a writer of one layout. Numbers of variable length end
at their first byte below 128. A reader may insist on that byte, or may let the
end of the input stand for it: the two modes differ in nothing else.

* `Codec` carries what is proved of every layout: a strict read is of exactly the
  bytes that the writer gives, and a lenient read is a strict one, or the input
  breaks off inside a number.
* The combinators build layouts from layouts, and with them the proofs.
* `canonical_iff`: a value read leniently from a whole input is written back as
  the same bytes exactly when the strict reader takes that input too.
* `Firm` and `Sealed` say where a layout cannot break off.
-/

/-- Whether the end of the input may stand for the end of a number. -/
inductive Mode where
  | strict
  | lenient
deriving DecidableEq, Repr

namespace Codec

/-- Up to some point the input is the encoding; from there it has only bytes that
announce another one, where the encoding goes on to the end of a number. -/
def Broken (bs enc : List UInt8) : Prop :=
  ∃ pre c t, bs = pre ++ c ∧ enc = pre ++ t ∧ (∀ b ∈ c, 128 ≤ b.toNat) ∧ ∃ b ∈ t, b.toNat < 128

theorem Broken.ne {bs enc : List UInt8} (h : Broken bs enc) : bs ≠ enc := by
  obtain ⟨pre, c, t, rfl, rfl, hc, b, hb, hlt⟩ := h
  intro heq
  rw [List.append_cancel_left heq] at hc
  exact absurd (hc b hb) (not_le.mpr hlt)

theorem Broken.append {bs enc : List UInt8} (h : Broken bs enc) (more : List UInt8) :
    Broken bs (enc ++ more) := by
  obtain ⟨pre, c, t, rfl, rfl, hc, b, hb, hlt⟩ := h
  exact ⟨pre, c, t ++ more, rfl, List.append_assoc .., hc, b, List.mem_append_left _ hb, hlt⟩

theorem Broken.prepend {bs enc : List UInt8} (h : Broken bs enc) (before : List UInt8) :
    Broken (before ++ bs) (before ++ enc) := by
  obtain ⟨pre, c, t, rfl, rfl, hc, ht⟩ := h
  exact ⟨before ++ pre, c, t, (List.append_assoc ..).symm, (List.append_assoc ..).symm, hc, ht⟩

/-- The writer gives `enc` for `v`, and `enc` is read back as `v`, whatever follows. -/
structure Encodes {α : Type} (read : Mode → List UInt8 → Option (α × List UInt8))
    (write : α → Option (List UInt8)) (v : α) (enc : List UInt8) : Prop where
  written : write v = some enc
  readBack : ∀ rest, read .strict (enc ++ rest) = some (v, rest)

end Codec

/-- A layout: how a value is read from the front of the input, and how it is written. -/
structure Codec (α : Type) where
  read : Mode → List UInt8 → Option (α × List UInt8)
  write : α → Option (List UInt8)
  strict : ∀ {bs v rest}, read .strict bs = some (v, rest) →
    ∃ enc, Codec.Encodes read write v enc ∧ bs = enc ++ rest
  lenient : ∀ {bs v rest}, read .lenient bs = some (v, rest) →
    read .strict bs = some (v, rest) ∨
      rest = [] ∧ ∃ enc, Codec.Encodes read write v enc ∧ Codec.Broken bs enc
  relax : ∀ {bs v rest}, read .strict bs = some (v, rest) →
    read .lenient bs = some (v, rest)

namespace Codec

variable {α β : Type} {c : Codec α} {m : Mode} {bs rest : List UInt8} {v : α}

/-! ## What holds of every layout -/

/-- Some input is read as `v`. -/
def Yields (c : Codec α) (v : α) : Prop :=
  ∃ m bs rest, c.read m bs = some (v, rest)

theorem encodes_of_read (h : c.read m bs = some (v, rest)) :
    ∃ enc, Encodes c.read c.write v enc := by
  cases m with
  | strict =>
    obtain ⟨enc, henc, -⟩ := c.strict h
    exact ⟨enc, henc⟩
  | lenient =>
    rcases c.lenient h with h | ⟨-, enc, henc, -⟩
    · obtain ⟨enc, henc, -⟩ := c.strict h
      exact ⟨enc, henc⟩
    · exact ⟨enc, henc⟩

theorem encodes_of_strict (h : c.read .strict bs = some (v, [])) :
    Encodes c.read c.write v bs := by
  obtain ⟨enc, henc, rfl⟩ := c.strict h
  rwa [List.append_nil]

theorem rest_of_read_nil (h : c.read .lenient [] = some (v, rest)) : rest = [] := by
  rcases c.lenient h with h | ⟨h, -⟩
  · obtain ⟨enc, -, heq⟩ := c.strict h
    exact (List.append_eq_nil_iff.mp heq.symm).2
  · exact h

/-- **Canonical encodings.** A value that a whole input is read as is written back
as the same bytes exactly when no number of the input is cut off. -/
theorem canonical_iff (h : c.read .lenient bs = some (v, [])) :
    c.write v = some bs ↔ (c.read .strict bs).isSome = true := by
  constructor
  · intro hw
    rcases c.lenient h with hs | ⟨-, enc, henc, hbroken⟩
    · rw [hs]
      rfl
    · rw [henc.written] at hw
      exact absurd (Option.some.inj hw).symm hbroken.ne
  · intro hs
    obtain ⟨⟨w, rest⟩, hs⟩ := Option.isSome_iff_exists.mp hs
    obtain ⟨rfl, rfl⟩ : w = v ∧ rest = [] := by
      rw [c.relax hs] at h
      cases h
      exact ⟨rfl, rfl⟩
    obtain ⟨enc, henc, rfl⟩ := c.strict hs
    rw [List.append_nil]
    exact henc.written

/-- An input that breaks off inside a number is not the only one that is read as
its value: the encoding is another. -/
theorem another_of_cut (h : c.read .lenient bs = some (v, []))
    (hcut : (c.read .strict bs).isSome = false) :
    ∃ bs', bs' ≠ bs ∧ c.read .strict bs' = some (v, []) := by
  rcases c.lenient h with hs | ⟨-, enc, henc, hbroken⟩
  · rw [hs] at hcut
    cases hcut
  · exact ⟨enc, hbroken.ne.symm, by simpa using henc.readBack []⟩

/-! ## Layouts without numbers -/

/-- Nothing is read and nothing is written. -/
def const (v : α) : Codec α where
  read _ bs := some (v, bs)
  write _ := some []
  strict h := by
    cases h
    exact ⟨[], ⟨rfl, fun _ => rfl⟩, rfl⟩
  lenient h := .inl h
  relax h := h

def fail : Codec α where
  read _ _ := none
  write _ := none
  strict h := by cases h
  lenient h := by cases h
  relax h := by cases h

def byte : Codec UInt8 where
  read _
    | [] => none
    | b :: rest => some (b, rest)
  write b := some [b]
  strict {bs v rest} h := by
    cases bs with
    | nil => cases h
    | cons b bs =>
      cases h
      exact ⟨[v], ⟨rfl, fun _ => rfl⟩, rfl⟩
  lenient h := .inl h
  relax h := h

/-! ## Numbers of variable length -/

/-- The loop of a reader of numbers below `2 ^ bits`: seven bits a byte, the lowest
first. A number that does not fit and a superfluous zero byte are errors. -/
def readVarint (bits : Nat) (m : Mode) (shift write : Nat) :
    List UInt8 → Option (Nat × List UInt8)
  | [] =>
    match m with
    | .strict => none
    | .lenient => some (write, [])
  | byte :: rest =>
    if shift + 7 ≥ bits ∧ byte.toNat ≥ 2 ^ (bits - shift) then none
    else if byte = 0 ∧ shift ≠ 0 then none
    else
      let write := write + byte.toNat % 128 * 2 ^ shift
      if byte.toNat < 128 then some (write, rest) else readVarint bits m (shift + 7) write rest

def writeVarint (i : Nat) : List UInt8 :=
  if 0x80 ≤ i then UInt8.ofNat (i % 128 + 128) :: writeVarint (i / 128) else [UInt8.ofNat i]

theorem writeVarint_of_lt {i : Nat} (h : i < 128) : writeVarint i = [UInt8.ofNat i] := by
  rw [writeVarint, if_neg (by omega)]

theorem writeVarint_of_le {i : Nat} (h : 128 ≤ i) :
    writeVarint i = UInt8.ofNat (i % 128 + 128) :: writeVarint (i / 128) := by
  rw [writeVarint, if_pos h]

theorem writeVarint_ne_nil (i : Nat) : writeVarint i ≠ [] := by
  rw [writeVarint]
  split <;> exact List.cons_ne_nil _ _

theorem length_writeVarint_le {i n : Nat} (h : i < 2 ^ (7 * (n + 1))) :
    (writeVarint i).length ≤ n + 1 := by
  induction n generalizing i with
  | zero =>
    rw [writeVarint_of_lt (by simpa using h)]
    rfl
  | succ n ih =>
    rcases Nat.lt_or_ge i 128 with hlt | hge
    · rw [writeVarint_of_lt hlt, List.length_singleton]
      omega
    · have hdiv : i / 128 < 2 ^ (7 * (n + 1)) := by
        refine Nat.div_lt_of_lt_mul ?_
        rwa [show 7 * (n + 1 + 1) = 7 + 7 * (n + 1) by omega, Nat.pow_add] at h
      rw [writeVarint_of_le hge, List.length_cons]
      exact Nat.succ_le_succ (ih hdiv)

theorem exists_lt_mem_writeVarint (i : Nat) : ∃ b ∈ writeVarint i, b.toNat < 128 := by
  induction i using Nat.strong_induction_on with
  | _ i ih =>
    by_cases h : 128 ≤ i
    · rw [writeVarint_of_le h]
      obtain ⟨b, hb, hlt⟩ := ih (i / 128) (by omega)
      exact ⟨b, List.mem_cons_of_mem _ hb, hlt⟩
    · rw [writeVarint_of_lt (by omega)]
      refine ⟨_, List.mem_singleton_self _, ?_⟩
      rw [UInt8.toNat_ofNat']
      omega

section Varint

variable {bits shift write n : Nat}

theorem readVarint_cons {b : UInt8} {bs : List UInt8}
    (h : readVarint bits m shift write (b :: bs) = some (n, rest)) :
    (shift ≠ 0 → b ≠ 0) ∧
      (b.toNat < 128 ∧ b.toNat < 2 ^ (bits - shift) ∧ n = write + b.toNat * 2 ^ shift ∧
          rest = bs ∨
        128 ≤ b.toNat ∧ shift + 7 < bits ∧
          readVarint bits m (shift + 7) (write + b.toNat % 128 * 2 ^ shift) bs =
            some (n, rest)) := by
  simp only [readVarint] at h
  split at h
  · cases h
  rename_i hfit
  split at h
  · cases h
  rename_i hzero
  refine ⟨fun hs hb => hzero ⟨hb, hs⟩, ?_⟩
  have hpow : bits ≤ shift + 7 → 2 ^ (bits - shift) ≤ 128 := fun hle =>
    Nat.pow_le_pow_right (n := 2) (by decide) (show bits - shift ≤ 7 by omega)
  split at h
  · rename_i hlt
    cases h
    refine .inl ⟨hlt, ?_, by rw [Nat.mod_eq_of_lt hlt], rfl⟩
    by_cases hs : shift + 7 ≥ bits
    · exact not_le.mp fun hle => hfit ⟨hs, hle⟩
    · calc b.toNat < 2 ^ 7 := hlt
        _ ≤ 2 ^ (bits - shift) := Nat.pow_le_pow_right (by decide) (by omega)
  · rename_i hge
    refine .inr ⟨not_lt.mp hge, ?_, h⟩
    by_contra hs
    exact hfit ⟨by omega, (hpow (by omega)).trans (not_lt.mp hge)⟩

theorem ofNat_add_128 {b : UInt8} (h : 128 ≤ b.toNat) :
    UInt8.ofNat (b.toNat % 128 + 128) = b := by
  have hlt : b.toNat < 256 := b.toNat_lt
  apply UInt8.toNat_inj.mp
  rw [UInt8.toNat_ofNat']
  omega

theorem readVarint_strict {bs : List UInt8} (hs : shift < bits)
    (h : readVarint bits .strict shift write bs = some (n, rest)) :
    ∃ k, n = write + k * 2 ^ shift ∧ (shift ≠ 0 → k ≠ 0) ∧ k < 2 ^ (bits - shift) ∧
      bs = writeVarint k ++ rest := by
  induction bs generalizing shift write with
  | nil => cases h
  | cons b bs ih =>
    obtain ⟨hzero, ⟨hlt, hfit, rfl, rfl⟩ | ⟨hge, hs', h⟩⟩ := readVarint_cons h
    · -- the last byte
      refine ⟨b.toNat, rfl, fun hne h0 => hzero hne (UInt8.toNat_inj.mp h0), hfit, ?_⟩
      rw [writeVarint_of_lt hlt, UInt8.ofNat_toNat]
      rfl
    · -- another byte follows, and with it a number that is not zero
      obtain ⟨k, rfl, hk, hfit, rfl⟩ := ih hs' h
      have hk := hk (by omega)
      refine ⟨b.toNat % 128 + k * 128, by rw [Nat.pow_add]; ring, by omega, ?_, ?_⟩
      · have hsplit : 2 ^ (bits - shift) = 2 ^ (bits - (shift + 7)) * 128 := by
          rw [show bits - shift = bits - (shift + 7) + 7 by omega, Nat.pow_add]
        omega
      · have hle : 128 ≤ b.toNat % 128 + k * 128 := by omega
        rw [writeVarint_of_le hle, show (b.toNat % 128 + k * 128) / 128 = k by omega,
          show (b.toNat % 128 + k * 128) % 128 = b.toNat % 128 by omega, ofNat_add_128 hge]
        rfl

theorem readVarint_lenient {bs : List UInt8} (hs : shift < bits)
    (h : readVarint bits .lenient shift write bs = some (n, rest)) :
    readVarint bits .strict shift write bs = some (n, rest) ∨
      rest = [] ∧ (∀ b ∈ bs, 128 ≤ b.toNat) ∧
        ∃ k, n = write + k * 2 ^ shift ∧ k < 2 ^ (bits - shift) := by
  induction bs generalizing shift write with
  | nil =>
    cases h
    exact .inr ⟨rfl, List.forall_mem_nil _, 0, by omega, Nat.two_pow_pos _⟩
  | cons b bs ih =>
    obtain ⟨hzero, hcase⟩ := readVarint_cons h
    have hguard : ¬ (b = 0 ∧ shift ≠ 0) := fun hb => hzero hb.2 hb.1
    rcases hcase with ⟨hlt, hfit, rfl, rfl⟩ | ⟨hge, hs', h⟩
    · refine .inl ?_
      have hfit' : ¬ (shift + 7 ≥ bits ∧ b.toNat ≥ 2 ^ (bits - shift)) := fun hb => by omega
      simp only [readVarint, if_neg hfit', if_neg hguard, if_pos hlt]
      rw [Nat.mod_eq_of_lt hlt]
    · have hfit' : ¬ (shift + 7 ≥ bits ∧ b.toNat ≥ 2 ^ (bits - shift)) := fun hb => by omega
      rcases ih hs' h with h | ⟨hrest, hall, k, rfl, hk⟩
      · refine .inl ?_
        simp only [readVarint, if_neg hfit', if_neg hguard, if_neg (not_lt.mpr hge)]
        exact h
      · refine .inr ⟨hrest, fun a ha => ?_, b.toNat % 128 + k * 128, ?_, ?_⟩
        · rcases List.mem_cons.mp ha with rfl | ha
          · exact hge
          · exact hall a ha
        · rw [Nat.pow_add]
          ring
        · have hsplit : 2 ^ (bits - shift) = 2 ^ (bits - (shift + 7)) * 128 := by
            rw [show bits - shift = bits - (shift + 7) + 7 by omega, Nat.pow_add]
          omega

theorem readVarint_relax {bs : List UInt8} {r : Nat × List UInt8}
    (h : readVarint bits .strict shift write bs = some r) :
    readVarint bits .lenient shift write bs = some r := by
  induction bs generalizing shift write with
  | nil => cases h
  | cons b bs ih =>
    simp only [readVarint] at h ⊢
    split at h
    · cases h
    rename_i hfit
    rw [if_neg hfit]
    split at h
    · cases h
    rename_i hzero
    rw [if_neg hzero]
    split at h
    · rename_i hlt
      rw [if_pos hlt, h]
    · rename_i hge
      rw [if_neg hge, ih h]

theorem readVarint_writeVarint {k : Nat} (hs : shift < bits) (hk : shift ≠ 0 → k ≠ 0)
    (hfit : k < 2 ^ (bits - shift)) (rest : List UInt8) :
    readVarint bits .strict shift write (writeVarint k ++ rest) =
      some (write + k * 2 ^ shift, rest) := by
  induction k using Nat.strong_induction_on generalizing shift write with
  | _ k ih =>
    by_cases hle : 128 ≤ k
    · have hbits : shift + 7 < bits := by
        by_contra hs'
        have : 2 ^ (bits - shift) ≤ 2 ^ 7 := Nat.pow_le_pow_right (by decide) (by omega)
        omega
      have hb : (UInt8.ofNat (k % 128 + 128)).toNat = k % 128 + 128 := by
        rw [UInt8.toNat_ofNat']
        omega
      have hne : UInt8.ofNat (k % 128 + 128) ≠ 0 := fun h0 => by
        rw [h0] at hb
        exact absurd hb (Nat.ne_of_lt (Nat.succ_pos _))
      have hsplit : 2 ^ (bits - shift) = 2 ^ (bits - (shift + 7)) * 128 := by
        rw [show bits - shift = bits - (shift + 7) + 7 by omega, Nat.pow_add]
      rw [writeVarint_of_le hle, List.cons_append]
      simp only [readVarint]
      rw [hb, if_neg (fun h => by omega), if_neg (fun h => hne h.1), if_neg (by omega),
        ih (k / 128) (by omega) hbits (fun _ => by omega) (by omega)]
      congr 2
      rw [Nat.pow_add, show (k % 128 + 128) % 128 = k % 128 by omega]
      calc write + k % 128 * 2 ^ shift + k / 128 * (2 ^ shift * 2 ^ 7)
          = write + (k % 128 + 128 * (k / 128)) * 2 ^ shift := by ring
        _ = write + k * 2 ^ shift := by rw [Nat.mod_add_div]
    · have hb : (UInt8.ofNat k).toNat = k := by
        rw [UInt8.toNat_ofNat']
        omega
      have hne : ¬ (UInt8.ofNat k = 0 ∧ shift ≠ 0) := fun h => hk h.2 (by
        rw [← hb, h.1]
        rfl)
      rw [writeVarint_of_lt (not_le.mp hle), List.singleton_append]
      simp only [readVarint]
      rw [hb, if_neg (fun h => by omega), if_neg hne, if_pos (not_le.mp hle),
        Nat.mod_eq_of_lt (not_le.mp hle)]

end Varint

def varint (bits : Nat) (hbits : 0 < bits) : Codec Nat where
  read m bs := readVarint bits m 0 0 bs
  write i := some (writeVarint i)
  strict {bs v rest} h := by
    obtain ⟨k, hv, -, hk, hbs⟩ := readVarint_strict hbits h
    have hkv : k = v := by omega
    subst hkv
    refine ⟨writeVarint k, ⟨rfl, fun rest => ?_⟩, hbs⟩
    rw [readVarint_writeVarint hbits (fun h => absurd rfl h) hk, ← hv]
  lenient {bs v rest} h := by
    rcases readVarint_lenient hbits h with h | ⟨hrest, hall, k, hv, hk⟩
    · exact .inl h
    · have hkv : k = v := by omega
      subst hkv
      refine .inr ⟨hrest, writeVarint k, ⟨rfl, fun rest => ?_⟩, [], bs, _, rfl, rfl, hall,
        exists_lt_mem_writeVarint k⟩
      rw [readVarint_writeVarint hbits (fun h => absurd rfl h) hk, ← hv]
  relax h := readVarint_relax h

theorem varint_lt {bits : Nat} {hbits : 0 < bits} {v : Nat} (h : (varint bits hbits).Yields v) :
    v < 2 ^ bits := by
  obtain ⟨m, bs, rest, h⟩ := h
  have hk : ∀ k, v = 0 + k * 2 ^ 0 → k < 2 ^ (bits - 0) → v < 2 ^ bits := by
    intro k hv hk
    rwa [hv, Nat.zero_add, Nat.pow_zero, Nat.mul_one]
  cases m with
  | strict =>
    obtain ⟨k, hv, -, hlt, -⟩ := readVarint_strict hbits h
    exact hk k hv hlt
  | lenient =>
    rcases readVarint_lenient hbits h with h | ⟨-, -, k, hv, hlt⟩
    · obtain ⟨k, hv, -, hlt, -⟩ := readVarint_strict hbits h
      exact hk k hv hlt
    · exact hk k hv hlt

/-! ## Layouts from layouts -/

section Bind

variable {γ : α → Type} {f : Codec α} {g : (a : α) → Codec (γ a)}

def readBind (f : Codec α) (g : (a : α) → Codec (γ a)) (m : Mode) (bs : List UInt8) :
    Option (((a : α) × γ a) × List UInt8) :=
  (f.read m bs).bind fun p => ((g p.1).read m p.2).map fun q => (⟨p.1, q.1⟩, q.2)

def writeBind (f : Codec α) (g : (a : α) → Codec (γ a)) (p : (a : α) × γ a) :
    Option (List UInt8) :=
  (f.write p.1).bind fun enc => ((g p.1).write p.2).map fun enc' => enc ++ enc'

theorem readBind_eq_some {p : (a : α) × γ a} :
    readBind f g m bs = some (p, rest) ↔
      ∃ mid, f.read m bs = some (p.1, mid) ∧ (g p.1).read m mid = some (p.2, rest) := by
  simp only [readBind, Option.bind_eq_some_iff, Option.map_eq_some_iff]
  constructor
  · rintro ⟨⟨a, mid⟩, hf, ⟨b, rest'⟩, hg, heq⟩
    cases heq
    exact ⟨mid, hf, hg⟩
  · rintro ⟨mid, hf, hg⟩
    exact ⟨(p.1, mid), hf, (p.2, rest), hg, rfl⟩

theorem Encodes.bind {p : (a : α) × γ a} {enc enc' : List UInt8}
    (hf : Encodes f.read f.write p.1 enc) (hg : Encodes (g p.1).read (g p.1).write p.2 enc') :
    Encodes (readBind f g) (writeBind f g) p (enc ++ enc') := by
  refine ⟨by rw [writeBind, hf.written, Option.bind_some, hg.written]; rfl, fun rest => ?_⟩
  rw [List.append_assoc]
  exact readBind_eq_some.mpr ⟨_, hf.readBack _, hg.readBack rest⟩

/-- One layout after another: what is read first decides how to go on. -/
def bind (f : Codec α) (g : (a : α) → Codec (γ a)) : Codec ((a : α) × γ a) where
  read := readBind f g
  write := writeBind f g
  strict h := by
    obtain ⟨mid, hf, hg⟩ := readBind_eq_some.mp h
    obtain ⟨enc, henc, rfl⟩ := f.strict hf
    obtain ⟨enc', henc', rfl⟩ := (g _).strict hg
    exact ⟨enc ++ enc', henc.bind henc', (List.append_assoc ..).symm⟩
  lenient h := by
    obtain ⟨mid, hf, hg⟩ := readBind_eq_some.mp h
    rcases f.lenient hf with hf | ⟨rfl, enc, henc, hbroken⟩
    · rcases (g _).lenient hg with hg | ⟨hrest, enc', henc', hbroken⟩
      · exact .inl (readBind_eq_some.mpr ⟨mid, hf, hg⟩)
      · obtain ⟨enc, henc, rfl⟩ := f.strict hf
        exact .inr ⟨hrest, enc ++ enc', henc.bind henc', hbroken.prepend enc⟩
    · -- the first part is cut off, and the second is read from nothing
      obtain ⟨enc', henc'⟩ := encodes_of_read hg
      exact .inr ⟨rest_of_read_nil hg, enc ++ enc', henc.bind henc', hbroken.append enc'⟩
  relax h := by
    obtain ⟨mid, hf, hg⟩ := readBind_eq_some.mp h
    exact readBind_eq_some.mpr ⟨mid, f.relax hf, (g _).relax hg⟩

theorem bind_read {p : (a : α) × γ a} :
    (f.bind g).read m bs = some (p, rest) ↔
      ∃ mid, f.read m bs = some (p.1, mid) ∧ (g p.1).read m mid = some (p.2, rest) :=
  readBind_eq_some

end Bind

/-- Two layouts that do not depend on each other. -/
def seq (f : Codec α) (g : Codec β) : Codec ((_ : α) × β) :=
  f.bind fun _ => g

theorem Encodes.seq {f : Codec α} {g : Codec β} {a : α} {b : β} {enc enc' : List UInt8}
    (hf : Encodes f.read f.write a enc) (hg : Encodes g.read g.write b enc') :
    Encodes (f.seq g).read (f.seq g).write ⟨a, b⟩ (enc ++ enc') :=
  Encodes.bind (g := fun _ => g) (p := ⟨a, b⟩) hf hg

section Refine

variable {into : α → Option β} {back : β → Option α}

def readRefine (c : Codec α) (into : α → Option β) (m : Mode) (bs : List UInt8) :
    Option (β × List UInt8) :=
  (c.read m bs).bind fun p => (into p.1).map fun b => (b, p.2)

theorem readRefine_eq_some {b : β} :
    readRefine c into m bs = some (b, rest) ↔
      ∃ a, c.read m bs = some (a, rest) ∧ into a = some b := by
  simp only [readRefine, Option.bind_eq_some_iff, Option.map_eq_some_iff]
  constructor
  · rintro ⟨⟨a, mid⟩, hc, b, hb, heq⟩
    cases heq
    exact ⟨a, hc, hb⟩
  · rintro ⟨a, hc, hb⟩
    exact ⟨(a, rest), hc, b, hb, rfl⟩

theorem Encodes.refine {a : α} {b : β} {enc : List UInt8}
    (henc : Encodes c.read c.write a enc) (hinto : into a = some b) (hback : back b = some a) :
    Encodes (readRefine c into) (fun b => (back b).bind c.write) b enc :=
  ⟨by rw [hback]; exact henc.written,
    fun rest => readRefine_eq_some.mpr ⟨a, henc.readBack rest, hinto⟩⟩

/-- The same bytes for other values: some that are read may be refused, and some
may have no encoding. -/
def refine (c : Codec α) (into : α → Option β) (back : β → Option α)
    (inverse : ∀ {a b}, c.Yields a → into a = some b → back b = some a) : Codec β where
  read := readRefine c into
  write b := (back b).bind c.write
  strict h := by
    obtain ⟨a, hc, hb⟩ := readRefine_eq_some.mp h
    obtain ⟨enc, henc, rfl⟩ := c.strict hc
    exact ⟨enc, henc.refine hb (inverse ⟨_, _, _, hc⟩ hb), rfl⟩
  lenient h := by
    obtain ⟨a, hc, hb⟩ := readRefine_eq_some.mp h
    rcases c.lenient hc with hs | ⟨hrest, enc, henc, hbroken⟩
    · exact .inl (readRefine_eq_some.mpr ⟨a, hs, hb⟩)
    · exact .inr ⟨hrest, enc, henc.refine hb (inverse ⟨_, _, _, hc⟩ hb), hbroken⟩
  relax h := by
    obtain ⟨a, hc, hb⟩ := readRefine_eq_some.mp h
    exact readRefine_eq_some.mpr ⟨a, c.relax hc, hb⟩

theorem refine_read {inverse} {b : β} :
    (c.refine into back inverse).read m bs = some (b, rest) ↔
      ∃ a, c.read m bs = some (a, rest) ∧ into a = some b :=
  readRefine_eq_some

end Refine

/-- The same bytes for another type of values. -/
def map (c : Codec α) (into : α → β) (back : β → α) (inverse : ∀ a, back (into a) = a) :
    Codec β :=
  c.refine (fun a => some (into a)) (fun b => some (back b)) fun _ h => by
    cases h
    rw [inverse]

theorem map_read {into : α → β} {back : β → α} {inverse} {b : β} :
    (c.map into back inverse).read m bs = some (b, rest) ↔
      ∃ a, c.read m bs = some (a, rest) ∧ into a = b :=
  refine_read.trans (exists_congr fun _ => and_congr_right fun _ => Option.some_inj)

theorem Encodes.map {into : α → β} {back : β → α} {inverse : ∀ a, back (into a) = a} {a : α}
    {enc : List UInt8} (h : Encodes c.read c.write a enc) :
    Encodes (c.map into back inverse).read (c.map into back inverse).write (into a) enc := by
  refine ⟨?_, fun rest => map_read.mpr ⟨a, h.readBack rest, rfl⟩⟩
  show c.write (back (into a)) = some enc
  rw [inverse, h.written]

/-- A condition on the values, tested by reader and writer alike. -/
def check (c : Codec α) (p : α → Bool) : Codec α :=
  c.refine (fun a => if p a then some a else none) (fun a => if p a then some a else none)
    fun _ h => by
      split at h
      · rename_i hp
        cases h
        exact if_pos hp
      · cases h

theorem check_read {p : α → Bool} :
    (c.check p).read m bs = some (v, rest) ↔ c.read m bs = some (v, rest) ∧ p v = true := by
  refine refine_read.trans ⟨?_, fun ⟨h, hp⟩ => ⟨v, h, if_pos hp⟩⟩
  rintro ⟨a, h, hinto⟩
  split at hinto
  · rename_i hp
    cases hinto
    exact ⟨h, hp⟩
  · cases hinto

/-- A writer of its own, that agrees on every value that can be read. -/
def withWriter (c : Codec α) (write : α → Option (List UInt8))
    (agrees : ∀ {v}, c.Yields v → write v = c.write v) : Codec α where
  read := c.read
  write := write
  strict h := by
    obtain ⟨enc, henc, heq⟩ := c.strict h
    exact ⟨enc, ⟨(agrees ⟨_, _, _, h⟩).trans henc.written, henc.readBack⟩, heq⟩
  lenient h := by
    rcases c.lenient h with hs | ⟨hrest, enc, henc, hbroken⟩
    · exact .inl hs
    · exact .inr ⟨hrest, enc, ⟨(agrees ⟨_, _, _, h⟩).trans henc.written, henc.readBack⟩, hbroken⟩
  relax h := c.relax h

/-- One of several tags, each with a byte of its own. -/
def tagged (tags : List α) (toByte : α → UInt8) : Codec α :=
  byte.refine (fun b => tags.find? fun t => toByte t == b) (fun t => some (toByte t))
    fun _ h => by
      have hb := List.find?_some h
      rw [eq_of_beq hb]

/-- A layout after each other one, without a count. -/
def each : List (Codec α) → Codec (List α)
  | [] =>
    (const ()).refine (fun _ => some [])
      (fun
        | [] => some ()
        | _ :: _ => none)
      fun _ h => by
        cases h
        rfl
  | c :: cs =>
    (c.seq (each cs)).refine (fun p => some (p.1 :: p.2))
      (fun
        | [] => none
        | v :: l => some ⟨v, l⟩)
      fun _ h => by
        cases h
        rfl

theorem each_cons_read {cs : List (Codec α)} {l : List α} :
    (each (c :: cs)).read m bs = some (l, rest) ↔
      ∃ v l' mid, l = v :: l' ∧ c.read m bs = some (v, mid) ∧
        (each cs).read m mid = some (l', rest) := by
  rw [each, refine_read]
  constructor
  · rintro ⟨⟨v, l'⟩, hread, heq⟩
    cases heq
    obtain ⟨mid, hc, hcs⟩ := bind_read.mp hread
    exact ⟨v, l', mid, rfl, hc, hcs⟩
  · rintro ⟨v, l', mid, rfl, hc, hcs⟩
    exact ⟨⟨v, l'⟩, bind_read.mpr ⟨mid, hc, hcs⟩, rfl⟩

theorem each_length {cs : List (Codec α)} {l : List α} (h : (each cs).Yields l) :
    l.length = cs.length := by
  obtain ⟨m, bs, rest, h⟩ := h
  induction cs generalizing l bs with
  | nil =>
    obtain ⟨-, -, heq⟩ := refine_read.mp h
    cases heq
    rfl
  | cons c cs ih =>
    obtain ⟨v, l', mid, rfl, -, hcs⟩ := each_cons_read.mp h
    rw [List.length_cons, List.length_cons, ih mid hcs]

def vec (n : Nat) (c : Codec α) : Codec (List α) :=
  each (List.replicate n c)

theorem vec_length {n : Nat} {l : List α} (h : (c.vec n).Yields l) : l.length = n := by
  rw [each_length h, List.length_replicate]

/-! ## Counted lists -/

/-- Every value takes at least one byte. -/
def Takes (c : Codec α) : Prop :=
  ∀ v enc, c.write v = some enc → enc ≠ []

theorem takes_byte : byte.Takes := by
  rintro v enc h rfl
  cases h

theorem takes_varint (bits : Nat) (hbits : 0 < bits) : (varint bits hbits).Takes := by
  rintro v enc h rfl
  exact writeVarint_ne_nil v (Option.some.inj h)

theorem Takes.bind {γ : α → Type} (h : c.Takes) (g : (a : α) → Codec (γ a)) :
    (c.bind g).Takes := by
  rintro v enc hw rfl
  obtain ⟨enc, hc, hg⟩ := Option.bind_eq_some_iff.mp hw
  obtain ⟨enc', -, heq⟩ := Option.map_eq_some_iff.mp hg
  exact h _ _ hc (List.append_eq_nil_iff.mp heq).1

theorem Takes.refine (h : c.Takes) {into : α → Option β} {back : β → Option α} {inverse} :
    (c.refine into back inverse).Takes := by
  intro b enc hw
  obtain ⟨a, -, hc⟩ := Option.bind_eq_some_iff.mp hw
  exact h a enc hc

theorem Takes.map (h : c.Takes) {into : α → β} {back : β → α} {inverse} :
    (c.map into back inverse).Takes :=
  Takes.refine h

theorem takes_tagged {tags : List α} {toByte : α → UInt8} : (tagged tags toByte).Takes :=
  Takes.refine takes_byte

theorem Takes.le_vec (h : c.Takes) {n : Nat} {l : List α} {enc : List UInt8}
    (hw : (c.vec n).write l = some enc) : n ≤ enc.length := by
  induction n generalizing l enc with
  | zero => exact Nat.zero_le _
  | succ n ih =>
    obtain ⟨p, -, hw⟩ := Option.bind_eq_some_iff.mp hw
    obtain ⟨enc₁, hc, hw⟩ := Option.bind_eq_some_iff.mp hw
    obtain ⟨enc₂, hvec, rfl⟩ := Option.map_eq_some_iff.mp hw
    have h₁ : 0 < enc₁.length := List.length_pos_iff.mpr (h _ _ hc)
    have h₂ : n ≤ enc₂.length := ih hvec
    rw [List.length_append]
    omega

/-- The reader first looks whether `n` bytes are left. -/
def needing (c : Codec α) (n : Nat) (room : ∀ v enc, c.write v = some enc → n ≤ enc.length) :
    Codec α where
  read m bs := if bs.length < n then none else c.read m bs
  write := c.write
  strict {bs v rest} h := by
    split at h
    · cases h
    obtain ⟨enc, henc, rfl⟩ := c.strict h
    refine ⟨enc, ⟨henc.written, fun rest => ?_⟩, rfl⟩
    have hle := room _ _ henc.written
    rw [if_neg (by rw [List.length_append]; omega), henc.readBack]
  lenient {bs v rest} h := by
    split at h
    · cases h
    rename_i hlen
    rcases c.lenient h with hs | ⟨hrest, enc, henc, hbroken⟩
    · exact .inl (by rw [if_neg hlen, hs])
    · refine .inr ⟨hrest, enc, ⟨henc.written, fun rest => ?_⟩, hbroken⟩
      have hle := room _ _ henc.written
      rw [if_neg (by rw [List.length_append]; omega), henc.readBack]
  relax h := by
    split at h
    · cases h
    rename_i hlen
    rw [if_neg hlen, c.relax h]

theorem needing_read {n : Nat} {room} (h : (c.needing n room).read m bs = some (v, rest)) :
    c.read m bs = some (v, rest) := by
  simp only [needing] at h
  split at h
  · cases h
  · exact h

/-! ## Words, blobs and lists -/

theorem vec_byte_read_iff {n : Nat} {l : List UInt8} :
    (byte.vec n).read m bs = some (l, rest) ↔ bs = l ++ rest ∧ l.length = n := by
  induction n generalizing bs l with
  | zero =>
    constructor
    · intro h
      cases h
      exact ⟨rfl, rfl⟩
    · rintro ⟨rfl, hl⟩
      rw [List.length_eq_zero_iff.mp hl]
      rfl
  | succ n ih =>
    constructor
    · intro h
      obtain ⟨b, l', mid, rfl, hb, hl⟩ := each_cons_read.mp h
      obtain ⟨rfl, hlen⟩ := ih.mp hl
      cases bs with
      | nil => cases hb
      | cons b' bs =>
        cases hb
        exact ⟨rfl, by rw [List.length_cons, hlen]⟩
    · rintro ⟨rfl, hl⟩
      cases l with
      | nil => cases hl
      | cons b l =>
        exact each_cons_read.mpr ⟨b, l, l ++ rest, rfl, rfl, ih.mpr ⟨rfl, by simpa using hl⟩⟩

def varint8 : Codec UInt8 :=
  (varint 8 (by decide)).refine (fun n => some (UInt8.ofNat n)) (fun v => some v.toNat)
    fun hn h => by
      cases h
      rw [UInt8.toNat_ofNat_of_lt' (varint_lt hn)]

def varint32 : Codec UInt32 :=
  (varint 32 (by decide)).refine (fun n => some (UInt32.ofNat n)) (fun v => some v.toNat)
    fun hn h => by
      cases h
      rw [UInt32.toNat_ofNat_of_lt' (varint_lt hn)]

def varint64 : Codec UInt64 :=
  (varint 64 (by decide)).refine (fun n => some (UInt64.ofNat n)) (fun v => some v.toNat)
    fun hn h => by
      cases h
      rw [UInt64.toNat_ofNat_of_lt' (varint_lt hn)]

theorem varint64_read_strict_iff {v : UInt64} :
    varint64.read .strict bs = some (v, rest) ↔ bs = writeVarint v.toNat ++ rest := by
  constructor
  · intro h
    obtain ⟨enc, henc, rfl⟩ := varint64.strict h
    obtain rfl : writeVarint v.toNat = enc := Option.some.inj henc.written
    rfl
  · rintro rfl
    refine refine_read.mpr ⟨v.toNat, ?_, by rw [UInt64.ofNat_toNat]⟩
    have hread : readVarint 64 .strict 0 0 (writeVarint v.toNat ++ rest) =
        some (0 + v.toNat * 2 ^ 0, rest) :=
      readVarint_writeVarint (by decide) (fun h => absurd rfl h) v.toNat_lt rest
    rwa [Nat.zero_add, Nat.pow_zero, Nat.mul_one] at hread

theorem takes_varint64 : varint64.Takes :=
  (takes_varint 64 (by decide)).refine

/-- The number whose lowest byte stands first. -/
def ofBytes (l : List UInt8) : Nat :=
  l.foldr (fun b n => b.toNat + 256 * n) 0

/-- The four bytes of a word, the lowest first. -/
def bytesOf32 (v : UInt32) : List UInt8 :=
  [UInt8.ofNat v.toNat, UInt8.ofNat (v.toNat / 256), UInt8.ofNat (v.toNat / 256 ^ 2),
    UInt8.ofNat (v.toNat / 256 ^ 3)]

theorem bytesOf32_ofBytes {l : List UInt8} (h : l.length = 4) :
    bytesOf32 (UInt32.ofNat (ofBytes l)) = l := by
  match l, h with
  | [a, b, c, d], _ =>
    have ha : a.toNat < 256 := a.toNat_lt
    have hb : b.toNat < 256 := b.toNat_lt
    have hc : c.toNat < 256 := c.toNat_lt
    have hd : d.toNat < 256 := d.toNat_lt
    have hv : (UInt32.ofNat (ofBytes [a, b, c, d])).toNat =
        a.toNat + 256 * (b.toNat + 256 * (c.toNat + 256 * d.toNat)) := by
      rw [UInt32.toNat_ofNat']
      simp only [ofBytes, List.foldr]
      omega
    simp only [bytesOf32, hv, List.cons.injEq, and_true, ← UInt8.toNat_inj, UInt8.toNat_ofNat']
    omega

/-- A word of 32 bits, byte by byte. -/
def uint32 : Codec UInt32 :=
  (byte.vec 4).refine (fun l => some (UInt32.ofNat (ofBytes l))) (fun v => some (bytesOf32 v))
    fun hl h => by
      cases h
      rw [bytesOf32_ofBytes (vec_length hl)]

abbrev Blob (n : Nat) :=
  { l : List UInt8 // l.length = n }

def blob (n : Nat) : Codec (Blob n) :=
  (byte.vec n).refine (fun l => if h : l.length = n then some ⟨l, h⟩ else none)
    (fun b => some b.1) fun _ h => by
      split at h
      · cases h
        rfl
      · cases h

theorem blob_read_iff {n : Nat} {b : Blob n} :
    (blob n).read m bs = some (b, rest) ↔ bs = b.1 ++ rest := by
  constructor
  · intro h
    obtain ⟨l, hl, hb⟩ := refine_read.mp h
    split at hb
    · cases hb
      exact (vec_byte_read_iff.mp hl).1
    · cases hb
  · rintro rfl
    exact refine_read.mpr ⟨b.1, vec_byte_read_iff.mpr ⟨rfl, b.2⟩, dif_pos b.2⟩

/-- A count and as many values. At least as many bytes must be left. -/
def array (c : Codec α) (takes : c.Takes) : Codec (List α) :=
  (varint64.bind fun n =>
    (c.vec n.toNat).needing n.toNat fun _ _ hw => takes.le_vec hw).refine
      (fun p => some p.2) (fun l => some ⟨UInt64.ofNat l.length, l⟩) fun hp h => by
        cases h
        obtain ⟨m, bs, rest, hread⟩ := hp
        obtain ⟨mid, -, hvec⟩ := bind_read.mp hread
        rw [vec_length ⟨_, _, _, needing_read hvec⟩, UInt64.ofNat_toNat]

theorem array_write_nil (takes : c.Takes) : (array c takes).write [] = some [0] := by
  have hzero : writeVarint (UInt64.ofNat 0).toNat = [0] := writeVarint_of_lt (by decide)
  show ((some (writeVarint (UInt64.ofNat 0).toNat)).bind fun enc =>
    ((c.vec (UInt64.ofNat 0).toNat).write []).map fun enc' => enc ++ enc') = some [0]
  rw [hzero]
  rfl

theorem encodes_array_byte {l : List UInt8} (h : l.length < 2 ^ 64) :
    Encodes (array byte takes_byte).read (array byte takes_byte).write l
      (writeVarint l.length ++ l) := by
  have hcount : (UInt64.ofNat l.length).toNat = l.length := UInt64.toNat_ofNat_of_lt' h
  refine encodes_of_strict (refine_read.mpr ⟨⟨UInt64.ofNat l.length, l⟩, bind_read.mpr
    ⟨l, varint64_read_strict_iff.mpr (by rw [hcount]), ?_⟩, rfl⟩)
  show (if l.length < (UInt64.ofNat l.length).toNat then none else _) = _
  rw [if_neg (by rw [hcount]; exact lt_irrefl _)]
  exact vec_byte_read_iff.mpr ⟨(List.append_nil l).symm, hcount.symm⟩

def counted (count : Codec UInt32) (c : Codec α) : Codec (List α) :=
  (count.bind fun n => c.vec n.toNat).refine (fun p => some p.2)
    (fun l => some ⟨UInt32.ofNat l.length, l.take (UInt32.ofNat l.length).toNat⟩) fun hp h => by
      cases h
      obtain ⟨m, bs, rest, hread⟩ := hp
      obtain ⟨mid, -, hvec⟩ := bind_read.mp hread
      have hlen := vec_length ⟨_, _, _, hvec⟩
      rw [hlen, UInt32.ofNat_toNat, ← hlen, List.take_length]

/-! ## Where a layout cannot break off -/

/-- The end of the input is an error. -/
def Firm (c : Codec α) : Prop :=
  c.read .lenient [] = none

/-- No number can be cut off: both readers agree. -/
def Sealed (c : Codec α) : Prop :=
  ∀ ⦃bs v rest⦄, c.read .lenient bs = some (v, rest) → c.read .strict bs = some (v, rest)

theorem firm_of_read (h : ∀ v rest, c.read .lenient [] ≠ some (v, rest)) : c.Firm :=
  Option.eq_none_iff_forall_not_mem.mpr fun p hp => h p.1 p.2 hp

theorem Firm.read_ne (h : c.Firm) : c.read .lenient [] ≠ some (v, rest) := by
  rw [h]
  exact Option.some_ne_none _ ∘ Eq.symm

theorem firm_fail : (fail : Codec α).Firm := rfl

theorem firm_byte : byte.Firm := rfl

theorem sealed_fail : (fail : Codec α).Sealed := fun _ _ _ h => h

theorem sealed_const (v : α) : (const v).Sealed := fun _ _ _ h => h

theorem sealed_byte : byte.Sealed := fun _ _ _ h => h

section Bind

variable {γ : α → Type} {f : Codec α} {g : (a : α) → Codec (γ a)}

theorem Firm.bind (h : f.Firm) : (f.bind g).Firm := by
  refine firm_of_read fun p rest hread => ?_
  obtain ⟨mid, hf, -⟩ := bind_read.mp hread
  exact h.read_ne hf

theorem firm_bind (h : ∀ a, (g a).Firm) : (f.bind g).Firm := by
  refine firm_of_read fun p rest hread => ?_
  obtain ⟨mid, hf, hg⟩ := bind_read.mp hread
  rw [rest_of_read_nil hf] at hg
  exact (h _).read_ne hg

theorem Sealed.bind (hf : f.Sealed) (hg : ∀ a, (g a).Sealed) : (f.bind g).Sealed := by
  intro bs p rest hread
  obtain ⟨mid, h₁, h₂⟩ := bind_read.mp hread
  exact bind_read.mpr ⟨mid, hf h₁, hg _ h₂⟩

theorem bind_strict_of_firm {p : (a : α) × γ a}
    (hread : (f.bind g).read .lenient bs = some (p, rest)) (hfirm : (g p.1).Firm)
    (hsealed : (g p.1).Sealed) : (f.bind g).read .strict bs = some (p, rest) := by
  obtain ⟨mid, h₁, h₂⟩ := bind_read.mp hread
  rcases f.lenient h₁ with h₁ | ⟨rfl, -⟩
  · exact bind_read.mpr ⟨mid, h₁, hsealed h₂⟩
  · exact absurd h₂ hfirm.read_ne

theorem sealed_bind (hfirm : ∀ a, (g a).Firm) (hsealed : ∀ a, (g a).Sealed) :
    (f.bind g).Sealed :=
  fun _ _ _ hread => bind_strict_of_firm hread (hfirm _) (hsealed _)

end Bind

section Refine

variable {into : α → Option β} {back : β → Option α} {inverse}

theorem Firm.refine (h : c.Firm) : (c.refine into back inverse).Firm := by
  refine firm_of_read fun b rest hread => ?_
  obtain ⟨a, hc, -⟩ := refine_read.mp hread
  exact h.read_ne hc

theorem Sealed.refine (h : c.Sealed) : (c.refine into back inverse).Sealed := by
  intro bs b rest hread
  obtain ⟨a, hc, hb⟩ := refine_read.mp hread
  exact refine_read.mpr ⟨a, h hc, hb⟩

end Refine

section Derived

variable {into : α → β} {back : β → α} {inverse} {tags : List α} {toByte : α → UInt8}

theorem Firm.map (h : c.Firm) : (c.map into back inverse).Firm :=
  Firm.refine h

theorem Sealed.map (h : c.Sealed) : (c.map into back inverse).Sealed :=
  Sealed.refine h

theorem firm_tagged : (tagged tags toByte).Firm :=
  Firm.refine firm_byte

theorem sealed_tagged : (tagged tags toByte).Sealed :=
  Sealed.refine sealed_byte

theorem firm_seq {d : Codec β} (h : d.Firm) : (c.seq d).Firm :=
  firm_bind fun _ => h

theorem Sealed.seq {d : Codec β} (hc : c.Sealed) (hd : d.Sealed) : (c.seq d).Sealed :=
  Sealed.bind hc fun _ => hd

theorem sealed_seq {d : Codec β} (hfirm : d.Firm) (hsealed : d.Sealed) : (c.seq d).Sealed :=
  sealed_bind (fun _ => hfirm) fun _ => hsealed

end Derived

theorem firm_each {cs : List (Codec α)} (hc : c ∈ cs) (h : c.Firm) : (each cs).Firm := by
  induction cs with
  | nil => cases hc
  | cons d cs ih =>
    rcases List.mem_cons.mp hc with rfl | hc
    · exact (Firm.bind h).refine
    · exact (firm_bind fun _ => ih hc).refine

theorem sealed_each {cs : List (Codec α)} (h : ∀ c ∈ cs, c.Sealed) : (each cs).Sealed := by
  induction cs with
  | nil => exact (sealed_const ()).refine
  | cons d cs ih =>
    obtain ⟨hd, hcs⟩ := List.forall_mem_cons.mp h
    exact (hd.bind fun _ => ih hcs).refine

theorem Firm.vec (h : c.Firm) {n : Nat} (hn : 0 < n) : (c.vec n).Firm :=
  firm_each (List.mem_replicate.mpr ⟨hn.ne', rfl⟩) h

theorem Sealed.vec (h : c.Sealed) (n : Nat) : (c.vec n).Sealed :=
  sealed_each fun d hd => by
    rw [List.eq_of_mem_replicate hd]
    exact h

theorem firm_blob {n : Nat} (hn : 0 < n) : (blob n).Firm :=
  (firm_byte.vec hn).refine

theorem sealed_blob (n : Nat) : (blob n).Sealed :=
  (sealed_byte.vec n).refine

theorem takes_blob {n : Nat} (hn : 0 < n) : (blob n).Takes :=
  Takes.refine fun _ _ hw henc => by
    have hle := takes_byte.le_vec hw
    rw [henc] at hle
    exact absurd hle (Nat.not_le.mpr hn)

theorem Broken.forall_le {bs : List UInt8} {b : UInt8} (h : Broken bs [b]) :
    ∀ b' ∈ bs, 128 ≤ b'.toNat := by
  obtain ⟨pre, c, t, rfl, heq, hc, b', hb', -⟩ := h
  have hlen := congrArg List.length heq
  have ht := List.length_pos_of_mem hb'
  rw [List.length_append, List.length_singleton] at hlen
  obtain rfl : pre = [] := List.length_eq_zero_iff.mp (by omega)
  exact hc

theorem array_lenient (takes : c.Takes) (hc : c.Sealed) {l : List α}
    (h : (array c takes).read .lenient bs = some (l, rest)) :
    (array c takes).read .strict bs = some (l, rest) ∨
      l = [] ∧ rest = [] ∧ ∀ b ∈ bs, 128 ≤ b.toNat := by
  obtain ⟨⟨n, l'⟩, hread, heq⟩ := refine_read.mp h
  obtain rfl : l' = l := Option.some.inj heq
  obtain ⟨mid, hcount, hvec⟩ := bind_read.mp hread
  rcases varint64.lenient hcount with hstrict | ⟨rfl, enc, henc, hbroken⟩
  · refine .inl (refine_read.mpr ⟨⟨n, l'⟩, bind_read.mpr ⟨mid, hstrict, ?_⟩, rfl⟩)
    dsimp only [needing] at hvec ⊢
    split at hvec
    · cases hvec
    · rename_i hroom
      rw [if_neg hroom, hc.vec _ hvec]
  · -- nothing is left, so nothing was announced
    dsimp only [needing] at hvec
    split at hvec
    · cases hvec
    rename_i hroom
    have hzero : n.toNat = 0 := by
      rw [List.length_nil] at hroom
      omega
    rw [hzero] at hvec
    cases hvec
    have hone : enc = [0] := by
      have hwritten : writeVarint n.toNat = enc := Option.some.inj henc.written
      rw [← hwritten, hzero]
      exact writeVarint_of_lt (by decide)
    rw [hone] at hbroken
    exact .inr ⟨rfl, rfl, hbroken.forall_le⟩

end Codec
