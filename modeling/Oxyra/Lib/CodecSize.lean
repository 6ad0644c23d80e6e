import Oxyra.Lib.Codec

/-!
# Sizes of encodings

How many bytes a layout takes for a value, if it can be written at all. The rules follow the
combinators, so that the size of a compound layout is the sum that its parts suggest.
-/

namespace Codec

variable {α β : Type} {c : Codec α} {v : α} {n k : Nat}

theorem bind_write {γ : α → Type} {g : (a : α) → Codec (γ a)} {p : (a : α) × γ a}
    {enc : List UInt8} (h : (c.bind g).write p = some enc) :
    ∃ enc₁ enc₂, c.write p.1 = some enc₁ ∧ (g p.1).write p.2 = some enc₂ ∧ enc = enc₁ ++ enc₂ := by
  obtain ⟨enc₁, h₁, h⟩ := Option.bind_eq_some_iff.mp h
  obtain ⟨enc₂, h₂, rfl⟩ := Option.map_eq_some_iff.mp h
  exact ⟨enc₁, enc₂, h₁, h₂, rfl⟩

theorem seq_write {d : Codec β} {w : β} {enc : List UInt8} (h : (c.seq d).write ⟨v, w⟩ = some enc) :
    ∃ enc₁ enc₂, c.write v = some enc₁ ∧ d.write w = some enc₂ ∧ enc = enc₁ ++ enc₂ :=
  bind_write h

def HasSize (c : Codec α) (v : α) (n : Nat) : Prop := ∀ ⦃enc⦄, c.write v = some enc → enc.length = n

theorem HasSize.congr (h : c.HasSize v n) (heq : n = k) : c.HasSize v k := heq ▸ h

theorem hasSize_const (w v : α) : (const w).HasSize v 0 := by
  intro enc h
  cases h
  rfl

theorem hasSize_byte (b : UInt8) : byte.HasSize b 1 := by
  intro enc h
  cases h
  rfl

theorem HasSize.bind {γ : α → Type} {g : (a : α) → Codec (γ a)} {p : (a : α) × γ a}
    (hc : c.HasSize p.1 n) (hg : (g p.1).HasSize p.2 k) : (c.bind g).HasSize p (n + k) := by
  intro enc h
  obtain ⟨enc₁, enc₂, h₁, h₂, rfl⟩ := bind_write h
  rw [List.length_append, hc h₁, hg h₂]

theorem HasSize.seq {d : Codec β} {w : β} (hc : c.HasSize v n) (hd : d.HasSize w k) :
    (c.seq d).HasSize ⟨v, w⟩ (n + k) :=
  HasSize.bind hc hd

theorem hasSize_refine {into : α → Option β} {back : β → Option α} {inverse} {b : β}
    (h : ∀ a, back b = some a → c.HasSize a n) : (c.refine into back inverse).HasSize b n := by
  intro enc hw
  obtain ⟨a, ha, hw⟩ := Option.bind_eq_some_iff.mp hw
  exact h a ha hw

theorem HasSize.map {into : α → β} {back : β → α} {inverse} {b : β} (h : c.HasSize (back b) n) :
    (c.map into back inverse).HasSize b n :=
  hasSize_refine fun a ha => by
    cases ha
    exact h

theorem HasSize.check {p : α → Bool} (h : c.HasSize v n) : (c.check p).HasSize v n :=
  hasSize_refine fun a ha => by
    split at ha
    · cases ha
      exact h
    · cases ha

theorem hasSize_each_nil (l : List α) : (each []).HasSize l 0 := by
  intro enc hw
  obtain ⟨a, -, hw⟩ := Option.bind_eq_some_iff.mp hw
  exact hasSize_const () a hw

theorem HasSize.each_cons {cs : List (Codec α)} {l : List α} (h : c.HasSize v n)
    (hl : (each cs).HasSize l k) : (each (c :: cs)).HasSize (v :: l) (n + k) := by
  intro enc hw
  exact h.seq hl hw

theorem hasSize_vec (h : ∀ v, c.HasSize v k) (n : Nat) (l : List α) :
    (c.vec n).HasSize l (n * k) := by
  induction n generalizing l with
  | zero => exact (hasSize_each_nil l).congr (Nat.zero_mul k).symm
  | succ n ih =>
    cases l with
    | nil =>
      intro enc hw
      cases hw
    | cons v l =>
      refine ((h v).each_cons (ih l)).congr ?_
      rw [Nat.succ_mul, Nat.add_comm]

theorem hasSize_blob (n : Nat) (b : Blob n) : (blob n).HasSize b n :=
  hasSize_refine fun a _ => (hasSize_vec hasSize_byte n a).congr (Nat.mul_one n)

theorem hasSize_varint64 {i : UInt64} (h : i.toNat < 128) : varint64.HasSize i 1 := by
  intro enc hw
  obtain rfl : writeVarint i.toNat = enc := Option.some.inj hw
  rw [writeVarint_of_lt h]
  rfl

theorem hasSize_varint32 {i : UInt32} (h : i.toNat < 128) : varint32.HasSize i 1 := by
  intro enc hw
  obtain rfl : writeVarint i.toNat = enc := Option.some.inj hw
  rw [writeVarint_of_lt h]
  rfl

theorem hasSize_array (takes : c.Takes) (h : ∀ v, c.HasSize v k) {l : List α}
    (hl : l.length < 128) : (array c takes).HasSize l (1 + l.length * k) := by
  have hcount : (UInt64.ofNat l.length).toNat = l.length :=
    UInt64.toNat_ofNat_of_lt' (hl.trans (by decide))
  refine hasSize_refine fun p hp => ?_
  cases hp
  have hvec := hasSize_vec h (UInt64.ofNat l.length).toNat l
  rw [hcount] at hvec
  exact HasSize.bind (hasSize_varint64 (by rw [hcount]; exact hl)) fun enc hw =>
    hvec (by rw [← hcount]; exact hw)

theorem hasSize_counted_one {count : Codec UInt32} (hcount : count.HasSize 1 n)
    (h : c.HasSize v k) : (counted count c).HasSize [v] (n + k) := by
  refine hasSize_refine fun p hp => ?_
  cases hp
  exact HasSize.bind hcount (h.each_cons (hasSize_each_nil []))

section Lists

variable {l : List α} {enc : List UInt8}

theorem vec_succ_write (h : (c.vec (n + 1)).write l = some enc) :
    ∃ w l' enc₁ enc₂, l = w :: l' ∧ c.write w = some enc₁ ∧ (c.vec n).write l' = some enc₂ := by
  cases l with
  | nil => cases h
  | cons w l =>
    have hw : (c.seq (c.vec n)).write ⟨w, l⟩ = some enc := h
    obtain ⟨enc₁, enc₂, hhead, hl, -⟩ := seq_write hw
    exact ⟨w, l, enc₁, enc₂, rfl, hhead, hl⟩

theorem length_of_vec_write (h : (c.vec n).write l = some enc) : l.length = n := by
  induction n generalizing l enc with
  | zero =>
    cases l with
    | nil => rfl
    | cons v l => cases h
  | succ n ih =>
    obtain ⟨w, l', enc₁, enc₂, rfl, -, hl⟩ := vec_succ_write h
    exact congrArg Nat.succ (ih hl)

theorem vec_write_mem (h : (c.vec n).write l = some enc) (hv : v ∈ l) :
    ∃ enc', c.write v = some enc' := by
  induction n generalizing l enc with
  | zero =>
    obtain rfl := List.length_eq_zero_iff.mp (length_of_vec_write h)
    cases hv
  | succ n ih =>
    obtain ⟨w, l', enc₁, enc₂, rfl, hhead, hl⟩ := vec_succ_write h
    rcases List.mem_cons.mp hv with rfl | hv
    · exact ⟨enc₁, hhead⟩
    · exact ih hl hv

theorem array_write_vec {takes : c.Takes} (h : (array c takes).write l = some enc) :
    ∃ enc', (c.vec (UInt64.ofNat l.length).toNat).write l = some enc' := by
  have hw : ((some (writeVarint (UInt64.ofNat l.length).toNat)).bind fun enc =>
      ((c.vec (UInt64.ofNat l.length).toNat).write l).map fun enc' => enc ++ enc') = some enc := h
  rw [Option.bind_some] at hw
  obtain ⟨enc', hl, -⟩ := Option.map_eq_some_iff.mp hw
  exact ⟨enc', hl⟩

theorem length_of_array_write {takes : c.Takes} (h : (array c takes).write l = some enc) :
    l.length < 2 ^ 64 := by
  obtain ⟨enc', hl⟩ := array_write_vec h
  rw [length_of_vec_write hl]
  exact UInt64.toNat_lt _

theorem array_write_mem {takes : c.Takes} (h : (array c takes).write l = some enc) (hv : v ∈ l) :
    ∃ enc', c.write v = some enc' := by
  obtain ⟨enc', hl⟩ := array_write_vec h
  exact vec_write_mem hl hv

end Lists

end Codec
