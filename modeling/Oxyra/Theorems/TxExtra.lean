import Oxyra.Core.TxExtra
import Oxyra.Lib.StableSort

/-!
# Rewriting the extra field

* A field that has been read can be written, and what is written is read back as that field
  (`readField_written`). Padding is read back only where nothing follows it, and it is read only
  where nothing does.
* The bytes that were read are the ones written, or the input breaks off in the length of an empty
  field (`parseTxExtra_split`): the reader takes the end of the input for the end of a number.
* `tx_extra_rewritten`: sorting and removing fields. `extra_nonce_read_iff`: adding a nonce.
-/

namespace Oxyra.Wire

open Codec

variable {bs rest extra : List UInt8} {f : TxExtraField} {fields : List TxExtraField} {m : Mode}

/-! ## Fields with a length -/

theorem TxExtraTag.toByte_ne (t : TxExtraTag) : t.toByte ≠ txExtraTagPadding := by
  cases t <;> decide

theorem mergeMiningTag_read {tag : MergeMiningTag} :
    mergeMiningTag.read m bs = some (tag, rest) ↔
      ∃ l, bytes.read m bs = some (l, rest) ∧ mmTagHelper.read .lenient l = some (tag, []) := by
  refine refine_read.trans (exists_congr fun l => and_congr_right fun _ => ?_)
  split
  · rename_i hread
    rw [hread]
    simp
  · rename_i hno
    constructor
    · intro h
      cases h
    · intro h
      exact absurd h (hno tag)

theorem dataField_read_iff : dataField.read m bs = some (f, rest) ↔
    ∃ (t : TxExtraTag) (b : t.Body) (mid : List UInt8), bs = t.toByte :: mid ∧
      (txExtraBody t).read m mid = some (b, rest) ∧ f = TxExtraField.ofBody ⟨t, b⟩ := by
  constructor
  · intro h
    obtain ⟨⟨t, b⟩, hread, hf⟩ := refine_read.mp h
    obtain ⟨mid, htag, hbody⟩ := bind_read.mp hread
    obtain ⟨byte, hbyte, hfind⟩ := refine_read.mp htag
    cases bs with
    | nil => cases hbyte
    | cons b' bs =>
      cases hbyte
      have heq : t.toByte = byte := by simpa using List.find?_some hfind
      exact ⟨t, b, mid, by rw [heq], hbody, (Option.some.inj hf).symm⟩
  · rintro ⟨t, b, mid, rfl, hbody, rfl⟩
    refine refine_read.mpr ⟨⟨t, b⟩, bind_read.mpr ⟨mid, ?_, hbody⟩, rfl⟩
    refine refine_read.mpr ⟨t.toByte, rfl, ?_⟩
    cases t <;> rfl

def encode (f : TxExtraField) : List UInt8 := (writeField f).getD []

theorem TxExtraField.ofBody_type_ne (p : (t : TxExtraTag) × t.Body) :
    (TxExtraField.ofBody p).type ≠ .padding := by
  obtain ⟨t, b⟩ := p
  cases t <;> exact TxExtraType.noConfusion

theorem writeField_of_type_ne (h : f.type ≠ .padding) : writeField f = dataField.write f := by
  cases f with
  | padding size => exact absurd rfl h
  | _ => rfl

theorem encode_ofBody {t : TxExtraTag} {b : t.Body} {enc : List UInt8}
    (h : (txExtraBody t).write b = some enc) :
    encode (TxExtraField.ofBody ⟨t, b⟩) = t.toByte :: enc := by
  have hbody : dataField.write (TxExtraField.ofBody ⟨t, b⟩) = taggedBody.write ⟨t, b⟩ := by
    show (TxExtraField.ofBody ⟨t, b⟩).body.bind taggedBody.write = _
    rw [TxExtraField.body_ofBody, Option.bind_some]
  have htagged : taggedBody.write ⟨t, b⟩ = some (t.toByte :: enc) := by
    show ((txExtraBody t).write b).map ([t.toByte] ++ ·) = _
    rw [h]
    rfl
  rw [encode, writeField_of_type_ne (TxExtraField.ofBody_type_ne _), hbody, htagged,
    Option.getD_some]

/-- The fields whose length may be zero, if it is. -/
def TxExtraField.IsEmpty (f : TxExtraField) : Prop :=
  f = .nonce [] ∨ f = .additionalPubKeys [] ∨ f = .mysteriousMinergate []

theorem encode_of_isEmpty (h : f.IsEmpty) : ∃ tag, tag ≠ 0 ∧ encode f = [tag, 0] := by
  rcases h with rfl | rfl | rfl
  · have hempty : bytes.write [] = some [0] := array_write_nil takes_byte
    exact ⟨_, by decide, @encode_ofBody .nonce [] _ hempty⟩
  · exact ⟨_, by decide, @encode_ofBody .additionalPubKeys [] _ (array_write_nil takes_key)⟩
  · exact ⟨_, by decide, @encode_ofBody .mysteriousMinergate [] _ (array_write_nil takes_byte)⟩

/-- The input `bs` breaks off in the length of the empty field `f`. -/
def Cut (f : TxExtraField) (bs : List UInt8) : Prop :=
  f.IsEmpty ∧ ∃ tag mid, bs = tag :: mid ∧ encode f = [tag, 0] ∧ tag ≠ 0 ∧
    ∀ b ∈ mid, 128 ≤ b.toNat

theorem dataField_lenient (h : dataField.read .lenient bs = some (f, rest)) :
    dataField.read .strict bs = some (f, rest) ∨ rest = [] ∧ Cut f bs := by
  obtain ⟨t, b, mid, rfl, hbody, rfl⟩ := dataField_read_iff.mp h
  have hstrict : (txExtraBody t).read .strict mid = some (b, rest) →
      dataField.read .strict (t.toByte :: mid) = some (TxExtraField.ofBody ⟨t, b⟩, rest) :=
    fun h => dataField_read_iff.mpr ⟨t, b, mid, rfl, h, rfl⟩
  cases t with
  | pubKey => exact .inl (hstrict (sealed_key hbody))
  | nonce =>
    obtain ⟨hl, hcheck⟩ := check_read.mp hbody
    rcases array_lenient takes_byte sealed_byte hl with hs | ⟨rfl, hrest, hcut⟩
    · exact .inl (hstrict (check_read.mpr ⟨hs, hcheck⟩))
    · have hempty : bytes.write [] = some [0] := array_write_nil takes_byte
      exact .inr ⟨hrest, .inl rfl, _, mid, rfl, encode_ofBody hempty, by decide, hcut⟩
  | mergeMiningTag =>
    obtain ⟨l, hl, hinner⟩ := mergeMiningTag_read.mp hbody
    rcases array_lenient takes_byte sealed_byte hl with hs | ⟨rfl, -, -⟩
    · exact .inl (hstrict (mergeMiningTag_read.mpr ⟨l, hs, hinner⟩))
    · cases hinner
  | additionalPubKeys =>
    rcases array_lenient takes_key sealed_key hbody with hs | ⟨rfl, hrest, hcut⟩
    · exact .inl (hstrict hs)
    · exact .inr ⟨hrest, .inr (.inl rfl), _, mid, rfl, encode_ofBody (array_write_nil takes_key),
        by decide, hcut⟩
  | mysteriousMinergate =>
    rcases array_lenient takes_byte sealed_byte hbody with hs | ⟨rfl, hrest, hcut⟩
    · exact .inl (hstrict hs)
    · exact .inr ⟨hrest, .inr (.inr rfl), _, mid, rfl, encode_ofBody (array_write_nil takes_byte),
        by decide, hcut⟩

theorem readField_of_data (h : dataField.read .lenient bs = some (f, rest)) :
    readField bs = some (f, rest) := by
  obtain ⟨t, b, mid, rfl, -, -⟩ := dataField_read_iff.mp h
  rw [readField, if_neg t.toByte_ne, h]

/-! ## All fields -/

theorem paddingLoop_eq_some {size n : Nat} :
    paddingLoop size bs = some n ↔ n ≤ 255 ∧ size ≤ n ∧ bs = List.replicate (n - size) 0 := by
  induction bs generalizing size with
  | nil =>
    rw [paddingLoop, txExtraPaddingMaxCount]
    constructor
    · intro h
      split at h
      · obtain rfl := Option.some.inj h
        simpa
      · cases h
    · rintro ⟨hmax, hle, heq⟩
      have hlen := congrArg List.length heq
      rw [List.length_nil, List.length_replicate] at hlen
      rw [if_pos (by omega), show size = n by omega]
  | cons b bs ih =>
    rw [paddingLoop, txExtraPaddingMaxCount]
    constructor
    · intro h
      split at h
      · split at h
        · cases h
        · rename_i hb
          obtain ⟨hmax, hle, rfl⟩ := ih.mp h
          refine ⟨hmax, by omega, ?_⟩
          rw [show n - size = n - (size + 1) + 1 by omega, List.replicate_succ, not_not.mp hb]
      · cases h
    · rintro ⟨hmax, hle, heq⟩
      have hlen := congrArg List.length heq
      rw [List.length_cons, List.length_replicate] at hlen
      rw [show n - size = n - (size + 1) + 1 by omega, List.replicate_succ, List.cons.injEq]
        at heq
      rw [if_pos (by omega), if_neg (not_not.mpr heq.1)]
      exact ih.mpr ⟨hmax, by omega, heq.2⟩

theorem readField_cases (h : readField bs = some (f, rest)) :
    (∃ size, f = .padding size ∧ rest = [] ∧ 1 ≤ size ∧ size ≤ 255 ∧
      bs = txExtraTagPadding :: List.replicate (size - 1) 0) ∨
    dataField.read .lenient bs = some (f, rest) := by
  cases bs with
  | nil => cases h
  | cons tag bs =>
    rw [readField] at h
    split at h
    · rename_i htag
      obtain ⟨size, hsize, heq⟩ := Option.map_eq_some_iff.mp h
      obtain ⟨rfl, rfl⟩ := Prod.mk.inj heq
      obtain ⟨hmax, hle, rfl⟩ := paddingLoop_eq_some.mp hsize
      exact .inl ⟨size, rfl, rfl, hle, hmax, by rw [htag]⟩
    · exact .inr h

/-- The field can be written, and what is written is read back: padding at the end of the input, the
others wherever they stand. -/
structure Written (f : TxExtraField) : Prop where
  written : writeField f = some (encode f)
  nonempty : encode f ≠ []
  atEnd : readField (encode f) = some (f, [])
  before : f.type ≠ .padding → ∀ rest, readField (encode f ++ rest) = some (f, rest)

theorem encode_padding {size : Nat} (h : size ≤ 255) :
    writeField (.padding size) = some (encode (.padding size)) ∧
      encode (.padding size) = txExtraTagPadding :: List.replicate (size - 1) 0 := by
  have heq : writeField (.padding size) =
      some (txExtraTagPadding :: List.replicate (size - 1) 0) := by
    rw [writeField, txExtraPaddingMaxCount, if_neg (by omega)]
  rw [encode, heq]
  exact ⟨rfl, rfl⟩

/-- **What is read can be written and read back.** -/
theorem readField_written (h : readField bs = some (f, rest)) : Written f := by
  rcases readField_cases h with ⟨size, rfl, rfl, hpos, hmax, rfl⟩ | hdata
  · obtain ⟨hwritten, henc⟩ := encode_padding hmax
    exact ⟨hwritten, by simp [henc], by rw [henc]; exact h, fun hne => absurd rfl hne⟩
  · obtain ⟨enc, henc⟩ := dataField.encodes_of_read hdata
    have htype : f.type ≠ .padding := by
      obtain ⟨t, b, mid, -, -, rfl⟩ := dataField_read_iff.mp hdata
      exact TxExtraField.ofBody_type_ne _
    have hwritten : writeField f = some enc := (writeField_of_type_ne htype).trans henc.written
    have heq : encode f = enc := by rw [encode, hwritten, Option.getD_some]
    have hback : ∀ rest, readField (enc ++ rest) = some (f, rest) :=
      fun rest => readField_of_data (dataField.relax (henc.readBack rest))
    refine ⟨heq ▸ hwritten, ?_, ?_, fun _ => heq ▸ hback⟩
    · rw [heq]
      rintro rfl
      exact absurd (hback []) (by simp [readField])
    · have := hback []
      rwa [List.append_nil, ← heq] at this

/-- What was read is what is written, or it breaks off in the length of an empty field. -/
theorem readField_split (h : readField bs = some (f, rest)) :
    bs = encode f ++ rest ∨ rest = [] ∧ Cut f bs := by
  rcases readField_cases h with ⟨size, rfl, rfl, hpos, hmax, rfl⟩ | hdata
  · rw [(encode_padding hmax).2, List.append_nil]
    exact .inl rfl
  · rcases dataField_lenient hdata with hstrict | hcut
    · obtain ⟨enc, henc, rfl⟩ := dataField.strict hstrict
      have htype : f.type ≠ .padding := by
        obtain ⟨t, b, mid, -, -, rfl⟩ := dataField_read_iff.mp hdata
        exact TxExtraField.ofBody_type_ne _
      rw [encode, writeField_of_type_ne htype, henc.written]
      exact .inl rfl
    · exact .inr hcut

/-! ## Sequences of fields -/

def encodeAll (fields : List TxExtraField) : List UInt8 := fields.flatMap encode

/-- What a parsed sequence of fields is like: nothing follows padding. -/
structure Parsed (fields : List TxExtraField) : Prop where
  written : ∀ f ∈ fields, Written f
  paddingLast : fields.Pairwise fun f _ => f.type ≠ .padding

theorem Parsed.sublist {fields' : List TxExtraField} (h : Parsed fields)
    (hsub : fields'.Sublist fields) : Parsed fields' :=
  ⟨fun f hf => h.written f (hsub.subset hf), h.paddingLast.sublist hsub⟩

theorem type_ne_of_rest (h : readField bs = some (f, rest)) (hrest : rest ≠ []) :
    f.type ≠ .padding := by
  rcases readField_cases h with ⟨size, rfl, rfl, -⟩ | hdata
  · exact absurd rfl hrest
  · obtain ⟨t, b, mid, -, -, rfl⟩ := dataField_read_iff.mp hdata
    exact TxExtraField.ofBody_type_ne _

theorem parseLoop_succ {fuel : Nat} (h : parseLoop (fuel + 1) bs = some fields) :
    ∃ f rest, readField bs = some (f, rest) ∧ (rest = [] ∧ fields = [f] ∨
      rest ≠ [] ∧ ∃ more, parseLoop fuel rest = some more ∧ fields = f :: more) := by
  rw [parseLoop] at h
  obtain ⟨⟨f, rest⟩, hread, h⟩ := Option.bind_eq_some_iff.mp h
  refine ⟨f, rest, hread, ?_⟩
  split at h
  · rename_i hrest
    exact .inl ⟨hrest, (Option.some.inj h).symm⟩
  · rename_i hrest
    obtain ⟨more, hmore, heq⟩ := Option.map_eq_some_iff.mp h
    exact .inr ⟨hrest, more, hmore, heq.symm⟩

theorem parseLoop_parsed (fuel : Nat) : ∀ {bs : List UInt8} {fields : List TxExtraField},
    parseLoop fuel bs = some fields → Parsed fields ∧ fields ≠ [] := by
  induction fuel with
  | zero => intro bs fields h; cases h
  | succ fuel ih =>
    intro bs fields h
    obtain ⟨f, rest, hread, ⟨-, rfl⟩ | ⟨hrest, more, hmore, rfl⟩⟩ := parseLoop_succ h
    · exact ⟨⟨by simpa using readField_written hread, List.pairwise_singleton ..⟩, by simp⟩
    · obtain ⟨hparsed, -⟩ := ih hmore
      refine ⟨⟨List.forall_mem_cons.mpr ⟨readField_written hread, hparsed.written⟩, ?_⟩, by simp⟩
      exact List.pairwise_cons.mpr ⟨fun _ _ => type_ne_of_rest hread hrest, hparsed.paddingLast⟩

/-- **Written fields are read back.** -/
theorem parseLoop_encodeAll : ∀ {fields : List TxExtraField} {fuel : Nat}, Parsed fields →
    fields ≠ [] → fields.length ≤ fuel → parseLoop fuel (encodeAll fields) = some fields := by
  intro fields
  induction fields with
  | nil => exact fun _ hne _ => absurd rfl hne
  | cons f fields ih =>
    intro fuel h _ hfuel
    obtain ⟨fuel, rfl⟩ : ∃ n, fuel = n + 1 :=
      Nat.exists_eq_add_one_of_ne_zero (by rw [List.length_cons] at hfuel; omega)
    obtain ⟨hf, hfields⟩ := List.forall_mem_cons.mp h.written
    obtain ⟨htype, hlast⟩ := List.pairwise_cons.mp h.paddingLast
    have hall : encodeAll (f :: fields) = encode f ++ encodeAll fields := rfl
    rw [hall, parseLoop]
    cases fields with
    | nil =>
      have hnil : encodeAll [] = [] := rfl
      rw [hnil, List.append_nil, hf.atEnd, Option.bind_some, if_pos rfl]
    | cons g fields =>
      have hmore : encodeAll (g :: fields) ≠ [] := by
        intro hempty
        exact (hfields g List.mem_cons_self).nonempty (List.append_eq_nil_iff.mp hempty).1
      rw [hf.before (htype g List.mem_cons_self), Option.bind_some, if_neg hmore,
        ih ⟨hfields, hlast⟩ (by simp) (Nat.le_of_succ_le_succ hfuel), Option.map_some]

theorem length_le_encodeAll (h : Parsed fields) : fields.length ≤ (encodeAll fields).length := by
  induction fields with
  | nil => exact Nat.zero_le _
  | cons f fields ih =>
    have hall : encodeAll (f :: fields) = encode f ++ encodeAll fields := rfl
    have hpos := List.length_pos_iff.mpr (h.written f List.mem_cons_self).nonempty
    have hrest := ih (h.sublist (List.sublist_cons_self ..))
    rw [hall, List.length_append, List.length_cons]
    omega

theorem parseTxExtra_encodeAll (h : Parsed fields) :
    parseTxExtra (encodeAll fields) = some fields := by
  rw [parseTxExtra]
  cases fields with
  | nil => rfl
  | cons f fields =>
    have hlen := length_le_encodeAll h
    have hne : encodeAll (f :: fields) ≠ [] := by
      rw [← List.length_pos_iff]
      rw [List.length_cons] at hlen
      omega
    rw [if_neg hne, parseLoop_encodeAll h (by simp) hlen]

theorem parseTxExtra_parsed (h : parseTxExtra extra = some fields) : Parsed fields := by
  rw [parseTxExtra] at h
  split at h
  · obtain rfl := Option.some.inj h
    exact ⟨by simp, .nil⟩
  · exact (parseLoop_parsed _ h).1

theorem parseLoop_split (fuel : Nat) : ∀ {bs : List UInt8} {fields : List TxExtraField},
    parseLoop fuel bs = some fields → bs = encodeAll fields ∨
      ∃ init f c, fields = init ++ [f] ∧ bs = encodeAll init ++ c ∧ Cut f c := by
  induction fuel with
  | zero => intro bs fields h; cases h
  | succ fuel ih =>
    intro bs fields h
    obtain ⟨f, rest, hread, ⟨rfl, rfl⟩ | ⟨hrest, more, hmore, rfl⟩⟩ := parseLoop_succ h
    · rcases readField_split hread with rfl | ⟨-, hcut⟩
      · exact .inl rfl
      · exact .inr ⟨[], f, bs, rfl, rfl, hcut⟩
    · obtain rfl : bs = encode f ++ rest :=
        (readField_split hread).resolve_right fun h => hrest h.1
      rcases ih hmore with rfl | ⟨init, g, c, rfl, rfl, hcut⟩
      · exact .inl rfl
      · exact .inr ⟨f :: init, g, c, rfl, (List.append_assoc ..).symm, hcut⟩

theorem parseTxExtra_split (h : parseTxExtra extra = some fields) : extra = encodeAll fields ∨
    ∃ init f c, fields = init ++ [f] ∧ extra = encodeAll init ++ c ∧ Cut f c := by
  rw [parseTxExtra] at h
  split at h
  · rename_i hempty
    obtain rfl := Option.some.inj h
    exact .inl hempty
  · exact parseLoop_split _ h

/-! ## Sorting and removing -/

theorem sortLoop_of_parseLoop (fuel : Nat) : ∀ {bs : List UInt8} {fields : List TxExtraField},
    parseLoop fuel bs = some fields → sortLoop fuel bs = (fields, []) := by
  induction fuel with
  | zero => intro bs fields h; cases h
  | succ fuel ih =>
    intro bs fields h
    obtain ⟨f, rest, hread, ⟨rfl, rfl⟩ | ⟨hrest, more, hmore, rfl⟩⟩ := parseLoop_succ h
    · rw [sortLoop, hread]
      rfl
    · rw [sortLoop, hread]
      dsimp only
      rw [if_neg hrest, ih hmore]

theorem mapM_writeField : ∀ {fields : List TxExtraField}, (∀ f ∈ fields, Written f) →
    fields.mapM writeField = some (fields.map encode) := by
  intro fields
  induction fields with
  | nil => exact fun _ => rfl
  | cons f fields ih =>
    intro h
    obtain ⟨hf, hfields⟩ := List.forall_mem_cons.mp h
    rw [List.mapM_cons, hf.written, ih hfields]
    rfl

theorem pick_eq (h : ∀ f ∈ fields, Written f) (t : TxExtraType) :
    pick t fields = some (encodeAll (fields.filter (·.type = t)), fields.filter (·.type ≠ t)) := by
  rw [pick, mapM_writeField fun f hf => h f (List.mem_filter.mp hf).1, Option.map_some,
    encodeAll, List.flatMap_def]

def byType (ts : List TxExtraType) (fields : List TxExtraField) : List TxExtraField :=
  ts.flatMap fun t => fields.filter (·.type = t)

theorem pickAll_eq (ts : List TxExtraType) : ∀ {fields : List TxExtraField}, ts.Nodup →
    (∀ f ∈ fields, Written f) →
    pickAll ts fields = some (encodeAll (byType ts fields), fields.filter (·.type ∉ ts)) := by
  induction ts with
  | nil =>
    intro fields _ _
    rw [pickAll]
    simp [byType, encodeAll]
  | cons t ts ih =>
    intro fields hnodup h
    obtain ⟨ht, hts⟩ := List.nodup_cons.mp hnodup
    rw [pickAll, pick_eq h, Option.bind_some,
      ih hts fun f hf => h f (List.mem_filter.mp hf).1, Option.map_some]
    have hrest : byType ts (fields.filter (·.type ≠ t)) = byType ts fields := by
      unfold byType
      refine List.flatMap_congr fun t' ht' => ?_
      rw [List.filter_filter]
      refine List.filter_congr fun f _ => ?_
      have hne : t' ≠ t := fun heq => ht (heq ▸ ht')
      by_cases hf : f.type = t' <;> simp [hf, hne]
    rw [hrest, List.filter_filter]
    refine congrArg some (Prod.ext ?_ ?_)
    · have hcons : byType (t :: ts) fields =
          fields.filter (·.type = t) ++ byType ts fields := rfl
      rw [hcons, encodeAll, encodeAll, encodeAll, List.flatMap_append]
    · dsimp only
      refine List.filter_congr fun f _ => ?_
      by_cases hf : f.type = t <;> simp [hf]

def TxExtraType.rank : TxExtraType → Nat
  | .pubKey => 0
  | .additionalPubKeys => 1
  | .nonce => 2
  | .mergeMiningTag => 3
  | .mysteriousMinergate => 4
  | .padding => 5

def TxExtraField.rank (f : TxExtraField) : Nat := f.type.rank

theorem TxExtraType.rank_inj {t t' : TxExtraType} : t.rank = t'.rank ↔ t = t' := by
  cases t <;> cases t' <;> decide

theorem TxExtraType.rank_le (t : TxExtraType) : t.rank ≤ 5 := by cases t <;> decide

theorem mem_sortOrder (t : TxExtraType) : t ∈ sortOrder := by cases t <;> decide

theorem byType_spec (fields : List TxExtraField) :
    StableSort TxExtraField.rank fields (byType sortOrder fields) := by
  have heq : byType sortOrder fields = buckets TxExtraField.rank (List.range 6) fields := by
    have hranks : List.range 6 = sortOrder.map TxExtraType.rank := by decide
    rw [buckets, hranks, List.flatMap_map, byType]
    refine List.flatMap_congr fun t _ => List.filter_congr fun f _ => ?_
    rw [decide_eq_decide, TxExtraField.rank, TxExtraType.rank_inj]
  rw [heq]
  refine StableSort.buckets_spec (by decide) fun f _ => List.mem_range.mpr ?_
  exact Nat.lt_succ_of_le f.type.rank_le

theorem paddingLast_of_sorted : ∀ {fields : List TxExtraField},
    (fields.Pairwise fun f g => f.rank ≤ g.rank) →
    (fields.filter (·.rank = 5)).Pairwise (fun f _ => f.type ≠ .padding) →
    fields.Pairwise fun f _ => f.type ≠ .padding := by
  intro fields
  induction fields with
  | nil => exact fun _ _ => .nil
  | cons f fields ih =>
    intro hsorted hone
    obtain ⟨hf, hfields⟩ := List.pairwise_cons.mp hsorted
    by_cases hpad : f.rank = 5
    · -- all that follows has the same rank
      rw [List.filter_cons_of_pos (by simp [hpad]), List.pairwise_cons] at hone
      refine List.pairwise_cons.mpr ⟨fun g hg => ?_, ih hfields hone.2⟩
      refine hone.1 g (List.mem_filter.mpr ⟨hg, decide_eq_true ?_⟩)
      have hle := hf g hg
      have hmax : g.rank ≤ 5 := g.type.rank_le
      omega
    · rw [List.filter_cons_of_neg (by simp [hpad])] at hone
      refine List.pairwise_cons.mpr ⟨fun _ _ htype => hpad ?_, ih hfields hone⟩
      rw [TxExtraField.rank, htype]
      rfl

theorem Parsed.stableSort {fields' : List TxExtraField} (h : Parsed fields)
    (hsort : StableSort TxExtraField.rank fields fields') : Parsed fields' := by
  refine ⟨fun f hf => h.written f ((hsort.mem_iff f).mp hf), paddingLast_of_sorted hsort.sorted ?_⟩
  rw [hsort.same 5]
  exact h.paddingLast.filter _

theorem sortTxExtra_eq (h : parseTxExtra extra = some fields) :
    sortTxExtra extra false = some (encodeAll (byType sortOrder fields)) := by
  have hparsed := parseTxExtra_parsed h
  rw [parseTxExtra] at h
  rw [sortTxExtra]
  by_cases hempty : extra = []
  · rw [if_pos hempty] at h ⊢
    obtain rfl := Option.some.inj h
    rfl
  · rw [if_neg hempty] at h ⊢
    rw [sortLoop_of_parseLoop _ h]
    dsimp only
    have hnone : fields.filter (·.type ∉ sortOrder) = [] :=
      List.filter_eq_nil_iff.mpr fun f _ => by simp [mem_sortOrder]
    rw [if_neg (by simp), pickAll_eq sortOrder (by decide) hparsed.written, Option.bind_some, hnone,
      if_neg (by simp)]
    simp

theorem removeFieldFromTxExtra_eq (h : parseTxExtra extra = some fields) (t : TxExtraType) :
    removeFieldFromTxExtra extra t = some (encodeAll (fields.filter (·.type ≠ t))) := by
  rw [parseTxExtra] at h
  rw [removeFieldFromTxExtra]
  by_cases hempty : extra = []
  · rw [if_pos hempty] at h ⊢
    obtain rfl := Option.some.inj h
    rfl
  · rw [if_neg hempty] at h ⊢
    rw [h]
    rfl

/-- **Rewriting keeps the fields.** An extra that is parsed can be sorted, the result is parsed as
the stable sort of its fields, and sorting it again changes nothing. Without the fields of one type
it is parsed as the other fields. -/
theorem tx_extra_rewritten (h : parseTxExtra extra = some fields) :
    (∃ sorted fields', sortTxExtra extra false = some sorted ∧ parseTxExtra sorted = some fields' ∧
      StableSort TxExtraField.rank fields fields' ∧ sortTxExtra sorted false = some sorted) ∧
    ∀ t, ∃ left, removeFieldFromTxExtra extra t = some left ∧
      parseTxExtra left = some (fields.filter (·.type ≠ t)) := by
  have hparsed := parseTxExtra_parsed h
  have hsort := byType_spec fields
  have hback := parseTxExtra_encodeAll (hparsed.stableSort hsort)
  refine ⟨⟨_, _, sortTxExtra_eq h, hback, hsort, ?_⟩, fun t => ⟨_, removeFieldFromTxExtra_eq h t,
    parseTxExtra_encodeAll (hparsed.sublist List.filter_sublist)⟩⟩
  -- the fields are sorted already
  rw [sortTxExtra_eq hback, StableSort.unique (byType_spec _) (StableSort.self hsort.sorted)]

/-- A nonce, an empty field and two zeros of padding. -/
theorem tx_extra_rewritten_nonce :
    parseTxExtra [0x02, 1, 7, 0xde, 0, 0, 0] =
        some [.nonce [7], .mysteriousMinergate [], .padding 2] ∧
      ∃ left, removeFieldFromTxExtra [0x02, 1, 7, 0xde, 0, 0, 0] .nonce = some left ∧
        parseTxExtra left = some [.mysteriousMinergate [], .padding 2] := by
  have hparse : parseTxExtra [0x02, 1, 7, 0xde, 0, 0, 0] =
      some [.nonce [7], .mysteriousMinergate [], .padding 2] := by decide +kernel
  exact ⟨hparse, (tx_extra_rewritten hparse).2 .nonce⟩

/-! ## Adding a nonce -/

/-- The last field of the extra is whole: an empty field ends with its length. -/
def Whole (extra : List UInt8) (fields : List TxExtraField) : Prop :=
  ∀ f, fields.getLast? = some f → f.IsEmpty → extra.getLast? = some 0

theorem encode_nonce {nonce : List UInt8} (h : nonce.length ≤ 255) :
    encode (.nonce nonce) = txExtraNonce :: (writeVarint nonce.length ++ nonce) := by
  have henc := @encodes_array_byte nonce (by omega)
  have hwrite : (txExtraBody .nonce).write nonce = some (writeVarint nonce.length ++ nonce) := by
    show (if decide (nonce.length ≤ txExtraNonceMaxCount) = true then some nonce else none).bind
      bytes.write = _
    have hfit : decide (nonce.length ≤ txExtraNonceMaxCount) = true := decide_eq_true h
    rw [if_pos hfit, Option.bind_some]
    exact henc.written
  exact @encode_ofBody .nonce nonce _ hwrite

theorem written_nonce {nonce : List UInt8} (h : nonce.length ≤ 255) : Written (.nonce nonce) := by
  have henc := @encodes_array_byte nonce (by omega)
  have hread : dataField.read .strict (txExtraNonce :: (writeVarint nonce.length ++ nonce ++ [])) =
      some (.nonce nonce, []) :=
    dataField_read_iff.mpr ⟨.nonce, nonce, _, rfl,
      check_read.mpr ⟨henc.readBack [], decide_eq_true h⟩, rfl⟩
  exact readField_written (readField_of_data (dataField.relax hread))

theorem encodeAll_append (fields fields' : List TxExtraField) :
    encodeAll (fields ++ fields') = encodeAll fields ++ encodeAll fields' :=
  List.flatMap_append

theorem encodeAll_singleton (f : TxExtraField) : encodeAll [f] = encode f := List.append_nil _

theorem Parsed.type_ne (h : Parsed fields)
    (hlast : ∀ f, fields.getLast? = some f → f.type ≠ .padding) :
    ∀ f ∈ fields, f.type ≠ .padding := by
  intro f hf
  obtain ⟨init, g, rfl⟩ := List.eq_nil_or_concat' fields |>.resolve_left (List.ne_nil_of_mem hf)
  rcases List.mem_append.mp hf with hf | hf
  · exact (List.pairwise_append.mp h.paddingLast).2.2 f hf g (List.mem_singleton.mpr rfl)
  · obtain rfl := List.mem_singleton.mp hf
    exact hlast f (by simp)

theorem Cut.append_ne {c more tail : List UInt8} (h : Cut f c) :
    c ++ txExtraNonce :: more ≠ encode f ++ tail := by
  obtain ⟨-, tag, mid, rfl, henc, -, hmid⟩ := h
  rw [henc]
  intro heq
  have hrest := (List.cons.inj heq).2
  cases mid with
  | nil => exact absurd (List.cons.inj hrest).1 (by decide)
  | cons b mid =>
    have hle := hmid b List.mem_cons_self
    rw [(List.cons.inj hrest).1] at hle
    exact absurd hle (by decide)

theorem whole_encodeAll (fields : List TxExtraField) : Whole (encodeAll fields) fields := by
  intro f hf hempty
  obtain ⟨init, rfl⟩ := List.getLast?_eq_some_iff.mp hf
  obtain ⟨tag, -, henc⟩ := encode_of_isEmpty hempty
  rw [encodeAll_append, encodeAll_singleton, henc]
  simp

theorem Cut.not_whole {init : List TxExtraField} {c : List UInt8} (h : Cut f c) :
    ¬ Whole (encodeAll init ++ c) (init ++ [f]) := by
  obtain ⟨hempty, tag, mid, rfl, -, htag, hmid⟩ := h
  intro hwhole
  have hlast := hwhole f (by simp) hempty
  rw [List.getLast?_append_of_ne_nil _ (by simp)] at hlast
  rcases List.mem_cons.mp (List.mem_of_getLast? hlast) with h | h
  · exact htag h.symm
  · exact absurd (hmid 0 h) (by decide)

theorem encode_nonce_iff {nonce : List UInt8} (h : nonce.length ≤ 255) :
    encode (.nonce nonce) = txExtraNonce :: UInt8.ofNat nonce.length :: nonce ↔
      nonce.length ≤ 127 := by
  rw [encode_nonce h]
  constructor
  · intro heq
    by_contra hlong
    have hlen := congrArg List.length heq
    rw [writeVarint_of_le (by omega)] at hlen
    have hpos := List.length_pos_iff.mpr (writeVarint_ne_nil (nonce.length / 128))
    simp only [List.length_cons, List.length_append] at hlen
    omega
  · intro hshort
    rw [writeVarint_of_lt (by omega)]
    rfl

/-- **Whether an extra nonce is read back**: it has at most 127 bytes, so that the byte for its
length is a number by itself, and the extra before it does not break off in the length of a
field. -/
theorem extra_nonce_read_iff (h : parseTxExtra extra = some fields)
    (hlast : ∀ f, fields.getLast? = some f → f.type ≠ .padding) {nonce : List UInt8}
    (hmax : nonce.length ≤ 255) :
    (∃ extra', addExtraNonceToTxExtra extra nonce = some extra' ∧
      parseTxExtra extra' = some (fields ++ [.nonce nonce])) ↔
    nonce.length ≤ 127 ∧ Whole extra fields := by
  have hadd : addExtraNonceToTxExtra extra nonce =
      some (extra ++ txExtraNonce :: UInt8.ofNat nonce.length :: nonce) := if_pos hmax
  have hparsed := parseTxExtra_parsed h
  constructor
  · rintro ⟨extra', hextra', hback⟩
    obtain rfl := Option.some.inj (hadd.symm.trans hextra')
    rcases parseTxExtra_split h with rfl | ⟨init, f, c, rfl, rfl, hcut⟩
    · refine ⟨?_, whole_encodeAll fields⟩
      rcases parseTxExtra_split hback with heq | ⟨init', f', c', heq, -, hempty, -⟩
      · rw [encodeAll_append, encodeAll_singleton] at heq
        exact (encode_nonce_iff hmax).mp (List.append_cancel_left heq).symm
      · -- an empty nonce
        obtain ⟨-, hf'⟩ := List.append_inj' heq rfl
        obtain rfl := (List.singleton_inj.mp hf')
        rcases hempty with heq | heq | heq
        · rw [(TxExtraField.nonce.inj heq)]
          simp
        · cases heq
        · cases heq
    · -- the length that breaks off goes on in the nonce
      exfalso
      rw [List.append_assoc] at hback
      rcases parseTxExtra_split hback with heq | ⟨init', f', c', heq, hbs, -⟩
      · rw [encodeAll_append, encodeAll_append, encodeAll_singleton, List.append_assoc] at heq
        exact hcut.append_ne (List.append_cancel_left heq)
      · obtain ⟨rfl, -⟩ := List.append_inj' heq rfl
        rw [encodeAll_append, encodeAll_singleton, List.append_assoc] at hbs
        exact hcut.append_ne (List.append_cancel_left hbs)
  · rintro ⟨hshort, hwhole⟩
    refine ⟨_, hadd, ?_⟩
    rcases parseTxExtra_split h with rfl | ⟨init, f, c, rfl, rfl, hcut⟩
    · rw [← (encode_nonce_iff hmax).mpr hshort, ← encodeAll_singleton, ← encodeAll_append]
      refine parseTxExtra_encodeAll ⟨fun f hf => ?_, ?_⟩
      · rcases List.mem_append.mp hf with hf | hf
        · exact hparsed.written f hf
        · rw [List.mem_singleton.mp hf]
          exact written_nonce hmax
      · exact List.pairwise_append.mpr ⟨hparsed.paddingLast, List.pairwise_singleton ..,
          fun f hf _ _ => hparsed.type_ne hlast f hf⟩
    · exact absurd hwhole hcut.not_whole

/-- A nonce of two bytes after another one. -/
theorem extra_nonce_read_iff_two :
    ∃ extra', addExtraNonceToTxExtra [0x02, 1, 7] [8, 9] = some extra' ∧
      parseTxExtra extra' = some [.nonce [7], .nonce [8, 9]] := by
  have hparse : parseTxExtra [0x02, 1, 7] = some [.nonce [7]] := by decide +kernel
  refine (extra_nonce_read_iff hparse (by decide) (by decide)).mpr ⟨by decide, ?_⟩
  intro f hf hempty
  obtain rfl : TxExtraField.nonce [7] = f := by simpa using hf
  rcases hempty with h | h | h <;> cases h

/-- A nonce of 128 zeros: its length is taken for the first byte of a longer number. -/
theorem extra_nonce_unreadable :
    addExtraNonceToTxExtra [] (List.replicate 128 0) =
        some (0x02 :: 128 :: List.replicate 128 0) ∧
      parseTxExtra (0x02 :: 128 :: List.replicate 128 0) = none := by
  decide +kernel

end Oxyra.Wire
