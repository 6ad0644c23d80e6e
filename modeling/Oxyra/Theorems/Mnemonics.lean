import Oxyra.Lib.ChainedTriple
import Oxyra.Logic.Mnemonics

/-!
# The mnemonic codec

Three words are three chained digits in base 1626, read with 32 bits. Three digits go past
2^32, but less than twice, and 1626 does not divide it.
-/

namespace Oxyra.Mnemonics

open Hex (Bytes isspace)

variable {p : Platform} {bytes src : Bytes} {i k : Nat} {w : Word} {ws : List Word}

/-! ## Three words -/

abbrev base : UInt32 := UInt32.ofNat nwords

theorem toNat_base : base.toNat = 1626 := rfl

theorem encodeTriple_eq (w0 : UInt32) :
    ((encodeTriple base w0).1.toNat, (encodeTriple base w0).2.1.toNat,
      (encodeTriple base w0).2.2.toNat) = ChainedTriple.encode 1626 w0.toNat := by
  have hlt := w0.toNat_lt
  have hsum : ∀ q r : Nat, q ≤ w0.toNat / 1626 → r < 1626 → (q + r) % 2 ^ 32 = q + r := by
    intro q r hq hr
    exact Nat.mod_eq_of_lt (by omega)
  have h1 : w0.toNat % 1626 < 1626 := Nat.mod_lt _ (by decide)
  have h2 : (w0.toNat / 1626 + w0.toNat % 1626) % 1626 < 1626 := Nat.mod_lt _ (by decide)
  simp only [encodeTriple, ChainedTriple.encode, UInt32.toNat_mod, UInt32.toNat_add,
    UInt32.toNat_div, toNat_base]
  rw [hsum _ _ (Nat.le_refl _) h1, hsum _ _ (Nat.div_le_self _ _) h2]

theorem toNat_difference {a b : UInt32} (ha : a.toNat < 1626) (hb : b.toNat < 1626) :
    (((base - a) + b) % base).toNat = (1626 - a.toNat + b.toNat) % 1626 := by
  have hsub : (base - a).toNat = 1626 - a.toNat :=
    UInt32.toNat_sub_of_le _ _ (UInt32.le_iff_toNat_le.mpr ha.le)
  have hadd : ((base - a) + b).toNat = 1626 - a.toNat + b.toNat := by
    rw [UInt32.toNat_add, hsub]
    exact Nat.mod_eq_of_lt (by omega)
  rw [UInt32.toNat_mod, hadd, toNat_base]

theorem decodeTriple_eq {w1 w2 w3 : UInt32} (h1 : w1.toNat < 1626) (h2 : w2.toNat < 1626)
    (h3 : w3.toNat < 1626) :
    (decodeTriple base w1 w2 w3).map UInt32.toNat =
      ChainedTriple.decode 1626 (2 ^ 32) w1.toNat w2.toNat w3.toNat := by
  have htotal : (w1 + base * (((base - w1) + w2) % base) +
      base * base * (((base - w2) + w3) % base)).toNat =
      ChainedTriple.total 1626 w1.toNat w2.toNat w3.toNat % 2 ^ 32 := by
    rw [UInt32.toNat_add, UInt32.toNat_add, UInt32.toNat_mul, UInt32.toNat_mul, UInt32.toNat_mul,
      toNat_difference h1 h2, toNat_difference h2 h3, toNat_base, ChainedTriple.total]
    omega
  have htest : ∀ w0 : UInt32, w0 % base = w1 ↔ w0.toNat % 1626 = w1.toNat := fun w0 => by
    rw [← UInt32.toNat_inj, UInt32.toNat_mod, toNat_base]
  rw [decodeTriple, ChainedTriple.decode]
  simp only [htest, htotal]
  split_ifs
  · rw [Option.map_some, htotal]
  · rfl

theorem decodeTriple_encodeTriple (w0 : UInt32) :
    decodeTriple base (encodeTriple base w0).1 (encodeTriple base w0).2.1
      (encodeTriple base w0).2.2 = some w0 := by
  have hdigits := encodeTriple_eq w0
  have hlt : ∀ x : UInt32, (x % base).toNat < 1626 := fun x => by
    rw [UInt32.toNat_mod, toNat_base]
    exact Nat.mod_lt _ (by decide)
  have hdecode := decodeTriple_eq (hlt w0) (hlt (w0 / base + w0 % base))
    (hlt (w0 / base / base + (w0 / base + w0 % base) % base))
  have hencode := ChainedTriple.decode_encode (n := 1626) (by decide) w0.toNat_lt (by decide)
  rw [← hdigits] at hencode
  refine Option.map_injective (fun a b => UInt32.toNat_inj.mp) ?_
  exact hdecode.trans hencode

def encodeIndices : Bytes → List Nat
  | b0 :: b1 :: b2 :: b3 :: src =>
    let w := encodeTriple base (UInt32.ofNat (Numeral.ofBytes [b0, b1, b2, b3]))
    w.1.toNat :: w.2.1.toNat :: w.2.2.toNat :: encodeIndices src
  | _ => []

theorem toNat_ofBytes (b0 b1 b2 b3 : UInt8) :
    (UInt32.ofNat (Numeral.ofBytes [b0, b1, b2, b3])).toNat = Numeral.ofBytes [b0, b1, b2, b3] := by
  have hlt : Numeral.ofBytes [b0, b1, b2, b3] < 256 ^ 4 := Numeral.ofBytes_lt _
  rw [UInt32.toNat_ofNat']
  exact Nat.mod_eq_of_lt (hlt.trans_eq (by norm_num))

/-- **Bytes are read back from their indices.** -/
theorem decodeLoop_encodeIndices (hk : src.length = 4 * k) (rest : List Nat) (dst : Bytes) :
    decodeLoop base k (encodeIndices src ++ rest) dst = some (dst ++ src) := by
  induction k generalizing src dst with
  | zero =>
    rw [List.eq_nil_of_length_eq_zero (hk.trans (Nat.mul_zero 4)), List.append_nil]
    rfl
  | succ k ih =>
    obtain ⟨b0, b1, b2, b3, src, rfl, hsrc⟩ :
        ∃ b0 b1 b2 b3 tail, src = b0 :: b1 :: b2 :: b3 :: tail ∧ tail.length = 4 * k := by
      match src, hk with
      | b0 :: b1 :: b2 :: b3 :: tail, hk =>
        refine ⟨b0, b1, b2, b3, tail, rfl, ?_⟩
        simp only [List.length_cons] at hk
        omega
    have hword := decodeTriple_encodeTriple (UInt32.ofNat (Numeral.ofBytes [b0, b1, b2, b3]))
    have hbytes : Numeral.toBytes 4 (Numeral.ofBytes [b0, b1, b2, b3]) = [b0, b1, b2, b3] :=
      Numeral.toBytes_ofBytes [b0, b1, b2, b3]
    rw [encodeIndices]
    simp only [List.cons_append]
    rw [decodeLoop]
    simp only [UInt32.ofNat_toNat, hword, toNat_ofBytes, hbytes]
    rw [ih hsrc, List.append_assoc]
    rfl

/-- A word as `split` gives it. -/
def IsWord (w : Word) : Prop := w ≠ [] ∧ ∀ c ∈ w, isspace c = false

theorem pushBack_concat (fields : List Word) (w : Word) (c : UInt8) :
    pushBack (fields ++ [w]) c = fields ++ [w ++ [c]] := by
  rw [pushBack, List.dropLast_concat, List.getLastD_concat]

theorem splitLoop_append (hw : ∀ c ∈ w, isspace c = false) (fields : List Word) (start : Word)
    (s : Bytes) :
    splitLoop (fields ++ [start]) false (w ++ s) = splitLoop (fields ++ [start ++ w]) false s := by
  induction w generalizing start with
  | nil => rw [List.nil_append, List.append_nil]
  | cons c w ih =>
    have hc : ¬ isspace c = true := by simp [hw c List.mem_cons_self]
    rw [List.cons_append, splitLoop, if_neg hc, if_neg (by decide), pushBack_concat,
      ih fun c' hc' => hw c' (List.mem_cons_of_mem _ hc'), List.append_assoc,
      List.singleton_append]

theorem splitLoop_word (hw : IsWord w) (fields : List Word) (s : Bytes) :
    splitLoop fields true (w ++ s) = splitLoop (fields ++ [w]) false s := by
  obtain ⟨hne, hspace⟩ := hw
  cases w with
  | nil => exact absurd rfl hne
  | cons c w =>
    have hc : ¬ isspace c = true := by simp [hspace c List.mem_cons_self]
    rw [List.cons_append, splitLoop, if_neg hc, if_pos rfl, pushBack_concat, List.nil_append,
      splitLoop_append fun c' hc' => hspace c' (List.mem_cons_of_mem _ hc')]
    rfl

theorem splitLoop_words {last : Word} (hws : ∀ w ∈ ws, IsWord w) (hlast : IsWord last)
    (fields : List Word) :
    splitLoop fields true (ws.flatMap (· ++ [space]) ++ last) = fields ++ ws ++ [last] := by
  induction ws generalizing fields with
  | nil =>
    have hend := splitLoop_word hlast fields []
    rw [List.append_nil] at hend
    rw [List.flatMap_nil, List.nil_append, hend, List.append_nil]
    rfl
  | cons w ws ih =>
    rw [List.flatMap_cons, List.append_assoc, List.append_assoc,
      splitLoop_word (hws w List.mem_cons_self), List.singleton_append, splitLoop,
      if_pos (by decide), ih fun w' hw' => hws w' (List.mem_cons_of_mem _ hw')]
    rw [List.append_assoc fields, List.singleton_append]

/-- **A text of words is split into them.** -/
theorem split_words {last : Word} (hws : ∀ w ∈ ws, IsWord w) (hlast : IsWord last) :
    split (ws.flatMap (· ++ [space]) ++ last) = ws ++ [last] :=
  splitLoop_words hws hlast []

/-! ## Words of a language -/

section Language

variable {l : Language p}

structure DistinctPrefixes (l : Language p) : Prop where
  words : ∀ w ∈ l.wordList, IsWord w
  distinct : (l.wordList.map fun w => utf8canonical p (trimmed l.uniquePrefixLength w)).Nodup

def wordAt (l : Language p) (i : Nat) : Word := l.wordList.getD i []

theorem getElem?_wordAt (hi : i < nwords) : l.wordList[i]? = some (wordAt l i) := by
  rw [← l.length_wordList] at hi
  rw [wordAt, List.getD_eq_getElem _ _ hi, List.getElem?_eq_getElem hi]

/-- What identifies a word in a seed with a checksum. -/
def prefixForm (l : Language p) (w : Word) : Except Fault Bytes :=
  utf8canonical p (utf8Prefix w l.uniquePrefixLength)

theorem lookup_eq_some {key : Word} (h : l.lookup true w = .ok (some (key, i))) :
    i < nwords ∧ prefixForm l (wordAt l i) = prefixForm l w := by
  obtain ⟨w', hget, hform, -⟩ := l.mapOf_trimmedWordMap.of_find h
  obtain ⟨hi, -⟩ := List.getElem?_eq_some_iff.mp hget
  rw [List.length_map, l.length_wordList] at hi
  rw [List.getElem?_map, getElem?_wordAt hi, Option.map_some, Option.some.injEq] at hget
  rw [← hget, trimmed_eq] at hform
  exact ⟨hi, hform⟩

theorem lookup_of_mem (hw : w ∈ l.wordList) :
    ∃ key i, l.lookup true w = .ok (some (key, i)) := by
  obtain ⟨c, hc⟩ := l.canonical_trimmed hw
  refine l.mapOf_trimmedWordMap.find_of_mem (List.mem_map_of_mem hw) hc ?_
  rwa [trimmed_eq] at hc

theorem lookup_wordAt (hl : DistinctPrefixes l) {j : Nat} (hi : i < nwords) {key : Word}
    (h : l.lookup true (wordAt l i) = .ok (some (key, j))) : j = i := by
  obtain ⟨hj, hform⟩ := lookup_eq_some h
  have hget : ∀ {k}, k < nwords → (l.wordList.map fun w =>
      utf8canonical p (trimmed l.uniquePrefixLength w))[k]? = some (prefixForm l (wordAt l k)) := by
    intro k hk
    rw [List.getElem?_map, getElem?_wordAt hk, Option.map_some, trimmed_eq, prefixForm]
  refine (List.getElem?_inj ?_ hl.distinct).mp ?_
  · rw [List.length_map, l.length_wordList]
    exact hj
  · rw [hget hj, hget hi, hform]

theorem wordListLength_eq (l : Language p) : l.wordListLength = base := by
  rw [Language.wordListLength, l.length_wordList]

def wordsOf (l : Language p) (src : Bytes) : List Word := (encodeIndices src).map (wordAt l)

theorem wordsOf_cons (l : Language p) (b0 b1 b2 b3 : UInt8) (src : Bytes) :
    wordsOf l (b0 :: b1 :: b2 :: b3 :: src) =
      let w := encodeTriple base (UInt32.ofNat (Numeral.ofBytes [b0, b1, b2, b3]))
      l.word w.1 :: l.word w.2.1 :: l.word w.2.2 :: wordsOf l src := by
  rw [wordsOf, encodeIndices]
  rfl

/-- **What the loop of `bytes_to_words` writes.** -/
theorem encodeLoop_eq (src words : Bytes) (wordsStore : List Word) :
    encodeLoop l src words wordsStore =
      (words ++ (wordsOf l src).flatMap (· ++ [space]), wordsStore ++ wordsOf l src) := by
  induction src using encodeIndices.induct generalizing words wordsStore with
  | case1 b0 b1 b2 b3 src ih =>
    rw [encodeLoop, ih, wordsOf_cons, wordListLength_eq]
    simp only [List.flatMap_cons, List.append_assoc, List.cons_append, List.nil_append]
  | case2 src h =>
    rw [encodeLoop, wordsOf, encodeIndices]
    · simp
    · exact h
    · exact h

theorem length_encodeIndices (hk : src.length = 4 * k) :
    (encodeIndices src).length = 3 * k := by
  induction k generalizing src with
  | zero =>
    rw [List.eq_nil_of_length_eq_zero hk]
    rfl
  | succ k ih =>
    match src, hk with
    | b0 :: b1 :: b2 :: b3 :: src, hk =>
      simp only [List.length_cons] at hk
      rw [encodeIndices]
      simp only [List.length_cons]
      rw [ih (by omega)]
      omega

/-! ## Checksums of words of the list -/

end Language

/-! ## The codec -/

section Codec

variable {instances languageList : List (Language p)} {l : Language p} {name : Bytes}

/-- A text of words with a checksum word that `words_to_bytes` accepts for `len` bytes, in the
language `l`. -/
structure Restores (instances : List (Language p)) (l : Language p) (words : Bytes) (len : Nat)
    (bytes : Bytes) : Prop where
  full : (split words).length = expectedWords len + 1
  detected : ∃ indices, findSeedLanguage instances (split words) true = .ok (some (l, indices))
  accepted : ∃ duplicate languageName,
    wordsToBytes instances words [] len duplicate = .ok (some (bytes, languageName))

theorem letterWord_inj {j : Nat} (hi : i < nwords) (hj : j < nwords)
    (h : letterWord i = letterWord j) : i = j := by
  have htoNat : ∀ {n}, n < 12 → (UInt8.ofNat (97 + n)).toNat = 97 + n := fun hn =>
    UInt8.toNat_ofNat_of_lt' (show _ < 256 by omega)
  have hi' : i < 1626 := hi
  have hj' : j < 1626 := hj
  simp only [letterWord, List.cons.injEq, and_true, ← UInt8.toNat_inj] at h
  rw [htoNat (by omega), htoNat (by omega), htoNat (by omega), htoNat (by omega),
    htoNat (by omega), htoNat (by omega)] at h
  omega

theorem distinctPrefixes_letters : DistinctPrefixes letters := by
  constructor
  · intro w hw
    obtain ⟨i, hi, rfl⟩ := mem_letters.mp hw
    refine ⟨List.cons_ne_nil _ _, fun c hc => ?_⟩
    have hlow : 97 ≤ c.toNat := (letterWord_lt hi c hc).1
    simp [isspace, UInt8.le_iff_toNat_le, ← UInt8.toNat_inj]
    omega
  · rw [show letters.toLanguageData = lettersData from rfl, wordList_letters, List.map_map]
    refine List.Nodup.map_on (fun i hi j hj hij => ?_) List.nodup_range
    have hform : ∀ {k}, k ∈ List.range nwords →
        utf8canonical plain (trimmed 3 (letterWord k)) = .ok (letterWord k) := fun hk => by
      rw [trimmed_letterWord, canonical_letterWord (List.mem_range.mp hk)]
    have heq := (hform hi).symm.trans (hij.trans (hform hj))
    exact letterWord_inj (List.mem_range.mp hi) (List.mem_range.mp hj) (Except.ok.inj heq)

theorem isWord_letterWord (hi : i < nwords) : IsWord (letterWord i) :=
  distinctPrefixes_letters.words _ (mem_letters.mpr ⟨i, hi, rfl⟩)

end Codec

end Oxyra.Mnemonics
