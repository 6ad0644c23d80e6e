import Oxyra.Theorems.Mnemonics

/-!
# The number of words of a seed

`words_to_bytes` computes the number of words it expects twice, and does not test it at all if the
number of bytes is not known.
-/

namespace Oxyra.Mnemonics

open Hex (Bytes isspace)

variable {p : Platform} {instances : List (Language p)} {words dst bytes : Bytes} {len : Nat}
  {l : Language p} {hasChecksum : Bool} {seed : List Word} {α : Type}

/-! ## Half a seed -/

theorem length_indices {indices : List Nat}
    (h : matchWords l hasChecksum seed = .ok (some indices)) : seed.length = indices.length :=
  (matchWords_eq_some.mp h).length_eq

/-- **Half a seed gives half the bytes**, and they are only written twice if the last test finds the
number of words it expects. -/
theorem wordsToBytes_half (hpos : 0 < len) (hlen : len % 8 = 0) (hbytes : bytes.length * 2 = len)
    (hfind : findSeedLanguage instances (split words) false =
      .ok (some (l, encodeIndices bytes))) (duplicate : Bool) :
    wordsToBytes instances words [] len duplicate =
      .ok (some (duplicated len (split words).length duplicate bytes, l.languageName)) := by
  obtain ⟨k, rfl⟩ : ∃ k, len = 8 * k := ⟨len / 8, by omega⟩
  have hquarter : bytes.length = 4 * k := by omega
  have hlength : (split words).length = 3 * k := by
    rw [length_indices (matchWords_of_accepted hfind fun h => (by cases h)),
      length_encodeIndices hquarter]
  have hexpected : expectedWords (8 * k) = 6 * k := by
    rw [expectedWords]
    omega
  have hsum : hasChecksumWord (8 * k) (3 * k) = false := by
    rw [hasChecksumWord, hexpected]
    simp only [Bool.or_eq_false_iff, beq_eq_false_iff_ne, ne_eq]
    omega
  have hfits : wordCountFits (8 * k) (3 * k) = true := by
    rw [wordCountFits, hexpected]
    simp only [Bool.or_eq_true, beq_iff_eq]
    omega
  rw [wordsToBytes_eq_some, hlength, hsum, hfits]
  refine ⟨by omega, rfl, l, encodeIndices bytes, hfind, fun h => (by cases h), ?_⟩
  rw [dataWords, hsum, readWords_eq_some, wordListLength_eq]
  refine ⟨bytes, ?_, rfl⟩
  have hdecode := decodeLoop_encodeIndices hquarter [] []
  rwa [List.append_nil, List.nil_append, ← Nat.mul_div_cancel_left k (show 0 < 3 by decide)]
    at hdecode

theorem duplicated_half {k : Nat} (hpos : 0 < k) (duplicate : Bool) :
    duplicated (8 * k) (3 * k) duplicate bytes = bytes := by
  rw [duplicated, if_neg fun h => ?_]
  have hcount := h.2.2
  omega

/-- **Half a seed is never written twice.** The bytes come out once, and where a key is asked for
there is none. -/
theorem half_seed_never_duplicated (hpos : 0 < len) (hlen : len % 8 = 0)
    (hbytes : bytes.length * 2 = len)
    (hfind : findSeedLanguage instances (split words) false =
      .ok (some (l, encodeIndices bytes))) :
    wordsToBytes instances words [] len true = .ok (some (bytes, l.languageName)) ∧
      bytes ≠ bytes ++ bytes ∧ (len = 32 → wordsToKey instances words = .ok none) := by
  obtain ⟨k, rfl⟩ : ∃ k, len = 8 * k := ⟨len / 8, by omega⟩
  have hcount : (split words).length = 3 * k := by
    rw [length_indices (matchWords_of_accepted hfind fun h => (by cases h)),
      length_encodeIndices (show bytes.length = 4 * k by omega)]
  have hread := wordsToBytes_half hpos hlen hbytes hfind true
  rw [hcount, duplicated_half (by omega)] at hread
  refine ⟨hread, fun hsame => ?_, fun h32 => ?_⟩
  · have hnil : bytes = [] := List.self_eq_append_right.mp hsame
    rw [hnil, List.length_nil] at hbytes
    omega
  · rw [h32] at hread
    refine bind_eq_ok.mpr ⟨_, hread, ?_⟩
    have hshort : bytes.length ≠ 32 := by omega
    simp [Option.filter, hshort, pure, Except.pure]

/-! ## Seeds of letters -/

theorem lookup_full {w c : Word} (hw : w ∈ l.wordList) (hc : utf8canonical p w = .ok c) :
    ∃ key i w', l.lookup false w = .ok (some (key, i)) ∧ l.wordList[i]? = some w' ∧
      utf8canonical p w' = .ok c := by
  obtain ⟨key, i, hkey⟩ := l.mapOf_wordMap.find_of_mem hw hc hc
  obtain ⟨w', hw', hform, -⟩ := l.mapOf_wordMap.of_find hkey
  exact ⟨key, i, w', hkey, hw', hform.trans hc⟩

theorem lookup_letters {i : Nat} (hi : i < nwords) (hasChecksum : Bool) :
    ∃ key, letters.lookup hasChecksum (letterWord i) = .ok (some (key, i)) := by
  have hmem : letterWord i ∈ letters.wordList := mem_letters.mpr ⟨i, hi, rfl⟩
  have hget : ∀ {j : Nat} {w : Word}, letters.wordList[j]? = some w →
      j < nwords ∧ letterWord j = w := by
    intro j w hj
    rw [show letters.toLanguageData = lettersData from rfl, wordList_letters, List.getElem?_map,
      Option.map_eq_some_iff] at hj
    obtain ⟨k, hk, rfl⟩ := hj
    obtain ⟨hlt, rfl⟩ := List.getElem?_eq_some_iff.mp hk
    rw [List.length_range] at hlt
    rw [List.getElem_range]
    exact ⟨hlt, rfl⟩
  cases hasChecksum with
  | true =>
    obtain ⟨key, j, hkey⟩ := lookup_of_mem hmem
    have hat : wordAt letters i = letterWord i :=
      (hget (getElem?_wordAt hi)).2.symm
    rw [← hat] at hkey ⊢
    obtain rfl := lookup_wordAt distinctPrefixes_letters hi hkey
    exact ⟨key, hkey⟩
  | false =>
    obtain ⟨key, j, w, hkey, hw, hform⟩ := lookup_full hmem (canonical_letterWord hi)
    obtain ⟨hj, rfl⟩ := hget hw
    rw [canonical_letterWord hj] at hform
    obtain rfl := letterWord_inj hj hi (Except.ok.inj hform)
    exact ⟨key, hkey⟩

theorem matchWords_letters {indices : List Nat} (hlt : ∀ i ∈ indices, i < nwords)
    (hasChecksum : Bool) :
    matchWords letters hasChecksum (indices.map letterWord) = .ok (some indices) := by
  rw [matchWords_eq_some, List.forall₂_map_left_iff, List.forall₂_same]
  exact fun i hi => lookup_letters (hlt i hi) hasChecksum

def lettersText (first : List Nat) (last : Nat) : Bytes :=
  (first.map letterWord).flatMap (· ++ [space]) ++ letterWord last

theorem split_lettersText {first : List Nat} {last : Nat} (hfirst : ∀ i ∈ first, i < nwords)
    (hlast : last < nwords) :
    split (lettersText first last) = (first ++ [last]).map letterWord := by
  rw [lettersText, split_words, List.map_append, List.map_singleton]
  · intro w hw
    obtain ⟨i, hi, rfl⟩ := List.mem_map.mp hw
    exact isWord_letterWord (hfirst i hi)
  · exact isWord_letterWord hlast

theorem split_twelve :
    split (lettersText (List.replicate 11 0) 0) = (List.replicate 12 0).map letterWord :=
  split_lettersText (by decide) (by decide)

theorem find_twelve :
    findSeedLanguage [letters] (split (lettersText (List.replicate 11 0) 0)) false =
      .ok (some (letters, encodeIndices (List.replicate 16 0))) := by
  rw [split_twelve, show encodeIndices (List.replicate 16 0) = List.replicate 12 0 by decide]
  exact bind_eq_ok.mpr ⟨_, matchWords_letters (by decide) false, rfl⟩

theorem half_seed_never_duplicated_twelve :
    findSeedLanguage [letters] (split (lettersText (List.replicate 11 0) 0)) false =
        .ok (some (letters, encodeIndices (List.replicate 16 0))) ∧
      wordsToBytes [letters] (lettersText (List.replicate 11 0) 0) [] 32 true =
        .ok (some (List.replicate 16 0, letters.languageName)) :=
  ⟨find_twelve, (half_seed_never_duplicated (by decide) (by decide) (by decide) find_twelve).1⟩

/-- Twelve words give sixteen bytes, and no key. -/
theorem half_seed_not_duplicated :
    wordsToBytes [letters] (lettersText (List.replicate 11 0) 0) [] 32 true =
        .ok (some (List.replicate 16 0, [97])) ∧
      wordsToKey [letters] (lettersText (List.replicate 11 0) 0) = .ok none := by
  have hread := @wordsToBytes_half _ _ _ _ 32 _ (by decide) (by decide) (by decide) find_twelve true
  rw [split_twelve, List.length_map, List.length_replicate] at hread
  exact ⟨hread, bind_eq_ok.mpr ⟨_, hread, rfl⟩⟩

/-! ## Where the modulus can be zero -/

/-- A computation that may throw, and never divides by zero. -/
def OnlyThrows {α : Type} (x : Except Fault α) : Prop := x ≠ .error .moduloZero

theorem OnlyThrows.bind {β : Type} {x : Except Fault α} {f : α → Except Fault β} (hx : OnlyThrows x)
    (hf : ∀ a, x = .ok a → OnlyThrows (f a)) : OnlyThrows (x >>= f) := by
  cases x with
  | ok a => exact hf a rfl
  | error e => exact fun h => hx (by cases h; rfl)

end Oxyra.Mnemonics
