import Oxyra.Core.Mnemonics

/-!
# Lookups of seed words

* `MapOf`: what the maps of a language hold; `Language.mapOf_wordMap` and
  `Language.mapOf_trimmedWordMap` say that they do.
* `MapOf.of_find`: a word is found by its prefix, with the index of a word that has the same one.
* `findLoop_eq_some`: a language that is detected has all the words and they pass the checksum
  test, or it is a fallback and they do not.
* `wordsToBytes_eq_some`: `words_to_bytes` in terms of the language that is detected.
-/

namespace Oxyra.Mnemonics

open Hex (Bytes isspace)

variable {p : Platform} {hasChecksum : Bool} {i : Nat} {indices : List Nat} {key w x : Word}
  {m : WordMap} {seed : List Word}

theorem bind_eq_ok {α β : Type} {x : Except Fault α} {f : α → Except Fault β} {b : β} :
    (x >>= f) = .ok b ↔ ∃ a, x = .ok a ∧ f a = .ok b := by
  cases x with
  | error e => exact ⟨fun h => (by cases h), fun ⟨_, h, _⟩ => (by cases h)⟩
  | ok a => exact ⟨fun h => ⟨a, rfl, h⟩, fun ⟨_, h, hf⟩ => by cases h; exact hf⟩

theorem utf8Prefix_of_length_le {n : Nat} (h : w.length ≤ n) : utf8Prefix w n = w := by
  induction n generalizing w with
  | zero => rw [List.eq_nil_of_length_eq_zero (Nat.eq_zero_of_le_zero h), utf8Prefix]
  | succ n ih =>
    cases w with
    | nil => rfl
    | cons c s =>
      have hdrop : (s.dropWhile isContinuation).length ≤ n :=
        (List.dropWhile_sublist _).length_le.trans (Nat.le_of_succ_le_succ h)
      rw [utf8Prefix, ih hdrop, List.takeWhile_append_dropWhile]

theorem trimmed_eq (n : Nat) (w : Word) : trimmed n w = utf8Prefix w n := by
  rw [trimmed]
  split_ifs with h
  · rfl
  · exact (utf8Prefix_of_length_le (Nat.not_lt.mp h)).symm

/-! ## Maps -/

/-- A map that has been filled with words, each with its index: for a canonical form, the entry that
is found has the index of a word with this form, and there is one if such a word is there. -/
def MapOf (p : Platform) (m : WordMap) (words : List Word) : Prop :=
  ∀ key, match m.find? (WordMap.isEntry p key) with
    | none => ∀ w ∈ words, utf8canonical p w ≠ .ok key
    | some entry => utf8canonical p entry.1 = .ok key ∧
        ∃ w, words[entry.2]? = some w ∧ utf8canonical p w = .ok key

theorem mapOf_nil : MapOf p [] [] := fun _ _ hw => absurd hw List.not_mem_nil

theorem isEntry_iff {entry : Word × Nat} :
    WordMap.isEntry p key entry = true ↔ utf8canonical p entry.1 = .ok key := by
  rw [WordMap.isEntry, beq_iff_eq]
  cases utf8canonical p entry.1 with
  | error e => exact ⟨fun h => (by cases h), fun h => (by cases h)⟩
  | ok c => exact ⟨fun h => (by cases h; rfl), fun h => (by cases h; rfl)⟩

theorem isEntry_unique {key' : Word} {entry : Word × Nat} (h : WordMap.isEntry p key entry = true)
    (h' : WordMap.isEntry p key' entry = true) :
    key = key' :=
  Except.ok.inj ((isEntry_iff.mp h).symm.trans (isEntry_iff.mp h'))

theorem find_assignEntry_self (hw : utf8canonical p w = .ok key) (i : Nat) (m : WordMap) :
    ∃ k, (m.assignEntry p key w i).find? (WordMap.isEntry p key) = some (k, i) ∧
      utf8canonical p k = .ok key := by
  induction m with
  | nil => exact ⟨w, List.find?_cons_of_pos (isEntry_iff.mpr hw), hw⟩
  | cons entry m ih =>
    rw [WordMap.assignEntry]
    by_cases h : WordMap.isEntry p key entry = true
    · rw [if_pos h]
      exact ⟨entry.1, List.find?_cons_of_pos (isEntry_iff.mpr (isEntry_iff.mp h)),
        isEntry_iff.mp h⟩
    · rw [if_neg h, List.find?_cons_of_neg h]
      exact ih

theorem find_assignEntry_of_ne {key' : Word} (hw : utf8canonical p w = .ok key) (hne : key ≠ key')
    (i : Nat) (m : WordMap) :
    (m.assignEntry p key w i).find? (WordMap.isEntry p key') =
      m.find? (WordMap.isEntry p key') := by
  have hnot : ∀ {entry : Word × Nat}, WordMap.isEntry p key entry = true →
      ¬ WordMap.isEntry p key' entry = true := fun h h' => hne (isEntry_unique h h')
  induction m with
  | nil => exact List.find?_cons_of_neg (hnot (isEntry_iff.mpr hw))
  | cons entry m ih =>
    rw [WordMap.assignEntry]
    by_cases h : WordMap.isEntry p key entry = true
    · have hsame : WordMap.isEntry p key (entry.1, i) = true := isEntry_iff.mpr (isEntry_iff.mp h)
      rw [if_pos h, List.find?_cons_of_neg (hnot hsame), List.find?_cons_of_neg (hnot h)]
    · rw [if_neg h, List.find?_cons, List.find?_cons, ih]

/-- **Another word.** -/
theorem MapOf.assign {m' : WordMap} {words : List Word} (h : MapOf p m words)
    (heq : m.assign p w words.length = .ok m') : MapOf p m' (words ++ [w]) := by
  obtain ⟨key, hkey, heq⟩ := bind_eq_ok.mp heq
  obtain rfl : m.assignEntry p key w words.length = m' := Except.ok.inj heq
  intro key'
  by_cases hne : key = key'
  · subst hne
    obtain ⟨k, hfind, hk⟩ := find_assignEntry_self hkey words.length m
    rw [hfind]
    exact ⟨hk, w, List.getElem?_concat_length, hkey⟩
  · rw [find_assignEntry_of_ne hkey hne]
    have hold := h key'
    cases hfind : m.find? (WordMap.isEntry p key') with
    | none =>
      rw [hfind] at hold
      intro w' hw'
      rcases List.mem_append.mp hw' with hw' | hw'
      · exact hold w' hw'
      · rw [List.mem_singleton.mp hw', hkey]
        exact fun hc => hne (Except.ok.inj hc)
    | some entry =>
      rw [hfind] at hold
      obtain ⟨hentry, w', hget, hw'⟩ := hold
      refine ⟨hentry, w', ?_, hw'⟩
      rw [List.getElem?_append_left (List.getElem?_eq_some_iff.mp hget).1]
      exact hget

/-! ## Languages -/

/-- **The loop fills both maps.** -/
theorem populateLoop_spec {l : LanguageData} {words seen : List Word}
    {maps maps' : WordMap × WordMap}
    (hwords : MapOf p maps.1 seen)
    (htrimmed : MapOf p maps.2 (seen.map (trimmed l.uniquePrefixLength)))
    (h : populateLoop p l seen.length words maps = .ok maps') :
    MapOf p maps'.1 (seen ++ words) ∧
      MapOf p maps'.2 ((seen ++ words).map (trimmed l.uniquePrefixLength)) := by
  induction words generalizing seen maps with
  | nil =>
    obtain rfl := Except.ok.inj h
    rw [List.append_nil]
    exact ⟨hwords, htrimmed⟩
  | cons w words ih =>
    obtain ⟨m1, m2⟩ := maps
    simp only [populateLoop, bind_eq_ok] at h
    obtain ⟨m1', h1, -, -, -, -, -, -, m2', h2, h⟩ := h
    have h1' := hwords.assign h1
    rw [← List.length_map (trimmed l.uniquePrefixLength)] at h2
    have h2' := htrimmed.assign h2
    rw [← List.map_singleton, ← List.map_append] at h2'
    rw [← List.length_singleton (a := w), ← List.length_append] at h
    have hrest := ih h1' h2' h
    rwa [List.append_assoc, List.singleton_append] at hrest

theorem canonical_of_populateLoop {l : LanguageData} {ii : Nat} {words : List Word}
    {maps maps' : WordMap × WordMap} (h : populateLoop p l ii words maps = .ok maps') :
    ∀ w ∈ words, ∃ c, utf8canonical p (trimmed l.uniquePrefixLength w) = .ok c := by
  induction words generalizing ii maps with
  | nil => exact fun w hw => absurd hw List.not_mem_nil
  | cons w words ih =>
    simp only [populateLoop, bind_eq_ok] at h
    obtain ⟨_, -, _, -, _, -, _, -, m2', h2, h⟩ := h
    obtain ⟨c, hc, -⟩ := bind_eq_ok.mp h2
    intro w' hw'
    rcases List.mem_cons.mp hw' with rfl | hw'
    · exact ⟨c, hc⟩
    · exact ih h w' hw'

section Language

variable (l : Language p)

theorem Language.length_wordList : l.wordList.length = nwords := by
  by_contra h
  have hpop := l.populated
  rw [populateMaps, if_pos h] at hpop
  cases hpop

theorem Language.populated_loop :
    populateLoop p l.toLanguageData 0 l.wordList ([], []) =
      .ok (l.wordMap, l.trimmedWordMap) := by
  have hpop := l.populated
  rwa [populateMaps, if_neg (not_not.mpr l.length_wordList)] at hpop

/-- **The maps of a language hold its words.** -/
theorem Language.mapOf_wordMap : MapOf p l.wordMap l.wordList :=
  (@populateLoop_spec p _ _ [] _ _ mapOf_nil mapOf_nil l.populated_loop).1

theorem Language.mapOf_trimmedWordMap :
    MapOf p l.trimmedWordMap (l.wordList.map (trimmed l.uniquePrefixLength)) :=
  (@populateLoop_spec p _ _ [] _ _ mapOf_nil mapOf_nil l.populated_loop).2

theorem Language.canonical_trimmed (hw : w ∈ l.wordList) :
    ∃ c, utf8canonical p (trimmed l.uniquePrefixLength w) = .ok c :=
  canonical_of_populateLoop l.populated_loop w hw

end Language

/-! ## Lookups -/

theorem find_eq_ok {r : Option (Word × Nat)} :
    m.find p x = .ok r ↔
      ∃ c, utf8canonical p x = .ok c ∧ m.find? (WordMap.isEntry p c) = r := by
  rw [WordMap.find, bind_eq_ok]
  refine exists_congr fun c => and_congr_right fun _ => ?_
  exact ⟨fun h => Except.ok.inj h, fun h => congrArg Except.ok h⟩

theorem MapOf.of_find {words : List Word} (h : MapOf p m words)
    (hfind : m.find p x = .ok (some (key, i))) :
    ∃ w, words[i]? = some w ∧ utf8canonical p w = utf8canonical p x ∧
      utf8canonical p key = utf8canonical p x := by
  obtain ⟨c, hc, hfind⟩ := find_eq_ok.mp hfind
  have hentry := h c
  rw [hfind] at hentry
  obtain ⟨hkey, w, hget, hw⟩ := hentry
  exact ⟨w, hget, hw.trans hc.symm, hkey.trans hc.symm⟩

theorem MapOf.find_of_mem {words : List Word} (h : MapOf p m words) {c : Word} (hw : w ∈ words)
    (hc : utf8canonical p w = .ok c) (hx : utf8canonical p x = .ok c) :
    ∃ key i, m.find p x = .ok (some (key, i)) := by
  have hentry := h c
  cases hfind : m.find? (WordMap.isEntry p c) with
  | none =>
    rw [hfind] at hentry
    exact absurd hc (hentry w hw)
  | some entry => exact ⟨entry.1, entry.2, find_eq_ok.mpr ⟨c, hx, hfind⟩⟩

/-- **All words of a seed are found.** -/
theorem matchWords_eq_some {l : Language p} :
    matchWords l hasChecksum seed = .ok (some indices) ↔
      List.Forall₂ (fun w i => ∃ key, l.lookup hasChecksum w = .ok (some (key, i)))
        seed indices := by
  induction seed generalizing indices with
  | nil =>
    rw [matchWords, List.forall₂_nil_left_iff]
    exact ⟨fun h => (by cases h; rfl), fun h => (by rw [h])⟩
  | cons w seed ih =>
    rw [matchWords, bind_eq_ok, List.forall₂_cons_left_iff]
    constructor
    · rintro ⟨_ | ⟨key, i⟩, hfind, h⟩
      · cases h
      obtain ⟨rest, hrest, h⟩ := bind_eq_ok.mp h
      cases rest with
      | none => cases h
      | some rest =>
        cases h
        exact ⟨i, rest, ⟨key, hfind⟩, ih.mp hrest, rfl⟩
    · rintro ⟨i, rest, ⟨key, hfind⟩, hrest, rfl⟩
      refine ⟨some (key, i), hfind, ?_⟩
      exact bind_eq_ok.mpr ⟨some rest, ih.mpr hrest, rfl⟩

/-- **A language that is detected has all words of the seed.** The checksum is that of the seed, or
the language is a fallback and comes without indices. -/
theorem findLoop_eq_some {instances : List (Language p)} {fallback : Option (Language p)}
    {l : Language p}
    (hfallback : ∀ f ∈ fallback, hasChecksum = true ∧ checksumTest seed f = .ok false)
    (h : findLoop seed hasChecksum instances fallback = .ok (some (l, indices))) :
    (matchWords l hasChecksum seed = .ok (some indices) ∧
      (hasChecksum = true → checksumTest seed l = .ok true)) ∨
    (hasChecksum = true ∧ checksumTest seed l = .ok false) := by
  induction instances generalizing fallback with
  | nil =>
    cases fallback with
    | none => cases h
    | some f =>
      cases h
      exact .inr (hfallback _ rfl)
  | cons l' instances ih =>
    obtain ⟨found, hmatch, h⟩ := bind_eq_ok.mp h
    cases found with
    | none => exact ih hfallback h
    | some indices' =>
      cases hasChecksum with
      | false =>
        cases h
        exact .inl ⟨hmatch, fun h => (by cases h)⟩
      | true =>
        obtain ⟨valid, hvalid, h⟩ := bind_eq_ok.mp h
        cases valid with
        | true =>
          cases h
          exact .inl ⟨hmatch, fun _ => hvalid⟩
        | false =>
          refine ih (fun f hf => ⟨rfl, ?_⟩) h
          rw [← Option.some.inj hf]
          exact hvalid

/-! ## `words_to_bytes` -/

def dataWords (len words : Nat) : Nat := if hasChecksumWord len words then words - 1 else words

section Accepted

variable {instances : List (Language p)} {words dst : Bytes} {len : Nat} {duplicate : Bool}
  {r : Bytes × Bytes}

theorem readWords_eq_some {l : Language p} {n : Nat} :
    readWords l n indices dst len duplicate = some r ↔
      ∃ out, decodeLoop l.wordListLength (n / 3) indices dst = some out ∧
        (duplicated len n duplicate out, l.languageName) = r :=
  Option.map_eq_some_iff

theorem readSeed_eq_some {l : Language p} :
    readSeed seed (hasChecksumWord len seed.length) l indices dst len duplicate = .ok (some r) ↔
      (hasChecksumWord len seed.length = true → checksumTest seed l = .ok true) ∧
      readWords l (dataWords len seed.length) indices dst len duplicate = some r := by
  rw [readSeed, dataWords]
  cases hasChecksumWord len seed.length with
  | false =>
    rw [if_neg (by decide), if_neg (by decide)]
    exact ⟨fun h => ⟨fun h => (by cases h), Except.ok.inj h⟩, fun h => congrArg _ h.2⟩
  | true =>
    rw [if_pos rfl, if_pos rfl, bind_eq_ok, List.length_dropLast]
    constructor
    · rintro ⟨_ | _, hvalid, h⟩
      · cases h
      · exact ⟨fun _ => hvalid, Except.ok.inj h⟩
    · rintro ⟨hvalid, h⟩
      exact ⟨true, hvalid rfl, congrArg _ h⟩

/-- **What `words_to_bytes` accepts.** -/
theorem wordsToBytes_eq_some :
    wordsToBytes instances words dst len duplicate = .ok (some r) ↔
      len % 4 = 0 ∧ wordCountFits len (split words).length = true ∧
      ∃ l indices, findSeedLanguage instances (split words)
          (hasChecksumWord len (split words).length) = .ok (some (l, indices)) ∧
        (hasChecksumWord len (split words).length = true →
          checksumTest (split words) l = .ok true) ∧
        readWords l (dataWords len (split words).length) indices dst len duplicate = some r := by
  rw [wordsToBytes]
  by_cases hlen : len % 4 ≠ 0
  · rw [if_pos hlen]
    exact ⟨fun h => (by cases h), fun h => absurd h.1 hlen⟩
  rw [if_neg hlen]
  by_cases hfits : wordCountFits len (split words).length = true
  · simp only [hfits, Bool.not_true, Bool.false_eq_true, if_false, bind_eq_ok]
    constructor
    · rintro ⟨_ | ⟨l, indices⟩, hfind, h⟩
      · cases h
      · exact ⟨not_not.mp hlen, trivial, l, indices, hfind, readSeed_eq_some.mp h⟩
    · rintro ⟨-, -, l, indices, hfind, h⟩
      exact ⟨some (l, indices), hfind, readSeed_eq_some.mpr h⟩
  · rw [if_pos (by simpa using hfits)]
    exact ⟨fun h => (by cases h), fun h => absurd h.2.1 hfits⟩

theorem matchWords_of_accepted {l : Language p}
    (hfind : findSeedLanguage instances seed hasChecksum = .ok (some (l, indices)))
    (hvalid : hasChecksum = true → checksumTest seed l = .ok true) :
    matchWords l hasChecksum seed = .ok (some indices) := by
  rcases findLoop_eq_some (fun f hf => (by cases hf)) hfind with h | ⟨hsum, hfalse⟩
  · exact h.1
  · cases hfalse.symm.trans (hvalid hsum)

end Accepted

/-! ## A language of letters

Every word has three letters, from `aaa` on, and is its own prefix. -/

/-- A platform for texts without capital letters. -/
def plain : Platform := ⟨id, fun _ => 0⟩

def letterWord (i : Nat) : Word :=
  [UInt8.ofNat (97 + i / 144), UInt8.ofNat (97 + i / 12 % 12), UInt8.ofNat (97 + i % 12)]

def lettersData : LanguageData where
  languageName := [97]
  englishLanguageName := [97]
  wordList := (List.range nwords).map letterWord
  uniquePrefixLength := 3
  allowShortWords := false
  allowDuplicatePrefixes := true

theorem canonical_ascii (h : ∀ c ∈ w, c < 128) : utf8canonical plain w = .ok w := by
  induction w with
  | nil => rfl
  | cons c w ih =>
    have hc : c.toNat < 128 := h c List.mem_cons_self
    have hascii : c &&& 0x80 = 0 := by
      have hall : ∀ n < 128, UInt8.ofNat n &&& 0x80 = 0 := by decide
      have := hall c.toNat hc
      rwa [UInt8.ofNat_toNat] at this
    have hencode : encodeCodePoint (plain.towlower c.toNat) = .ok [c] := by
      show encodeCodePoint c.toNat = _
      rw [encodeCodePoint, if_pos (show c.toNat ≤ 0x7f by omega), UInt8.ofNat_toNat]
    have hrest := ih fun c' hc' => h c' (List.mem_cons_of_mem _ hc')
    rw [utf8canonical.eq_def]
    simp only [hascii, if_true, hencode, hrest]
    rfl

theorem letterWord_lt (hi : i < nwords) : ∀ c ∈ letterWord i, 97 ≤ c ∧ c < 128 := by
  have hletter : ∀ n < 12, 97 ≤ UInt8.ofNat (97 + n) ∧ UInt8.ofNat (97 + n) < 128 := by decide
  intro c hc
  simp only [letterWord, List.mem_cons, List.not_mem_nil, or_false] at hc
  have hlt : i < 1626 := hi
  rcases hc with rfl | rfl | rfl
  · exact hletter _ (by omega)
  · exact hletter _ (by omega)
  · exact hletter _ (by omega)

theorem trimmed_letterWord (i : Nat) : trimmed 3 (letterWord i) = letterWord i :=
  if_neg (Nat.lt_irrefl 3)

theorem canonical_letterWord (hi : i < nwords) :
    utf8canonical plain (letterWord i) = .ok (letterWord i) :=
  canonical_ascii fun c hc => (letterWord_lt hi c hc).2

theorem populateLoop_eq_ok {l : LanguageData} (hdup : l.allowDuplicatePrefixes = true)
    {words : List Word} (hwords : ∀ w ∈ words, l.uniquePrefixLength ≤ w.length ∧
      (∃ c, utf8canonical p w = .ok c) ∧
      ∃ c, utf8canonical p (trimmed l.uniquePrefixLength w) = .ok c)
    (ii : Nat) (maps : WordMap × WordMap) :
    ∃ maps', populateLoop p l ii words maps = .ok maps' := by
  induction words generalizing ii maps with
  | nil => exact ⟨maps, rfl⟩
  | cons w words ih =>
    obtain ⟨hlength, ⟨c, hc⟩, c', hc'⟩ := hwords w List.mem_cons_self
    obtain ⟨maps', hmaps'⟩ := ih (fun w' hw' => hwords w' (List.mem_cons_of_mem _ hw')) (ii + 1)
      (maps.1.assignEntry p c w ii,
        maps.2.assignEntry p c' (trimmed l.uniquePrefixLength w) ii)
    refine ⟨maps', ?_⟩
    simp only [populateLoop, bind_eq_ok]
    refine ⟨_, bind_eq_ok.mpr ⟨c, hc, rfl⟩, (), ?_, _, find_eq_ok.mpr ⟨c', hc', rfl⟩, (), ?_, _,
      bind_eq_ok.mpr ⟨c', hc', rfl⟩, hmaps'⟩
    · rw [require, if_pos]
      simpa using .inr hlength
    · rw [require, if_pos]
      simp [hdup]

theorem wordList_letters : lettersData.wordList = (List.range nwords).map letterWord := by
  rw [lettersData]

theorem populateMaps_letters : ∃ maps, populateMaps plain lettersData = .ok maps := by
  have hlength : lettersData.wordList.length = nwords := by
    rw [wordList_letters, List.length_map, List.length_range]
  rw [populateMaps, if_neg (not_not.mpr hlength)]
  refine populateLoop_eq_ok rfl (fun w hw => ?_) 0 ([], [])
  rw [wordList_letters] at hw
  obtain ⟨i, hi, rfl⟩ := List.mem_map.mp hw
  have hc := canonical_letterWord (List.mem_range.mp hi)
  refine ⟨?_, ⟨_, hc⟩, letterWord i, ?_⟩
  · exact Nat.le_refl 3
  · show utf8canonical plain (trimmed 3 (letterWord i)) = _
    rw [trimmed_letterWord, hc]

def lettersMaps : WordMap × WordMap := (populateMaps plain lettersData).toOption.getD ([], [])

def letters : Language plain where
  toLanguageData := lettersData
  wordMap := lettersMaps.1
  trimmedWordMap := lettersMaps.2
  populated := by
    obtain ⟨maps, hmaps⟩ := populateMaps_letters
    rw [lettersMaps, hmaps]
    rfl

theorem mem_letters : w ∈ letters.wordList ↔ ∃ i < nwords, letterWord i = w := by
  rw [show letters.toLanguageData = lettersData from rfl, wordList_letters, List.mem_map]
  exact exists_congr fun i => and_congr_left fun _ => List.mem_range

end Oxyra.Mnemonics
