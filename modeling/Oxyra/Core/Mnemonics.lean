import Oxyra.Core.Hex
import Oxyra.Lib.Numeral

/-!
# Mnemonic seeds (`electrum-words.cpp`, `language_base.h`, `utf8.h`)

* `Language`: a word list with the two maps `populate_maps` makes from it. Words are compared in the
  form `utf8canonical` gives them, and usually only by the prefix that identifies them.
* `wordsToBytes`: the words of a seed are looked up in all languages, the checksum word is tested,
  and every three words give four bytes.
* `bytesToWords`: the other way.

What `std::towlower` and the CRC of boost compute is a parameter (`Platform`). Lengths and indices
are natural numbers. A call that throws, or divides by zero, ends in a `Fault`.
-/

namespace Oxyra.Mnemonics

open Hex (Bytes isspace)

abbrev Word := Bytes

/-- What the C++ libraries provide. -/
structure Platform where
  towlower : Nat → Nat
  crc32 : Bytes → UInt32

/-- How a call ends that does not return. -/
inductive Fault where
  | exception
  | moduloZero
deriving DecidableEq, Repr

/-- `if (…) throw std::runtime_error(…)`, with the condition to go on -/
def require (condition : Bool) : Except Fault Unit :=
  if condition then .ok () else .error .exception

variable (p : Platform)

/-! ## Text -/

/-- `fields.back().push_back(c)` -/
def pushBack (fields : List Word) (c : UInt8) : List Word :=
  fields.dropLast ++ [fields.getLastD [] ++ [c]]

/-- The loop of `wipeable_string::split`. -/
def splitLoop : List Word → Bool → Bytes → List Word
  | fields, _, [] => fields
  | fields, space, c :: s =>
    if isspace c then splitLoop fields true s
    else splitLoop (pushBack (if space then fields ++ [[]] else fields) c) false s

def split (s : Bytes) : List Word := splitLoop [] true s

/-- A byte that goes on with the character before it. -/
def isContinuation (c : UInt8) : Bool := c &&& 0xc0 == 0x80

def utf8Prefix : Bytes → Nat → Bytes
  | _, 0 => []
  | [], _ + 1 => []
  | c :: s, count + 1 =>
    c :: (s.takeWhile isContinuation ++ utf8Prefix (s.dropWhile isContinuation) count)

/-- The bytes of a code point, in `utf8canonical`. -/
def encodeCodePoint (cp : Nat) : Except Fault Bytes :=
  if cp ≤ 0x7f then .ok [UInt8.ofNat cp]
  else if cp ≤ 0x7ff then .ok [UInt8.ofNat (0xc0 ||| cp >>> 6), UInt8.ofNat (0x80 ||| cp &&& 0x3f)]
  else if cp ≤ 0xffff then
    .ok [UInt8.ofNat (0xe0 ||| cp >>> 12), UInt8.ofNat (0x80 ||| cp >>> 6 &&& 0x3f),
      UInt8.ofNat (0x80 ||| cp &&& 0x3f)]
  else if cp ≤ 0x10ffff then
    .ok [UInt8.ofNat (0xf0 ||| cp >>> 18), UInt8.ofNat (0x80 ||| cp >>> 12 &&& 0x3f),
      UInt8.ofNat (0x80 ||| cp >>> 6 &&& 0x3f), UInt8.ofNat (0x80 ||| cp &&& 0x3f)]
  else .error .exception

/-- The six low bits of a byte. -/
def low6 (c : UInt8) : Nat := (c &&& 0x3f).toNat

/-- `utf8canonical`, with `std::towlower` -/
def utf8canonical : Bytes → Except Fault Bytes
  | [] => .ok []
  | c :: s =>
    if c &&& 0x80 = 0 then do
      return (← encodeCodePoint (p.towlower c.toNat)) ++ (← utf8canonical s)
    else if c &&& 0xe0 = 0xc0 then
      match s with
      | c1 :: s => do
          let cp := (c &&& 0x1f).toNat <<< 6 ||| low6 c1
          return (← encodeCodePoint (p.towlower cp)) ++ (← utf8canonical s)
      | _ => .error .exception
    else if c &&& 0xf0 = 0xe0 then
      match s with
      | c1 :: c2 :: s => do
          let cp := (c &&& 0xf).toNat <<< 12 ||| low6 c1 <<< 6 ||| low6 c2
          return (← encodeCodePoint (p.towlower cp)) ++ (← utf8canonical s)
      | _ => .error .exception
    else if c &&& 0xf8 = 0xf0 then
      match s with
      | c1 :: c2 :: c3 :: s => do
          let cp := (c &&& 0x7).toNat <<< 18 ||| low6 c1 <<< 12 ||| low6 c2 <<< 6 ||| low6 c3
          return (← encodeCodePoint (p.towlower cp)) ++ (← utf8canonical s)
      | _ => .error .exception
    else .error .exception

def wordEqual (s0 s1 : Word) : Except Fault Bool := do
  let s0c ← utf8canonical p s0
  let s1c ← utf8canonical p s1
  return s0c == s1c

/-! ## Maps -/

/-- `std::unordered_map<wipeable_string, uint32_t, WordHash, WordEqual>` -/
abbrev WordMap := List (Word × Nat)

namespace WordMap

/-- The test for the entry of a key, which is given in its canonical form. -/
def isEntry (key : Word) (entry : Word × Nat) : Bool :=
  (utf8canonical p entry.1).toOption == some key

/-- `find`, with `count` and `at` -/
def find (m : WordMap) (w : Word) : Except Fault (Option (Word × Nat)) := do
  let key ← utf8canonical p w
  return m.find? (isEntry p key)

/-- The entry of a key gets a new index, or `w` a new entry. -/
def assignEntry (key w : Word) (i : Nat) : WordMap → WordMap
  | [] => [(w, i)]
  | entry :: m =>
    if isEntry p key entry then (entry.1, i) :: m else entry :: assignEntry key w i m

/-- `m[w] = i`: the key of an entry that is there already stays. -/
def assign (m : WordMap) (w : Word) (i : Nat) : Except Fault WordMap := do
  let key ← utf8canonical p w
  return m.assignEntry p key w i

end WordMap

/-! ## Languages -/

def nwords : Nat := 1626

/-- A word as the maps have it, in `populate_maps` and `checksum_test`. -/
def trimmed (uniquePrefixLength : Nat) (w : Word) : Word :=
  if w.length > uniquePrefixLength then utf8Prefix w uniquePrefixLength else w

/-- The data of `Language::Base`, and the flags its class passes to `populate_maps`. -/
structure LanguageData where
  languageName : Bytes
  englishLanguageName : Bytes
  wordList : List Word
  uniquePrefixLength : Nat
  allowShortWords : Bool
  allowDuplicatePrefixes : Bool

/-- The loop of `populate_maps`. -/
def populateLoop (l : LanguageData) :
    Nat → List Word → WordMap × WordMap → Except Fault (WordMap × WordMap)
  | _, [], maps => .ok maps
  | ii, w :: words, (wordMap, trimmedWordMap) => do
      let wordMap ← wordMap.assign p w ii
      require (l.allowShortWords || l.uniquePrefixLength ≤ w.length)
      let prior ← trimmedWordMap.find p (trimmed l.uniquePrefixLength w)
      require (l.allowDuplicatePrefixes || prior.isNone)
      let trimmedWordMap ← trimmedWordMap.assign p (trimmed l.uniquePrefixLength w) ii
      populateLoop l (ii + 1) words (wordMap, trimmedWordMap)

def populateMaps (l : LanguageData) : Except Fault (WordMap × WordMap) :=
  if l.wordList.length ≠ nwords then .error .exception
  else populateLoop p l 0 l.wordList ([], [])

/-- `Language::Base`, as its constructor leaves it -/
structure Language extends LanguageData where
  wordMap : WordMap
  trimmedWordMap : WordMap
  populated : populateMaps p toLanguageData = .ok (wordMap, trimmedWordMap)

variable {p}

def Language.wordListLength (l : Language p) : UInt32 := UInt32.ofNat l.wordList.length

/-! ## Checksums -/

/-- The keys `create_checksum_index` puts together. -/
def trimmedKeys (l : Language p) : List Word → Except Fault (List Word)
  | [] => .ok []
  | w :: words => do
      match ← l.trimmedWordMap.find p (utf8Prefix w l.uniquePrefixLength) with
      | none => .error .exception
      | some (key, _) => return key :: (← trimmedKeys l words)

def createChecksumIndex (wordList : List Word) (l : Language p) : Except Fault Nat := do
  let trimmedWords ← trimmedKeys l wordList
  if wordList.length = 0 then .error .moduloZero
  else .ok ((p.crc32 trimmedWords.flatten).toNat % wordList.length)

def checksumTest (seed : List Word) (l : Language p) : Except Fault Bool :=
  match seed.getLast? with
  | none => .ok false
  | some lastWord => do
      let idx ← createChecksumIndex seed.dropLast l
      let checksum := seed.dropLast.getD idx []
      wordEqual p (trimmed l.uniquePrefixLength checksum) (trimmed l.uniquePrefixLength lastWord)

/-! ## `find_seed_language` -/

/-- A word of a seed: only its prefix counts if the seed has a checksum. -/
def Language.lookup (l : Language p) (hasChecksum : Bool) (w : Word) :
    Except Fault (Option (Word × Nat)) :=
  if hasChecksum then l.trimmedWordMap.find p (utf8Prefix w l.uniquePrefixLength)
  else l.wordMap.find p w

/-- The words of a seed in one language: `none` if one of them is not found. -/
def matchWords (l : Language p) (hasChecksum : Bool) : List Word → Except Fault (Option (List Nat))
  | [] => .ok (some [])
  | w :: seed => do
      match ← l.lookup hasChecksum w with
      | none => return none
      | some (_, i) => return (← matchWords l hasChecksum seed).map (i :: ·)

/-- The loop of `find_seed_language`, and what follows it. A fallback comes without indices: they
have been cleared. -/
def findLoop (seed : List Word) (hasChecksum : Bool) :
    List (Language p) → Option (Language p) → Except Fault (Option (Language p × List Nat))
  | [], fallback => .ok (fallback.map (·, []))
  | l :: instances, fallback => do
      match ← matchWords l hasChecksum seed with
      | none => findLoop seed hasChecksum instances fallback
      | some matchedIndices =>
        if !hasChecksum then return some (l, matchedIndices)
        else if ← checksumTest seed l then return some (l, matchedIndices)
        else findLoop seed hasChecksum instances (some l)

/-- `find_seed_language`, with the languages it looks in -/
def findSeedLanguage (instances : List (Language p)) (seed : List Word) (hasChecksum : Bool) :
    Except Fault (Option (Language p × List Nat)) :=
  findLoop seed hasChecksum instances none

/-! ## `words_to_bytes` -/

/-- Three words: `none` if `w[0]` does not pass its test. -/
def decodeTriple (n w1 w2 w3 : UInt32) : Option UInt32 :=
  let w0 := w1 + n * (((n - w1) + w2) % n) + n * n * (((n - w2) + w3) % n)
  if w0 % n = w1 then some w0 else none

/-- The loop of `words_to_bytes` over groups of three words. -/
def decodeLoop (n : UInt32) : Nat → List Nat → Bytes → Option Bytes
  | 0, _, dst => some dst
  | groups + 1, i1 :: i2 :: i3 :: matchedIndices, dst =>
    match decodeTriple n (UInt32.ofNat i1) (UInt32.ofNat i2) (UInt32.ofNat i3) with
    | none => none
    | some w0 => decodeLoop n groups matchedIndices (dst ++ Numeral.toBytes 4 w0.toNat)
  | _ + 1, _, _ => none

/-- `expected`, the number of words for `len` bytes -/
def expectedWords (len : Nat) : Nat := len * 8 * 3 / 32

/-- Whether a seed of `words` words has a checksum word. -/
def hasChecksumWord (len words : Nat) : Bool := len == 0 || words == expectedWords len + 1

/-- The test of the number of words. -/
def wordCountFits (len words : Nat) : Bool :=
  len == 0 || words == expectedWords len / 2 || words == expectedWords len ||
    words == expectedWords len + 1

/-- The end of `words_to_bytes`: half a seed is written twice. -/
def duplicated (len words : Nat) (duplicate : Bool) (dst : Bytes) : Bytes :=
  if len > 0 ∧ duplicate ∧ words = len * 3 / 32 / 2 then dst ++ dst else dst

/-- `words_to_bytes` from the loop on, for a seed of `words` words. -/
def readWords (l : Language p) (words : Nat) (matchedIndices : List Nat) (dst : Bytes) (len : Nat)
    (duplicate : Bool) : Option (Bytes × Bytes) :=
  (decodeLoop l.wordListLength (words / 3) matchedIndices dst).map fun dst =>
    (duplicated len words duplicate dst, l.languageName)

/-- `words_to_bytes` once the language has been found. -/
def readSeed (seed : List Word) (hasChecksum : Bool) (l : Language p) (matchedIndices : List Nat)
    (dst : Bytes) (len : Nat) (duplicate : Bool) : Except Fault (Option (Bytes × Bytes)) :=
  if hasChecksum then do
    if ← checksumTest seed l then
      return readWords l seed.dropLast.length matchedIndices dst len duplicate
    else return none
  else .ok (readWords l seed.length matchedIndices dst len duplicate)

/-- `words_to_bytes`: the bytes and the name of the language, or `none` where it returns false -/
def wordsToBytes (instances : List (Language p)) (words dst : Bytes) (len : Nat)
    (duplicate : Bool) : Except Fault (Option (Bytes × Bytes)) :=
  let seed := split words
  if len % 4 ≠ 0 then .ok none
  else if !wordCountFits len seed.length then .ok none
  else do
    match ← findSeedLanguage instances seed (hasChecksumWord len seed.length) with
    | none => return none
    | some (language, matchedIndices) =>
      readSeed seed (hasChecksumWord len seed.length) language matchedIndices dst len duplicate

/-- `words_to_bytes` for a secret key -/
def wordsToKey (instances : List (Language p)) (words : Bytes) :
    Except Fault (Option (Bytes × Bytes)) := do
  let r ← wordsToBytes instances words [] 32 true
  return r.filter fun s => s.1.length == 32

/-! ## `bytes_to_words` -/

/-- Three words of four bytes. -/
def encodeTriple (n w0 : UInt32) : UInt32 × UInt32 × UInt32 :=
  let w1 := w0 % n
  let w2 := (w0 / n + w1) % n
  (w1, w2, (w0 / n / n + w2) % n)

/-- `word_list[w]` -/
def Language.word (l : Language p) (w : UInt32) : Word := l.wordList.getD w.toNat []

/-- `' '` -/
def space : UInt8 := 32

/-- The loop of `bytes_to_words`, with `words` and `words_store`. -/
def encodeLoop (l : Language p) : Bytes → Bytes → List Word → Bytes × List Word
  | b0 :: b1 :: b2 :: b3 :: src, words, wordsStore =>
    let w := encodeTriple l.wordListLength (UInt32.ofNat (Numeral.ofBytes [b0, b1, b2, b3]))
    encodeLoop l src
      (words ++ l.word w.1 ++ [space] ++ l.word w.2.1 ++ [space] ++ l.word w.2.2 ++ [space])
      (wordsStore ++ [l.word w.1, l.word w.2.1, l.word w.2.2])
  | _, words, wordsStore => (words, wordsStore)

end Oxyra.Mnemonics
