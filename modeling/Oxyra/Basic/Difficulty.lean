import Oxyra.Basic.Types

/-!
# Difficulty (`difficulty.cpp`, `misc_language.h`)

* `nextDifficulty` is the retarget rule over a window of timestamps and
  cumulative difficulties.
* `checkHash` is the proof-of-work test, in its 64-bit and its 128-bit form;
  `checkHash_iff` says that both compare `hash * difficulty` with 2^256.
* `median` is the library's median, shared by the time and the weight rules.
-/

namespace Oxyra

/-- `std::numeric_limits<difficulty_type>::max() + 1` -/
def difficultyModulus : Nat := 2 ^ 128

/-- The last step of `next_difficulty`: the work of the window spread over its
time, rounded up. A result that does not fit stands as 0. -/
def difficultyOfWork (totalWork targetSeconds timeSpan : Nat) : Nat :=
  let res := (totalWork * targetSeconds + timeSpan - 1) / timeSpan
  if res ≥ difficultyModulus then 0 else res

/-- `next_difficulty`. A result of 0 stands for "difficulty overhead". -/
def nextDifficulty (timestamps cumulativeDifficulties : List Nat) (targetSeconds : Nat) : Nat :=
  let timestamps := timestamps.take difficultyWindow
  let cumulativeDifficulties := cumulativeDifficulties.take difficultyWindow
  let length := timestamps.length
  if length ≤ 1 then 1
  else
    let sorted := timestamps.insertionSort (· ≤ ·)
    let kept := difficultyWindow - 2 * difficultyCut
    let cutBegin := if length ≤ kept then 0 else (length - kept + 1) / 2
    let cutEnd := if length ≤ kept then length else cutBegin + kept
    let timeSpan := max 1 (sorted.getD (cutEnd - 1) 0 - sorted.getD cutBegin 0)
    let totalWork :=
      (cumulativeDifficulties.getD (cutEnd - 1) 0 + difficultyModulus
        - cumulativeDifficulties.getD cutBegin 0) % difficultyModulus
    difficultyOfWork totalWork targetSeconds timeSpan

/-! ## The median -/

section Median

variable {α : Type} [LE α] [DecidableLE α] [Add α] [Sub α] [Mul α] [Div α] [OfNat α 0]
  [OfNat α 2]

/-- `epee::misc_utils::get_mid`: the average, without overflow on machine words. -/
def getMid (a b : α) : α :=
  a / 2 + b / 2 + ((a - 2 * (a / 2)) + (b - 2 * (b / 2))) / 2

def median (v : List α) : α :=
  match v with
  | [] => 0
  | [x] => x
  | v =>
    let n := v.length / 2
    let sorted := v.insertionSort (· ≤ ·)
    if v.length % 2 = 1 then sorted.getD n 0
    else getMid (sorted.getD (n - 1) 0) (sorted.getD n 0)

end Median

theorem toNat_getD (l : List UInt64) (i : Nat) :
    (l.getD i 0).toNat = (l.map UInt64.toNat).getD i 0 := by
  rw [List.getD_eq_getElem?_getD, List.getD_eq_getElem?_getD, List.getElem?_map]
  cases l[i]? <;> rfl

theorem map_toNat_sorted (l : List UInt64) :
    (l.insertionSort (· ≤ ·)).map UInt64.toNat = (l.map UInt64.toNat).insertionSort (· ≤ ·) :=
  List.map_insertionSort _ _ _ _ fun _ _ _ _ => UInt64.le_iff_toNat_le

theorem median_eq (v : List Nat) :
    median v = if v.length % 2 = 1 then (v.insertionSort (· ≤ ·)).getD (v.length / 2) 0
      else getMid ((v.insertionSort (· ≤ ·)).getD (v.length / 2 - 1) 0)
        ((v.insertionSort (· ≤ ·)).getD (v.length / 2) 0) := by
  unfold median
  split <;> simp [getMid]

theorem median_perm {v w : List Nat} (h : v.Perm w) : median v = median w := by
  have hsorted : v.insertionSort (· ≤ ·) = w.insertionSort (· ≤ ·) :=
    List.Perm.eq_of_pairwise' (List.pairwise_insertionSort _ v) (List.pairwise_insertionSort _ w)
      ((List.perm_insertionSort _ v).trans (h.trans (List.perm_insertionSort _ w).symm))
  rw [median_eq, median_eq, hsorted, h.length_eq]

/-! ## Proof of work -/

/-- Word `i` of a hash, the least significant first. -/
def hashWord (h : Hash) (i : Nat) : Nat :=
  h.toNat / 2 ^ (64 * i) % 2 ^ 64

/-- `cadd`: the carry of a 64-bit addition. -/
def cadd (a b : Nat) : Bool :=
  (a + b) % 2 ^ 64 < a

/-- `cadc`: the carry of a 64-bit addition with a carry coming in. -/
def cadc (a b : Nat) (c : Bool) : Bool :=
  (a + b) % 2 ^ 64 < a || (c && (a + b) % 2 ^ 64 = 2 ^ 64 - 1)

/-- `check_hash_64`: the product of the hash and the difficulty word by word,
watching only the carry out of the top. -/
def checkHash64 (hash : Hash) (difficulty : Nat) : Bool :=
  let top := hashWord hash 3 * difficulty % 2 ^ 64
  if hashWord hash 3 * difficulty / 2 ^ 64 ≠ 0 then false
  else
    let cur := hashWord hash 0 * difficulty / 2 ^ 64
    let carry := cadd cur (hashWord hash 1 * difficulty % 2 ^ 64)
    let cur := hashWord hash 1 * difficulty / 2 ^ 64
    let carry := cadc cur (hashWord hash 2 * difficulty % 2 ^ 64) carry
    let high := hashWord hash 2 * difficulty / 2 ^ 64
    !cadc high top carry

def checkHash128 (hash : Hash) (difficulty : Nat) : Bool :=
  hash.toNat * difficulty ≤ 2 ^ 256 - 1

def checkHash (hash : Hash) (difficulty : Nat) : Bool :=
  if difficulty < 2 ^ 64 then checkHash64 hash difficulty
  else checkHash128 hash difficulty

theorem cadd_iff {a b : Nat} (ha : a < 2 ^ 64) (hb : b < 2 ^ 64) :
    cadd a b = true ↔ 2 ^ 64 ≤ a + b := by
  simp only [cadd, decide_eq_true_eq]
  omega

theorem cadc_iff {a b : Nat} (ha : a < 2 ^ 64) (hb : b < 2 ^ 64) (c : Bool) :
    cadc a b c = true ↔ 2 ^ 64 ≤ a + b + c.toNat := by
  cases c <;> simp [cadc] <;> omega

theorem hashWord_sum (h : Hash) :
    h.toNat = hashWord h 0 + hashWord h 1 * 2 ^ 64 + hashWord h 2 * 2 ^ 128
      + hashWord h 3 * 2 ^ 192 := by
  have hlt := h.isLt
  simp only [hashWord, Nat.reduceMul]
  omega

/-- The carry chain of `check_hash_64` is the comparison of the full product:
with `p i` the product of word `i`, the product overflows 2^256 exactly if the
top word does or the carries reach it. -/
theorem checkHash64_iff (h : Hash) {d : Nat} (hd : d < 2 ^ 64) :
    checkHash64 h d = true ↔ h.toNat * d < 2 ^ 256 := by
  have hw : ∀ i, hashWord h i < 2 ^ 64 := fun i => Nat.mod_lt _ (by norm_num)
  have hp : ∀ i, hashWord h i * d / 2 ^ 64 < 2 ^ 64 := fun i => by
    apply Nat.div_lt_of_lt_mul
    exact Nat.mul_lt_mul'' (hw i) hd
  have hm : ∀ i, hashWord h i * d % 2 ^ 64 < 2 ^ 64 := fun i => Nat.mod_lt _ (by norm_num)
  have hprod : h.toNat * d = hashWord h 0 * d + hashWord h 1 * d * 2 ^ 64
      + hashWord h 2 * d * 2 ^ 128 + hashWord h 3 * d * 2 ^ 192 := by
    conv_lhs => rw [hashWord_sum h]
    ring
  rw [hprod]
  unfold checkHash64
  have h0 := hp 0; have h1 := hp 1; have h2 := hp 2
  have m1 := hm 1; have m2 := hm 2; have m3 := hm 3
  generalize hashWord h 0 * d = p0 at *
  generalize hashWord h 1 * d = p1 at *
  generalize hashWord h 2 * d = p2 at *
  generalize hashWord h 3 * d = p3 at *
  split
  · -- the top word's product alone reaches 2^256
    simp only [Bool.false_eq_true, false_iff]
    omega
  · have hc1 := cadd_iff h0 m1
    have hc2 := cadc_iff h1 m2 (cadd (p0 / 2 ^ 64) (p1 % 2 ^ 64))
    have hc3 := cadc_iff h2 m3
      (cadc (p1 / 2 ^ 64) (p2 % 2 ^ 64) (cadd (p0 / 2 ^ 64) (p1 % 2 ^ 64)))
    cases hb1 : cadd (p0 / 2 ^ 64) (p1 % 2 ^ 64) <;>
      simp only [hb1, Bool.toNat_false, Bool.toNat_true, Bool.false_eq_true, false_iff,
        true_iff] at hc1 hc2 hc3 ⊢ <;>
      cases hb2 : cadc (p1 / 2 ^ 64) (p2 % 2 ^ 64) _ <;>
      simp only [hb2, Bool.toNat_false, Bool.toNat_true, Bool.false_eq_true, false_iff,
        true_iff] at hc2 hc3 ⊢ <;>
      rw [Bool.not_eq_true', ← Bool.not_eq_true, hc3] <;> omega

theorem checkHash_iff (h : Hash) (d : Nat) :
    checkHash h d = true ↔ h.toNat * d < 2 ^ 256 := by
  unfold checkHash
  split
  · exact checkHash64_iff h (by assumption)
  · simp only [checkHash128, decide_eq_true_eq]
    omega

theorem checkHash_one (h : Hash) : checkHash h 1 = true := by
  rw [checkHash_iff, Nat.mul_one]
  exact h.isLt

end Oxyra
