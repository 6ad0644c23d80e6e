import Oxyra.Core.HashTemplate
import Oxyra.Lib.LowerBound

/-!
# Searching for a hash by its high bits

The comparison of `nbits` bits is that of the numbers the high bits give, and a template is
the hash with its low bits cleared: a scan from the template meets all matches first.
-/

namespace Oxyra.HashTemplate

open Limbs

variable {k nbits : Nat}

/-! ## Words and bits -/

def topBits (nbits : Nat) (h : Hash) : Nat := h.toNat / 2 ^ (256 - nbits)

theorem value_words {w : Nat} (hwk : w * k = 256) (h : Hash) : value (words w h) k = h.toNat := by
  show value (fun i => BitVec.ofNat w (h.toNat >>> (w * i))) k = h.toNat
  rw [value_ofNat_shift, hwk, Nat.mod_eq_of_lt h.isLt]

theorem topBits_words (h : Hash) (nbits : Nat) : top (words 64 h) 4 nbits = topBits nbits h := by
  rw [top, value_words rfl, topBits]

theorem toNat_ofWords (vh : Nat → BitVec 64) : (ofWords vh).toNat = value vh 4 := by
  rw [ofWords, BitVec.toNat_ofNat]
  exact Nat.mod_eq_of_lt (value_lt vh 4)

theorem topBits_all (h : Hash) : topBits 256 h = h.toNat := Nat.div_one _

theorem topBits_of_le {fewer : Nat} (hle : fewer ≤ nbits) (hn : nbits ≤ 256) (h : Hash) :
    topBits fewer h = topBits nbits h / 2 ^ (nbits - fewer) := by
  rw [topBits, topBits, Nat.div_div_eq_div_mul, ← Nat.pow_add]
  congr 2
  omega

/-! ## The loops -/

/-- **The loop compares the high bits of what it has in front of it.** -/
theorem compareLoop_eq (va vb : Nat → BitVec 64) (h : nbits ≤ 64 * k) :
    compareLoop va vb k nbits = threeWay (top va k nbits) (top vb k nbits) := by
  induction k generalizing nbits with
  | zero =>
    obtain rfl : nbits = 0 := by omega
    rw [top_zero, top_zero]
    rfl
  | succ k ih =>
    by_cases h0 : nbits = 0
    · subst h0
      rw [compareLoop, if_pos rfl, top_zero, top_zero]
      rfl
    rw [compareLoop, if_neg h0]
    simp only [gt_iff_lt, BitVec.lt_def, BitVec.toNat_ushiftRight, Nat.shiftRight_eq_div_pow]
    rcases Nat.le_or_ge nbits 64 with hle | hge
    · -- the last word that is looked at: no bits are left for the others
      rw [Nat.min_eq_right hle, Nat.sub_self, ih (Nat.zero_le _), top_zero, top_zero,
        top_of_le va k hle, top_of_le vb k hle]
      rfl
    · obtain ⟨n, rfl⟩ := Nat.exists_eq_add_of_le hge
      have hn : n ≤ 64 * k := by omega
      rw [Nat.min_eq_left hge, Nat.add_sub_cancel_left, ih hn, top_add va hn, top_add vb hn,
        threeWay_mul_add _ _ (top_lt va hn) (top_lt vb hn), Nat.sub_self, Nat.pow_zero,
        Nat.div_one, Nat.div_one]

/-- **The comparison is that of the high bits.** -/
theorem compare_eq (h : nbits ≤ 256) (a b : Hash) :
    compareHash32ReversedNbits a b nbits = threeWay (topBits nbits a) (topBits nbits b) := by
  rw [compareHash32ReversedNbits, compareLoop_eq _ _ h, topBits_words, topBits_words]

theorem templateLoop_of_ge (k nbits : Nat) (vh : Nat → BitVec 64) {i : Nat} (hi : k ≤ i) :
    templateLoop k nbits vh i = vh i := by
  induction k generalizing nbits vh with
  | zero => rfl
  | succ k ih =>
    rw [templateLoop, ih _ _ (Nat.le_of_succ_le hi),
      Function.update_of_ne (Nat.ne_of_gt hi)]

theorem toNat_and_mask (x : BitVec 64) {n : Nat} (h : n ≤ 64) :
    (x &&& mask n).toNat = x.toNat / 2 ^ (64 - n) * 2 ^ (64 - n) := by
  by_cases h0 : n = 0
  · subst h0
    rw [mask, if_neg (by simp), BitVec.and_zero, BitVec.toNat_ofNat,
      Nat.div_eq_of_lt x.isLt]
    rfl
  · rw [mask, if_pos h0, toNat_and_not_low x (by omega)]

/-- **The loop keeps the high bits and clears the others.** -/
theorem value_templateLoop (vh : Nat → BitVec 64) (h : nbits ≤ 64 * k) :
    value (templateLoop k nbits vh) k = top vh k nbits * 2 ^ (64 * k - nbits) := by
  induction k generalizing nbits vh with
  | zero =>
    obtain rfl : nbits = 0 := by omega
    rw [top_zero, Nat.zero_mul]
    rfl
  | succ k ih =>
    have hlow : ∀ n, top (Function.update vh k (vh k &&& mask (min 64 nbits))) k n
        = top vh k n := by
      intro n
      have hsame : ∀ i < k, Function.update vh k (vh k &&& mask (min 64 nbits)) i = vh i :=
        fun i hi => Function.update_of_ne (Nat.ne_of_lt hi) _ _
      rw [top, top, value_congr hsame]
    rw [templateLoop, value, templateLoop_of_ge k _ _ (Nat.le_refl k), Function.update_self,
      ih _ (by omega), hlow, toNat_and_mask _ (Nat.min_le_left 64 nbits)]
    rcases Nat.le_or_ge nbits 64 with hle | hge
    · rw [Nat.min_eq_right hle, Nat.sub_self, top_zero, Nat.zero_mul, Nat.add_zero,
        top_of_le vh k hle, Nat.mul_assoc, ← Nat.pow_add]
      congr 2
      omega
    · obtain ⟨n, rfl⟩ := Nat.exists_eq_add_of_le hge
      have hn : n ≤ 64 * k := by omega
      have hexp : 64 * (k + 1) - (64 + n) = 64 * k - n := by omega
      have hpow : 2 ^ n * 2 ^ (64 * k - n) = 2 ^ (64 * k) := by
        rw [← Nat.pow_add, Nat.add_sub_cancel' hn]
      rw [Nat.min_eq_left hge, Nat.add_sub_cancel_left, top_add vh hn, hexp, Nat.add_mul,
        Nat.sub_self, Nat.pow_zero, Nat.div_one, Nat.mul_one, Nat.mul_assoc, hpow]

/-- **A template is the hash without its low bits.** -/
theorem toNat_template (h : nbits ≤ 256) (hash : Hash) :
    (makeHash32LooseTemplate nbits hash).toNat = topBits nbits hash * 2 ^ (256 - nbits) := by
  rw [makeHash32LooseTemplate, toNat_ofWords, value_templateLoop _ h, topBits_words]

theorem topBits_template (h : nbits ≤ 256) (hash : Hash) :
    topBits nbits (makeHash32LooseTemplate nbits hash) = topBits nbits hash := by
  rw [topBits, toNat_template h, Nat.mul_div_cancel _ (Nat.two_pow_pos _)]

theorem topBits_eq_iff (h : nbits ≤ 256) (hash g : Hash) :
    topBits nbits g = topBits nbits hash ↔
      (makeHash32LooseTemplate nbits hash).toNat ≤ g.toNat ∧
        g.toNat < (topBits nbits hash + 1) * 2 ^ (256 - nbits) := by
  rw [toNat_template h, topBits, Nat.div_eq_iff (Nat.two_pow_pos _)]
  have hpos := Nat.two_pow_pos (256 - nbits)
  rw [Nat.add_mul, Nat.one_mul]
  omega

theorem topBits_lt_iff (nbits : Nat) (hash g : Hash) :
    topBits nbits hash < topBits nbits g ↔
      (topBits nbits hash + 1) * 2 ^ (256 - nbits) ≤ g.toNat :=
  Nat.le_div_iff_mul_le (Nat.two_pow_pos _)

/-! ## Scans -/

/-- **A scan from the template meets the matches, and behind them larger hashes only.** -/
theorem scan_eq (h : nbits ≤ 256) (hash : Hash) {ids : List Hash}
    (hsorted : ids.Pairwise fun a b => a.toNat ≤ b.toNat) :
    (ids.dropWhile fun id => id.toNat < (makeHash32LooseTemplate nbits hash).toNat) =
      (ids.filter fun id => topBits nbits id = topBits nbits hash) ++
        ids.filter fun id => topBits nbits hash < topBits nbits id := by
  have hrest := hsorted.filter fun id =>
    decide ((makeHash32LooseTemplate nbits hash).toNat ≤ id.toNat)
  rw [LowerBound.dropWhile_lt_eq_filter hsorted, LowerBound.eq_filter_lt_append hrest
    ((topBits nbits hash + 1) * 2 ^ (256 - nbits)), List.filter_filter, List.filter_filter]
  congr 1
  · refine List.filter_congr fun id _ => ?_
    rw [Bool.eq_iff_iff]
    simp only [Bool.and_eq_true, decide_eq_true_eq, topBits_eq_iff h]
    exact and_comm
  · refine List.filter_congr fun id _ => ?_
    rw [Bool.eq_iff_iff]
    simp only [Bool.and_eq_true, decide_eq_true_eq, topBits_lt_iff, toNat_template h]
    refine ⟨fun hid => hid.1, fun hid => ⟨hid, le_trans ?_ hid⟩⟩
    exact Nat.mul_le_mul_right _ (Nat.le_succ _)

/-- What the comparison of `nbits` bits and the templates for it are good for. -/
structure PrefixSearch (nbits : Nat) : Prop where
  /-- The comparison is a total preorder. -/
  total : ∀ a b, compareHash32ReversedNbits a b nbits ≤ 0 ∨ compareHash32ReversedNbits b a nbits ≤ 0
  trans : ∀ a b c, compareHash32ReversedNbits a b nbits ≤ 0 →
    compareHash32ReversedNbits b c nbits ≤ 0 → compareHash32ReversedNbits a c nbits ≤ 0
  swap : ∀ a b, compareHash32ReversedNbits b a nbits = -compareHash32ReversedNbits a b nbits
  /-- Two hashes are equivalent if their `nbits` most significant bits are the same. -/
  equivalent : ∀ a b, compareHash32ReversedNbits a b nbits = 0 ↔
    a.toNat / 2 ^ (256 - nbits) = b.toNat / 2 ^ (256 - nbits)
  /-- With more bits the order becomes finer, up to that of the numbers. -/
  refines : ∀ fewer ≤ nbits, ∀ a b, compareHash32ReversedNbits a b nbits ≤ 0 →
    compareHash32ReversedNbits a b fewer ≤ 0
  finest : ∀ a b, compareHash32ReversedNbits a b 256 ≤ 0 ↔ a.toNat ≤ b.toNat
  /-- The template is the least of the hashes equivalent to the one it is made from. -/
  template_equivalent : ∀ h,
    compareHash32ReversedNbits (makeHash32LooseTemplate nbits h) h nbits = 0
  template_least : ∀ h g, compareHash32ReversedNbits g h nbits = 0 →
    compareHash32ReversedNbits (makeHash32LooseTemplate nbits h) g 256 ≤ 0
  /-- Sorted ids from the template on: all matches, then larger ids that do not match. -/
  scan : ∀ h (ids : List Hash), (ids.Pairwise fun a b => compareHash32ReversedNbits a b 256 ≤ 0) →
    (ids.dropWhile fun id =>
        compareHash32ReversedNbits id (makeHash32LooseTemplate nbits h) 256 < 0) =
      (ids.filter fun id => compareHash32ReversedNbits id h nbits = 0) ++
        ids.filter fun id => compareHash32ReversedNbits id h nbits = 1

/-- **The comparison and the templates fit together, for every number of bits.** -/
theorem prefix_search {nbits : Nat} (hn : nbits ≤ 256) : PrefixSearch nbits where
  total a b := by
    rw [compare_eq hn, compare_eq hn, threeWay_nonpos_iff, threeWay_nonpos_iff]
    exact Nat.le_total _ _
  trans a b c := by
    rw [compare_eq hn, compare_eq hn, compare_eq hn, threeWay_nonpos_iff, threeWay_nonpos_iff,
      threeWay_nonpos_iff]
    exact Nat.le_trans
  swap a b := by
    rw [compare_eq hn, compare_eq hn]
    exact threeWay_swap _ _
  equivalent a b := by
    rw [compare_eq hn]
    exact threeWay_eq_zero_iff _ _
  refines fewer hle a b := by
    rw [compare_eq hn, compare_eq (hle.trans hn), threeWay_nonpos_iff, threeWay_nonpos_iff,
      topBits_of_le hle hn, topBits_of_le hle hn]
    exact Nat.div_le_div_right
  finest a b := by
    rw [compare_eq (Nat.le_refl 256), threeWay_nonpos_iff, topBits_all, topBits_all]
  template_equivalent h := by
    rw [compare_eq hn, threeWay_eq_zero_iff, topBits_template hn]
  template_least h g := by
    rw [compare_eq hn, compare_eq (Nat.le_refl 256), threeWay_eq_zero_iff, threeWay_nonpos_iff,
      topBits_all, topBits_all]
    exact fun hg => ((topBits_eq_iff hn h g).mp hg).1
  scan h ids := by
    simp only [compare_eq hn, compare_eq (Nat.le_refl 256), threeWay_nonpos_iff, threeWay_neg_iff,
      threeWay_eq_zero_iff, threeWay_eq_one_iff, topBits_all]
    exact fun hsorted => scan_eq hn h hsorted

theorem prefix_search_twelve_bits : 12 ≤ 256 ∧ PrefixSearch 12 :=
  ⟨by decide, prefix_search (by decide)⟩

/-! ## The search of the database -/

theorem compareWords_eq (va vb : Nat → BitVec 32) (k : Nat) :
    compareWords va vb k = threeWay (value va k) (value vb k) := by
  induction k with
  | zero => rfl
  | succ k ih =>
    rw [compareWords, value, value, threeWay_mul_add _ _ (value_lt va k) (value_lt vb k), ih]
    rcases Nat.lt_trichotomy (va k).toNat (vb k).toNat with hlt | heq | hgt
    · rw [if_neg (fun h => Nat.ne_of_lt hlt (congrArg _ h)), if_pos (BitVec.lt_def.mpr hlt),
        if_pos hlt]
    · rw [if_pos (BitVec.eq_of_toNat_eq heq), if_neg (Nat.not_lt.mpr (Nat.le_of_eq heq.symm)),
        if_neg (Nat.not_lt.mpr (Nat.le_of_eq heq))]
    · rw [if_neg (fun h => Nat.ne_of_gt hgt (congrArg _ h)),
        if_neg (fun h => Nat.lt_asymm hgt (BitVec.lt_def.mp h)), if_neg (Nat.lt_asymm hgt),
        if_pos hgt]

theorem compareHash32_eq (a b : Hash) : compareHash32 a b = threeWay a.toNat b.toNat := by
  rw [compareHash32, compareWords_eq, value_words rfl, value_words rfl]

def matchesOf (txidTemplate : Hash) (bits : Nat) (ids : List Hash) : List Hash :=
  ids.filter fun id => topBits bits id = topBits bits txidTemplate

theorem looseLoop_append {txidTemplate : Hash} {bits : Nat} (maxNumTxs : Nat) (hn : bits ≤ 256)
    {found larger : List Hash} (hfound : ∀ id ∈ found, topBits bits id = topBits bits txidTemplate)
    (hlarger : ∀ id ∈ larger, topBits bits txidTemplate < topBits bits id)
    (matchingHashes : List Hash) :
    looseLoop txidTemplate bits maxNumTxs (found ++ larger) matchingHashes =
      if found ≠ [] ∧ maxNumTxs ≠ 0 ∧ maxNumTxs < matchingHashes.length + found.length then none
      else some (matchingHashes ++ found) := by
  induction found generalizing matchingHashes with
  | nil =>
    rw [if_neg (fun h => h.1 rfl), List.append_nil, List.nil_append]
    cases larger with
    | nil => rfl
    | cons id larger =>
      have hid := hlarger id List.mem_cons_self
      rw [looseLoop, if_pos]
      rw [compare_eq hn, ne_eq, threeWay_eq_zero_iff]
      exact Nat.ne_of_lt hid
  | cons id found ih =>
    have hid : compareHash32ReversedNbits txidTemplate id bits = 0 := by
      rw [compare_eq hn, threeWay_eq_zero_iff]
      exact (hfound id List.mem_cons_self).symm
    rw [List.cons_append, looseLoop, if_neg (not_not.mpr hid),
      ih (fun x hx => hfound x (List.mem_cons_of_mem _ hx))]
    have hlength : (matchingHashes ++ [id]).length + found.length =
        matchingHashes.length + (id :: found).length := by
      simp only [List.length_append, List.length_cons, List.length_nil]
      omega
    rw [hlength, List.append_assoc, List.singleton_append]
    by_cases hfull : matchingHashes.length ≥ maxNumTxs ∧ maxNumTxs ≠ 0
    · rw [if_pos hfull, if_pos ⟨List.cons_ne_nil id found, hfull.2, by
        rw [List.length_cons]
        omega⟩]
    · rw [if_neg hfull]
      -- with room for this match, only a further one can be one too many
      refine if_congr ⟨fun h => ⟨List.cons_ne_nil id found, h.2⟩, fun h => ⟨?_, h.2⟩⟩ rfl rfl
      rintro rfl
      have hmax := h.2.2
      rw [List.length_singleton] at hmax
      omega

theorem looseLoop_range {txidTemplate : Hash} {bits : Nat} (maxNumTxs : Nat) (hn : bits ≤ 256)
    (htemplate : makeHash32LooseTemplate bits txidTemplate = txidTemplate) {ids : List Hash}
    (hsorted : ids.Pairwise fun a b => compareHash32 a b ≤ 0) (matchingHashes : List Hash) :
    looseLoop txidTemplate bits maxNumTxs (cursorRange ids txidTemplate) matchingHashes =
      if matchesOf txidTemplate bits ids ≠ [] ∧ maxNumTxs ≠ 0 ∧
          maxNumTxs < matchingHashes.length + (matchesOf txidTemplate bits ids).length then none
      else some (matchingHashes ++ matchesOf txidTemplate bits ids) := by
  simp only [compareHash32_eq, threeWay_nonpos_iff] at hsorted
  have hrange := scan_eq hn txidTemplate hsorted
  rw [htemplate] at hrange
  simp only [cursorRange, compareHash32_eq, threeWay_neg_iff]
  rw [hrange]
  refine looseLoop_append maxNumTxs hn (fun id hid => ?_) (fun id hid => ?_) matchingHashes
  · exact of_decide_eq_true (List.mem_filter.mp hid).2
  · exact of_decide_eq_true (List.mem_filter.mp hid).2

/-- **The search of the database returns the matches of both tables, all of them, and throws only
if they are more than the maximum.** -/
theorem get_txids_loose_eq {txidTemplate : Hash} {bits : Nat} (maxNumTxs : Nat) (hn : bits ≤ 256)
    (htemplate : makeHash32LooseTemplate bits txidTemplate = txidTemplate)
    {txIndices txpoolMeta : List Hash}
    (hchain : txIndices.Pairwise fun a b => compareHash32 a b ≤ 0)
    (hpool : txpoolMeta.Pairwise fun a b => compareHash32 a b ≤ 0) :
    getTxidsLoose txIndices txpoolMeta txidTemplate bits maxNumTxs =
      if maxNumTxs ≠ 0 ∧ maxNumTxs < (matchesOf txidTemplate bits txIndices ++
          matchesOf txidTemplate bits txpoolMeta).length then none
      else some (matchesOf txidTemplate bits txIndices ++
        matchesOf txidTemplate bits txpoolMeta) := by
  rw [getTxidsLoose, looseLoop_range maxNumTxs hn htemplate hchain, List.length_nil, Nat.zero_add,
    List.nil_append, List.length_append]
  by_cases hfull : matchesOf txidTemplate bits txIndices ≠ [] ∧ maxNumTxs ≠ 0 ∧
      maxNumTxs < (matchesOf txidTemplate bits txIndices).length
  · rw [if_pos hfull, if_pos ⟨hfull.2.1, Nat.lt_add_right _ hfull.2.2⟩, Option.bind_none]
  · rw [if_neg hfull, Option.bind_some, looseLoop_range maxNumTxs hn htemplate hpool]
    refine if_congr ⟨fun h => h.2, fun h => ⟨fun hnone => hfull ?_, h⟩⟩ rfl rfl
    rw [hnone, List.length_nil, Nat.add_zero] at h
    refine ⟨fun hempty => ?_, h⟩
    rw [hempty] at h
    exact Nat.not_lt_zero _ h.2

theorem get_txids_loose_full : getTxidsLoose [1#256] [2#256] 0 4 1 = none :=
  (get_txids_loose_eq 1 (by decide) (by decide) (by simp) (by simp)).trans (by decide)

end Oxyra.HashTemplate
