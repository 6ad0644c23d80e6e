import Oxyra.Lib.OrderStatistics
import Oxyra.Logic.Regtest

/-!
# Long-term block weights grow slowly

The long-term weight stored for a block is clamped to 1.7 times the long-term effective
median, and the median only exceeds a bound once half of its window does. So half a window
has to pass before the median can move up by a factor of 1.7 (`long_term_growth`).
-/

namespace Oxyra

open Blockchain

variable {e : Env}

/-! ## The median -/

theorem toNat_max_eq (a b : UInt64) : (max a b).toNat = max a.toNat b.toNat := by
  show (if a ≤ b then b else a).toNat = _
  split
  · rename_i h
    exact (max_eq_right (UInt64.le_iff_toNat_le.mp h)).symm
  · rename_i h
    exact (max_eq_left (by rw [UInt64.le_iff_toNat_le] at h; omega)).symm

theorem toNat_min_le (a b : UInt64) : (min a b).toNat ≤ b.toNat := by
  show (if a ≤ b then a else b).toNat ≤ _
  split
  · rename_i h
    exact UInt64.le_iff_toNat_le.mp h
  · exact le_refl _

theorem getMid_le {a b : UInt64} (h : a ≤ b) : getMid a b ≤ b := by
  rw [UInt64.le_iff_toNat_le] at *
  have ha := a.toNat_lt
  have hb := b.toNat_lt
  unfold getMid
  simp only [UInt64.toNat_add, UInt64.toNat_div, UInt64.toNat_sub, UInt64.toNat_mul,
    UInt64.reduceToNat]
  omega

/-- **The median of an even window**, where fewer than half of the entries exceed `b`. -/
theorem median_le {v : List UInt64} {half : Nat} (hlen : v.length = 2 * half) (hpos : 0 < half)
    {b : ℚ} (hfew : v.countP (fun w => b < (w.toNat : ℚ)) < half) :
    ((median v).toNat : ℚ) ≤ b := by
  have hperm := List.perm_insertionSort (· ≤ ·) v
  have hsorted : (v.insertionSort (· ≤ ·)).Pairwise (· ≤ ·) := List.pairwise_insertionSort _ v
  have hlength : (v.insertionSort (· ≤ ·)).length = 2 * half := hperm.length_eq.trans hlen
  have hlow : half - 1 < (v.insertionSort (· ≤ ·)).length := by omega
  have hhigh : half < (v.insertionSort (· ≤ ·)).length := by omega
  have hmedian : median v =
      getMid (v.insertionSort (· ≤ ·))[half - 1] (v.insertionSort (· ≤ ·))[half] := by
    have hhalf : v.length / 2 = half := by omega
    unfold median
    split
    · simp at hlen; omega
    · simp at hlen; omega
    · dsimp only
      rw [if_neg (by omega), hhalf, List.getD_eq_getElem _ _ hlow, List.getD_eq_getElem _ _ hhigh]
  have hle : (v.insertionSort (· ≤ ·))[half - 1] ≤ (v.insertionSort (· ≤ ·))[half] :=
    List.pairwise_iff_getElem.mp hsorted _ _ hlow hhigh (by omega)
  have hupper : (((v.insertionSort (· ≤ ·))[half]).toNat : ℚ) ≤ b := by
    refine getElem_le_of_countP_lt (f := fun w : UInt64 => (w.toNat : ℚ))
      (hsorted.imp fun h => Nat.cast_le.mpr (UInt64.le_iff_toNat_le.mp h)) hhigh ?_
    rw [hperm.countP_eq]
    omega
  rw [hmedian]
  exact (Nat.cast_le.mpr (UInt64.le_iff_toNat_le.mp (getMid_le hle))).trans hupper

/-! ## A continued chain -/

/-- The long-term weights `get_long_term_block_weight_median` is asked about. -/
def Chain.longTermRange (e : Env) (chain : Chain) : List UInt64 :=
  (chain.drop (chain.length - min e.longTermWindow chain.length)).map
    StoredBlock.longTermBlockWeight

/-- `get_long_term_block_weight_median` returns the true median of the range. -/
def TrueMedian (e : Env) (s : Blockchain) : Prop :=
  (s.getLongTermBlockWeightMedian e (min e.longTermWindow s.height)).1 =
    median (s.chain.longTermRange e)

def effectiveMedian (e : Env) (chain : Chain) : UInt64 :=
  max fullRewardZoneV5 (median (chain.longTermRange e))

/-- The members `update_next_cumulative_weight_limit` leaves for the chain of `mid`. -/
structure Settled (e : Env) (mid s : Blockchain) : Prop where
  chain : s.chain = mid.chain
  hf : s.hf = mid.hf
  weights : s.weights = (mid.updateNextCumulativeWeightLimit e).weights
  trueMedian : TrueMedian e mid

/-- The chain of `start`, continued by `n` blocks of any weights, each stored with the
long-term weight `get_next_long_term_block_weight` gives for it. -/
inductive Continued (e : Env) (start : Blockchain) : Nat → Blockchain → Prop
  | start {s : Blockchain} : Settled e start s → Continued e start 0 s
  | block {n : Nat} {s mid s' : Blockchain} {sb : StoredBlock} :
      Continued e start n s → TrueMedian e s →
      sb.longTermBlockWeight = (s.getNextLongTermBlockWeight e sb.blockWeight).1 →
      mid.chain = s.chain ++ [sb] →
      mid.hf = (s.hf.add e.forks s.hfVersions sb.bl s.height).1 →
      Settled e mid s' → Continued e start (n + 1) s'

theorem Settled.effective {mid s : Blockchain} (h : Settled e mid s)
    (hversion : hfLongTermBlockWeight ≤ mid.hfVersion e) :
    s.weights.longTermEffectiveMedian = effectiveMedian e s.chain := by
  rw [h.weights, h.chain, effectiveMedian, ← h.trueMedian]
  simp only [updateNextCumulativeWeightLimit, nextWeightMedian, if_neg (not_lt.mpr hversion)]

/-- **The clamp.** Products that wrap only make it tighter. -/
theorem getNextLongTermBlockWeight_le {s : Blockchain} (hs : TrueMedian e s)
    (hversion : hfLongTermBlockWeight ≤ s.hfVersion e) (weight : UInt64) :
    ((s.getNextLongTermBlockWeight e weight).1.toNat : ℚ) ≤
      17 / 10 * ((effectiveMedian e s.chain).toNat : ℚ) := by
  have hclamp : ∀ (m x : UInt64) (p q : UInt64), p.toNat * 10 ≤ 7 * q.toNat →
      0 < q.toNat → (min x (m + m * p / q)).toNat * 10 ≤ 17 * m.toNat := by
    intro m x p q hpq hq
    have hmin := toNat_min_le x (m + m * p / q)
    have hsum : (m + m * p / q).toNat ≤ m.toNat + m.toNat * p.toNat / q.toNat := by
      rw [UInt64.toNat_add, UInt64.toNat_div, UInt64.toNat_mul]
      exact (Nat.mod_le _ _).trans
        (Nat.add_le_add_left (Nat.div_le_div_right (Nat.mod_le _ _)) _)
    have hpart : m.toNat * p.toNat / q.toNat * 10 ≤ 7 * m.toNat := by
      have hdiv := Nat.div_mul_le_self (m.toNat * p.toNat) q.toNat
      have hscaled : m.toNat * p.toNat / q.toNat * 10 * q.toNat ≤ 7 * m.toNat * q.toNat := by
        nlinarith
      exact Nat.le_of_mul_le_mul_right hscaled hq
    omega
  have hnat : (s.getNextLongTermBlockWeight e weight).1.toNat * 10 ≤
      17 * (effectiveMedian e s.chain).toNat := by
    unfold getNextLongTermBlockWeight
    rw [effectiveMedian, ← hs]
    simp only [if_neg (not_lt.mpr hversion)]
    split
    · exact hclamp _ _ 7 10 (by decide) (by decide)
    · exact hclamp _ _ 2 5 (by decide) (by decide)
  have hcast : ((s.getNextLongTermBlockWeight e weight).1.toNat : ℚ) * 10 ≤
      17 * ((effectiveMedian e s.chain).toNat : ℚ) := by
    exact_mod_cast hnat
  linarith

/-! ## Growth -/

/-- What the median cannot exceed once `n` blocks have been added. -/
def growthBound (half n : Nat) (limit : ℚ) : ℚ :=
  (17 / 10) ^ (n / half) * limit

theorem growthBound_mono {half m n : Nat} {limit : ℚ} (hlimit : 0 ≤ limit) (hmn : m ≤ n) :
    growthBound half m limit ≤ growthBound half n limit := by
  unfold growthBound
  have hdiv : m / half ≤ n / half := Nat.div_le_div_right hmn
  gcongr
  norm_num

theorem le_growthBound {half n : Nat} {limit : ℚ} (hlimit : 0 ≤ limit) :
    limit ≤ growthBound half n limit := by
  have hone : growthBound half 0 limit = limit := by simp [growthBound]
  exact hone.symm.le.trans (growthBound_mono hlimit (Nat.zero_le n))

theorem growthBound_next {half n : Nat} (hpos : 0 < half) (limit : ℚ) :
    17 / 10 * growthBound half n limit = growthBound half (n + half) limit := by
  rw [growthBound, growthBound, Nat.add_div_right _ hpos, pow_succ]
  ring

/-- The blocks added so far lie under caps that rise by one factor every half window. -/
structure Capped (e : Env) (half : Nat) (limit : ℚ) (base added : Chain) : Prop where
  window : e.longTermWindow = 2 * half
  enough : e.longTermWindow ≤ base.length
  old : ∀ sb ∈ base.drop (base.length - e.longTermWindow),
    (sb.longTermBlockWeight.toNat : ℚ) ≤ limit
  new : ∀ j (hj : j < added.length),
    (added[j].longTermBlockWeight.toNat : ℚ) ≤ growthBound half (j + half) limit

section Growth

variable {half : Nat} {limit : ℚ} {base added : Chain}

/-- **Too few new blocks to move the median.** Only the blocks of the current half window
can lie above the bound. -/
theorem Capped.few (h : Capped e half limit base added) (hpos : 0 < half) (hlimit : 0 ≤ limit) :
    ((base ++ added).longTermRange e).countP
      (fun w => growthBound half added.length limit < (w.toNat : ℚ)) < half := by
  let above : StoredBlock → Bool := fun sb =>
    growthBound half added.length limit < (sb.longTermBlockWeight.toNat : ℚ)
  -- the window reaches into the last blocks of the base only
  have hwindow : (base ++ added).drop ((base ++ added).length -
      min e.longTermWindow (base ++ added).length) <:+
      base.drop (base.length - e.longTermWindow) ++ added := by
    have henough := h.enough
    have hsplit : base.drop (base.length - e.longTermWindow) ++ added =
        (base ++ added).drop (base.length - e.longTermWindow) :=
      (List.drop_append_of_le_length (by omega)).symm
    rw [hsplit]
    refine List.drop_suffix_drop_left _ ?_
    rw [List.length_append]
    omega
  have hold : (base.drop (base.length - e.longTermWindow)).countP above = 0 := by
    rw [List.countP_eq_zero]
    intro sb hsb
    simpa [above] using (h.old sb hsb).trans (le_growthBound hlimit)
  have hnew : added.countP above ≤ added.length - added.length / half * half := by
    refine countP_gt_le_of_capped fun j hj hlt => (h.new j hj).trans ?_
    -- a block before the current half window is capped by the bound in force
    have hdiv : (j + half) / half ≤ added.length / half := by
      rw [Nat.add_div_right _ hpos]
      exact (Nat.div_lt_iff_lt_mul hpos).mpr hlt
    unfold growthBound
    gcongr
    norm_num
  calc ((base ++ added).longTermRange e).countP _
      = ((base ++ added).drop ((base ++ added).length -
          min e.longTermWindow (base ++ added).length)).countP above := by
        rw [Chain.longTermRange, List.countP_map]
        rfl
    _ ≤ (base.drop (base.length - e.longTermWindow) ++ added).countP above :=
        hwindow.sublist.countP_le
    _ = added.countP above := by rw [List.countP_append, hold, Nat.zero_add]
    _ ≤ added.length - added.length / half * half := hnew
    _ = added.length % half := by
        have := Nat.div_add_mod added.length half
        have := Nat.mul_comm half (added.length / half)
        omega
    _ < half := Nat.mod_lt _ hpos

theorem Capped.effectiveMedian_le (h : Capped e half limit base added) (hpos : 0 < half)
    (hzone : (fullRewardZoneV5.toNat : ℚ) ≤ limit) :
    ((effectiveMedian e (base ++ added)).toNat : ℚ) ≤ growthBound half added.length limit := by
  have hlimit : 0 ≤ limit := le_trans (Nat.cast_nonneg _) hzone
  have hlen : ((base ++ added).longTermRange e).length = 2 * half := by
    have hwindow := h.window
    have henough := h.enough
    simp only [Chain.longTermRange, List.length_map, List.length_drop, List.length_append]
    omega
  have hmedian := median_le hlen hpos (h.few hpos hlimit)
  rw [effectiveMedian, toNat_max_eq, Nat.cast_max]
  exact max_le (hzone.trans (le_growthBound hlimit)) hmedian

theorem Capped.snoc (h : Capped e half limit base added) {sb : StoredBlock}
    (hsb : (sb.longTermBlockWeight.toNat : ℚ) ≤ growthBound half (added.length + half) limit) :
    Capped e half limit base (added ++ [sb]) where
  window := h.window
  enough := h.enough
  old := h.old
  new := by
    intro j hj
    rw [List.length_append, List.length_singleton] at hj
    rcases Nat.lt_succ_iff_lt_or_eq.mp hj with hlt | rfl
    · rw [List.getElem_append_left hlt]
      exact h.new j hlt
    · rw [List.getElem_append_right (le_refl _)]
      simpa using hsb

theorem Continued.capped {start s : Blockchain} {n : Nat} (h : Continued e start n s)
    (hpos : 0 < half) (hzone : (fullRewardZoneV5.toNat : ℚ) ≤ limit)
    (hstart : Capped e half limit start.chain [])
    (hversion : hfLongTermBlockWeight ≤ start.hfVersion e) :
    ∃ added, added.length = n ∧ s.chain = start.chain ++ added ∧
      Capped e half limit start.chain added ∧ hfLongTermBlockWeight ≤ s.hfVersion e ∧
      s.weights.longTermEffectiveMedian = effectiveMedian e s.chain := by
  induction h with
  | start hset =>
    refine ⟨[], rfl, by rw [hset.chain, List.append_nil], hstart, ?_, hset.effective hversion⟩
    rwa [hfVersion, hset.hf]
  | @block n s mid s' sb _ hs hweight hchain hhf hset ih =>
    obtain ⟨added, rfl, hadded, hcap, hver, _⟩ := ih
    have hmid : hfLongTermBlockWeight ≤ mid.hfVersion e := by
      rw [hfVersion, hhf]
      exact hver.trans (HardFork.getCurrentVersion_le_add _ _ _)
    have hnext : (sb.longTermBlockWeight.toNat : ℚ) ≤
        growthBound half (added.length + half) limit := by
      rw [hweight, ← growthBound_next hpos]
      refine (getNextLongTermBlockWeight_le hs hver _).trans ?_
      rw [hadded]
      have := hcap.effectiveMedian_le hpos hzone
      linarith
    refine ⟨added ++ [sb], by simp, ?_, hcap.snoc hnext, ?_, hset.effective hmid⟩
    · rw [hset.chain, hchain, hadded, List.append_assoc]
    · rwa [hfVersion, hset.hf]

end Growth

/-- **Long-term weights are rate limited.** From a chain at version 10 or later whose last
window of long-term weights lies under `limit`, the long-term effective median after `n`
more blocks of any weights is at most `1.7 ^ ⌊2 n / window⌋` times the limit. -/
theorem long_term_growth (start : Blockchain) (limit n : Nat) (s : Blockchain)
    (heven : Even e.longTermWindow) (hwindow : 2 ≤ e.longTermWindow)
    (hheight : e.longTermWindow ≤ start.height)
    (hversion : hfLongTermBlockWeight ≤ start.hfVersion e)
    (hlast : ∀ sb ∈ start.chain.drop (start.height - e.longTermWindow),
      sb.longTermBlockWeight.toNat ≤ limit)
    (hrun : Continued e start n s) :
    (s.weights.longTermEffectiveMedian.toNat : ℚ) ≤
      (17 / 10) ^ (2 * n / e.longTermWindow) * (max limit fullRewardZoneV5.toNat : ℕ) := by
  obtain ⟨half, hhalf⟩ := heven
  have hpos : 0 < half := by omega
  have hwin : e.longTermWindow = 2 * half := by omega
  have hzone : (fullRewardZoneV5.toNat : ℚ) ≤ (max limit fullRewardZoneV5.toNat : ℕ) :=
    Nat.cast_le.mpr (le_max_right _ _)
  have hstart : Capped e half (max limit fullRewardZoneV5.toNat : ℕ) start.chain [] :=
    ⟨hwin, hheight,
      fun sb hsb => Nat.cast_le.mpr ((hlast sb hsb).trans (le_max_left _ _)),
      fun j hj => absurd hj (by simp)⟩
  obtain ⟨added, rfl, hchain, hcap, _, heff⟩ := hrun.capped hpos hzone hstart hversion
  have hbound := hcap.effectiveMedian_le hpos hzone
  rw [← hchain, ← heff, growthBound] at hbound
  rwa [hwin, Nat.mul_div_mul_left _ _ (by omega : 0 < 2)]

/-! ## A window of two blocks -/

def narrowWindow : Env := { regtest (schedule 10 []) with longTermWindow := 2 }

def zoneChain : Blockchain :=
  { chain := [{ bl := regtestGenesis 10 [moneySupply], longTermBlockWeight := 300000 },
      { bl := regtestBlock 10 1 0 1 [] [], longTermBlockWeight := 300000 }] }

def zoneState : Blockchain := zoneChain.updateNextCumulativeWeightLimit narrowWindow

def heavyStored : StoredBlock :=
  { bl := regtestBlock 10 2 1 2 [] []
    blockWeight := 1000000
    longTermBlockWeight := (zoneState.getNextLongTermBlockWeight narrowWindow 1000000).1 }

def heavyChain : Blockchain :=
  { zoneState with
    chain := zoneState.chain ++ [heavyStored]
    hf := (zoneState.hf.add narrowWindow.forks zoneState.hfVersions heavyStored.bl
      zoneState.height).1 }

def heavyState : Blockchain := heavyChain.updateNextCumulativeWeightLimit narrowWindow

instance (e : Env) (s : Blockchain) : Decidable (TrueMedian e s) :=
  inferInstanceAs (Decidable (_ = _))

theorem long_term_growth_heavy :
    Continued narrowWindow zoneChain 1 heavyState ∧
      (heavyState.weights.longTermEffectiveMedian.toNat : ℚ) ≤
        (17 / 10) ^ (2 * 1 / narrowWindow.longTermWindow) *
          (max 300000 fullRewardZoneV5.toNat : ℕ) := by
  have hzone : Continued narrowWindow zoneChain 0 zoneState :=
    .start ⟨rfl, rfl, rfl, by decide +kernel⟩
  have hweight : heavyStored.longTermBlockWeight =
      (zoneState.getNextLongTermBlockWeight narrowWindow heavyStored.blockWeight).1 := rfl
  have hset : Settled narrowWindow heavyChain heavyState := ⟨rfl, rfl, rfl, by decide +kernel⟩
  have hheavy : Continued narrowWindow zoneChain 1 heavyState :=
    .block hzone (by decide +kernel) hweight rfl rfl hset
  exact ⟨hheavy, long_term_growth zoneChain 300000 1 heavyState (by decide) (by decide) (by decide)
    (by decide) (by decide +kernel) hheavy⟩

end Oxyra
