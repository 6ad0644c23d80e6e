import Oxyra.Core.Pruning

/-!
# The next unpruned height is the least one, the next pruned one is not always

A seed of `make_pruning_seed` is 0 or names a stripe and a number of stripes (`SeedOf`). The height
that `get_next_unpruned_block_height` returns is then the next one of the stripe or the first of the
tip, whichever comes first, and `has_unpruned_block` holds for the heights of both kinds only.

`get_next_pruned_block_height` asks for the next unpruned height of the following stripe. Where the
tip comes first that is the first height of the tip, which is not pruned (`next_pruned_iff`).
-/

namespace Oxyra.Pruning

open Stripes

variable {k r seed : Nat}

/-- What a seed that is not 0 says: stripe number `r`, counted from 0, of `2 ^ k`. -/
structure SeedOf (seed r k : Nat) : Prop where
  pos : k ≠ 0
  lt : r < 2 ^ k
  stripe : seedStripe seed = r + 1
  log : getPruningLogStripes seed = k

theorem seedOf_make {stripe logStripes : Nat} (h : makePruningSeed stripe logStripes = some seed) :
    seed = 0 ∨ SeedOf seed (stripe - 1) logStripes := by
  unfold makePruningSeed at h
  split at h
  · rename_i hrange
    obtain ⟨hlog, hpos, hle⟩ := hrange
    have hlog : logStripes ≤ 7 := hlog
    have hpow : 2 ^ logStripes ≤ 2 ^ 7 := Nat.pow_le_pow_right (by norm_num) hlog
    rw [Nat.one_shiftLeft] at hle
    have hlow : stripe - 1 < 2 ^ 7 := by omega
    have hseed : seed = 2 ^ 7 * logStripes + (stripe - 1) := by
      rw [Nat.two_pow_add_eq_or_of_lt hlow, Nat.mul_comm, ← Nat.shiftLeft_eq]
      exact (Option.some.inj h).symm
    by_cases hzero : seed = 0
    · exact .inl hzero
    · refine .inr ⟨?_, by omega, ?_, ?_⟩
      · -- a single stripe would make the seed 0
        rintro rfl
        omega
      · rw [seedStripe, if_neg hzero]
        have hand : seed &&& 2 ^ 7 - 1 = seed % 2 ^ 7 := Nat.and_two_pow_sub_one_eq_mod seed 7
        show 1 + (seed &&& 2 ^ 7 - 1) = _
        rw [hand]
        omega
      · have hand : seed >>> 7 &&& 2 ^ 3 - 1 = seed >>> 7 % 2 ^ 3 :=
          Nat.and_two_pow_sub_one_eq_mod _ 3
        show seed >>> 7 &&& 2 ^ 3 - 1 = _
        rw [hand, Nat.shiftRight_eq_div_pow]
        omega
  · simp at h

theorem seedOf_cases
    (h : seed = 0 ∨ ∃ stripe logStripes, makePruningSeed stripe logStripes = some seed) :
    seed = 0 ∨ ∃ r k, SeedOf seed r k := by
  rcases h with h | ⟨stripe, logStripes, h⟩
  · exact .inl h
  · exact (seedOf_make h).imp_right fun h => ⟨_, _, h⟩

theorem and_mask_eq (x k : Nat) :
    (x / stripeSize &&& (1 <<< k) - 1) = stripeOf stripeSize (2 ^ k) x := by
  rw [Nat.one_shiftLeft, Nat.and_two_pow_sub_one_eq_mod]
  rfl

theorem add_tipBlocks_mod {x : Nat} (hx : x ≤ maxBlockNumber + 1) :
    (x + tipBlocks) % 2 ^ 64 = x + tipBlocks := by
  refine Nat.mod_eq_of_lt ?_
  unfold maxBlockNumber at hx
  unfold tipBlocks
  omega

theorem SeedOf.hasUnprunedBlock_iff (h : SeedOf seed r k) (x height : Nat) :
    hasUnprunedBlock x height seed = true ↔
      height ≤ (x + tipBlocks) % 2 ^ 64 ∨ stripeOf stripeSize (2 ^ k) x = r := by
  unfold hasUnprunedBlock getPruningStripe
  rw [h.stripe, h.log, and_mask_eq]
  rw [if_neg (Nat.succ_ne_zero r)]
  generalize (x + tipBlocks) % 2 ^ 64 = sum
  by_cases htip : sum ≥ height
  · simp [htip]
  · simp [htip]

theorem SeedOf.next_eq {blockHeight height : Nat} (h : SeedOf seed r k)
    (hblock : blockHeight ≤ maxBlockNumber + 1) (hheight : height ≤ maxBlockNumber + 1)
    (htip : blockHeight + tipBlocks < height) :
    getNextUnprunedBlockHeight blockHeight height seed =
      min (nextInStripe stripeSize (2 ^ k) r blockHeight) (height - tipBlocks) := by
  have hleast := @isLeast_nextInStripe stripeSize (2 ^ k) r blockHeight (by decide) h.lt
  have hge : blockHeight ≤ nextInStripe stripeSize (2 ^ k) r blockHeight := hleast.1.1
  unfold getNextUnprunedBlockHeight
  rw [if_neg (by omega), if_neg (by omega), h.stripe, h.log]
  dsimp only
  rw [if_neg (Nat.succ_ne_zero r), if_neg (by omega), if_pos h.pos, and_mask_eq]
  unfold nextInStripe at hge ⊢
  by_cases hin : stripeOf stripeSize (2 ^ k) blockHeight = r
  · rw [if_pos (by omega), if_pos hin]
    omega
  · rw [if_neg (by omega)]
    rw [if_neg hin] at hge ⊢
    have hstart : ((blockHeight / stripeSize) >>> k +
          if r + 1 > stripeOf stripeSize (2 ^ k) blockHeight + 1 then 0 else 1) *
          stripeSize <<< k + (r + 1 - 1) * stripeSize =
        blockStart stripeSize (2 ^ k) (blockHeight / stripeSize / 2 ^ k +
          if stripeOf stripeSize (2 ^ k) blockHeight < r then 0 else 1) r := by
      rw [Nat.shiftRight_eq_div_pow, Nat.shiftLeft_eq, blockStart, Nat.add_sub_cancel]
      simp only [gt_iff_lt, Nat.add_lt_add_iff_right]
    rw [hstart]
    generalize blockStart stripeSize (2 ^ k) _ r = start at hge ⊢
    have htip' : ¬height < tipBlocks := by omega
    rw [if_neg htip']
    split
    · omega
    · rw [if_neg (by omega)]
      omega

/-- **The next unpruned height is the least one.** For every seed of `make_pruning_seed`, or 0, and
all heights within the limits. -/
theorem next_unpruned_least (seed blockHeight height : Nat)
    (hseed : seed = 0 ∨ ∃ stripe logStripes, makePruningSeed stripe logStripes = some seed)
    (hblock : blockHeight ≤ maxBlockNumber + 1) (hheight : height ≤ maxBlockNumber + 1) :
    IsLeast {x | blockHeight ≤ x ∧ hasUnprunedBlock x height seed = true}
      (getNextUnprunedBlockHeight blockHeight height seed) := by
  have hself : ∀ {n : Nat}, n = blockHeight → hasUnprunedBlock blockHeight height seed = true →
      IsLeast {x | blockHeight ≤ x ∧ hasUnprunedBlock x height seed = true} n := by
    rintro n rfl hunpruned
    exact ⟨⟨Nat.le_refl _, hunpruned⟩, fun x hx => hx.1⟩
  rcases seedOf_cases hseed with rfl | ⟨r, k, h⟩
  · -- no pruning
    refine hself ?_ rfl
    unfold getNextUnprunedBlockHeight
    rw [if_neg (by omega), if_neg (by omega)]
    rfl
  · by_cases htip : height ≤ blockHeight + tipBlocks
    · refine hself ?_ ((h.hasUnprunedBlock_iff _ _).mpr (.inl (by rwa [add_tipBlocks_mod hblock])))
      unfold getNextUnprunedBlockHeight
      rw [if_neg (by omega), if_neg (by omega), h.stripe]
      rw [if_neg (Nat.succ_ne_zero r), if_pos htip]
    · have hleast := @isLeast_nextInStripe stripeSize (2 ^ k) r blockHeight (by decide) h.lt
      rw [h.next_eq hblock hheight (by omega)]
      refine ⟨⟨?_, ?_⟩, fun x hx => ?_⟩
      · exact le_min hleast.1.1 (by omega)
      · rw [h.hasUnprunedBlock_iff]
        rcases min_choice (nextInStripe stripeSize (2 ^ k) r blockHeight) (height - tipBlocks) with
          heq | heq
        · rw [heq]
          exact .inr hleast.1.2
        · exact .inl (by rw [add_tipBlocks_mod (by omega)]; omega)
      · rcases (h.hasUnprunedBlock_iff x height).mp hx.2 with hx' | hx'
        · have hsum := hx'.trans (Nat.mod_le _ _)
          exact (min_le_right _ _).trans (by omega)
        · exact (min_le_left _ _).trans (hleast.2 ⟨hx.1, hx'⟩)

/-- The second of eight stripes: from height 0 of a long chain, the next block kept is 4096. -/
theorem next_unpruned_least_second :
    getNextUnprunedBlockHeight 0 100000 385 = 4096 ∧
      IsLeast {x | 0 ≤ x ∧ hasUnprunedBlock x 100000 385 = true}
        (getNextUnprunedBlockHeight 0 100000 385) :=
  ⟨by decide +kernel,
    next_unpruned_least 385 0 100000 (.inr ⟨2, 3, by decide +kernel⟩) (by decide) (by decide)⟩

theorem SeedOf.seed_ne_zero (h : SeedOf seed r k) : seedStripe seed ≠ 0 := by
  rw [h.stripe]
  exact Nat.succ_ne_zero r

theorem SeedOf.next_seed (h : SeedOf seed r k) :
    ∃ seed', makePruningSeed (1 + (r + 1 &&& (1 <<< k) - 1)) k = some seed' ∧
      SeedOf seed' ((r + 1) % 2 ^ k) k := by
  have hlog : k ≤ 7 := h.log ▸ Nat.and_le_right
  have hstripe : 1 + (r + 1 &&& (1 <<< k) - 1) = (r + 1) % 2 ^ k + 1 := by
    rw [Nat.one_shiftLeft, Nat.and_two_pow_sub_one_eq_mod, Nat.add_comm]
  have hlt : (r + 1) % 2 ^ k < 2 ^ k := Nat.mod_lt _ (Nat.two_pow_pos k)
  have hpow : 2 ^ k ≤ 2 ^ 7 := Nat.pow_le_pow_right (by norm_num) hlog
  have hrange : k ≤ logStripesMask ∧ (r + 1) % 2 ^ k + 1 > 0 ∧ (r + 1) % 2 ^ k + 1 ≤ 1 <<< k :=
    ⟨hlog, Nat.succ_pos _, by rw [Nat.one_shiftLeft]; omega⟩
  rw [hstripe]
  have hmake : makePruningSeed ((r + 1) % 2 ^ k + 1) k = some _ := if_pos hrange
  refine ⟨_, hmake, (seedOf_make hmake).resolve_left fun hzero => ?_⟩
  -- a seed with stripes in it is not 0
  have hlow : (r + 1) % 2 ^ k < 2 ^ 7 := hlt.trans_le hpow
  have hsum : k <<< logStripesShift ||| ((r + 1) % 2 ^ k + 1 - 1) <<< stripeShift =
      2 ^ 7 * k + (r + 1) % 2 ^ k := by
    rw [Nat.two_pow_add_eq_or_of_lt hlow, Nat.mul_comm, ← Nat.shiftLeft_eq]
    rfl
  have hpos := h.pos
  rw [hsum] at hzero
  omega

theorem SeedOf.nextPruned_eq {blockHeight height : Nat} (h : SeedOf seed r k)
    (hheight : height ≤ maxBlockNumber + 1) (htip : blockHeight + tipBlocks < height)
    (hin : stripeOf stripeSize (2 ^ k) blockHeight = r) :
    getNextPrunedBlockHeight blockHeight height seed =
      some (min ((blockHeight / stripeSize + 1) * stripeSize) (height - tipBlocks)) := by
  obtain ⟨seed', hmake, hseed'⟩ := h.next_seed
  have hmany : 1 < 2 ^ k := Nat.one_lt_two_pow h.pos
  unfold getNextPrunedBlockHeight
  rw [h.stripe, h.log]
  dsimp only
  rw [if_neg (Nat.succ_ne_zero r), add_tipBlocks_mod (by omega), if_neg (by omega), if_pos h.pos,
    and_mask_eq, hin, if_neg (fun hne => hne rfl), hmake, Option.map_some,
    hseed'.next_eq (by omega) hheight htip, nextInStripe_succ (by decide) hin hmany]

/-- The heights from `blockHeight` on that are pruned, and the height of the chain. -/
def prunedFrom (blockHeight height seed : Nat) : Set Nat :=
  insert height {x | blockHeight ≤ x ∧ x < height ∧ hasUnprunedBlock x height seed = false}

theorem SeedOf.hasUnprunedBlock_eq_false_iff {x : Nat} (h : SeedOf seed r k) (height : Nat)
    (hx : x ≤ maxBlockNumber + 1) :
    hasUnprunedBlock x height seed = false ↔
      x + tipBlocks < height ∧ stripeOf stripeSize (2 ^ k) x ≠ r := by
  rw [← Bool.not_eq_true, h.hasUnprunedBlock_iff, add_tipBlocks_mod hx, not_or, not_le]

/-- **The next pruned height is the least one, or the height of the chain if there is none, unless
the block's own stripe reaches the tip.** -/
theorem next_pruned_iff (seed blockHeight height : Nat)
    (hseed : seed = 0 ∨ ∃ stripe logStripes, makePruningSeed stripe logStripes = some seed)
    (hle : blockHeight ≤ height) (hheight : height ≤ maxBlockNumber + 1) :
    (∃ n, getNextPrunedBlockHeight blockHeight height seed = some n ∧
      IsLeast (prunedFrom blockHeight height seed) n) ↔
      (seedStripe seed = 0 ∨
        getPruningStripe blockHeight height (getPruningLogStripes seed) ≠ seedStripe seed ∨
        (blockHeight / stripeSize + 1) * stripeSize + tipBlocks < height) := by
  -- where nothing is pruned the answer is the height of the chain
  have hnone : (∀ x < height, hasUnprunedBlock x height seed = false → x < blockHeight) →
      IsLeast (prunedFrom blockHeight height seed) height := by
    intro hpruned
    refine ⟨Set.mem_insert _ _, ?_⟩
    rintro x (rfl | ⟨hx, hlt, hfalse⟩)
    · exact le_rfl
    · exact absurd (hpruned x hlt hfalse) (by omega)
  rcases seedOf_cases hseed with rfl | ⟨r, k, h⟩
  · exact iff_of_true ⟨height, rfl, hnone fun x _ hx =>
        absurd hx (by simp [hasUnprunedBlock, seedStripe])⟩
      (.inl rfl)
  · have hstripe := h.stripe
    have hsum := add_tipBlocks_mod (hle.trans hheight)
    by_cases htip : height ≤ blockHeight + tipBlocks
    · refine iff_of_true ⟨height, ?_, hnone fun x hlt hx => ?_⟩ (.inr (.inl ?_))
      · unfold getNextPrunedBlockHeight
        dsimp only
        rw [if_neg h.seed_ne_zero, hsum, if_pos htip]
      · have := ((h.hasUnprunedBlock_eq_false_iff height (by omega)).mp hx).1
        omega
      · rw [getPruningStripe, hsum, if_pos htip]
        exact h.seed_ne_zero.symm
    · have hblock : getPruningStripe blockHeight height (getPruningLogStripes seed) =
          stripeOf stripeSize (2 ^ k) blockHeight + 1 := by
        rw [getPruningStripe, hsum, if_neg htip, h.log, and_mask_eq]
      by_cases hin : stripeOf stripeSize (2 ^ k) blockHeight = r
      · rw [h.nextPruned_eq hheight (by omega) hin]
        rcases Nat.lt_or_ge ((blockHeight / stripeSize + 1) * stripeSize + tipBlocks) height with
          hroom | hnext
        · -- the block behind starts below the tip
          refine iff_of_true ⟨_, rfl, ?_⟩ (.inr (.inr hroom))
          rw [min_eq_left (by omega)]
          have hend : blockHeight < (blockHeight / stripeSize + 1) * stripeSize :=
            lt_of_div_lt (by decide) (Nat.lt_succ_self _)
          have hmany : 1 < 2 ^ k := Nat.one_lt_two_pow h.pos
          refine ⟨.inr ⟨hend.le, by omega, ?_⟩, ?_⟩
          · rw [h.hasUnprunedBlock_eq_false_iff height (by omega),
              stripeOf_next (by decide) hin hmany]
            exact ⟨hroom, succ_mod_ne h.lt hmany⟩
          · rintro x (rfl | ⟨hx, -, hpruned⟩)
            · omega
            · by_contra hbefore
              refine ((h.hasUnprunedBlock_eq_false_iff height (by omega)).mp hpruned).2 ?_
              rw [stripeOf_of_lt_next (by decide) hx (Nat.lt_of_not_le hbefore), hin]
        · refine iff_of_false ?_ ?_
          · -- the first height of the tip is kept, and it is not the height of the chain
            rintro ⟨n, hn, hleast⟩
            obtain rfl := Option.some.inj hn
            rw [min_eq_right (by omega)] at hleast
            have htip' : tipBlocks = 5500 := rfl
            rcases hleast.1 with heq | ⟨-, -, hpruned⟩
            · omega
            · have := ((h.hasUnprunedBlock_eq_false_iff height (by omega)).mp hpruned).1
              omega
          · rw [hblock, hstripe, hin]
            omega
      · refine iff_of_true ⟨blockHeight, ?_, ⟨.inr ⟨le_rfl, by omega, ?_⟩, ?_⟩⟩ (.inr (.inl ?_))
        · unfold getNextPrunedBlockHeight
          dsimp only
          rw [if_neg h.seed_ne_zero, hsum, if_neg (by omega), h.log, if_pos h.pos, and_mask_eq,
            hstripe, if_pos (by omega)]
        · exact (h.hasUnprunedBlock_eq_false_iff height (by omega)).mpr ⟨by omega, hin⟩
        · rintro x (rfl | ⟨hx, -⟩)
          · exact hle
          · exact hx
        · rw [hblock, hstripe]
          omega

/-- From the last block of the first of eight stripes the next pruned block is the one behind it. -/
theorem next_pruned_iff_first :
    makePruningSeed 1 3 = some 384 ∧
      ∃ n, getNextPrunedBlockHeight 4095 100000 384 = some n ∧
        IsLeast (prunedFrom 4095 100000 384) n :=
  ⟨by decide, (next_pruned_iff 384 4095 100000 (.inr ⟨1, 3, by decide⟩) (by decide) (by decide)).mpr
    (.inr (.inr (by decide)))⟩

/-- A chain of 9000 blocks: a node that keeps the first stripe has all of them, and the answer is
3500. -/
theorem next_pruned_all_kept :
    makePruningSeed 1 3 = some 384 ∧ getNextPrunedBlockHeight 0 9000 384 = some 3500 ∧
      (∀ x, x < 9000 → hasUnprunedBlock x 9000 384 = true) := by
  refine ⟨by decide, by decide, fun x hx => ?_⟩
  have hseed : SeedOf 384 0 3 := ⟨by decide, by decide, by decide, by decide⟩
  refine (hseed.hasUnprunedBlock_iff x 9000).mpr ?_
  have htip : tipBlocks = 5500 := rfl
  have hsize : stripeSize = 4096 := rfl
  rw [stripeOf, hsize]
  omega

end Oxyra.Pruning
