import Oxyra.Theorems.Reservation

/-!
# A reserved range can be fetched

`reserve_span` moves a height and an iterator side by side, through two loops that skip what has
been requested, a jump to the peer's next stripe and a loop that collects.
-/

namespace Oxyra

namespace BlockQueue

variable {β : Type} {q : BlockQueue β} {a : ReserveArgs}

/-! ## The iterator -/

theorem skipAt_eq (requested : Hash → Bool) (blockHashes : List (Hash × UInt64)) (fuel : Nat) :
    ∀ {i : Nat} {h : UInt64}, i ≤ blockHashes.length → blockHashes.length < i + fuel →
      skipAt requested blockHashes fuel i h =
        some (i + skipRequested requested (blockHashes.drop i),
          h + UInt64.ofNat (skipRequested requested (blockHashes.drop i))) := by
  induction fuel with
  | zero => intro i h hi hfuel; omega
  | succ fuel ih =>
    intro i h hi hfuel
    unfold skipAt
    by_cases hend : i = blockHashes.length
    · rw [if_pos hend, hend, List.drop_length]
      simp [skipRequested]
    · have hlt : i < blockHashes.length := by omega
      rw [if_neg hend, List.getElem?_eq_getElem hlt, Option.bind_some,
        List.drop_eq_getElem_cons hlt, skipRequested]
      split
      · rw [ih (by omega) (by omega)]
        refine congrArg some (Prod.ext ?_ ?_)
        · dsimp only
          omega
        · rw [UInt64.ofNat_add, UInt64.add_assoc, UInt64.add_comm 1]
          rfl
      · simp

theorem collectAt_eq (wanted : UInt64 → Bool) (maxBlocks start : UInt64)
    (blockHashes : List (Hash × UInt64)) (fuel : Nat) :
    ∀ {i : Nat} {n : UInt64}, i ≤ blockHashes.length → blockHashes.length < i + fuel →
      collectAt wanted maxBlocks start blockHashes fuel i n =
        some (collectSpan wanted maxBlocks start (blockHashes.drop i) n) := by
  induction fuel with
  | zero => intro i n hi hfuel; omega
  | succ fuel ih =>
    intro i n hi hfuel
    unfold collectAt
    by_cases hend : i = blockHashes.length
    · rw [if_pos hend, hend, List.drop_length]
      rfl
    · have hlt : i < blockHashes.length := by omega
      rw [if_neg hend, List.getElem?_eq_getElem hlt, Option.bind_some,
        List.drop_eq_getElem_cons hlt, collectSpan]
      split
      · rw [ih (by omega) (by omega), Option.map_some]
      · rfl

theorem skipRequested_le (requested : Hash → Bool) (l : List (Hash × UInt64)) :
    skipRequested requested l ≤ l.length := by
  induction l with
  | nil => exact le_rfl
  | cons x l ih =>
    unfold skipRequested
    split
    · exact Nat.succ_le_succ ih
    · exact Nat.zero_le _

theorem ReserveArgs.le_jump (a : ReserveArgs) (h : UInt64) : h ≤ a.jump h := by
  unfold ReserveArgs.jump
  split
  · exact UInt64.le_refl h
  · dsimp only
    split
    · rename_i hup
      exact UInt64.le_of_lt hup.1
    · exact UInt64.le_refl h

theorem ReserveArgs.hashesStart_toNat (a : ReserveArgs)
    (hfit : a.blockHashes.length ≤ a.lastBlockHeight.toNat) (hpos : 0 < a.blockHashes.length) :
    a.hashesStart.toNat + a.blockHashes.length = a.lastBlockHeight.toNat + 1 := by
  have hlast := a.lastBlockHeight.toNat_lt
  have hlen : (UInt64.ofNat a.blockHashes.length).toNat = a.blockHashes.length := by
    rw [UInt64.toNat_ofNat', Nat.mod_eq_of_lt (by omega)]
  have hle : UInt64.ofNat a.blockHashes.length ≤ a.lastBlockHeight := by
    rw [UInt64.le_iff_toNat_le, hlen]
    exact hfit
  rw [ReserveArgs.hashesStart, UInt64.toNat_add, UInt64.toNat_sub_of_le _ _ hle, hlen,
    UInt64.toNat_one, Nat.mod_eq_of_lt (by omega)]
  omega

theorem ReserveArgs.position_lt (a : ReserveArgs) {i : Nat} {start : UInt64}
    (hfit : a.blockHashes.length ≤ a.lastBlockHeight.toNat) (hi : i ≤ a.blockHashes.length)
    (hle : a.hashesStart + UInt64.ofNat i ≤ start)
    (hin : ¬ start ≥ UInt64.ofNat a.blockHashes.length + a.hashesStart) :
    (start - a.hashesStart).toNat < a.blockHashes.length := by
  have hlast := a.lastBlockHeight.toNat_lt
  rw [ge_iff_le, UInt64.le_iff_toNat_le, UInt64.toNat_add, UInt64.toNat_ofNat'] at hin
  rw [UInt64.le_iff_toNat_le, UInt64.toNat_add, UInt64.toNat_ofNat'] at hle
  have hpos : 0 < a.blockHashes.length := by
    by_contra hzero
    have hnone : a.blockHashes.length = 0 := by omega
    obtain rfl : i = 0 := by omega
    rw [hnone] at hin
    simp only [Nat.zero_mod, Nat.zero_add, Nat.add_zero, Nat.mod_eq_of_lt a.hashesStart.toNat_lt]
      at hin hle
    exact hin hle
  have hstart := a.hashesStart_toNat hfit hpos
  have hsub : a.hashesStart ≤ start := by
    rw [UInt64.le_iff_toNat_le]
    omega
  rw [UInt64.toNat_sub_of_le _ _ hsub]
  omega

/-- **The iterator stays inside the list.** -/
theorem planSpanAt_eq (q : BlockQueue β) (a : ReserveArgs) :
    q.planSpanAt a = some (q.planSpan a) := by
  unfold planSpanAt planSpan
  dsimp only
  split
  · rfl
  split
  · rfl
  rename_i hfit
  rw [skipAt_eq _ _ _ (Nat.zero_le _) (by omega), Option.bind_some, List.drop_zero]
  dsimp only
  split
  · rfl
  rename_i hin
  have hlt := a.position_lt (by omega) (skipRequested_le _ _)
    (a.le_jump (a.hashesStart + UInt64.ofNat (skipRequested q.requested a.blockHashes))) hin
  have hrest := skipRequested_le q.requested (a.blockHashes.drop
    (a.jump (a.hashesStart + UInt64.ofNat (skipRequested q.requested a.blockHashes)) -
      a.hashesStart).toNat)
  rw [List.length_drop] at hrest
  rw [skipAt_eq _ _ _ hlt.le (by omega), Option.bind_some]
  dsimp only
  rw [collectAt_eq _ _ _ _ _ (by omega) (by omega), Option.map_some, List.drop_drop]

/-! ## The range -/

theorem length_le_of_planSpan {r : UInt64 × List Hash} (h : q.planSpan a = some r) :
    a.blockHashes.length ≤ a.lastBlockHeight.toNat := by
  unfold planSpan at h
  split at h
  · exact absurd h (by simp)
  split at h
  · exact absurd h (by simp)
  · omega

theorem planSpan_of_reserveSpan (hn : (q.reserveSpan a).1.2 ≠ 0) : ∃ r, q.planSpan a = some r := by
  unfold reserveSpan at hn
  cases hp : q.planSpan a with
  | none => simp [hp] at hn
  | some r => exact ⟨r, rfl⟩

theorem ReserveArgs.heightOf_toNat (a : ReserveArgs) {i : Nat}
    (hfit : a.blockHashes.length ≤ a.lastBlockHeight.toNat) (hi : i < a.blockHashes.length) :
    (a.heightOf i).toNat + a.blockHashes.length = a.lastBlockHeight.toNat + 1 + i := by
  have hstart := a.hashesStart_toNat hfit (by omega)
  have hlast := a.lastBlockHeight.toNat_lt
  rw [ReserveArgs.heightOf, UInt64.toNat_add, UInt64.toNat_ofNat', Nat.mod_eq_of_lt (by omega),
    Nat.mod_eq_of_lt (by omega)]
  omega

theorem not_requested_place {n : Nat} (hlong : Longest a (a.place q) n) :
    ∃ x, a.blockHashes[a.place q]? = some x ∧ q.requested x.1 = false := by
  have hpos := hlong.pos
  have hfits := hlong.fits
  have hlt : a.place q < a.blockHashes.length := by omega
  refine ⟨_, List.getElem?_eq_getElem hlt, ?_⟩
  unfold ReserveArgs.place ReserveArgs.openFrom at hlt ⊢
  generalize (a.jump _ - a.hashesStart).toNat = i at hlt ⊢
  have hfound : (a.blockHashes.drop i).findIdx (fun x => !q.requested x.1)
      < (a.blockHashes.drop i).length := by
    rw [List.length_drop]
    omega
  have hfirst := List.findIdx_getElem (w := hfound)
  rw [Bool.not_eq_true', List.getElem_drop] at hfirst
  exact hfirst

theorem ReserveArgs.wanted_off {start h : UInt64} (hw : a.wanted start h = true)
    (hsync : a.syncPrunedBlocks = false) :
    hasUnprunedBlock h a.blockchainHeight a.pruningSeed = true := by
  simpa [ReserveArgs.wanted, hsync] using hw

theorem ReserveArgs.wanted_on {start h : UInt64} (hw : a.wanted start h = true)
    (hsync : a.syncPrunedBlocks = true) :
    hasUnprunedBlock h a.blockchainHeight a.localPruningSeed =
      hasUnprunedBlock start a.blockchainHeight a.localPruningSeed := by
  unfold ReserveArgs.wanted at hw
  rw [hsync] at hw
  revert hw
  cases hasUnprunedBlock h a.blockchainHeight a.localPruningSeed <;>
    cases hasUnprunedBlock start a.blockchainHeight a.localPruningSeed <;> simp

/-- What the caller of `reserve_span` relies on when it is given the blocks from `s` on. -/
structure Usable (q : BlockQueue β) (a : ReserveArgs) (s n : UInt64) : Prop where
  atMost : n ≤ a.maxBlocks
  covered : a.lastBlockHeight.toNat + 1 ≤ s.toNat + a.blockHashes.length ∧
    s.toNat + n.toNat ≤ a.lastBlockHeight.toNat + 1
  fresh : ∃ x,
    a.blockHashes[s.toNat + a.blockHashes.length - (a.lastBlockHeight.toNat + 1)]? = some x ∧
      q.requested x.1 = false
  peer : a.syncPrunedBlocks = false → ∀ h, s ≤ h → h.toNat < s.toNat + n.toNat →
    hasUnprunedBlock h a.blockchainHeight a.pruningSeed = true
  own : a.syncPrunedBlocks = true → ∃ b, ∀ h, s ≤ h → h.toNat < s.toNat + n.toNat →
    hasUnprunedBlock h a.blockchainHeight a.localPruningSeed = b

/-- **A reserved range can be fetched**, and the iterator of `reserve_span` stays inside the
list. -/
theorem reserved_range_usable (q : BlockQueue β) (a : ReserveArgs) :
    q.planSpanAt a = some (q.planSpan a) ∧
      ((q.reserveSpan a).1.2 ≠ 0 → Usable q a (q.reserveSpan a).1.1 (q.reserveSpan a).1.2) := by
  refine ⟨planSpanAt_eq q a, fun hn => ?_⟩
  obtain ⟨r, hplan⟩ := planSpan_of_reserveSpan hn
  have hfit := length_le_of_planSpan hplan
  obtain ⟨hashes, hlong, -, hr, -, -⟩ := reserveSpan_some hn
  rw [hr]
  dsimp only
  have hpos := hlong.pos
  have hfits := hlong.fits
  have hlast := a.lastBlockHeight.toNat_lt
  have hstart := a.heightOf_toNat hfit (show a.place q < a.blockHashes.length by omega)
  have hcount : (UInt64.ofNat hashes.length).toNat = hashes.length := by
    rw [UInt64.toNat_ofNat', Nat.mod_eq_of_lt (by omega)]
  have hwanted : ∀ h, a.heightOf (a.place q) ≤ h →
      h.toNat < (a.heightOf (a.place q)).toNat + (UInt64.ofNat hashes.length).toNat →
      a.wanted (a.heightOf (a.place q)) h = true := by
    intro h hle hlt
    rw [UInt64.le_iff_toNat_le] at hle
    rw [hcount] at hlt
    obtain ⟨k, hk⟩ := Nat.exists_eq_add_of_le hle
    have hheight := a.heightOf_toNat hfit (show a.place q + k < a.blockHashes.length by omega)
    have hsame : h = a.heightOf (a.place q + k) := UInt64.toNat_inj.mp (by omega)
    rw [hsame]
    exact hlong.wanted k (by omega)
  constructor
  · rw [UInt64.le_iff_toNat_le, hcount]
    exact hlong.atMost
  · rw [hcount]
    constructor <;> omega
  · rw [show (a.heightOf (a.place q)).toNat + a.blockHashes.length - (a.lastBlockHeight.toNat + 1)
      = a.place q by omega]
    exact not_requested_place hlong
  · exact fun hsync h hle hlt => ReserveArgs.wanted_off (hwanted h hle hlt) hsync
  · exact fun hsync => ⟨_, fun h hle hlt => ReserveArgs.wanted_on (hwanted h hle hlt) hsync⟩

/-- Three hashes are announced for the heights 8 to 10, the first has been requested before, and a
span may have two blocks. -/
def threeAnnounced : ReserveArgs where
  firstBlockHeight := 8
  lastBlockHeight := 10
  maxBlocks := 2
  connectionId := 7
  blockchainHeight := 100
  blockHashes := [(1, 0), (2, 0), (3, 0)]

theorem reserved_range_usable_announced :
    let q : BlockQueue Nat := { requestedHashes := [1] }
    (q.reserveSpan threeAnnounced).1 = (9, 2) ∧
      q.planSpanAt threeAnnounced = some (some (9, [2, 3])) ∧ Usable q threeAnnounced 9 2 :=
  ⟨by decide +kernel, by decide +kernel,
    (reserved_range_usable ({ requestedHashes := [1] } : BlockQueue Nat) threeAnnounced).2
      (by decide +kernel)⟩

end BlockQueue

end Oxyra
