import Oxyra.Basic.Types

/-!
# Hard-fork schedule and voting (`hardfork.cpp`)

* `ForkTable` is the schedule built by `add_fork` and completed by `init`; it
  carries the order that `add_fork` enforces.
* `HardFork` is the mutable part of the object: the window of votes and the
  current fork index. The source keeps the histogram `last_versions` beside
  the window and updates both together, so it is read off the window here.
* The database table of versions by height survives a pop, as in the source;
  it is passed around explicitly.
* With every threshold zero the index is a function of the height alone
  (`indexAt`): adding, popping and reorganising all keep it there
  (`OnSchedule`). The tables of the three networks are of this kind.
-/

namespace Oxyra

variable {chain : List Block} {m : Nat}

structure HardforkT where
  version : Nat
  height : Nat
  threshold : Nat := 0
  time : Nat := 0
deriving DecidableEq, Repr

/-- One fork may follow another: the guards of `add_fork`. -/
def HardforkT.before (a b : HardforkT) : Prop :=
  a.version < b.version ∧ a.height < b.height ∧ a.time < b.time

instance (a b : HardforkT) : Decidable (a.before b) :=
  inferInstanceAs (Decidable (_ ∧ _ ∧ _))

/-- The `heights` vector together with the constructor's parameters. It is
never empty once `init` has run, it is in the order `add_fork` checks, and no
entry is of version 0. -/
structure ForkTable where
  heights : List HardforkT
  originalVersion : Nat := 1
  windowSize : Nat := 10080
  nonempty : heights ≠ []
  ordered : heights.Pairwise HardforkT.before
  positive : ∀ f ∈ heights, f.version ≠ 0

/-- `add_fork` on the vector built so far: a fork out of order, of version 0
or with a threshold above 100 is refused. -/
def addFork (heights : List HardforkT) (f : HardforkT) : Option (List HardforkT) :=
  if f.version = 0 then none
  else if heights.getLast?.any (fun last => ¬ last.before f) then none
  else if f.threshold > 100 then none
  else some (heights ++ [f])

/-- The mutable part of `HardFork`. -/
structure HardFork where
  versions : List Nat := []
  currentForkIndex : Nat := 0
deriving DecidableEq, Repr

/-- `get_block_vote`: minor version 0 votes for version 1. -/
def getBlockVote (b : Block) : Nat :=
  if b.minorVersion = 0 then 1 else b.minorVersion

namespace ForkTable

variable (t : ForkTable)

/-- `heights[n].version` -/
def versionAt (n : Nat) : Nat :=
  (t.heights.getD n ⟨1, 0, 0, 0⟩).version

/-- `heights[n].height` -/
def heightAt (n : Nat) : Nat :=
  (t.heights.getD n ⟨0, 0, 0, 0⟩).height

/-- `heights[n].threshold` -/
def thresholdAt (n : Nat) : Nat :=
  (t.heights.getD n ⟨0, 0, 0, 0⟩).threshold

def getEffectiveVersion (votingVersion : Nat) : Nat :=
  min votingVersion (t.versionAt (t.heights.length - 1))

/-- The loop of `get_voted_fork_index`, from the newest fork down. `votes v`
is `last_versions[v]`; `n` forks are left to look at. -/
def votedLoop (votes : Nat → Nat) (height current : Nat) : Nat → Nat → Nat
  | 0, _ => current
  | n + 1, accumulatedVotes =>
    let accumulatedVotes := accumulatedVotes + votes (t.versionAt n)
    let threshold := (t.windowSize * t.thresholdAt n + 99) / 100
    if height ≥ t.heightAt n ∧ accumulatedVotes ≥ threshold then n
    else votedLoop votes height current n accumulatedVotes

/-- The loop of `get_ideal_version(height)`, over the forks above the first. -/
def idealLoop (height : Nat) : Nat → Nat
  | 0 => t.originalVersion
  | n + 1 =>
    if height ≥ t.heightAt (n + 1) then t.versionAt (n + 1) else idealLoop height n

def getIdealVersion (height : Nat) : Nat :=
  t.idealLoop height (t.heights.length - 1)

/-- The index loop of `on_block_popped`, which "does not take voting into
account". -/
def poppedLoop (height : Nat) : Nat → Nat
  | 0 => 0
  | n + 1 => if height ≥ t.heightAt (n + 1) then n + 1 else poppedLoop height n

/-- The loop of `reorganize_from_block_height` that steps the index back to
the version recorded for the start of the rescan. -/
def stepBackTo (startVersion : Nat) : Nat → Nat
  | 0 => 0
  | n + 1 => if t.versionAt (n + 1) > startVersion then stepBackTo startVersion n else n + 1

end ForkTable

namespace HardFork

variable (t : ForkTable) (hf : HardFork)

def getVotedForkIndex (height : Nat) : Nat :=
  t.votedLoop (hf.versions.count ·) height hf.currentForkIndex t.heights.length 0

def getCurrentVersion : Nat :=
  t.versionAt hf.currentForkIndex

/-- `check`: the block carries the current version and votes for no less. -/
def check (b : Block) : Bool :=
  b.majorVersion = t.versionAt hf.currentForkIndex &&
    getBlockVote b ≥ t.versionAt hf.currentForkIndex

def checkForHeight (b : Block) (height : Nat) : Bool :=
  let forkIndex := hf.getVotedForkIndex t height
  b.majorVersion = t.versionAt forkIndex && getBlockVote b ≥ t.versionAt forkIndex

/-- The update of the index shared by `add`, `reorganize` and `rescan`. -/
def raiseTo (height : Nat) : HardFork :=
  let voted := hf.getVotedForkIndex t height
  if voted > hf.currentForkIndex then { hf with currentForkIndex := voted } else hf

/-- `add`: the object after the call and the version table of the database. A
block that fails the check changes nothing (the source returns false and the
database ignores it). -/
def add (hfVersions : Nat → Nat) (b : Block) (height : Nat) : HardFork × (Nat → Nat) :=
  if hf.check t b then
    let hfVersions := Function.update hfVersions height (t.versionAt hf.currentForkIndex)
    let window := hf.versions.drop (hf.versions.length + 1 - t.windowSize)
    let versions := window ++ [t.getEffectiveVersion (getBlockVote b)]
    (({ hf with versions := versions } : HardFork).raiseTo t (height + 1), hfVersions)
  else (hf, hfVersions)

/-- `on_block_popped(1)`, called with the chain already one block shorter. -/
def onBlockPopped (hfVersions : Nat → Nat) (newChainHeight : Nat) : HardFork where
  versions := hfVersions newChainHeight :: hf.versions.dropLast
  currentForkIndex := t.poppedLoop newChainHeight (t.heights.length - 1)

/-- Adding the blocks of `bs` one by one from `height` on. -/
def addAll (hf : HardFork) (hfVersions : Nat → Nat) (height : Nat) :
    List Block → HardFork × (Nat → Nat)
  | [] => (hf, hfVersions)
  | b :: bs =>
    let r := hf.add t hfVersions b height
    addAll r.1 r.2 (height + 1) bs

/-- `reorganize_from_block_height(height)` over the blocks of the chain. -/
def reorganizeFromBlockHeight (hfVersions : Nat → Nat) (chain : List Block) (height : Nat) :
    HardFork × (Nat → Nat) :=
  if height ≥ chain.length then (hf, hfVersions)
  else
    let rescanHeight := height + 1 - t.windowSize
    let startVersion := if height = 0 then t.originalVersion else hfVersions height
    let rescanned := (chain.take (height + 1)).drop rescanHeight
    let restarted : HardFork :=
      { versions := rescanned.map fun b => t.getEffectiveVersion (getBlockVote b)
        currentForkIndex := t.stepBackTo startVersion hf.currentForkIndex }
    addAll t (restarted.raiseTo t (height + 1)) hfVersions (height + 1)
      (chain.drop (height + 1))

/-- The loop of `on_block_popped(nblocks)` over the window, from the highest of
the popped blocks down. -/
def poppedWindow (hfVersions : Nat → Nat) (newChainHeight : Nat) : Nat → List Nat → List Nat
  | 0, versions => versions
  | n + 1, versions =>
    poppedWindow hfVersions newChainHeight n
      (hfVersions (newChainHeight + n) :: versions.dropLast)

/-- `on_block_popped(nblocks)`, called with the chain already shortened. -/
def onBlocksPopped (hfVersions : Nat → Nat) (newChainHeight nblocks : Nat) : HardFork where
  versions := poppedWindow hfVersions newChainHeight nblocks hf.versions
  currentForkIndex := t.poppedLoop newChainHeight (t.heights.length - 1)

/-- The loop of `rescan_from_block_height` that looks the recorded version of the
top block up in the table. -/
def seekVersion (lastv : Nat) : Nat → Nat → Nat
  | 0, n => n
  | fuel + 1, n =>
    if n + 1 < t.heights.length ∧ t.versionAt n ≠ lastv then seekVersion lastv fuel (n + 1)
    else n

/-- `rescan_from_block_height(height)` over the blocks of the chain. -/
def rescanFromBlockHeight (hfVersions : Nat → Nat) (chain : List Block) (height : Nat) :
    HardFork :=
  if height ≥ chain.length then hf
  else
    let rescanned : HardFork :=
      { versions := (chain.drop height).map fun b => t.getEffectiveVersion (getBlockVote b)
        currentForkIndex := seekVersion t (hfVersions (chain.length - 1)) t.heights.length 0 }
    rescanned.raiseTo t chain.length

def rescanFromChainHeight (hfVersions : Nat → Nat) (chain : List Block) (height : Nat) :
    HardFork :=
  if height = 0 then hf else hf.rescanFromBlockHeight t hfVersions chain (height - 1)

/-- `init`: the object rebuilt from the database. -/
def init (hfVersions : Nat → Nat) (chain : List Block) : HardFork :=
  let height :=
    if chain.length > t.windowSize then chain.length - (t.windowSize - 1) else 1
  rescanFromChainHeight t {} hfVersions chain height

def reorganizeFromChainHeight (hfVersions : Nat → Nat) (chain : List Block) (height : Nat) :
    HardFork × (Nat → Nat) :=
  if height = 0 then (hf, hfVersions)
  else hf.reorganizeFromBlockHeight t hfVersions chain (height - 1)

end HardFork

/-! ## Schedules without voting -/

namespace ForkTable

variable (t : ForkTable)

/-- What every table handed to `Blockchain::init` satisfies: no threshold, and
the first entry is the original version. -/
structure Standard : Prop where
  zero : ∀ n, t.thresholdAt n = 0
  first : t.versionAt 0 = t.originalVersion

/-- The fork in force for the block at `height` when nobody votes. -/
def indexAt (height : Nat) : Nat :=
  t.poppedLoop height (t.heights.length - 1)

theorem versionAt_ne_zero (n : Nat) : t.versionAt n ≠ 0 := by
  unfold versionAt
  by_cases hn : n < t.heights.length
  · rw [List.getD_eq_getElem _ _ hn]
    exact t.positive _ (List.getElem_mem hn)
  · rw [List.getD_eq_default _ _ (by omega)]
    exact Nat.one_ne_zero

theorem poppedLoop_le (height n : Nat) : t.poppedLoop height n ≤ n := by
  induction n with
  | zero => simp [poppedLoop]
  | succ n ih => unfold poppedLoop; split <;> omega

theorem poppedLoop_mono {h h' : Nat} (hle : h ≤ h') (n : Nat) :
    t.poppedLoop h n ≤ t.poppedLoop h' n := by
  induction n with
  | zero => simp [poppedLoop]
  | succ n ih =>
    have hn := t.poppedLoop_le h n
    unfold poppedLoop
    split <;> split <;> omega

theorem indexAt_mono {h h' : Nat} (hle : h ≤ h') : t.indexAt h ≤ t.indexAt h' :=
  t.poppedLoop_mono hle _

theorem indexAt_lt (height : Nat) : t.indexAt height < t.heights.length := by
  have hpos : 0 < t.heights.length := List.length_pos_iff.mpr t.nonempty
  have := t.poppedLoop_le height (t.heights.length - 1)
  unfold indexAt
  omega

theorem heightAt_lt {n : Nat} (hmn : m < n) (hn : n < t.heights.length) :
    t.heightAt m < t.heightAt n := by
  have hm : m < t.heights.length := by omega
  have h := List.pairwise_iff_getElem.mp t.ordered m n hm hn hmn
  unfold heightAt
  rw [List.getD_eq_getElem _ _ hm, List.getD_eq_getElem _ _ hn]
  exact h.2.1

theorem indexAt_zero : t.indexAt 0 = 0 := by
  have hloop : ∀ n < t.heights.length, t.poppedLoop 0 n = 0 := by
    intro n
    induction n with
    | zero => exact fun _ => rfl
    | succ n ih =>
      intro hn
      have := t.heightAt_lt (m := 0) (n := n + 1) (by omega) hn
      unfold poppedLoop
      rw [if_neg (by omega), ih (by omega)]
  have hpos : 0 < t.heights.length := List.length_pos_iff.mpr t.nonempty
  exact hloop _ (by omega)

theorem versionAt_lt {n : Nat} (hmn : m < n) (hn : n < t.heights.length) :
    t.versionAt m < t.versionAt n := by
  have hm : m < t.heights.length := by omega
  have h := List.pairwise_iff_getElem.mp t.ordered m n hm hn hmn
  unfold versionAt
  rw [List.getD_eq_getElem _ _ hm, List.getD_eq_getElem _ _ hn]
  exact h.1

theorem idealLoop_eq (ht : t.versionAt 0 = t.originalVersion) (height n : Nat) :
    t.idealLoop height n = t.versionAt (t.poppedLoop height n) := by
  induction n with
  | zero => simp [idealLoop, poppedLoop, ht]
  | succ n ih =>
    unfold idealLoop poppedLoop
    split
    · rfl
    · exact ih

theorem getIdealVersion_eq (ht : t.Standard) (height : Nat) :
    t.getIdealVersion height = t.versionAt (t.indexAt height) :=
  t.idealLoop_eq ht.first height _

/-- Without thresholds the vote count plays no part: the search stops at the
fork in force, and only below the first entry does it fall back to the current
index. -/
theorem votedLoop_eq (ht : t.Standard) (votes : Nat → Nat) (height current acc n : Nat) :
    t.votedLoop votes height current (n + 1) acc = t.poppedLoop height n ∨
      t.votedLoop votes height current (n + 1) acc = current ∧ t.poppedLoop height n = 0 := by
  induction n generalizing acc with
  | zero =>
    by_cases hh : t.heightAt 0 ≤ height <;> simp [votedLoop, poppedLoop, hh, ht.zero]
  | succ n ih =>
    unfold votedLoop poppedLoop
    simp only [ht.zero, Nat.mul_zero, Nat.zero_add, ge_iff_le, Nat.reduceDiv, Nat.zero_le,
      and_true]
    split
    · exact .inl rfl
    · exact ih _

theorem votedLoop_lt (votes : Nat → Nat) (height current acc n : Nat) :
    t.votedLoop votes height current n acc = current ∨
      t.votedLoop votes height current n acc < n := by
  induction n generalizing acc with
  | zero => exact .inl rfl
  | succ n ih =>
    unfold votedLoop
    dsimp only
    split
    · exact .inr (Nat.lt_succ_self n)
    · exact (ih _).imp id fun h => Nat.lt_succ_of_lt h

/-- Stepping the index back to a recorded version ends at or below the entry
of that version. -/
theorem stepBackTo_le (startVersion n : Nat) (hn : n < t.heights.length)
    (hm : t.versionAt m = startVersion) :
    t.stepBackTo startVersion n ≤ m := by
  induction n with
  | zero => simp [stepBackTo]
  | succ n ih =>
    unfold stepBackTo
    split
    · exact ih (by omega)
    · rename_i hle
      by_contra hlt
      have := t.versionAt_lt (m := m) (n := n + 1) (by omega) hn
      omega

end ForkTable

namespace HardFork

variable {t : ForkTable} {hf : HardFork}

theorem getVotedForkIndex_eq (ht : t.Standard) (height : Nat) :
    hf.getVotedForkIndex t height = t.indexAt height ∨
      hf.getVotedForkIndex t height = hf.currentForkIndex ∧ t.indexAt height = 0 := by
  have hpos : 0 < t.heights.length := List.length_pos_iff.mpr t.nonempty
  have hlen : t.heights.length = (t.heights.length - 1) + 1 := by omega
  unfold getVotedForkIndex ForkTable.indexAt
  rw [hlen]
  exact t.votedLoop_eq ht _ _ _ _ _

theorem raiseTo_index (ht : t.Standard) {height : Nat}
    (hle : hf.currentForkIndex ≤ t.indexAt height) :
    (hf.raiseTo t height).currentForkIndex = t.indexAt height := by
  have hvoted := @getVotedForkIndex_eq t hf ht height
  unfold raiseTo
  dsimp only
  split
  · show hf.getVotedForkIndex t height = _
    omega
  · omega

theorem getCurrentVersion_le_add (hfVersions : Nat → Nat) (b : Block) (height : Nat) :
    hf.getCurrentVersion t ≤ (hf.add t hfVersions b height).1.getCurrentVersion t := by
  have hraise : ∀ versions height, hf.getCurrentVersion t ≤
      (({ hf with versions := versions } : HardFork).raiseTo t height).getCurrentVersion t := by
    intro versions height
    unfold raiseTo getCurrentVersion
    dsimp only
    split
    · rename_i hgt
      rcases t.votedLoop_lt (versions.count ·) height hf.currentForkIndex 0 t.heights.length with
        heq | hlt
      · exact absurd heq (Nat.ne_of_gt hgt)
      · exact Nat.le_of_lt (t.versionAt_lt hgt hlt)
    · exact Nat.le_refl _
  unfold add
  split
  · exact hraise _ (height + 1)
  · exact Nat.le_refl _

/-- A block carries the version in force at its height. -/
def VersionOk (t : ForkTable) (b : Block) (height : Nat) : Prop :=
  b.majorVersion = t.versionAt (t.indexAt height) ∧
    t.versionAt (t.indexAt height) ≤ getBlockVote b

/-- The object and the version table agree with the schedule for a chain of
`height` blocks. Rows of the table above the chain are left over from blocks
that were popped. -/
structure OnSchedule (t : ForkTable) (hf : HardFork) (hfVersions : Nat → Nat) (height : Nat) :
    Prop where
  index : hf.currentForkIndex = t.indexAt height
  recorded : ∀ i < height, hfVersions i = t.versionAt (t.indexAt i)

variable {hfVersions : Nat → Nat} {height : Nat} {b : Block}

theorem OnSchedule.getCurrentVersion_eq (h : OnSchedule t hf hfVersions height) :
    hf.getCurrentVersion t = t.versionAt (t.indexAt height) :=
  congrArg t.versionAt h.index

theorem OnSchedule.check_iff (h : OnSchedule t hf hfVersions height) :
    hf.check t b = true ↔ VersionOk t b height := by
  unfold check VersionOk
  rw [h.index]
  simp

/-- **Adding keeps the schedule.** An accepted block moves the index from the
fork of its own height to the fork of the next. -/
theorem OnSchedule.add (ht : t.Standard) (h : OnSchedule t hf hfVersions height)
    (hc : hf.check t b = true) :
    OnSchedule t (hf.add t hfVersions b height).1 (hf.add t hfVersions b height).2
      (height + 1) := by
  unfold HardFork.add
  rw [if_pos hc]
  constructor
  · apply raiseTo_index ht
    show hf.currentForkIndex ≤ _
    rw [h.index]
    exact t.indexAt_mono (by omega)
  · intro i hi
    by_cases hih : i = height
    · subst hih
      simp [h.index]
    · simp [hih, h.recorded i (by omega)]

theorem onBlockPopped_eq (hfVersions : Nat → Nat) (newChainHeight : Nat) :
    hf.onBlockPopped t hfVersions newChainHeight
      = hf.onBlocksPopped t hfVersions newChainHeight 1 := rfl

/-- **Popping keeps the schedule**, however many blocks go at once. -/
theorem OnSchedule.popMany {newHeight : Nat} (nblocks : Nat)
    (h : OnSchedule t hf hfVersions height) (hle : newHeight ≤ height) :
    OnSchedule t (hf.onBlocksPopped t hfVersions newHeight nblocks) hfVersions newHeight :=
  ⟨rfl, fun i hi => h.recorded i (by omega)⟩

theorem OnSchedule.pop {newHeight : Nat} (h : OnSchedule t hf hfVersions height)
    (hle : newHeight ≤ height) :
    OnSchedule t (hf.onBlockPopped t hfVersions newHeight) hfVersions newHeight := by
  rw [onBlockPopped_eq]
  exact h.popMany 1 hle

theorem OnSchedule.addAll (ht : t.Standard) (bs : List Block)
    (h : OnSchedule t hf hfVersions height)
    (hbs : ∀ i, (hi : i < bs.length) → VersionOk t bs[i] (height + i)) :
    OnSchedule t (HardFork.addAll t hf hfVersions height bs).1
      (HardFork.addAll t hf hfVersions height bs).2 (height + bs.length) := by
  induction bs generalizing hf hfVersions height with
  | nil => exact h
  | cons b bs ih =>
    have hadd := h.add ht (h.check_iff.mpr (hbs 0 (by simp)))
    rw [List.length_cons, show height + (bs.length + 1) = height + 1 + bs.length by omega]
    refine ih hadd fun i hi => ?_
    have := hbs (i + 1) (by simpa using hi)
    rwa [List.getElem_cons_succ, show height + (i + 1) = height + 1 + i by omega] at this

/-- **Rescanning keeps the schedule**, from whatever height: the index first steps
back to the version recorded there, and the blocks above bring it up again. -/
theorem OnSchedule.reorganize (ht : t.Standard) (h : OnSchedule t hf hfVersions chain.length)
    (hbs : ∀ i, (hi : i < chain.length) → VersionOk t chain[i] i) (start : Nat) :
    OnSchedule t (hf.reorganizeFromChainHeight t hfVersions chain start).1
      (hf.reorganizeFromChainHeight t hfVersions chain start).2 chain.length := by
  unfold reorganizeFromChainHeight reorganizeFromBlockHeight
  split
  · exact h
  split
  · exact h
  rename_i hpos hlt
  have hstart : (if start - 1 = 0 then t.originalVersion else hfVersions (start - 1))
      = t.versionAt (t.indexAt (start - 1)) := by
    split
    · rename_i h0
      rw [h0, t.indexAt_zero, ht.first]
    · exact h.recorded _ (by omega)
  have hback := t.stepBackTo_le (m := t.indexAt (start - 1)) _ hf.currentForkIndex
    (by rw [h.index]; exact t.indexAt_lt _) hstart.symm
  have hmono : t.indexAt (start - 1) ≤ t.indexAt start := t.indexAt_mono (by omega)
  dsimp only
  rw [show start - 1 + 1 = start by omega]
  generalize ((chain.take start).drop (start - t.windowSize)).map
    (fun b => t.getEffectiveVersion (getBlockVote b)) = window
  have hraised : OnSchedule t
      (raiseTo t ⟨window, t.stepBackTo (if start - 1 = 0 then t.originalVersion
        else hfVersions (start - 1)) hf.currentForkIndex⟩ start) hfVersions start :=
    ⟨raiseTo_index ht (hback.trans hmono), fun i hi => h.recorded i (by omega)⟩
  have hall := hraised.addAll ht (chain.drop start) fun i hi => by
    rw [List.getElem_drop]
    exact hbs _ (by rw [List.length_drop] at hi; omega)
  rwa [List.length_drop, show start + (chain.length - start) = chain.length by omega] at hall

theorem seekVersion_eq (hm : m < t.heights.length) (fuel n : Nat) (hn : n ≤ m)
    (hfuel : m ≤ n + fuel) : seekVersion t (t.versionAt m) fuel n = m := by
  induction fuel generalizing n with
  | zero => unfold seekVersion; omega
  | succ fuel ih =>
    unfold seekVersion
    by_cases hnm : n = m
    · rw [if_neg (by simp [hnm]), hnm]
    · have hlt := t.versionAt_lt (m := n) (n := m) (by omega) hm
      rw [if_pos ⟨by omega, by omega⟩, ih (n + 1) (by omega) (by omega)]

/-- **Rescanning the database finds the fork in force**, from whatever height. -/
theorem rescan_index (ht : t.Standard)
    (hrecorded : ∀ i < chain.length, hfVersions i = t.versionAt (t.indexAt i))
    (hindex : hf.currentForkIndex = t.indexAt chain.length ∨ height < chain.length) :
    (hf.rescanFromBlockHeight t hfVersions chain height).currentForkIndex
      = t.indexAt chain.length := by
  unfold rescanFromBlockHeight
  split
  · omega
  · rename_i hlt
    apply raiseTo_index ht
    show seekVersion t (hfVersions (chain.length - 1)) t.heights.length 0 ≤ _
    have hlast := t.indexAt_lt (chain.length - 1)
    rw [hrecorded _ (by omega), seekVersion_eq hlast _ 0 (by omega) (by omega)]
    exact t.indexAt_mono (by omega)

/-- **A rebuilt object stands where the schedule puts it.** -/
theorem init_index (ht : t.Standard)
    (hrecorded : ∀ i < chain.length, hfVersions i = t.versionAt (t.indexAt i)) :
    (init t hfVersions chain).currentForkIndex = t.indexAt chain.length := by
  unfold init rescanFromChainHeight
  have hempty : chain.length = 0 → ({} : HardFork).currentForkIndex = t.indexAt chain.length := by
    intro h0
    rw [h0, t.indexAt_zero]
  by_cases hwindow : chain.length > t.windowSize
  · rw [if_pos hwindow, if_neg (by omega)]
    exact rescan_index ht hrecorded (by omega)
  · rw [if_neg hwindow, if_neg (by omega)]
    exact rescan_index ht hrecorded (by omega)

end HardFork

/-! ## The schedules of the networks (`hardforks.cpp`) -/

def mainnetHardForks : List HardforkT :=
  [⟨1, 1, 0, 1341378000⟩, ⟨2, 1009827, 0, 1442763710⟩, ⟨3, 1141317, 0, 1458558528⟩,
    ⟨4, 1220516, 0, 1483574400⟩, ⟨5, 1288616, 0, 1489520158⟩, ⟨6, 1400000, 0, 1503046577⟩,
    ⟨7, 1546000, 0, 1521303150⟩, ⟨8, 1685555, 0, 1535889547⟩, ⟨9, 1686275, 0, 1535889548⟩,
    ⟨10, 1788000, 0, 1549792439⟩, ⟨11, 1788720, 0, 1550225678⟩, ⟨12, 1978433, 0, 1571419280⟩,
    ⟨13, 2210000, 0, 1598180817⟩, ⟨14, 2210720, 0, 1598180818⟩, ⟨15, 2688888, 0, 1656629117⟩,
    ⟨16, 2689608, 0, 1656629118⟩]

def testnetHardForks : List HardforkT :=
  [⟨1, 1, 0, 1341378000⟩, ⟨2, 624634, 0, 1445355000⟩, ⟨3, 800500, 0, 1472415034⟩,
    ⟨4, 801219, 0, 1472415035⟩, ⟨5, 802660, 0, 1472415036 + 86400 * 180⟩,
    ⟨6, 971400, 0, 1501709789⟩, ⟨7, 1057027, 0, 1512211236⟩, ⟨8, 1057058, 0, 1533211200⟩,
    ⟨9, 1057778, 0, 1533297600⟩, ⟨10, 1154318, 0, 1550153694⟩, ⟨11, 1155038, 0, 1550225678⟩,
    ⟨12, 1308737, 0, 1569582000⟩, ⟨13, 1543939, 0, 1599069376⟩, ⟨14, 1544659, 0, 1599069377⟩,
    ⟨15, 1982800, 0, 1652727000⟩, ⟨16, 1983520, 0, 1652813400⟩]

def stagenetHardForks : List HardforkT :=
  [⟨1, 1, 0, 1341378000⟩, ⟨2, 32000, 0, 1521000000⟩, ⟨3, 33000, 0, 1521120000⟩,
    ⟨4, 34000, 0, 1521240000⟩, ⟨5, 35000, 0, 1521360000⟩, ⟨6, 36000, 0, 1521480000⟩,
    ⟨7, 37000, 0, 1521600000⟩, ⟨8, 176456, 0, 1537821770⟩, ⟨9, 177176, 0, 1537821771⟩,
    ⟨10, 269000, 0, 1550153694⟩, ⟨11, 269720, 0, 1550225678⟩, ⟨12, 454721, 0, 1571419280⟩,
    ⟨13, 675405, 0, 1598180817⟩, ⟨14, 676125, 0, 1598180818⟩, ⟨15, 1151000, 0, 1656629117⟩,
    ⟨16, 1151720, 0, 1656629118⟩]

/-- The table `Blockchain::init` builds with `add_fork`, entry by entry; `none`
where a call is refused. -/
def tableOf (forks : List HardforkT) : Option (List HardforkT) :=
  forks.foldlM addFork []

/-- **Every network's schedule is accepted as it stands and is standard.** -/
theorem networks_standard : ∀ forks ∈ [mainnetHardForks, testnetHardForks, stagenetHardForks],
    tableOf forks = some forks ∧
      ∀ t : ForkTable, t.heights = forks → t.originalVersion = 1 → t.Standard := by
  have hstandard : ∀ forks : List HardforkT, (∀ f ∈ forks, f.threshold = 0) →
      (forks.getD 0 ⟨1, 0, 0, 0⟩).version = 1 →
      ∀ t : ForkTable, t.heights = forks → t.originalVersion = 1 → t.Standard := by
    rintro forks hzero hfirst t rfl horig
    refine ⟨fun n => ?_, hfirst.trans horig.symm⟩
    unfold ForkTable.thresholdAt
    by_cases hn : n < t.heights.length
    · rw [List.getD_eq_getElem _ _ hn]
      exact hzero _ (List.getElem_mem hn)
    · rw [List.getD_eq_default _ _ (by omega)]
  simp only [List.mem_cons, List.not_mem_nil, or_false, forall_eq_or_imp, forall_eq]
  exact ⟨⟨by decide, hstandard _ (by decide) rfl⟩,
    ⟨by decide, hstandard _ (by decide) rfl⟩,
    ⟨by decide, hstandard _ (by decide) rfl⟩⟩

end Oxyra
