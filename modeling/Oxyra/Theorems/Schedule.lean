import Oxyra.Lib.Built
import Oxyra.Basic.HardFork

/-!
# The hard-fork object follows the chain

`HardFork` keeps a window of votes and an index that three mutators update, each
in its own way. With thresholds at zero the window does not matter: after any
history the version in force is the one the table gives for the height, and the
one a freshly started daemon reads off the database.

The table's first entry has to be the original version for this. `get_ideal_version`
answers `original_version` below the second entry, `get_current_version` the
version of the first (`first_entry_matters`); every table in `hardforks.cpp`
starts with version 1, as the constructor is called with.
-/

namespace Oxyra

variable {t : ForkTable}

/-- The object together with what it reads of the database. -/
structure HardForkDb where
  hf : HardFork
  hfVersions : Nat → Nat
  chain : List Block

/-- A call of one of the mutators, with the change of the chain it comes with. -/
inductive HardForkCall where
  /-- A block is added to the database and handed to `add`. -/
  | add (b : Block)
  /-- `nblocks` blocks are popped, then `on_block_popped(nblocks)`. -/
  | popped (nblocks : Nat)
  /-- `reorganize_from_block_height` -/
  | reorganizeFromBlock (height : Nat)
  /-- `reorganize_from_chain_height` -/
  | reorganizeFromChain (height : Nat)

namespace HardForkDb

variable (t) in
def call (s : HardForkDb) : HardForkCall → HardForkDb
  | .add b =>
    let r := s.hf.add t s.hfVersions b s.chain.length
    ⟨r.1, r.2, s.chain ++ [b]⟩
  | .popped nblocks =>
    let chain := s.chain.take (s.chain.length - nblocks)
    ⟨s.hf.onBlocksPopped t s.hfVersions chain.length nblocks, s.hfVersions, chain⟩
  | .reorganizeFromBlock height =>
    let r := s.hf.reorganizeFromBlockHeight t s.hfVersions s.chain height
    ⟨r.1, r.2, s.chain⟩
  | .reorganizeFromChain height =>
    let r := s.hf.reorganizeFromChainHeight t s.hfVersions s.chain height
    ⟨r.1, r.2, s.chain⟩

variable (t) in
def calls (s : HardForkDb) (cs : List HardForkCall) : HardForkDb :=
  cs.foldl (call t) s

variable (t) in
/-- Added blocks pass `check`, and only blocks that are there are popped. The first block stays:
with it gone, `height >= new_chain_height` holds forever in the loop of `on_block_popped`. -/
def CallOk (s : HardForkDb) : HardForkCall → Prop
  | .add b => s.hf.check t b = true
  | .popped nblocks => 0 < nblocks ∧ nblocks < s.chain.length
  | .reorganizeFromBlock _ => True
  | .reorganizeFromChain _ => True

variable (t) in
def CallsOk : HardForkDb → List HardForkCall → Prop
  | _, [] => True
  | s, c :: cs => s.CallOk t c ∧ CallsOk (s.call t c) cs

variable (t) in
/-- A daemon started on an empty database, whatever its version table holds. -/
def start (hfVersions : Nat → Nat) : HardForkDb :=
  ⟨HardFork.init t hfVersions [], hfVersions, []⟩

/-- Object and table are on schedule, and every block has the version of its
height. -/
structure Scheduled (t : ForkTable) (s : HardForkDb) : Prop where
  onSchedule : HardFork.OnSchedule t s.hf s.hfVersions s.chain.length
  versions : Built (fun pre b => HardFork.VersionOk t b pre.length) s.chain

theorem scheduled_start (ht : t.Standard) (hfVersions : Nat → Nat) :
    Scheduled t (start t hfVersions) where
  onSchedule :=
    ⟨HardFork.init_index ht fun _ hi => absurd hi (by simp),
      fun _ hi => absurd hi (by simp [start])⟩
  versions := Built.nil

theorem Scheduled.reorganize (ht : t.Standard) {s : HardForkDb} (h : Scheduled t s)
    (height : Nat) : Scheduled t (s.call t (.reorganizeFromChain height)) := by
  refine ⟨h.onSchedule.reorganize ht (fun i hi => ?_) height, h.versions⟩
  have hi' := h.versions.getElem i hi
  rwa [List.length_take, Nat.min_eq_left (by omega)] at hi'

theorem Scheduled.call (ht : t.Standard) {s : HardForkDb} {c : HardForkCall}
    (h : Scheduled t s) (hc : s.CallOk t c) : Scheduled t (s.call t c) := by
  cases c with
  | add b =>
    -- the block was checked against the version of its height
    refine ⟨?_, h.versions.snoc (h.onSchedule.check_iff.mp hc)⟩
    show HardFork.OnSchedule t _ _ (s.chain ++ [b]).length
    rw [List.length_append]
    exact h.onSchedule.add ht hc
  | popped nblocks =>
    exact ⟨h.onSchedule.popMany nblocks (List.length_take_le' _ _), h.versions.take _⟩
  | reorganizeFromBlock height => exact h.reorganize ht (height + 1)
  | reorganizeFromChain height => exact h.reorganize ht height

theorem Scheduled.calls (ht : t.Standard) {s : HardForkDb} (cs : List HardForkCall)
    (h : Scheduled t s) (hcs : s.CallsOk t cs) : Scheduled t (s.calls t cs) := by
  induction cs generalizing s with
  | nil => exact h
  | cons c cs ih => exact ih (h.call ht hcs.1) hcs.2

end HardForkDb

/-- **The hard-fork state is a function of the chain.** After any sequence of
calls the current version is the table's for the height of the chain, and so is
that of an object rebuilt from the database, by `init` or by a rescan from any
height. -/
theorem hard_fork_follows_chain (ht : t.Standard) (hfVersions : Nat → Nat)
    (cs : List HardForkCall) (hcs : (HardForkDb.start t hfVersions).CallsOk t cs) :
    let s := (HardForkDb.start t hfVersions).calls t cs
    s.hf.getCurrentVersion t = t.getIdealVersion s.chain.length ∧
    (HardFork.init t s.hfVersions s.chain).getCurrentVersion t
      = t.getIdealVersion s.chain.length ∧
    ∀ height, (s.hf.rescanFromBlockHeight t s.hfVersions s.chain height).getCurrentVersion t
      = t.getIdealVersion s.chain.length := by
  intro s
  have h : HardForkDb.Scheduled t s := (HardForkDb.scheduled_start ht hfVersions).calls ht cs hcs
  have hindex := h.onSchedule.index
  have hrecorded := h.onSchedule.recorded
  rw [t.getIdealVersion_eq ht]
  refine ⟨h.onSchedule.getCurrentVersion_eq, ?_, fun height => ?_⟩
  · exact congrArg t.versionAt (HardFork.init_index ht hrecorded)
  · exact congrArg t.versionAt (HardFork.rescan_index ht hrecorded (.inl hindex))

/-- A table of two forks, and a history that crosses the second, pops back over it
and rescans. -/
def twoForks : ForkTable where
  heights := [⟨1, 1, 0, 1⟩, ⟨2, 2, 0, 2⟩]
  nonempty := by decide
  ordered := by decide
  positive := by decide

theorem hard_fork_follows_chain_two :
    let b1 : Block := { majorVersion := 1, minorVersion := 1 }
    let b2 : Block := { majorVersion := 2, minorVersion := 2 }
    let cs : List HardForkCall := [.add b1, .add b1, .add b2, .popped 2, .reorganizeFromChain 1,
      .add b1, .add b2, .reorganizeFromBlock 1]
    let s := (HardForkDb.start twoForks fun _ => 0).calls twoForks cs
    s.hf.getCurrentVersion twoForks = 2 ∧
      (HardFork.init twoForks s.hfVersions s.chain).getCurrentVersion twoForks = 2 := by
  have ht : twoForks.Standard := ⟨fun n => by
    match n with
    | 0 | 1 => rfl
    | n + 2 => rfl, rfl⟩
  have h := hard_fork_follows_chain ht (fun _ => 0)
    [.add { majorVersion := 1, minorVersion := 1 }, .add { majorVersion := 1, minorVersion := 1 },
      .add { majorVersion := 2, minorVersion := 2 }, .popped 2, .reorganizeFromChain 1,
      .add { majorVersion := 1, minorVersion := 1 }, .add { majorVersion := 2, minorVersion := 2 },
      .reorganizeFromBlock 1]
    (by simp only [HardForkDb.CallsOk, HardForkDb.CallOk]; decide)
  exact ⟨h.1.trans (by decide), h.2.1.trans (by decide)⟩

/-- A table that starts with another version than the original one: before any
block the object answers 2 and `get_ideal_version` answers 1. -/
theorem first_entry_matters :
    ∃ t : ForkTable, (∀ n, t.thresholdAt n = 0) ∧
      (HardForkDb.start t fun _ => 0).hf.getCurrentVersion t ≠ t.getIdealVersion 0 :=
  ⟨⟨[⟨2, 5, 0, 1⟩], 1, 10080, by decide, by decide, by decide⟩,
    fun n => by cases n <;> rfl, by decide⟩

end Oxyra
