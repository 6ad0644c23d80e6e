import Oxyra.Basic.HardFork

/-!
# The votes with their histogram (`hardfork.cpp`)

`HardFork` with `last_versions` as the source keeps it: an array of counters that every operation
updates beside the window, one vote at a time. `Basic.HardFork` reads the counters off the window;
the lemmas here say that the source's object does the same (`Tallied`), operation by operation.
-/

namespace Oxyra

variable {hfVersions : Nat → Nat}

/-- The mutable part of `HardFork`, all of it. -/
structure VotingHardFork where
  versions : List Nat := []
  lastVersions : Nat → Nat := fun _ => 0
  currentForkIndex : Nat := 0

namespace VotingHardFork

variable (t : ForkTable) (o : VotingHardFork)

/-- The object without the counters. -/
def toHardFork : HardFork := ⟨o.versions, o.currentForkIndex⟩

/-- `last_versions[v]++` -/
def counted (lastVersions : Nat → Nat) (v : Nat) : Nat → Nat :=
  Function.update lastVersions v (lastVersions v + 1)

/-- `last_versions[v]--` -/
def uncounted (lastVersions : Nat → Nat) (v : Nat) : Nat → Nat :=
  Function.update lastVersions v (lastVersions v - 1)

def getVotedForkIndex (height : Nat) : Nat :=
  t.votedLoop o.lastVersions height o.currentForkIndex t.heights.length 0

/-- The update of the index shared by `add` and `rescan`. -/
def raiseTo (height : Nat) : VotingHardFork :=
  let voted := o.getVotedForkIndex t height
  if voted > o.currentForkIndex then { o with currentForkIndex := voted } else o

/-- `while (versions.size() >= window_size)` of `add`. -/
def dropOld (windowSize : Nat) : List Nat → (Nat → Nat) → List Nat × (Nat → Nat)
  | [], lastVersions => ([], lastVersions)
  | oldVersion :: versions, lastVersions =>
    if (oldVersion :: versions).length ≥ windowSize then
      dropOld windowSize versions (uncounted lastVersions oldVersion)
    else (oldVersion :: versions, lastVersions)

/-- `add`: `none` is false. -/
def add (hfVersions : Nat → Nat) (b : Block) (height : Nat) :
    Option (VotingHardFork × (Nat → Nat)) :=
  if o.toHardFork.check t b then
    let hfVersions := Function.update hfVersions height (t.versionAt o.currentForkIndex)
    let votingVersion := t.getEffectiveVersion (getBlockVote b)
    let kept := dropOld t.windowSize o.versions o.lastVersions
    let voted : VotingHardFork :=
      { o with
        versions := kept.1 ++ [votingVersion]
        lastVersions := counted kept.2 votingVersion }
    some (voted.raiseTo t (height + 1), hfVersions)
  else none

/-- The loop of `on_block_popped`, from the highest of the popped blocks down. -/
def popLoop (hfVersions : Nat → Nat) (newChainHeight : Nat) :
    Nat → List Nat × (Nat → Nat) → List Nat × (Nat → Nat)
  | 0, r => r
  | n + 1, (versions, lastVersions) =>
    let lastVersions := uncounted lastVersions (versions.getLastD 0)
    let version := hfVersions (newChainHeight + n)
    popLoop hfVersions newChainHeight n
      (version :: versions.dropLast, counted lastVersions version)

/-- `on_block_popped(nblocks)`, called with the chain already shortened. -/
def onBlockPopped (hfVersions : Nat → Nat) (newChainHeight nblocks : Nat) : VotingHardFork :=
  let r := popLoop hfVersions newChainHeight nblocks (o.versions, o.lastVersions)
  { versions := r.1
    lastVersions := r.2
    currentForkIndex := t.poppedLoop newChainHeight (t.heights.length - 1) }

/-- The loop of `rescan_from_block_height`: every vote counted and put into the window. -/
def rescanVotes : List Block → List Nat × (Nat → Nat) → List Nat × (Nat → Nat)
  | [], r => r
  | b :: bs, (versions, lastVersions) =>
    let v := t.getEffectiveVersion (getBlockVote b)
    rescanVotes bs (versions ++ [v], counted lastVersions v)

/-- The votes that rescanning the blocks from `height` on gives. -/
def rescanned (chain : List Block) (height : Nat) : List Nat × (Nat → Nat) :=
  rescanVotes t (chain.drop height) ([], fun _ => 0)

def rescanFromBlockHeight (hfVersions : Nat → Nat) (chain : List Block) (height : Nat) :
    VotingHardFork :=
  if height ≥ chain.length then o
  else
    let r := rescanned t chain height
    let object : VotingHardFork :=
      { versions := r.1
        lastVersions := r.2
        currentForkIndex :=
          HardFork.seekVersion t (hfVersions (chain.length - 1)) t.heights.length 0 }
    object.raiseTo t chain.length

/-- `init`: the object rebuilt from the database. -/
def init (hfVersions : Nat → Nat) (chain : List Block) : VotingHardFork :=
  let height :=
    if chain.length > t.windowSize then chain.length - (t.windowSize - 1) else 1
  rescanFromBlockHeight t {} hfVersions chain (height - 1)

/-- The counters are those of the window. -/
def Tally (r : List Nat × (Nat → Nat)) : Prop :=
  ∀ v, r.2 v = r.1.count v

/-- The object's counters are those of its window. -/
def Tallied : Prop := Tally (o.versions, o.lastVersions)

variable {t o} {versions : List Nat} {lastVersions : Nat → Nat}

theorem Tally.snoc (h : Tally (versions, lastVersions)) (v : Nat) :
    Tally (versions ++ [v], counted lastVersions v) := by
  intro x
  have hx := h x
  by_cases hxv : x = v
  · subst hxv
    simpa [counted, Tally] using hx
  · simpa [counted, Tally, hxv, List.count_singleton, Ne.symm hxv] using hx

theorem Tally.cons (h : Tally (versions, lastVersions)) (v : Nat) :
    Tally (v :: versions, counted lastVersions v) := by
  intro x
  have hx := h x
  by_cases hxv : x = v
  · subst hxv
    simpa [counted, Tally] using hx
  · simpa [counted, Tally, hxv, List.count_cons, Ne.symm hxv] using hx

theorem Tally.tail {v : Nat} (h : Tally (v :: versions, lastVersions)) :
    Tally (versions, uncounted lastVersions v) := by
  intro x
  have hx := h x
  by_cases hxv : x = v
  · subst hxv
    simp only [List.count_cons_self] at hx
    simp [uncounted, hx]
  · simpa [uncounted, hxv, List.count_cons, Ne.symm hxv] using hx

theorem Tally.dropLast (h : Tally (versions, lastVersions)) (hne : versions ≠ []) :
    Tally (versions.dropLast, uncounted lastVersions (versions.getLastD 0)) := by
  have hlast : versions.getLastD 0 = versions.getLast hne := by
    rw [List.getLastD_eq_getLast?, List.getLast?_eq_getLast_of_ne_nil hne]
    rfl
  intro x
  have hx := h x
  rw [hlast]
  dsimp only at hx ⊢
  have hsplit : versions.count x =
      versions.dropLast.count x + [versions.getLast hne].count x := by
    rw [← List.count_append, List.dropLast_append_getLast hne]
  by_cases hxv : x = versions.getLast hne
  · rw [uncounted, hxv, Function.update_self, ← hxv, hx, hsplit, ← hxv]
    simp
  · rw [uncounted, Function.update_of_ne hxv, hx, hsplit, List.count_singleton]
    simp [Ne.symm hxv]

theorem Tally.dropOld {windowSize : Nat} (versions : List Nat) :
    ∀ {lastVersions : Nat → Nat}, Tally (versions, lastVersions) →
      Tally (dropOld windowSize versions lastVersions) := by
  induction versions with
  | nil => exact fun h => h
  | cons v versions ih =>
    intro lastVersions h
    unfold VotingHardFork.dropOld
    split
    · exact ih h.tail
    · exact h

theorem dropOld_fst {windowSize : Nat} (versions : List Nat) :
    ∀ lastVersions : Nat → Nat, (dropOld windowSize versions lastVersions).1 =
      versions.drop (versions.length + 1 - windowSize) := by
  induction versions with
  | nil => exact fun _ => by simp [dropOld]
  | cons v versions ih =>
    intro lastVersions
    unfold dropOld
    split
    · rename_i hge
      rw [ih, show (v :: versions).length + 1 - windowSize =
        versions.length + 1 - windowSize + 1 by simp at hge ⊢; omega, List.drop_succ_cons]
    · rename_i hlt
      rw [show (v :: versions).length + 1 - windowSize = 0 by simp at hlt ⊢; omega]
      rfl

theorem Tally.popLoop {newChainHeight : Nat} (n : Nat) :
    ∀ {r : List Nat × (Nat → Nat)}, Tally r → r.1 ≠ [] →
      Tally (popLoop hfVersions newChainHeight n r) := by
  induction n with
  | zero => exact fun h _ => h
  | succ n ih => exact fun h hne => ih ((h.dropLast hne).cons _) (List.cons_ne_nil _ _)

theorem popLoop_fst {newChainHeight : Nat} (n : Nat) :
    ∀ r : List Nat × (Nat → Nat), (popLoop hfVersions newChainHeight n r).1 =
      HardFork.poppedWindow hfVersions newChainHeight n r.1 := by
  induction n with
  | zero => exact fun _ => rfl
  | succ n ih => exact fun r => ih _

theorem rescanVotes_spec (bs : List Block) :
    ∀ {r : List Nat × (Nat → Nat)}, Tally r → Tally (rescanVotes t bs r) ∧
      (rescanVotes t bs r).1 = r.1 ++ bs.map fun b => t.getEffectiveVersion (getBlockVote b) := by
  induction bs with
  | nil => exact fun h => ⟨h, by simp [rescanVotes]⟩
  | cons b bs ih =>
    intro r h
    obtain ⟨htally, hwindow⟩ := ih (h.snoc (t.getEffectiveVersion (getBlockVote b)))
    refine ⟨htally, ?_⟩
    rw [rescanVotes]
    simpa using hwindow

theorem tally_empty : Tally ([], fun _ => 0) := fun _ => rfl

theorem rescanned_spec (chain : List Block) (height : Nat) :
    Tally (rescanned t chain height) ∧ (rescanned t chain height).1 =
      (chain.drop height).map fun b => t.getEffectiveVersion (getBlockVote b) := by
  simpa [rescanned] using rescanVotes_spec (chain.drop height) tally_empty

theorem raiseTo_toHardFork (h : o.Tallied) (height : Nat) :
    (o.raiseTo t height).toHardFork = o.toHardFork.raiseTo t height := by
  have hvotes : o.lastVersions = fun v => o.versions.count v := funext h
  have hindex : o.getVotedForkIndex t height = o.toHardFork.getVotedForkIndex t height := by
    rw [getVotedForkIndex, HardFork.getVotedForkIndex, hvotes]
    rfl
  unfold raiseTo HardFork.raiseTo
  rw [hindex]
  dsimp only
  rw [show o.toHardFork.currentForkIndex = o.currentForkIndex from rfl]
  split <;> rfl

theorem raiseTo_votes (height : Nat) : (o.raiseTo t height).versions = o.versions ∧
    (o.raiseTo t height).lastVersions = o.lastVersions := by
  unfold raiseTo
  dsimp only
  split <;> exact ⟨rfl, rfl⟩

/-- **Adding a block**: the object without counters does the same. -/
theorem add_toHardFork (h : o.Tallied) {b : Block} {height : Nat} {r : VotingHardFork × (Nat → Nat)}
    (hadd : o.add t hfVersions b height = some r) :
    r.1.Tallied ∧ (r.1.toHardFork, r.2) = o.toHardFork.add t hfVersions b height := by
  unfold add at hadd
  split at hadd
  · rename_i hcheck
    have hkept : Tally (dropOld t.windowSize o.versions o.lastVersions) := Tally.dropOld _ h
    have hvoted := hkept.snoc (t.getEffectiveVersion (getBlockVote b))
    rw [dropOld_fst] at hvoted
    dsimp only at hadd
    rw [dropOld_fst] at hadd
    obtain rfl := Option.some.inj hadd
    refine ⟨?_, ?_⟩
    · unfold Tallied
      rw [(raiseTo_votes _).1, (raiseTo_votes _).2]
      exact hvoted
    · rw [HardFork.add, if_pos hcheck, raiseTo_toHardFork]
      · rfl
      · exact hvoted
  · simp at hadd

theorem add_versions {b : Block} {height : Nat} {r : VotingHardFork × (Nat → Nat)}
    (hadd : o.add t hfVersions b height = some r) :
    r.1.versions = o.versions.drop (o.versions.length + 1 - t.windowSize) ++
      [t.getEffectiveVersion (getBlockVote b)] := by
  unfold add at hadd
  split at hadd
  · obtain rfl := Option.some.inj hadd
    rw [(raiseTo_votes _).1, ← dropOld_fst]
  · simp at hadd

/-- **Popping blocks** likewise. -/
theorem onBlockPopped_toHardFork (h : o.Tallied) (hne : o.versions ≠ [])
    (hfVersions : Nat → Nat) (newChainHeight nblocks : Nat) :
    (o.onBlockPopped t hfVersions newChainHeight nblocks).Tallied ∧
      (o.onBlockPopped t hfVersions newChainHeight nblocks).toHardFork =
        o.toHardFork.onBlocksPopped t hfVersions newChainHeight nblocks := by
  refine ⟨Tally.popLoop nblocks h hne, ?_⟩
  have hwindow := @popLoop_fst hfVersions newChainHeight nblocks (o.versions, o.lastVersions)
  exact congrArg (HardFork.mk · _) hwindow

end VotingHardFork

end Oxyra
