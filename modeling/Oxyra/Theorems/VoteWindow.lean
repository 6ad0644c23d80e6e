import Oxyra.Core.VoteWindow
import Oxyra.Logic.Regtest

/-!
# The vote window over additions and pops

* `VotingChain` is the object beside the chain and the version table of the database; a `VoteCall`
  is one `add` or one `on_block_popped`.
* `Exact`: the window and the counters are those that rescanning the last `min(window_size, height)`
  blocks gives.
* `init` and `add` always end there. `on_block_popped` puts the recorded version of every popped
  block at the front of the window and keeps the window's length, so it ends there only where those
  versions happen to be the votes that come back into range and the window is full after the pop
  (`PopRestores`).
-/

namespace Oxyra

open VotingHardFork

def ForkTable.effectiveVote (t : ForkTable) (b : Block) : Nat :=
  t.getEffectiveVersion (getBlockVote b)

/-- The object, the chain and the version table of the database. -/
structure VotingChain where
  object : VotingHardFork
  hfVersions : Nat → Nat
  chain : List Block

inductive VoteCall where
  | add (b : Block)
  | popped (nblocks : Nat)
deriving DecidableEq

namespace VotingChain

variable (t : ForkTable) (s : VotingChain)

def start (hfVersions : Nat → Nat) (chain : List Block) : VotingChain :=
  ⟨VotingHardFork.init t hfVersions chain, hfVersions, chain⟩

/-- One call. A refused block is not put on the chain; `on_block_popped(0)` throws, and no more
blocks are popped than there are. -/
def call : VoteCall → VotingChain
  | .add b =>
    match s.object.add t s.hfVersions b s.chain.length with
    | some (object, hfVersions) => ⟨object, hfVersions, s.chain ++ [b]⟩
    | none => s
  | .popped n =>
    if 0 < n ∧ n ≤ s.chain.length then
      let chain := s.chain.take (s.chain.length - n)
      ⟨s.object.onBlockPopped t s.hfVersions chain.length n, s.hfVersions, chain⟩
    else s

def run : VotingChain → List VoteCall → VotingChain
  | s, [] => s
  | s, c :: calls => run (s.call t c) calls

/-- The window and the counters are those of a rescan of the last blocks. -/
def Exact : Prop :=
  (s.object.versions, s.object.lastVersions) =
    rescanned t s.chain (s.chain.length - min t.windowSize s.chain.length)

/-- Popping `n` blocks restores the votes: a full window is left below, and the version recorded for
each popped block is the vote of the block one window below it. -/
def PopRestores (n : Nat) : Prop :=
  t.windowSize ≤ s.chain.length - n ∧ ∀ j < min n t.windowSize,
    s.hfVersions (s.chain.length - n + j) =
      ((s.chain.map t.effectiveVote).getD (s.chain.length - n + j - t.windowSize) 0)

/-- The condition on one call: a pop restores the votes. -/
def Restores : VoteCall → Prop
  | .add _ => True
  | .popped n => 0 < n → n ≤ s.chain.length → s.PopRestores t n

instance (n : Nat) : Decidable (s.PopRestores t n) :=
  inferInstanceAs (Decidable (_ ∧ _))

instance (c : VoteCall) : Decidable (s.Restores t c) := by
  cases c <;> unfold Restores <;> infer_instance

/-! ## The window as a list -/

variable {t s}

theorem tally_unique {r r' : List Nat × (Nat → Nat)} (h : Tally r) (h' : Tally r')
    (hfst : r.1 = r'.1) : r = r' :=
  Prod.ext hfst (funext fun v => by rw [h v, h' v, hfst])

theorem exact_iff (htally : s.object.Tallied) :
    s.Exact t ↔ s.object.versions =
      (s.chain.map t.effectiveVote).drop (s.chain.length - min t.windowSize s.chain.length) := by
  have hspec := @rescanned_spec t s.chain (s.chain.length - min t.windowSize s.chain.length)
  have hmap := List.map_drop (f := t.effectiveVote) (l := s.chain)
    (i := s.chain.length - min t.windowSize s.chain.length)
  unfold Exact
  constructor
  · intro h
    rw [← hmap]
    exact (congrArg Prod.fst h).trans hspec.2
  · intro h
    refine tally_unique htally hspec.1 ?_
    rw [hspec.2]
    exact h.trans hmap.symm

theorem Exact.tallied (h : s.Exact t) : s.object.Tallied := by
  unfold Tallied
  rw [h]
  exact (rescanned_spec _ _).1

/-- **The counters add up to the length of the window**, over the versions there are. -/
theorem Exact.sum_eq (h : s.Exact t) :
    ∑ v ∈ Finset.range (t.versionAt (t.heights.length - 1) + 1), s.object.lastVersions v =
      s.object.versions.length := by
  have hle : ∀ v ∈ s.object.versions, v ∈
      Finset.range (t.versionAt (t.heights.length - 1) + 1) := by
    rw [(exact_iff h.tallied).mp h]
    intro v hv
    obtain ⟨b, -, rfl⟩ := List.mem_map.mp (List.mem_of_mem_drop hv)
    exact Finset.mem_range.mpr (Nat.lt_succ_of_le (Nat.min_le_right _ _))
  calc ∑ v ∈ Finset.range (t.versionAt (t.heights.length - 1) + 1), s.object.lastVersions v
      = ∑ v ∈ Finset.range (t.versionAt (t.heights.length - 1) + 1),
          (s.object.versions : Multiset Nat).count v :=
        Finset.sum_congr rfl fun v _ => (h.tallied v).trans (Multiset.coe_count v _).symm
    _ = s.object.versions.length := Multiset.sum_count_eq_card hle

theorem poppedWindow_eq (hfVersions : Nat → Nat) (newHeight n : Nat) :
    ∀ {versions : List Nat}, versions ≠ [] →
      HardFork.poppedWindow hfVersions newHeight n versions =
        ((List.range n).map (fun j => hfVersions (newHeight + j)) ++ versions).take
          versions.length := by
  induction n with
  | zero =>
    intro versions _
    simp [HardFork.poppedWindow]
  | succ n ih =>
    intro versions hne
    have hpos : 0 < versions.length := List.length_pos_iff.mpr hne
    have hlen : (hfVersions (newHeight + n) :: versions.dropLast).length = versions.length := by
      simp
      omega
    -- the vote at the back is beyond the cut
    have hcut : (versions : List Nat) = versions.dropLast ++ [versions.getLast hne] :=
      (List.dropLast_append_getLast hne).symm
    rw [HardFork.poppedWindow, ih (List.cons_ne_nil _ _), hlen, List.range_succ,
      List.map_append, List.append_assoc]
    conv_rhs =>
      arg 2
      rw [hcut]
    simp only [List.map_cons, List.map_nil, List.singleton_append]
    rw [← List.cons_append, ← List.append_assoc]
    refine (List.take_append_of_le_length ?_).symm
    rw [List.length_append, hlen]
    omega

theorem window_ne_nil {votes : List Nat} {windowSize : Nat} (hwin : 0 < windowSize)
    (hvotes : 0 < votes.length) : votes.drop (votes.length - min windowSize votes.length) ≠ [] := by
  rw [Ne, List.drop_eq_nil_iff]
  omega

theorem getElem?_poppedWindow {votes : List Nat} {windowSize n j : Nat} (hfVersions : Nat → Nat)
    (hwin : 0 < windowSize) (hn : n ≤ votes.length) (hfull : windowSize ≤ votes.length - n)
    (hj : j < windowSize) :
    (HardFork.poppedWindow hfVersions (votes.length - n) n
      (votes.drop (votes.length - min windowSize votes.length)))[j]? =
      if j < n then some (hfVersions (votes.length - n + j))
      else votes[votes.length - n - windowSize + j]? := by
  rw [poppedWindow_eq _ _ _ (window_ne_nil hwin (by omega)),
    List.getElem?_take_of_lt (by simp; omega)]
  split
  · rename_i hjn
    rw [List.getElem?_append_left (by simpa using hjn)]
    simp [hjn]
  · rename_i hjn
    rw [List.getElem?_append_right (by simp; omega), List.getElem?_drop]
    congr 1
    simp
    omega

/-- **What a pop does to an exact window**: it is exact again in just these cases. -/
theorem poppedWindow_exact_iff {votes : List Nat} {windowSize n : Nat} (hfVersions : Nat → Nat)
    (hwin : 0 < windowSize) (hpos : 0 < n) (hn : n ≤ votes.length) :
    HardFork.poppedWindow hfVersions (votes.length - n) n
        (votes.drop (votes.length - min windowSize votes.length)) =
      (votes.take (votes.length - n)).drop
        (votes.length - n - min windowSize (votes.length - n)) ↔
      windowSize ≤ votes.length - n ∧ ∀ j < min n windowSize,
        hfVersions (votes.length - n + j) = votes.getD (votes.length - n + j - windowSize) 0 := by
  have hne := window_ne_nil hwin (hpos.trans_le hn)
  have htarget : ∀ j < windowSize, windowSize ≤ votes.length - n →
      ((votes.take (votes.length - n)).drop
        (votes.length - n - min windowSize (votes.length - n)))[j]? =
        votes[votes.length - n - windowSize + j]? := by
    intro j hj hfull
    rw [List.getElem?_drop, List.getElem?_take_of_lt (by omega), Nat.min_eq_left hfull]
  constructor
  · intro heq
    -- the pop keeps the length, so a full window must be left
    have hlen := congrArg List.length heq
    rw [poppedWindow_eq _ _ _ hne] at hlen
    simp at hlen
    have hfull : windowSize ≤ votes.length - n := by omega
    refine ⟨hfull, fun j hj => ?_⟩
    have hat := congrArg (·[j]?) heq
    rw [getElem?_poppedWindow hfVersions hwin hn hfull (by omega), if_pos (by omega),
      htarget j (by omega) hfull] at hat
    rw [List.getD_eq_getElem?_getD, show votes.length - n + j - windowSize =
      votes.length - n - windowSize + j by omega, ← hat]
    rfl
  · rintro ⟨hfull, hback⟩
    refine List.ext_getElem? fun j => ?_
    by_cases hj : j < windowSize
    · rw [getElem?_poppedWindow hfVersions hwin hn hfull hj, htarget j hj hfull]
      split
      · rename_i hjn
        have hlt : votes.length - n - windowSize + j < votes.length := by omega
        rw [hback j (by omega), show votes.length - n + j - windowSize =
          votes.length - n - windowSize + j by omega, List.getD_eq_getElem _ _ hlt,
          List.getElem?_eq_getElem hlt]
      · rfl
    · rw [List.getElem?_eq_none, List.getElem?_eq_none]
      · simp
        omega
      · rw [poppedWindow_eq _ _ _ hne]
        simp
        omega

/-! ## One call -/

/-- **`init` ends exact.** -/
theorem start_exact (hwin : 0 < t.windowSize) (hfVersions : Nat → Nat) (chain : List Block) :
    (start t hfVersions chain).Exact t := by
  have hheight : (if chain.length > t.windowSize then chain.length - (t.windowSize - 1) else 1) - 1
      = chain.length - min t.windowSize chain.length := by
    split <;> omega
  unfold Exact start VotingHardFork.init
  dsimp only
  rw [hheight]
  unfold VotingHardFork.rescanFromBlockHeight
  split
  · rename_i hge
    rw [rescanned, List.drop_eq_nil_of_le hge]
    rfl
  · rw [(raiseTo_votes _).1, (raiseTo_votes _).2]

/-- **An addition keeps the votes exact**, whether the window is full or not. -/
theorem Exact.add (hwin : 0 < t.windowSize) (h : s.Exact t) (b : Block) :
    (s.call t (.add b)).Exact t := by
  unfold call
  dsimp only
  split
  · rename_i object hfVersions hadd
    obtain ⟨htally, hsame⟩ := add_toHardFork h.tallied hadd
    have hwindow : object.versions = _ := add_versions hadd
    rw [exact_iff htally]
    dsimp only
    rw [hwindow, (exact_iff h.tallied).mp h, List.map_append, List.length_drop, List.drop_drop,
      List.drop_append_of_le_length (by simp; omega), List.length_append, List.length_map]
    congr 2
    simp
    omega
  · exact h

/-- **A pop keeps the votes exact just where it restores them.** -/
theorem Exact.popped_iff (hwin : 0 < t.windowSize) (h : s.Exact t) {n : Nat} (hpos : 0 < n)
    (hn : n ≤ s.chain.length) : (s.call t (.popped n)).Exact t ↔ s.PopRestores t n := by
  have hwindow := (exact_iff h.tallied).mp h
  have hne : s.object.versions ≠ [] := by
    intro hnil
    have := congrArg List.length (hwindow.symm.trans hnil)
    simp at this
    omega
  have hlen : (s.chain.take (s.chain.length - n)).length = s.chain.length - n := by simp
  obtain ⟨htally, hsame⟩ := onBlockPopped_toHardFork (t := t) h.tallied hne s.hfVersions
    (s.chain.length - n) n
  have hpopped : (s.object.onBlockPopped t s.hfVersions (s.chain.length - n) n).versions = _ :=
    congrArg HardFork.versions hsame
  have hiff := @poppedWindow_exact_iff (s.chain.map t.effectiveVote) t.windowSize n s.hfVersions
    hwin hpos (by simpa using hn)
  rw [List.length_map] at hiff
  unfold call
  dsimp only
  rw [if_pos ⟨hpos, hn⟩, hlen, exact_iff htally]
  dsimp only
  rw [hlen, List.map_take, PopRestores, ← hiff, ← hwindow, hpopped]
  rfl

theorem Exact.call_iff (hwin : 0 < t.windowSize) (h : s.Exact t) (c : VoteCall) :
    (s.call t c).Exact t ↔ s.Restores t c := by
  cases c with
  | add b => exact iff_of_true (h.add hwin b) trivial
  | popped n =>
    by_cases hlegal : 0 < n ∧ n ≤ s.chain.length
    · rw [h.popped_iff hwin hlegal.1 hlegal.2]
      exact ⟨fun hr _ _ => hr, fun hr => hr hlegal.1 hlegal.2⟩
    · have hsame : s.call t (.popped n) = s := if_neg hlegal
      rw [hsame]
      exact iff_of_true h fun hpos hn => absurd ⟨hpos, hn⟩ hlegal

/-! ## Whole runs -/

/-- Every call of a run meets the condition in the state it is made in. -/
def AllRestore (t : ForkTable) (s : VotingChain) (calls : List VoteCall) : Prop :=
  ∀ k, (hk : k < calls.length) → (run t s (calls.take k)).Restores t calls[k]

instance (calls : List VoteCall) : Decidable (AllRestore t s calls) :=
  inferInstanceAs (Decidable (∀ k, (hk : k < calls.length) → _))

theorem run_append (calls calls' : List VoteCall) :
    run t s (calls ++ calls') = run t (run t s calls) calls' := by
  induction calls generalizing s with
  | nil => rfl
  | cons c calls ih => exact ih

/-- The votes are exact up to the `k`-th call just where the first `k` calls meet the condition. -/
theorem Exact.run_iff (hwin : 0 < t.windowSize) (h : s.Exact t) (calls : List VoteCall) :
    (∀ k ≤ calls.length, (run t s (calls.take k)).Exact t) ↔ AllRestore t s calls := by
  have hstep : ∀ k, (hk : k < calls.length) →
      run t s (calls.take (k + 1)) = (run t s (calls.take k)).call t calls[k] := by
    intro k hk
    rw [List.take_succ_eq_append_getElem hk, run_append]
    rfl
  constructor
  · intro hexact k hk
    rw [← (hexact k (by omega)).call_iff hwin, ← hstep k hk]
    exact hexact (k + 1) hk
  · intro hrestore k
    induction k with
    | zero => exact fun _ => h
    | succ k ih =>
      intro hk
      rw [hstep k hk, (ih (by omega)).call_iff hwin]
      exact hrestore k hk

end VotingChain

/-! ## Results -/

open VotingChain

/-- **The votes over additions and pops.** From `init` over any chain, every state of a run has the
votes of a rescan of its last blocks, with counters that add up to their number, if and only if
every pop of the run restores the votes that come back into range. -/
theorem vote_window_iff (t : ForkTable) (hwin : 0 < t.windowSize) (hfVersions : Nat → Nat)
    (chain : List Block) (calls : List VoteCall) :
    (∀ k ≤ calls.length,
      let s := run t (start t hfVersions chain) (calls.take k)
      s.Exact t ∧ ∑ v ∈ Finset.range (t.versionAt (t.heights.length - 1) + 1),
        s.object.lastVersions v = s.object.versions.length) ↔
      AllRestore t (start t hfVersions chain) calls := by
  rw [← (start_exact hwin hfVersions chain).run_iff hwin calls]
  exact ⟨fun h k hk => (h k hk).1, fun h k hk => ⟨h k hk, (h k hk).sum_eq⟩⟩

def singleFork (windowSize : Nat) : ForkTable where
  heights := [⟨1, 0, 0, 0⟩]
  windowSize := windowSize
  nonempty := by simp
  ordered := firstVersion.ordered
  positive := firstVersion.positive

def versionOneBlock : Block := { majorVersion := 1, minorVersion := 1 }

/-- A window of one vote: two blocks are added and one is popped. -/
theorem vote_window_iff_single :
    0 < (singleFork 1).windowSize ∧
      (run (singleFork 1) (start (singleFork 1) (fun _ => 1) [])
        [.add versionOneBlock, .add versionOneBlock, .popped 1]).Exact (singleFork 1) :=
  ⟨by decide, ((vote_window_iff (singleFork 1) (by decide) (fun _ => 1) []
    [.add versionOneBlock, .add versionOneBlock, .popped 1]).mpr (by decide +kernel) 3
      (by decide)).1⟩

/-- **The window is longer than the chain.** With the default window two blocks are added and one
is popped: one block is left and two votes are counted. -/
theorem popped_vote_counted_twice :
    let s := run (singleFork 10080) (start (singleFork 10080) (fun _ => 1) [])
      [.add versionOneBlock, .add versionOneBlock, .popped 1]
    s.chain = [versionOneBlock] ∧ s.object.versions = [1, 1] ∧ s.object.lastVersions 1 = 2 ∧
      (rescanned (singleFork 10080) s.chain 0).1 = [1] ∧ ¬ s.Exact (singleFork 10080) := by
  refine ⟨by decide +kernel, by decide +kernel, by decide +kernel, by decide +kernel, ?_⟩
  intro h
  have hone := congrFun (congrArg Prod.snd h) 1
  revert hone
  decide +kernel

end Oxyra
