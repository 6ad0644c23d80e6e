import Oxyra.Lib.RunningSum
import Oxyra.Core.TxSemantic
import Oxyra.Logic.Regtest

/-!
# The members of a ring

From version 6 on `check_tx_semantic` refuses an offset of zero behind the first,
so that no output should stand twice in a ring. The offsets are added up in 64
bits, where a run of several can add up to nothing as well: `[0, 1, 2^64 - 1]`
names the outputs 0, 1 and 0.

`ring_members_distinct_iff` says that this is the only way for an output to come
back.
-/

namespace Oxyra

theorem absoluteOffsetsFrom_eq (acc : UInt64) (l : List UInt64) :
    absoluteOffsetsFrom acc l = RunningSum.runningSums acc l := by
  induction l generalizing acc with
  | nil => rfl
  | cons x l ih => simp [absoluteOffsetsFrom, RunningSum.runningSums, ih]

/-- Two or more consecutive offsets behind the first add up, as plain numbers, to a
multiple of 2^64. -/
def WrapsAround (keyOffsets : List UInt64) : Prop :=
  ∃ run, 2 ≤ run.length ∧ run <:+: keyOffsets.tail ∧ 2 ^ 64 ∣ WordSum.natSum run

theorem absolute_nodup_iff {keyOffsets : List UInt64} (h : offsetsDiff keyOffsets = true) :
    (relativeOutputOffsetsToAbsolute keyOffsets).Nodup ↔ ¬ WrapsAround keyOffsets := by
  have hsum : ∀ run : List UInt64, run.sum = 0 ↔ 2 ^ 64 ∣ WordSum.natSum run := fun run => by
    rw [WordSum.sum_eq_zero_iff, Nat.dvd_iff_mod_eq_zero]
  unfold relativeOutputOffsetsToAbsolute
  rw [absoluteOffsetsFrom_eq]
  cases keyOffsets with
  | nil =>
    refine iff_of_true (by simp [RunningSum.runningSums]) ?_
    rintro ⟨run, hlen, hrun, -⟩
    rw [List.tail_nil, List.infix_nil] at hrun
    simp [hrun] at hlen
  | cons x l =>
    rw [RunningSum.runningSums, RunningSum.nodup_cons_iff]
    constructor
    · rintro hno ⟨run, hlen, hrun, hdvd⟩
      exact hno run (by rintro rfl; simp at hlen) hrun ((hsum run).mpr hdvd)
    · intro hno run hne hrun hzero
      by_cases hlen : 2 ≤ run.length
      · exact hno ⟨run, hlen, hrun, (hsum run).mp hzero⟩
      · -- a single offset that adds nothing is zero, which the check refuses
        obtain ⟨off, rfl⟩ : ∃ off, run = [off] := by
          have := List.length_pos_iff.mpr hne
          exact List.length_eq_one_iff.mp (by omega)
        have hmem : off ∈ l := hrun.subset List.mem_cons_self
        have hoff := List.all_eq_true.mp h off hmem
        rw [List.sum_singleton] at hzero
        simp [hzero] at hoff

/-- **Rings have distinct members exactly if no run of offsets wraps around.** For
every version from 6 on and every transaction that passes the stateless check, on
whatever chain its outputs are. -/
theorem ring_members_distinct_iff (c : KeyChecks) (tx : Transaction) (hfVersion : Nat)
    (hv : 6 ≤ hfVersion) (h : checkTxSemantic c tx hfVersion = true) :
    (∀ r ∈ toKeyInputs tx, (relativeOutputOffsetsToAbsolute r.2).Nodup) ↔
      ∀ r ∈ toKeyInputs tx, ¬ WrapsAround r.2 := by
  refine forall_congr' fun r => forall_congr' fun hr => ?_
  obtain ⟨i, hi, heq⟩ := List.mem_filterMap.mp hr
  cases i with
  | toKey amount keyOffsets image =>
    obtain rfl := Option.some.inj heq
    exact absolute_nodup_iff (offsetsDiff_of_semantic h hv hi)
  | gen | toScript | toScripthash => exact absurd heq (by simp)

/-- A transaction over the two halves of the supply, with the given ring. -/
def ringTx (keyOffsets : List UInt64) : Transaction :=
  { version := 1
    vin := [.toKey (moneySupply / 2) keyOffsets 7]
    vout := [⟨1, .toKey 1⟩] }

theorem ring_members_distinct_regtest :
    checkTxSemantic lenientKeyChecks (ringTx [0, 1]) 6 = true ∧
      ∀ r ∈ toKeyInputs (ringTx [0, 1]), (relativeOutputOffsetsToAbsolute r.2).Nodup := by
  have hsem : checkTxSemantic lenientKeyChecks (ringTx [0, 1]) 6 = true := by decide +kernel
  refine ⟨hsem, (ring_members_distinct_iff _ _ 6 (by decide) hsem).mpr ?_⟩
  rintro r hr ⟨run, hlen, hrun, -⟩
  -- one offset behind the first leaves no room for a run of two
  obtain rfl : r = (moneySupply / 2, [0, 1]) := by simpa [toKeyInputs, ringTx] using hr
  have := hrun.length_le
  simp at this
  omega

/-- A transaction that passes the check at version 6, whose ring exists on the chain
of an accepted genesis block and names the output 0 twice. -/
theorem ring_member_repeated :
    ∃ chain : Chain,
      chain = (({} : Blockchain).withGenesis (regtest (schedule 1 []))
        (regtestGenesis 1 [moneySupply / 2, moneySupply / 2]) {}).chain ∧ chain.length = 1 ∧
      checkTxSemantic lenientKeyChecks (ringTx [0, 1, 18446744073709551615]) 6 = true ∧
      InputsResolve (regtest (schedule 1 [])) chain (ringTx [0, 1, 18446744073709551615]) ∧
      ¬ ∀ r ∈ toKeyInputs (ringTx [0, 1, 18446744073709551615]),
        (relativeOutputOffsetsToAbsolute r.2).Nodup :=
  ⟨_, rfl, by decide +kernel, by decide +kernel, by decide +kernel, by decide +kernel⟩

end Oxyra
