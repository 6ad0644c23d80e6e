import Mathlib.Data.Nat.Log
import Oxyra.Core.TxWeight
import Oxyra.Lib.CodecSize
import Oxyra.Theorems.PrunedHash

/-!
# The weight of a pruned transaction

What a transaction has lost with its prunable part can be computed from the rest, if its one range
proof has the length that the number of outputs asks for (`Aggregated`):

* every part of the prunable data has a size that its type and the number of inputs, of ring
  members and of outputs determine (`hasSize_prunable`);
* the number of outputs that the proof is padded to is the power of two that the loop finds
  (`nlrLoop_eq`, `maxAmounts_one`).

So both functions give the same weight (`pruned_weight_eq`).
-/

namespace Oxyra.Wire

open Codec

variable {tx : Transaction} {n ring : Nat} {blob : List UInt8} {k : Nat} {type : RctType}

/-! ## The loop over powers of two -/

theorem nlrLoop_eq {fuel : Nat} (hk : k ≤ Nat.clog 2 n) (hfuel : Nat.clog 2 n ≤ fuel + k) :
    nlrLoop fuel k n = Nat.clog 2 n := by
  induction fuel generalizing k with
  | zero =>
    rw [Nat.zero_add] at hfuel
    exact Nat.le_antisymm hk hfuel
  | succ fuel ih =>
    unfold nlrLoop
    rw [Nat.one_shiftLeft]
    split
    · rename_i hlt
      exact ih ((Nat.lt_clog_iff_pow_lt (by decide)).mpr hlt) (by omega)
    · rename_i hge
      have hle : Nat.clog 2 n ≤ k := (Nat.clog_le_iff_le_pow (by decide)).mpr (Nat.not_lt.mp hge)
      exact Nat.le_antisymm hk hle

theorem clog_le_four (h : n ≤ 16) : Nat.clog 2 n ≤ 4 :=
  (Nat.clog_le_iff_le_pow (by decide)).mpr h

theorem maxAmounts_one (h : k ≤ 4) :
    nBulletproofMaxAmountsFrom 0 [(6 + k, 6 + k)] = 2 ^ k := by
  interval_cases k <;> rfl

/-! ## The size of the prunable part -/

theorem hasSize_key (k : Key) : key.HasSize k 32 := hasSize_blob 32 k

theorem hasSize_keys {l : List Key} (hl : l.length = n) (hn : n < 128) :
    keys.HasSize l (1 + n * 32) :=
  hl ▸ hasSize_array takes_key hasSize_key (hl ▸ hn)

theorem hasSize_bulletproof {p : Bulletproof} (hl : p.L.length = n) (hr : p.R.length = n)
    (hn : n < 128) : bulletproof.HasSize p (32 * (9 + 2 * n) + 2) := by
  have hL := hasSize_keys hl hn
  have hR := hasSize_keys hr hn
  have htail := (hasSize_key p.a).seq ((hasSize_key p.b).seq (hasSize_key p.t))
  refine HasSize.check (HasSize.map (HasSize.congr ((hasSize_key _).seq ((hasSize_key _).seq
    ((hasSize_key _).seq ((hasSize_key _).seq ((hasSize_key _).seq ((hasSize_key _).seq
      (hL.seq (hR.seq htail)))))))) ?_))
  omega

theorem hasSize_bulletproofPlus {p : BulletproofPlus} (hl : p.L.length = n) (hr : p.R.length = n)
    (hn : n < 128) : bulletproofPlus.HasSize p (32 * (6 + 2 * n) + 2) := by
  have hL := hasSize_keys hl hn
  have hR := hasSize_keys hr hn
  refine HasSize.check (HasSize.map (HasSize.congr ((hasSize_key _).seq ((hasSize_key _).seq
    ((hasSize_key _).seq ((hasSize_key _).seq ((hasSize_key _).seq ((hasSize_key _).seq
      (hL.seq hR))))))) ?_))
  omega

theorem hasSize_clsag (mixin : Nat) (s : Clsag) :
    (clsag mixin).HasSize s ((mixin + 1 + 2) * 32) := by
  refine HasSize.map (HasSize.congr ((hasSize_vec hasSize_key _ _).seq
    ((hasSize_key _).seq (hasSize_key _))) ?_)
  omega

theorem hasSize_mgSig (h : onePerInput type = true) (inputs mixin : Nat) (s : MgSig) :
    (mgSig type inputs mixin).HasSize s ((mixin + 1) * (1 + 1) * 32 + 32) := by
  refine HasSize.map (HasSize.congr
    ((hasSize_vec (hasSize_vec hasSize_key _) _ _).seq (hasSize_key _)) ?_)
  rw [if_pos h, Nat.mul_assoc]

theorem hasSize_proofs {α : Type} {proof : Codec α} {maxAmounts : List α → Nat} {outputs : Nat}
    {p : α} (h : proof.HasSize p k) :
    (proofs varint32 proof maxAmounts outputs).HasSize [p] (1 + k) :=
  (hasSize_counted_one (hasSize_varint32 (by decide)).check h).check

/-- One range proof, of the kind that goes with the type, with `n` entries in `L` and in `R`. -/
structure OneProof (type : RctType) (p : RctSigPrunable) (n : Nat) : Prop where
  plus : type = .bulletproofPlus →
    ∃ q, p.bulletproofsPlus = [q] ∧ q.L.length = n ∧ q.R.length = n
  plain : type ≠ .bulletproofPlus → ∃ q, p.bulletproofs = [q] ∧ q.L.length = n ∧ q.R.length = n

def weighable (type : RctType) : Prop :=
  type = .bulletproof2 ∨ type = .clsag ∨ type = .bulletproofPlus

theorem hasSize_signatures (htype : weighable type) (inputs mixin : Nat)
    (v : (_ : List Clsag) × (_ : List MgSig) × List Key) :
    (prunableSignatures type inputs mixin).HasSize v
      ((if isRctClsag type then inputs * (mixin + 1 + 2) * 32
        else inputs * ((mixin + 1) * (1 + 1) * 32 + 32)) + 32 * inputs) := by
  have hpseudo := hasSize_vec hasSize_key inputs v.2.2
  have hclsags := hasSize_vec (hasSize_clsag mixin) inputs v.1
  have hmgs := hasSize_vec (@hasSize_mgSig .bulletproof2 rfl inputs mixin) inputs v.2.1
  -- the signatures of the other kind are an empty list and take no bytes
  have hnone := hasSize_const ([] : List MgSig) v.2.1
  rcases htype with rfl | rfl | rfl
  · refine HasSize.congr ((hasSize_const _ _).seq (hmgs.seq hpseudo)) ?_
    rw [if_neg (by decide)]
    omega
  · refine HasSize.congr (hclsags.seq (hnone.seq hpseudo)) ?_
    rw [if_pos (by decide), Nat.mul_assoc]
    omega
  · refine HasSize.congr (hclsags.seq (hnone.seq hpseudo)) ?_
    rw [if_pos (by decide), Nat.mul_assoc]
    omega

theorem hasSize_prunable {p : RctSigPrunable} {inputs outputs mixin : Nat} (htype : weighable type)
    (hproof : OneProof type p n) (hn : n < 128) :
    (serializeRctsigPrunable type inputs outputs mixin).HasSize p
      (prunedExtra type inputs n (mixin + 1)) := by
  have hnull : ¬ type = .null := by
    rcases htype with rfl | rfl | rfl <;> decide
  have hsigs := hasSize_signatures htype inputs mixin ⟨p.clsags, p.mgs, p.pseudoOuts⟩
  unfold serializeRctsigPrunable
  by_cases hlarge : inputs ≥ 0xffffffff ∨ outputs ≥ 0xffffffff ∨ mixin ≥ 0xffffffff
  · rw [if_pos hlarge]
    intro enc hw
    cases hw
  rw [if_neg hlarge, if_neg hnull]
  refine HasSize.map ?_
  unfold prunedExtra
  by_cases hplus : type = .bulletproofPlus
  · obtain ⟨q, hq, hl, hr⟩ := hproof.plus hplus
    subst hplus
    have hbp : (bulletproofsPlusField .bulletproofPlus outputs).HasSize p.bulletproofsPlus
        (1 + (32 * (6 + 2 * n) + 2)) := by
      rw [hq]
      exact hasSize_proofs (hasSize_bulletproofPlus hl hr hn)
    refine HasSize.congr (hbp.seq ((hasSize_const _ _).seq ((hasSize_const _ _).seq hsigs))) ?_
    rw [if_pos (by decide : isRctBulletproofPlus .bulletproofPlus = true)]
    omega
  · obtain ⟨q, hq, hl, hr⟩ := hproof.plain hplus
    have hbp : (proofs varint32 bulletproof nBulletproofMaxAmounts outputs).HasSize p.bulletproofs
        (1 + (32 * (9 + 2 * n) + 2)) := by
      rw [hq]
      exact hasSize_proofs (hasSize_bulletproof hl hr hn)
    rcases htype with rfl | rfl | rfl
    · refine HasSize.congr ((hasSize_const _ _).seq (hbp.seq ((hasSize_const _ _).seq hsigs))) ?_
      rw [if_neg (by decide : ¬ isRctBulletproofPlus .bulletproof2 = true)]
      omega
    · refine HasSize.congr ((hasSize_const _ _).seq (hbp.seq ((hasSize_const _ _).seq hsigs))) ?_
      rw [if_neg (by decide : ¬ isRctBulletproofPlus .clsag = true)]
      omega
    · exact absurd rfl hplus

/-! ## The two weights -/

/-- Rings of one size and one range proof for up to 16 outputs, of the length that they ask
for. -/
structure Aggregated (tx : Transaction) (ring : Nat) : Prop where
  version : tx.version = 2
  type : weighable tx.rctSignatures.type
  inputs : tx.vin ≠ []
  rings : ∀ txin ∈ tx.vin, ∃ k, txin = .toKey k ∧ k.keyOffsets.length = ring
  outputs : 1 ≤ tx.vout.length ∧ tx.vout.length ≤ 16
  proof : OneProof tx.rctSignatures.type tx.rctSignatures.p (6 + Nat.clog 2 tx.vout.length)

theorem parts_of_blob (h : txToBlob tx = some blob) (hversion : ¬ tx.version = 1)
    (hvin : tx.vin ≠ []) :
    ∃ pre base prunable, transactionPrefix.write tx.toTransactionPrefix = some pre ∧
      (serializeRctsigBase tx.vin.length tx.vout.length).write
        tx.rctSignatures.toRctSigBase = some base ∧
      (rctPrunable tx.vin tx.vout tx.rctSignatures.type).write
        tx.rctSignatures.p = some prunable ∧
      blob = pre ++ (base ++ prunable) := by
  rw [← serializeTransaction_blob] at h
  obtain ⟨s, hs, rfl⟩ := Option.map_eq_some_iff.mp h
  obtain ⟨pre, hpre, hs⟩ := Option.bind_eq_some_iff.mp hs
  rw [if_neg hversion, if_neg hvin] at hs
  obtain ⟨base, hbase, hs⟩ := Option.bind_eq_some_iff.mp hs
  obtain ⟨prunable, hprunable, rfl⟩ := Option.map_eq_some_iff.mp hs
  exact ⟨pre, base, prunable, hpre, hbase, hprunable, rfl⟩

theorem transactionBase_write {pre base : List UInt8} (hversion : ¬ tx.version = 1)
    (hvin : tx.vin ≠ []) (hpre : transactionPrefix.write tx.toTransactionPrefix = some pre)
    (hbase : (serializeRctsigBase tx.vin.length tx.vout.length).write
      tx.rctSignatures.toRctSigBase = some base) :
    transactionBase.write (withoutPrunable tx) = some (pre ++ base) := by
  have hneg : ¬ (tx.version = 1 ∨ tx.vin = []) := not_or.mpr ⟨hversion, hvin⟩
  show writeBind transactionPrefix rctBase ⟨tx.toTransactionPrefix, _⟩ = _
  rw [writeBind, hpre, Option.bind_some, rctBase, if_neg hneg]
  show Option.map _ ((serializeRctsigBase tx.vin.length tx.vout.length).write
    tx.rctSignatures.toRctSigBase) = _
  rw [hbase, Option.map_some]

theorem offsets_length_lt {pre : List UInt8} {k : TxinToKey} (hk : .toKey k ∈ tx.vin)
    (hpre : transactionPrefix.write tx.toTransactionPrefix = some pre) :
    k.keyOffsets.length < 2 ^ 64 := by
  have hw : ((varint64.check fun version => !(version = 0 || 2 < version)).seq (varint64.seq
      ((array txinV takes_txinV).seq ((array txOut takes_txOut).seq bytes)))).write
        ⟨tx.version, tx.unlockTime, tx.vin, tx.vout, tx.extra⟩ = some pre := hpre
  obtain ⟨_, _, -, hw, -⟩ := seq_write hw
  obtain ⟨_, _, -, hw, -⟩ := seq_write hw
  obtain ⟨_, _, hvin, -, -⟩ := seq_write hw
  obtain ⟨enc, hin⟩ := array_write_mem hvin hk
  -- the tag, the amount and the offsets
  have hin : ((tagged [.gen, .toScript, .toScripthash, .toKey] TxinTag.toByte).bind
      txinBody).write ⟨.toKey, k⟩ = some enc := hin
  obtain ⟨_, enc, -, hbody, -⟩ := bind_write hin
  have hbody : (varint64.seq ((array varint64 takes_varint64).seq key)).write
      ⟨k.amount, k.keyOffsets, k.kImage⟩ = some enc := hbody
  obtain ⟨_, _, -, hbody, -⟩ := seq_write hbody
  obtain ⟨_, _, hoffsets, -, -⟩ := seq_write hbody
  exact length_of_array_write hoffsets

theorem mixinOf_add_one {k : TxinToKey} {rest : List TxinV} (hk : k.keyOffsets.length < 2 ^ 64)
    (hmixin : mixinOf (.toKey k :: rest) < 0xffffffff) :
    mixinOf (.toKey k :: rest) + 1 = k.keyOffsets.length := by
  have hone : (1 : UInt64).toNat = 1 := rfl
  have hofNat : (UInt64.ofNat k.keyOffsets.length).toNat = k.keyOffsets.length :=
    UInt64.toNat_ofNat_of_lt' hk
  have heq : mixinOf (.toKey k :: rest) = (UInt64.ofNat k.keyOffsets.length - 1).toNat := rfl
  rw [heq, UInt64.toNat_sub, hofNat, hone] at hmixin ⊢
  omega

theorem blob_length_eq (h : Aggregated tx ring) (hblob : txToBlob tx = some blob) :
    ∃ kept, transactionBase.write (withoutPrunable tx) = some kept ∧
      blob.length = kept.length + prunedExtra tx.rctSignatures.type tx.vin.length
        (6 + Nat.clog 2 tx.vout.length) ring := by
  have hversion : ¬ tx.version = 1 := by
    rw [h.version]
    decide
  have hnull : ¬ tx.rctSignatures.type = .null := by
    rcases h.type with htype | htype | htype <;> rw [htype] <;> decide
  obtain ⟨pre, base, prunable, hpre, hbase, hprunable, rfl⟩ :=
    parts_of_blob hblob hversion h.inputs
  refine ⟨pre ++ base, transactionBase_write hversion h.inputs hpre hbase, ?_⟩
  -- the first input gives the size of the rings
  obtain ⟨txin, rest, hvin⟩ := List.exists_cons_of_ne_nil h.inputs
  obtain ⟨k, rfl, hring⟩ := h.rings txin (hvin ▸ List.mem_cons_self)
  have hoffsets := offsets_length_lt (hvin ▸ List.mem_cons_self : .toKey k ∈ tx.vin) hpre
  rw [rctPrunable, if_neg hnull] at hprunable
  have hmixin : mixinOf tx.vin < 0xffffffff := by
    by_contra hlarge
    rw [serializeRctsigPrunable, if_pos (.inr (.inr (Nat.not_lt.mp hlarge)))] at hprunable
    cases hprunable
  rw [hvin] at hmixin
  have hlen := hasSize_prunable h.type h.proof
    (by have := clog_le_four h.outputs.2; omega) hprunable
  rw [hvin, mixinOf_add_one hoffsets hmixin, hring, ← hvin] at hlen
  rw [List.length_append, List.length_append, List.length_append, hlen, Nat.add_assoc]

theorem clawback_le (hk : k ≤ 4) (hout : tx.vout.length ≤ 16) :
    ∃ clawback, getTransactionWeightClawback tx (2 ^ k) = some clawback ∧ clawback ≤ 4096 := by
  have hmax : ¬ ¬ tx.vout.length ≤ bulletproofMaxOutputs := not_not.mpr hout
  unfold getTransactionWeightClawback
  by_cases hplus : tx.rctSignatures.type = .bulletproofPlus <;>
    simp only [hplus, if_true, if_false, if_neg hmax] <;> interval_cases k <;> decide

theorem padded_outputs (h : Aggregated tx ring) :
    (if isRctBulletproofPlus tx.rctSignatures.type then
        nBulletproofPlusMaxAmounts tx.rctSignatures.p.bulletproofsPlus
      else nBulletproofMaxAmounts tx.rctSignatures.p.bulletproofs) =
      2 ^ Nat.clog 2 tx.vout.length := by
  have hmax := maxAmounts_one (clog_le_four h.outputs.2)
  by_cases hplus : tx.rctSignatures.type = .bulletproofPlus
  · obtain ⟨q, hq, hl, hr⟩ := h.proof.plus hplus
    have htrue : isRctBulletproofPlus tx.rctSignatures.type = true := decide_eq_true hplus
    rw [if_pos htrue, hq, nBulletproofPlusMaxAmounts, List.map_singleton, hl, hr, hmax]
  · obtain ⟨q, hq, hl, hr⟩ := h.proof.plain hplus
    have hfalse : ¬ isRctBulletproofPlus tx.rctSignatures.type = true := by
      rw [isRctBulletproofPlus, decide_eq_true_eq]
      exact hplus
    rw [if_neg hfalse, hq, nBulletproofMaxAmounts, List.map_singleton, hl, hr, hmax]

theorem getTransactionWeight_eq (h : Aggregated tx ring) (hblob : txToBlob tx = some blob) :
    getTransactionWeight ⟨tx, false⟩ =
      addClawback tx (2 ^ Nat.clog 2 tx.vout.length) blob.length := by
  have hold : ¬ tx.version < 2 := by
    rw [h.version]
    decide
  have hproof : ¬ (!isRctBulletproof tx.rctSignatures.type &&
      !isRctBulletproofPlus tx.rctSignatures.type) = true := by
    rcases h.type with htype | htype | htype <;> rw [htype] <;> decide
  unfold getTransactionWeight TxObject.toBlob
  dsimp only
  rw [if_neg (by decide), hblob, Option.bind_some]
  unfold getTransactionWeightAt
  dsimp only
  rw [if_neg (by decide), if_neg hold, if_neg hproof, padded_outputs h]

theorem getPrunedTransactionWeight_of_toKey {t : TxObject} {k : TxinToKey} {rest : List TxinV}
    (hpruned : t.pruned = true) (hversion : t.version ≥ 2) (htype : weighable t.rctSignatures.type)
    (hvin : t.vin = .toKey k :: rest) :
    getPrunedTransactionWeight t = t.toBlob.bind fun blob =>
      addClawback t.toTransaction (1 <<< nlrLoop 32 0 t.vout.length)
        (blob.length + prunedExtra t.rctSignatures.type t.vin.length
          (nlrLoop 32 0 t.vout.length + 6) k.keyOffsets.length) := by
  have htype : ¬ ¬ (t.rctSignatures.type = .bulletproof2 ∨ t.rctSignatures.type = .clsag ∨
      t.rctSignatures.type = .bulletproofPlus) := not_not.mpr htype
  unfold getPrunedTransactionWeight
  rw [if_neg (not_not.mpr hpruned), if_neg (not_not.mpr hversion), if_neg htype, hvin]

theorem getPrunedTransactionWeight_eq {kept : List UInt8} (h : Aggregated tx ring)
    (hkept : transactionBase.write (withoutPrunable tx) = some kept) :
    getPrunedTransactionWeight ⟨withoutPrunable tx, true⟩ =
      addClawback tx (2 ^ Nat.clog 2 tx.vout.length)
        (kept.length + prunedExtra tx.rctSignatures.type tx.vin.length
          (6 + Nat.clog 2 tx.vout.length) ring) := by
  have hnew : tx.version ≥ 2 := by
    rw [h.version]
    decide
  have hclog := clog_le_four h.outputs.2
  have hloop : nlrLoop 32 0 tx.vout.length = Nat.clog 2 tx.vout.length :=
    nlrLoop_eq (Nat.zero_le _) (by omega)
  obtain ⟨txin, rest, hvin⟩ := List.exists_cons_of_ne_nil h.inputs
  obtain ⟨k, rfl, hring⟩ := h.rings txin (hvin ▸ List.mem_cons_self)
  have heq := getPrunedTransactionWeight_of_toKey
    (t := ⟨withoutPrunable tx, true⟩) rfl hnew h.type hvin
  have hblob : TxObject.toBlob ⟨withoutPrunable tx, true⟩ = some kept := hkept
  rw [heq, hblob, Option.bind_some, hring, Nat.add_comm _ 6]
  show addClawback tx (1 <<< nlrLoop 32 0 tx.vout.length) (kept.length +
    prunedExtra tx.rctSignatures.type tx.vin.length (6 + nlrLoop 32 0 tx.vout.length) ring) = _
  rw [hloop, Nat.one_shiftLeft]

/-- **The weight of a pruned transaction.** For a version 2 transaction that can be written, with
inputs whose rings have one size and one range proof of the length that its 1 to 16 outputs ask
for, the weight computed without the prunable part is the weight of the whole; and there is one,
as long as it fits into 64 bits. -/
theorem pruned_weight_eq {blob : List UInt8} (h : Aggregated tx ring)
    (hblob : txToBlob tx = some blob) :
    getPrunedTransactionWeight ⟨withoutPrunable tx, true⟩ =
        getTransactionWeight ⟨tx, false⟩ ∧
      (blob.length + 4096 < 2 ^ 64 →
        ∃ weight, getTransactionWeight ⟨tx, false⟩ = some weight ∧
          blob.length ≤ weight) := by
  obtain ⟨kept, hkept, hlength⟩ := blob_length_eq h hblob
  rw [getTransactionWeight_eq h hblob, getPrunedTransactionWeight_eq h hkept, ← hlength]
  refine ⟨rfl, fun hfits => ?_⟩
  obtain ⟨clawback, hclawback, hle⟩ := clawback_le (clog_le_four h.outputs.2) h.outputs.2
  have hroom : ¬ ¬ clawback ≤ uint64Max - blob.length := by
    unfold uint64Max
    omega
  refine ⟨blob.length + clawback, ?_, Nat.le_add_right _ _⟩
  rw [addClawback, hclawback, Option.bind_some, if_neg hroom]

/-- One input with a ring of two, three outputs and a proof that is padded to four. -/
def threeOutputs : Transaction :=
  { version := 2
    vin := [.toKey ⟨0, [3, 4], zeroKey⟩]
    vout := List.replicate 3 ⟨0, .toKey zeroKey⟩
    rctSignatures :=
      { type := .bulletproofPlus
        ecdhInfo := List.replicate 3 ⟨zeroKey, zeroKey⟩
        outPk := List.replicate 3 zeroKey
        p :=
          { bulletproofsPlus := [⟨zeroKey, zeroKey, zeroKey, zeroKey, zeroKey, zeroKey,
              List.replicate 8 zeroKey, List.replicate 8 zeroKey⟩]
            clsags := [⟨List.replicate 2 zeroKey, zeroKey, zeroKey⟩]
            pseudoOuts := [zeroKey] } } }

theorem aggregated_threeOutputs : Aggregated threeOutputs 2 where
  version := rfl
  type := .inr (.inr rfl)
  inputs := List.cons_ne_nil _ _
  rings := by
    intro txin htxin
    rw [List.mem_singleton.mp htxin]
    exact ⟨_, rfl, rfl⟩
  outputs := by decide
  proof :=
    { plus := fun _ => ⟨_, rfl, by decide, by decide⟩
      plain := fun h => absurd rfl h }

theorem pruned_weight_eq_three_outputs :
    getPrunedTransactionWeight ⟨withoutPrunable threeOutputs, true⟩ =
        getTransactionWeight ⟨threeOutputs, false⟩ ∧
      getTransactionWeight ⟨threeOutputs, false⟩ = some 1593 := by
  obtain ⟨blob, hblob⟩ := Option.isSome_iff_exists.mp
    (by decide +kernel : (txToBlob threeOutputs).isSome = true)
  exact ⟨(pruned_weight_eq aggregated_threeOutputs hblob).1, by decide +kernel⟩

end Oxyra.Wire
