import Oxyra.Core.Serialization

/-!
# Canonical encodings

Whether an accepted blob is the only one for what it is parsed as.

* Blocks: `read_varint` takes the end of the blob for the end of a number, so a
  block may be accepted without its last bytes. It is written back as the same
  bytes exactly where no number is cut off.
* Transactions that spend: the last thing in every layout is a key or a signature,
  which has to be there, so no number before can have been cut off.
-/

namespace Oxyra.Wire

open Codec

/-! ## Blocks -/

/-- No number of the blob is cut off by its end: the block can also be read where
`read_varint` does not take the end of the input for the end of a number. -/
def NumbersEnd (blob : List UInt8) : Prop :=
  (block.read .strict blob).isSome = true

instance (blob : List UInt8) : Decidable (NumbersEnd blob) :=
  inferInstanceAs (Decidable (_ = true))

/-- **Accepted blocks.** A block is written back as the bytes it was parsed from
exactly if no number of them is cut off. Of such blobs there is only one for each
block, and every other accepted blob has one beside it. -/
theorem block_written_back_iff {blob : List UInt8} {b : Block}
    (h : parseAndValidateBlockFromBlob blob = some b) :
    (blockToBlob b = some blob ↔ NumbersEnd blob) ∧
      (∀ blob', parseAndValidateBlockFromBlob blob' = some b →
        NumbersEnd blob → NumbersEnd blob' → blob' = blob) ∧
      (¬ NumbersEnd blob →
        ∃ blob', blob' ≠ blob ∧ parseAndValidateBlockFromBlob blob' = some b) := by
  have hread := parse_eq_some.mp h
  refine ⟨canonical_iff hread, fun blob' h' hend hend' => ?_, fun hcut => ?_⟩
  · have hw := (canonical_iff hread).mpr hend
    have hw' := (canonical_iff (parse_eq_some.mp h')).mpr hend'
    rw [hw] at hw'
    exact (Option.some.inj hw').symm
  · obtain ⟨blob', hne, hread'⟩ := another_of_cut hread (Bool.eq_false_iff.mpr hcut)
    exact ⟨blob', hne, parse_eq_some.mpr (block.relax hread')⟩

/-- A version 1 block on the null hash whose coinbase has one input and no output,
up to the number of its transactions. -/
def cutBlob : List UInt8 :=
  [1, 0, 0] ++ List.replicate 32 0 ++ [0, 0, 0, 0] ++ [1, 0, 1, 0xff, 0, 0, 0]

theorem block_written_back_complete :
    ∃ b, parseAndValidateBlockFromBlob (cutBlob ++ [0]) = some b ∧
      blockToBlob b = some (cutBlob ++ [0]) := by
  obtain ⟨b, h⟩ := Option.isSome_iff_exists.mp
    (by decide +kernel : (parseAndValidateBlockFromBlob (cutBlob ++ [0])).isSome = true)
  exact ⟨b, h, (block_written_back_iff h).1.mpr (by decide +kernel)⟩

/-- Without the byte for the number of its transactions the block is accepted as
well, as the same block. -/
theorem cut_block_accepted :
    (parseAndValidateBlockFromBlob cutBlob).isSome = true ∧
      parseAndValidateBlockFromBlob cutBlob = parseAndValidateBlockFromBlob (cutBlob ++ [0]) ∧
      (parseAndValidateBlockFromBlob cutBlob).bind blockToBlob = some (cutBlob ++ [0]) := by
  decide +kernel

/-! ## Transactions -/

section Prunable

variable {type : RctType} {inputs outputs mixin : Nat}

theorem firm_clsag : (clsag mixin).Firm :=
  (firm_seq (firm_seq firm_key)).map

theorem sealed_clsag : (clsag mixin).Sealed :=
  ((sealed_key.vec _).seq (sealed_key.seq sealed_key)).map

theorem firm_mgSig : (mgSig type inputs mixin).Firm :=
  (firm_seq firm_key).map

theorem sealed_mgSig : (mgSig type inputs mixin).Sealed :=
  (((sealed_key.vec _).vec _).seq sealed_key).map

theorem sealed_rangeSig : rangeSig.Sealed :=
  ((sealed_blob _).seq (sealed_blob _)).map

theorem sealed_clsagsField : (clsagsField type inputs mixin).Sealed := by
  unfold clsagsField
  split
  · exact sealed_clsag.vec _
  · exact sealed_const _

theorem sealed_mgsField : (mgsField type inputs mixin).Sealed := by
  unfold mgsField
  split
  · exact sealed_const _
  · exact sealed_mgSig.vec _

theorem sealed_pseudoOutsField : (pseudoOutsField type inputs).Sealed := by
  unfold pseudoOutsField
  split
  · exact sealed_key.vec _
  · exact sealed_const _

theorem sealed_rangeSigsField : (rangeSigsField type outputs).Sealed := by
  unfold rangeSigsField
  split
  · exact sealed_rangeSig.vec _
  · exact sealed_const _

theorem sealed_prunableSignatures : (prunableSignatures type inputs mixin).Sealed :=
  sealed_clsagsField.seq (sealed_mgsField.seq sealed_pseudoOutsField)

theorem firm_prunableSignatures (hin : 0 < inputs) :
    (prunableSignatures type inputs mixin).Firm := by
  unfold prunableSignatures
  by_cases h : type = .clsag ∨ type = .bulletproofPlus
  · refine Firm.bind ?_
    rw [clsagsField, if_pos h]
    exact firm_clsag.vec hin
  · refine firm_seq (Firm.bind ?_)
    rw [mgsField, if_neg h]
    exact firm_mgSig.vec (by split <;> omega)

theorem serializeRctsigPrunable_closed (hin : 0 < inputs) (htype : type ≠ .null) :
    (serializeRctsigPrunable type inputs outputs mixin).Firm ∧
      (serializeRctsigPrunable type inputs outputs mixin).Sealed := by
  have hfirm : ((rangeSigsField type outputs).seq (prunableSignatures type inputs mixin)).Firm :=
    firm_seq (firm_prunableSignatures hin)
  have hsealed : ((rangeSigsField type outputs).seq
      (prunableSignatures type inputs mixin)).Sealed :=
    sealed_rangeSigsField.seq sealed_prunableSignatures
  rw [serializeRctsigPrunable, if_neg htype]
  split
  · exact ⟨firm_fail, sealed_fail⟩
  · exact ⟨(firm_seq (firm_seq hfirm)).map,
      (sealed_seq (firm_seq hfirm) (sealed_seq hfirm hsealed)).map⟩

end Prunable

theorem serializeRctsigBase_null {inputs outputs : Nat} {bs rest : List UInt8} {base : RctSigBase}
    (hread : (serializeRctsigBase inputs outputs).read .lenient bs = some (base, rest))
    (hnull : base.type = .null) :
    (serializeRctsigBase inputs outputs).read .strict bs = some (base, rest) := by
  obtain ⟨p, hp, rfl⟩ := map_read.mp hread
  obtain ⟨mid, htype, hfields⟩ := bind_read.mp hp
  refine map_read.mpr ⟨p, bind_read.mpr ⟨mid, sealed_tagged htype, ?_⟩, rfl⟩
  have hnull : p.1 = .null := hnull
  have hsealed : (rctsigBaseFields p.1 inputs outputs).Sealed := by
    rw [rctsigBaseFields, if_pos hnull]
    exact sealed_const _
  exact hsealed hfields

theorem serializeRctSignatures_closed {vin : List TxinV} {vout : List TxOut} (hvin : vin ≠ []) :
    (serializeRctSignatures vin vout).Firm ∧ (serializeRctSignatures vin vout).Sealed := by
  rw [serializeRctSignatures, if_neg hvin]
  refine ⟨(Firm.bind (firm_tagged.bind).map).map, Sealed.map ?_⟩
  intro bs p rest hread
  by_cases hnull : p.1.type = .null
  · obtain ⟨mid, hbase, hp⟩ := bind_read.mp hread
    have hsealed : (rctPrunable vin vout p.1.type).Sealed := by
      rw [rctPrunable, if_pos hnull]
      exact sealed_const _
    exact bind_read.mpr ⟨mid, serializeRctsigBase_null hbase hnull, hsealed hp⟩
  · have hclosed : (rctPrunable vin vout p.1.type).Firm ∧
        (rctPrunable vin vout p.1.type).Sealed := by
      rw [rctPrunable, if_neg hnull]
      exact serializeRctsigPrunable_closed (List.length_pos_iff.mpr hvin) hnull
    exact bind_strict_of_firm hread hclosed.1 hclosed.2

theorem serializeSignatures_closed {vin : List TxinV} {txin : TxinV} (htxin : txin ∈ vin)
    (hsize : 0 < getSignatureSize txin) :
    (serializeSignatures vin).Firm ∧ (serializeSignatures vin).Sealed := by
  have hfirm : (ringSignatures vin).Firm :=
    firm_each (List.mem_map_of_mem htxin) ((firm_blob (by decide)).vec hsize)
  have hsealed : (ringSignatures vin).Sealed := by
    refine sealed_each fun c hc => ?_
    obtain ⟨txin, -, rfl⟩ := List.mem_map.mp hc
    exact (sealed_blob 64).vec _
  exact ⟨hfirm, hsealed⟩

/-- Every input spends an output, with at least one ring member. -/
def SpendsOnly (vin : List TxinV) : Prop :=
  ∀ txin ∈ vin, ∃ key, txin = .toKey key ∧ key.keyOffsets ≠ []

theorem transactionTail_closed {tx : TransactionPrefix} (hvin : tx.vin ≠ [])
    (hspends : SpendsOnly tx.vin) :
    (transactionTail tx).Firm ∧ (transactionTail tx).Sealed := by
  unfold transactionTail
  split
  · obtain ⟨txin, htxin⟩ := List.exists_mem_of_ne_nil _ hvin
    obtain ⟨key, rfl, hkey⟩ := hspends txin htxin
    obtain ⟨hfirm, hsealed⟩ := serializeSignatures_closed htxin (List.length_pos_iff.mpr hkey)
    exact ⟨hfirm.map, hsealed.map⟩
  · obtain ⟨hfirm, hsealed⟩ := serializeRctSignatures_closed hvin
    exact ⟨hfirm.map, hsealed.map⟩

/-- **Accepted transactions.** A transaction that has inputs, all of which spend,
is written back as the bytes it was parsed from. -/
theorem tx_written_back {blob : List UInt8} {tx : Transaction}
    (h : parseAndValidateTxFromBlob blob = some tx) (hvin : tx.vin ≠ [])
    (hspends : SpendsOnly tx.vin) :
    txToBlob tx = some blob := by
  have hparse : parse transaction blob = some tx := (Option.filter_eq_some_iff.mp h).1
  have hread := parse_eq_some.mp hparse
  obtain ⟨⟨pre, tail⟩, hp, rfl⟩ := map_read.mp hread
  obtain ⟨hfirm, hsealed⟩ := transactionTail_closed hvin hspends
  have hstrict : transaction.read .strict blob = some (_, []) :=
    map_read.mpr ⟨⟨pre, tail⟩, bind_strict_of_firm hp hfirm hsealed, rfl⟩
  exact (canonical_iff hread).mpr (Option.isSome_iff_exists.mpr ⟨_, hstrict⟩)

/-- A version 1 transaction with one input, one ring member and no output. -/
def spendBlob : List UInt8 :=
  [1, 0, 1, 2, 0, 1, 0] ++ List.replicate 32 7 ++ [0, 0] ++ List.replicate 64 9

theorem tx_written_back_spend :
    ∃ tx, parseAndValidateTxFromBlob spendBlob = some tx ∧ txToBlob tx = some spendBlob := by
  have hvin : (parseAndValidateTxFromBlob spendBlob).map (fun tx => tx.vin) =
      some [.toKey ⟨0, [0], ⟨List.replicate 32 7, rfl⟩⟩] := by
    decide +kernel
  obtain ⟨tx, h, hvin⟩ := Option.map_eq_some_iff.mp hvin
  refine ⟨tx, h, tx_written_back h ?_ ?_⟩
  · rw [hvin]
    exact List.cons_ne_nil _ _
  · rw [hvin]
    intro txin htxin
    rw [List.mem_singleton.mp htxin]
    exact ⟨_, rfl, List.cons_ne_nil _ _⟩

end Oxyra.Wire
