import Oxyra.Core.TxHash

/-!
# Pruning keeps the transaction id

A parsed version 2 transaction with inputs is written in three parts, each of which is read
back whatever follows (`Parts`). So its unprunable part can be parsed on its own, and the
parts that both hash functions look at are the same bytes (`pruned_hash_eq`), as long as the
sizes fit into the 32 bits in which they are kept.
-/

namespace Oxyra.Wire

open Codec

variable {cnFastHash : List UInt8 → Key} {tx : Transaction}

/-- The three parts of a version 2 transaction, as they are written. -/
structure Parts (tx : Transaction) (pre base prunable : List UInt8) : Prop where
  version : ¬ tx.version = 1
  inputs : tx.vin ≠ []
  pre : Encodes transactionPrefix.read transactionPrefix.write tx.toTransactionPrefix pre
  base : Encodes (serializeRctsigBase tx.vin.length tx.vout.length).read
    (serializeRctsigBase tx.vin.length tx.vout.length).write tx.rctSignatures.toRctSigBase base
  prunable : Encodes (rctPrunable tx.vin tx.vout tx.rctSignatures.type).read
    (rctPrunable tx.vin tx.vout tx.rctSignatures.type).write tx.rctSignatures.p prunable

def withoutPrunable (tx : Transaction) : Transaction :=
  { toTransactionPrefix := tx.toTransactionPrefix
    rctSignatures := { toRctSigBase := tx.rctSignatures.toRctSigBase } }

theorem parts_of_parse {blob : List UInt8} (h : parseAndValidateTxFromBlob blob = some tx)
    (hversion : ¬ tx.version = 1) (hvin : tx.vin ≠ []) :
    ∃ pre base prunable, Parts tx pre base prunable := by
  have hparse : parse transaction blob = some tx := (Option.filter_eq_some_iff.mp h).1
  obtain ⟨⟨prefix', tail⟩, hp, rfl⟩ := map_read.mp (parse_eq_some.mp hparse)
  obtain ⟨mid, hpre, htail⟩ := bind_read.mp hp
  rw [transactionTail, if_neg hversion] at htail
  obtain ⟨rct, hrct, rfl⟩ := map_read.mp htail
  rw [serializeRctSignatures, if_neg hvin] at hrct
  obtain ⟨⟨base, p⟩, hparts, rfl⟩ := map_read.mp hrct
  obtain ⟨mid', hbase, hprunable⟩ := bind_read.mp hparts
  obtain ⟨preEnc, hpreEnc⟩ := encodes_of_read hpre
  obtain ⟨baseEnc, hbaseEnc⟩ := encodes_of_read hbase
  obtain ⟨prunableEnc, hprunableEnc⟩ := encodes_of_read hprunable
  exact ⟨preEnc, baseEnc, prunableEnc, hversion, hvin, hpreEnc, hbaseEnc, hprunableEnc⟩

theorem sizes_of_fit {pre base : List UInt8}
    (hsize : (pre ++ base).length < 2 ^ 32) :
    (UInt32.ofNat pre.length).toNat = pre.length ∧
      (UInt32.ofNat (pre ++ base).length).toNat = (pre ++ base).length ∧
      UInt32.ofNat pre.length ≤ UInt32.ofNat (pre ++ base).length ∧
      (UInt32.ofNat (pre ++ base).length - UInt32.ofNat pre.length).toNat = base.length := by
  have hlength : (pre ++ base).length = pre.length + base.length := List.length_append
  have hpre : (UInt32.ofNat pre.length).toNat = pre.length :=
    UInt32.toNat_ofNat_of_lt' (show pre.length < UInt32.size by simp [UInt32.size]; omega)
  have hboth : (UInt32.ofNat (pre ++ base).length).toNat = (pre ++ base).length :=
    UInt32.toNat_ofNat_of_lt' (show (pre ++ base).length < UInt32.size by simp [UInt32.size]; omega)
  have hle : UInt32.ofNat pre.length ≤ UInt32.ofNat (pre ++ base).length := by
    rw [UInt32.le_iff_toNat_le, hpre, hboth]
    omega
  refine ⟨hpre, hboth, hle, ?_⟩
  rw [UInt32.toNat_sub_of_le _ _ hle, hpre, hboth]
  omega

section Parts

variable {pre base prunable : List UInt8} (h : Parts tx pre base prunable)
include h

theorem Parts.serialized :
    serializeTransaction tx = some ⟨pre ++ (base ++ prunable), UInt32.ofNat pre.length,
      UInt32.ofNat (pre ++ base).length⟩ := by
  rw [serializeTransaction, h.pre.written, Option.bind_some, if_neg h.version, if_neg h.inputs,
    h.base.written, Option.bind_some, h.prunable.written, Option.map_some]

theorem Parts.read_base (rest : List UInt8) :
    transactionBase.read .lenient (pre ++ base ++ rest) = some (withoutPrunable tx, rest) := by
  refine transactionBase.relax (map_read.mpr ⟨⟨tx.toTransactionPrefix, _⟩, bind_read.mpr
    ⟨base ++ rest, ?_, ?_⟩, rfl⟩)
  · rw [List.append_assoc]
    exact h.pre.readBack _
  · have hneg : ¬ (tx.version = 1 ∨ tx.vin = []) := not_or.mpr ⟨h.version, h.inputs⟩
    rw [rctBase, if_neg hneg]
    exact h.base.readBack _

theorem Parts.prunableHash (hsize : (pre ++ base).length < 2 ^ 32)
    (htype : tx.rctSignatures.type ≠ .null) {blob : Option (List UInt8)}
    (hblob : ∀ b ∈ blob, txToBlob tx = some b) :
    calculateTransactionPrunableHash cnFastHash tx (UInt32.ofNat (pre ++ base).length) blob =
      some (cnFastHash prunable) := by
  have hwritten : hashOfPrunable cnFastHash tx = some (cnFastHash prunable) := by
    have hw := h.prunable.written
    rw [rctPrunable, if_neg htype] at hw
    rw [hashOfPrunable, hw, Option.map_some]
  unfold calculateTransactionPrunableHash
  rw [if_neg h.version]
  cases blob with
  | none => exact hwritten
  | some b =>
    obtain ⟨-, hboth, -⟩ := sizes_of_fit hsize
    have hb : b = pre ++ (base ++ prunable) := by
      have hfull := serializeTransaction_blob tx
      rw [h.serialized, hblob b rfl] at hfull
      exact (Option.some.inj hfull).symm
    dsimp only
    split
    · rw [hboth, if_pos (by rw [hb]; simp), hb, ← List.append_assoc, List.drop_left]
    · exact hwritten

end Parts

def unprunablePart (tx : Transaction) : Option (List UInt8) :=
  (transactionPrefix.write tx.toTransactionPrefix).bind fun pre =>
    ((serializeRctsigBase tx.vin.length tx.vout.length).write
      tx.rctSignatures.toRctSigBase).map fun base => pre ++ base

theorem Parts.unprunable {pre base prunable : List UInt8} (h : Parts tx pre base prunable) :
    unprunablePart tx = some (pre ++ base) := by
  rw [unprunablePart, h.pre.written, Option.bind_some, h.base.written, Option.map_some]

theorem expandTransactionBase_of_expand (h : expandTransaction1 tx = true) :
    expandTransactionBase (withoutPrunable tx) = true := by
  have hcoinbase : isCoinbase (withoutPrunable tx) = isCoinbase tx := rfl
  unfold expandTransaction1 at h
  unfold expandTransactionBase
  rw [hcoinbase]
  split
  · rename_i hcond
    rw [withoutPrunable] at hcond ⊢
    rw [if_pos hcond] at h
    simp only [Bool.and_eq_true] at h ⊢
    exact h.1
  · rfl

section Ids

variable {pre base prunable : List UInt8} (h : Parts tx pre base prunable)
include h

theorem Parts.calculate (hsize : (pre ++ base).length < 2 ^ 32) :
    calculateTransactionHash cnFastHash tx =
      some (hashOfHashes cnFastHash (cnFastHash pre) (cnFastHash base)
        (if tx.rctSignatures.type = .null then zeroKey else cnFastHash prunable)) := by
  obtain ⟨hpre, hboth, hle, hdiff⟩ := sizes_of_fit hsize
  have hslice : ((pre ++ (base ++ prunable)).drop (UInt32.ofNat pre.length).toNat).take
      (UInt32.ofNat (pre ++ base).length - UInt32.ofNat pre.length).toNat = base := by
    rw [hpre, hdiff, List.drop_left, List.take_left]
  have hfits : UInt32.ofNat pre.length ≤ UInt32.ofNat (pre ++ base).length ∧
      (UInt32.ofNat (pre ++ base).length).toNat ≤ (pre ++ (base ++ prunable)).length :=
    ⟨hle, by rw [hboth]; simp⟩
  have hblob : ∀ b ∈ some (pre ++ (base ++ prunable)), txToBlob tx = some b := by
    rintro b ⟨⟩
    rw [← serializeTransaction_blob, h.serialized]
    rfl
  rw [calculateTransactionHash, if_neg h.version, getTransactionPrefixHash, h.pre.written,
    Option.map_some, Option.bind_some, h.serialized, Option.bind_some]
  rw [if_pos hfits, hslice]
  split
  · rfl
  · rename_i htype
    rw [h.prunableHash hsize htype hblob, Option.map_some]

theorem Parts.pruned (hversion : tx.version = 2) (prunableHash : Key) :
    getPrunedTransactionHash cnFastHash (withoutPrunable tx) prunableHash =
      some (hashOfHashes cnFastHash (cnFastHash pre) (cnFastHash base)
        (if tx.rctSignatures.type = .null then zeroKey else prunableHash)) := by
  have hnot : ¬ tx.version ≤ 1 := by
    rw [hversion]
    decide
  rw [getPrunedTransactionHash, withoutPrunable, if_neg hnot, getTransactionPrefixHash,
    h.pre.written, Option.map_some, Option.bind_some, h.base.written, Option.map_some]

end Ids

/-- **Pruning keeps the id.** For a parsed version 2 transaction with inputs, whose
unprunable part is shorter than `2 ^ 32` bytes: that part of its blob can be parsed on its
own, and together with the hash of the prunable part it gives the id of the whole. -/
theorem pruned_hash_eq {blob : List UInt8} (h : parseAndValidateTxFromBlob blob = some tx)
    (hversion : tx.version = 2) (hvin : tx.vin ≠ [])
    (hsize : ∀ part ∈ unprunablePart tx, part.length < 2 ^ 32) :
    ∃ s base id, serializeTransaction tx = some s ∧ txToBlob tx = some s.blob ∧
      parseAndValidateTxBaseFromBlob (s.blob.take s.unprunableSize.toNat) = some base ∧
      calculateTransactionHash cnFastHash tx = some id ∧
      ∀ whole prunableHash, (∀ b ∈ whole, b = s.blob) →
        calculateTransactionPrunableHash cnFastHash tx s.unprunableSize whole = some prunableHash →
        getPrunedTransactionHash cnFastHash base prunableHash = some id := by
  have hne : ¬ tx.version = 1 := by
    rw [hversion]
    decide
  obtain ⟨pre, base, prunable, hparts⟩ := parts_of_parse h hne hvin
  have hfit : (pre ++ base).length < 2 ^ 32 := hsize _ hparts.unprunable
  obtain ⟨-, hboth, -⟩ := sizes_of_fit hfit
  have hblob : txToBlob tx = some (pre ++ (base ++ prunable)) := by
    rw [← serializeTransaction_blob, hparts.serialized]
    rfl
  have hkept : (pre ++ (base ++ prunable)).take (UInt32.ofNat (pre ++ base).length).toNat =
      pre ++ base := by
    rw [hboth, ← List.append_assoc, List.take_left]
  refine ⟨_, withoutPrunable tx, _, hparts.serialized, hblob, ?_, hparts.calculate hfit, ?_⟩
  · have hread := hparts.read_base []
    rw [List.append_nil] at hread
    rw [parseAndValidateTxBaseFromBlob, hkept, hread, Option.map_some]
    exact Option.filter_eq_some_iff.mpr
      ⟨rfl, expandTransactionBase_of_expand (Option.filter_eq_some_iff.mp h).2⟩
  · intro whole prunableHash hwhole hprunable
    rw [hparts.pruned hversion]
    split
    · rfl
    · rename_i htype
      have hall : ∀ b ∈ whole, txToBlob tx = some b := by
        intro b hb
        rw [hwhole b hb]
        exact hblob
      rw [hparts.prunableHash hfit htype hall] at hprunable
      rw [Option.some.inj hprunable]

/-- A version 2 transaction of the full type with one input, one ring member and no output. -/
def fullBlob : List UInt8 :=
  [2, 0, 1, 2, 0, 1, 0] ++ List.replicate 32 7 ++ [0, 0] ++ [1, 5] ++ List.replicate 96 9

def firstBytes (bs : List UInt8) : Key :=
  ⟨(bs ++ List.replicate 32 0).take 32, by simp⟩

theorem pruned_hash_eq_full :
    ∃ tx s base, parseAndValidateTxFromBlob fullBlob = some tx ∧
      serializeTransaction tx = some s ∧ s.unprunableSize = 43 ∧
      parseAndValidateTxBaseFromBlob (s.blob.take s.unprunableSize.toNat) = some base ∧
      getPrunedTransactionHash firstBytes base (firstBytes (List.replicate 96 9)) =
        calculateTransactionHash firstBytes tx := by
  obtain ⟨tx, h⟩ := Option.isSome_iff_exists.mp
    (by decide +kernel : (parseAndValidateTxFromBlob fullBlob).isSome = true)
  have hversion : (parseAndValidateTxFromBlob fullBlob).map (fun tx => tx.version) = some 2 := by
    decide +kernel
  have hvin : (parseAndValidateTxFromBlob fullBlob).map (fun tx => tx.vin.length) = some 1 := by
    decide +kernel
  have hpart : ((parseAndValidateTxFromBlob fullBlob).bind unprunablePart).map List.length =
      some 43 := by
    decide +kernel
  have hsizes : ((parseAndValidateTxFromBlob fullBlob).bind serializeTransaction).map
      Serialized.unprunableSize = some 43 := by
    decide +kernel
  have hprunable : (parseAndValidateTxFromBlob fullBlob).bind
      (calculateTransactionPrunableHash firstBytes · 43 none) =
        some (firstBytes (List.replicate 96 9)) := by
    decide +kernel
  rw [h, Option.map_some, Option.some_inj] at hversion hvin
  rw [h, Option.bind_some] at hpart hsizes hprunable
  obtain ⟨s, base, id, hs, -, hbase, hid, hpruned⟩ :=
    @pruned_hash_eq firstBytes tx fullBlob h hversion
      (fun hnil => absurd (hnil ▸ hvin) (by decide)) fun part hmem => by
        rw [Option.mem_def.mp hmem, Option.map_some, Option.some_inj] at hpart
        rw [hpart]
        decide
  rw [hs, Option.map_some, Option.some_inj] at hsizes
  refine ⟨tx, s, base, h, hs, hsizes, hbase, ?_⟩
  rw [hid]
  exact hpruned none _ (fun b hb => by cases hb) (by rw [hsizes]; exact hprunable)

def padded (n : Nat) : Transaction :=
  { version := 2
    vin := [.toKey ⟨0, [0], ⟨List.replicate 32 7, rfl⟩⟩]
    extra := List.replicate n 0 }

def paddedHead : List UInt8 :=
  [2, 0, 1, 2, 0, 1, 0] ++ List.replicate 32 7 ++ [0]

theorem encodes_padded {n : Nat} (hn : n < 2 ^ 64) :
    Encodes transactionPrefix.read transactionPrefix.write (padded n).toTransactionPrefix
      (paddedHead ++ (writeVarint n ++ List.replicate n 0)) := by
  have hextra : Encodes bytes.read bytes.write (padded n).extra
      (writeVarint n ++ List.replicate n 0) := by
    have h := encodes_array_byte (l := List.replicate n 0) (by simpa using hn)
    rwa [List.length_replicate] at h
  have hversion : (varint64.check fun version => !(version = 0 || 2 < version)).read .strict [2] =
      some (2, []) := by
    decide +kernel
  have htime : varint64.read .strict [0] = some (0, []) := by decide +kernel
  have hvin : (array txinV takes_txinV).read .strict ([1, 2, 0, 1, 0] ++ List.replicate 32 7) =
      some ((padded 0).vin, []) := by
    decide +kernel
  have hvout : (array txOut takes_txOut).read .strict [0] = some ([], []) := by decide +kernel
  have hrest := (encodes_of_strict htime).seq ((encodes_of_strict hvin).seq
    ((encodes_of_strict hvout).seq hextra))
  have henc : Encodes transactionPrefix.read transactionPrefix.write
      (padded n).toTransactionPrefix _ :=
    ((encodes_of_strict hversion).seq hrest).map
  have hbytes : paddedHead ++ (writeVarint n ++ List.replicate n 0) =
      [2] ++ ([0] ++ (([1, 2, 0, 1, 0] ++ List.replicate 32 7) ++
        ([0] ++ (writeVarint n ++ List.replicate n 0)))) := rfl
  rw [hbytes]
  exact henc

theorem parts_padded {n : Nat} (hn : n < 2 ^ 64) :
    Parts (padded n) (paddedHead ++ (writeVarint n ++ List.replicate n 0)) [0] [] where
  version := by
    show ¬ (2 : UInt64) = 1
    decide
  inputs := List.cons_ne_nil _ _
  pre := encodes_padded hn
  base := by
    refine encodes_of_strict ?_
    show (serializeRctsigBase 1 0).read .strict [0] = some ({}, [])
    decide +kernel
  prunable := by
    refine encodes_of_strict ?_
    show (rctPrunable _ [] .null).read .strict [] = some ({}, [])
    rfl

theorem parse_padded {n : Nat} (hn : n < 2 ^ 64) :
    parseAndValidateTxFromBlob
      (paddedHead ++ (writeVarint n ++ List.replicate n 0) ++ ([0] ++ [])) = some (padded n) := by
  have hparts := parts_padded hn
  refine Option.filter_eq_some_iff.mpr ⟨parse_eq_some.mpr (transaction.relax ?_), rfl⟩
  refine map_read.mpr ⟨⟨(padded n).toTransactionPrefix, [], {}⟩, bind_read.mpr
    ⟨[0] ++ [], hparts.pre.readBack _, ?_⟩, rfl⟩
  show (transactionTail (padded n).toTransactionPrefix).read .strict ([0] ++ []) = _
  rw [transactionTail, if_neg hparts.version]
  refine map_read.mpr ⟨{}, ?_, rfl⟩
  rw [serializeRctSignatures, if_neg hparts.inputs]
  exact map_read.mpr ⟨⟨{}, {}⟩, bind_read.mpr ⟨[], hparts.base.readBack _, rfl⟩, rfl⟩

/-- **A part of 4 GiB.** Its size is recorded modulo `2 ^ 32`, and the first bytes of the blob
up to that size are no transaction. -/
theorem unprunable_size_wraps :
    ∃ blob tx s, parseAndValidateTxFromBlob blob = some tx ∧ tx.version = 2 ∧
      tx.vin = [.toKey ⟨0, [0], ⟨List.replicate 32 7, rfl⟩⟩] ∧ serializeTransaction tx = some s ∧
      s.blob = blob ∧ s.unprunableSize = 46 ∧
      parseAndValidateTxBaseFromBlob (s.blob.take s.unprunableSize.toNat) = none := by
  have hparts := parts_padded (n := 2 ^ 32) (by decide)
  have hvarint : writeVarint (2 ^ 32) = [0x80, 0x80, 0x80, 0x80, 0x10] := by
    rw [writeVarint_of_le (by decide), writeVarint_of_le (by decide), writeVarint_of_le (by decide),
      writeVarint_of_le (by decide), writeVarint_of_lt (by decide)]
    rfl
  have hsize : UInt32.ofNat
      (paddedHead ++ (writeVarint (2 ^ 32) ++ List.replicate (2 ^ 32) 0) ++ [0]).length = 46 := by
    rw [List.length_append, List.length_append, List.length_append, List.length_replicate, hvarint]
    rfl
  have htake : (paddedHead ++ (writeVarint (2 ^ 32) ++ List.replicate (2 ^ 32) 0) ++
      ([0] ++ [])).take 46 = paddedHead ++ [0x80, 0x80, 0x80, 0x80, 0x10, 0] := by
    have hzero : List.replicate (2 ^ 32) (0 : UInt8) = 0 :: List.replicate (2 ^ 32 - 1) 0 :=
      List.replicate_succ
    have hsplit : paddedHead ++ (writeVarint (2 ^ 32) ++ List.replicate (2 ^ 32) 0) ++
        ([0] ++ []) = (paddedHead ++ [0x80, 0x80, 0x80, 0x80, 0x10, 0]) ++
          (List.replicate (2 ^ 32 - 1) 0 ++ [0]) := by
      rw [hvarint, hzero]
      simp only [List.append_assoc, List.cons_append, List.nil_append]
    rw [hsplit]
    exact List.take_left' rfl
  refine ⟨_, padded (2 ^ 32), _, parse_padded (by decide), rfl, rfl,
    hparts.serialized, rfl, hsize, ?_⟩
  show parseAndValidateTxBaseFromBlob (List.take (UInt32.ofNat _).toNat _) = none
  rw [hsize]
  refine (congrArg parseAndValidateTxBaseFromBlob htake).trans ?_
  decide +kernel

end Oxyra.Wire
