import Oxyra.Core.TxInputs

/-!
# The stateless checks of a transaction (`cryptonote_core.cpp`)

`checkTxSemantic` is `core::check_tx_semantic`: everything that can be said of a
transaction without the chain, one test after the other in the order of the
source. The two tests on curve points are parameters.
-/

namespace Oxyra

variable {hfVersion : Nat} {tx : Transaction}

/-- The two tests of `check_tx_semantic` that are curve arithmetic. -/
structure KeyChecks where
  /-- `crypto::check_key` -/
  checkKey : PublicKey → Bool
  /-- `scalarmultKey(k_image, curveOrder()) == identity()` -/
  keyImageInDomain : KeyImage → Bool

/-- Every curve test passes. -/
def lenientKeyChecks : KeyChecks := ⟨fun _ => true, fun _ => true⟩

def checkInputsTypesSupported (tx : Transaction) : Bool :=
  tx.vin.all TxinV.isToKey

/-- `check_outs_valid`: every output has a valid key, and before ringct an amount. -/
def checkOutsValid (c : KeyChecks) (tx : Transaction) : Bool :=
  tx.vout.all fun o =>
    (getOutputPublicKey o).any fun key => (tx.version ≠ 1 || 0 < o.amount) && c.checkKey key

/-- The amounts of the inputs, as the loops over `txin_to_key` read them. -/
def inputAmounts (tx : Transaction) : List UInt64 :=
  tx.vin.filterMap fun
    | .toKey amount _ _ => some amount
    | _ => none

/-- `check_money_overflow`: neither side's amounts wrap. An input of another type
makes the first loop fail. -/
def checkMoneyOverflow (tx : Transaction) : Bool :=
  (tx.vin.all TxinV.isToKey && WordSum.addsWithoutWrap 0 (inputAmounts tx)) &&
    checkOutsOverflow tx

/-- `get_inputs_money_amount`, for inputs of the supported type. -/
def getInputsMoneyAmount (tx : Transaction) : UInt64 :=
  (inputAmounts tx).foldl (fun money amount => money + amount) 0

def checkTxInputsKeyimagesDiff (tx : Transaction) : Bool :=
  tx.vin.all TxinV.isToKey && tx.keyImages.Nodup

/-- The offsets of one input in `check_tx_inputs_ring_members_diff`: none but the
first is zero. -/
def offsetsDiff (keyOffsets : List UInt64) : Bool :=
  keyOffsets.tail.all fun off => off ≠ 0

def checkTxInputsRingMembersDiff (tx : Transaction) (hfVersion : Nat) : Bool :=
  if hfVersion ≥ 6 then
    tx.vin.all fun
      | .toKey _ keyOffsets _ => offsetsDiff keyOffsets
      | _ => false
  else true

def checkTxInputsKeyimagesDomain (c : KeyChecks) (tx : Transaction) : Bool :=
  tx.vin.all fun
    | .toKey _ _ image => c.keyImageInDomain image
    | _ => false

def checkTxSemantic (c : KeyChecks) (tx : Transaction) (hfVersion : Nat) : Bool :=
  tx.vin ≠ [] &&
  checkInputsTypesSupported tx &&
  checkOutsValid c tx &&
  (tx.version ≤ 1 || tx.rctSignatures.outPk.length = tx.vout.length) &&
  checkMoneyOverflow tx &&
  (tx.version ≠ 1 || getInputsMoneyAmount tx > getOutsMoneyAmount tx) &&
  checkTxInputsKeyimagesDiff tx &&
  checkTxInputsRingMembersDiff tx hfVersion &&
  checkTxInputsKeyimagesDomain c tx &&
  checkOutputTypes tx hfVersion

/-- The environment with `check_tx_semantic` in the place it has in
`ver_non_input_consensus`: what is left to decide are the outputs and ringct. -/
def Env.withSemantic (e : Env) (c : KeyChecks) : Env :=
  { e with verSemantics := fun tx hfVersion =>
      checkTxSemantic c tx hfVersion && e.verSemantics tx hfVersion }

theorem keyimagesDiff_of_semantic {c : KeyChecks} (h : checkTxSemantic c tx hfVersion = true) :
    checkTxInputsKeyimagesDiff tx = true := by
  simp only [checkTxSemantic, Bool.and_eq_true] at h
  exact h.1.1.1.2

theorem Env.keyimagesDiff_of_verified {e : Env} {c : KeyChecks}
    (h : (e.withSemantic c).verNonInputConsensus tx hfVersion = true) :
    checkTxInputsKeyimagesDiff tx = true := by
  simp only [Env.verNonInputConsensus, Env.withSemantic, Bool.and_eq_true] at h
  exact keyimagesDiff_of_semantic h.2.1

theorem offsetsDiff_of_semantic {c : KeyChecks} (h : checkTxSemantic c tx hfVersion = true)
    (hv : 6 ≤ hfVersion) {amount : UInt64} {keyOffsets : List UInt64} {image : KeyImage}
    (hin : TxinV.toKey amount keyOffsets image ∈ tx.vin) : offsetsDiff keyOffsets = true := by
  simp only [checkTxSemantic, Bool.and_eq_true] at h
  have hdiff : checkTxInputsRingMembersDiff tx hfVersion = true := h.1.1.2
  unfold checkTxInputsRingMembersDiff at hdiff
  rw [if_pos hv, List.all_eq_true] at hdiff
  exact hdiff _ hin

def relativeOutputOffsetsToAbsolute (keyOffsets : List UInt64) : List UInt64 :=
  absoluteOffsetsFrom 0 keyOffsets

/-- Every input names outputs that exist on the chain. -/
def InputsResolve (e : Env) (chain : Chain) (tx : Transaction) : Prop :=
  ∀ r ∈ toKeyInputs tx, (ringOutputs e chain r.1 r.2).isSome = true

instance (e : Env) (chain : Chain) (tx : Transaction) : Decidable (InputsResolve e chain tx) :=
  inferInstanceAs (Decidable (∀ r ∈ toKeyInputs tx, (ringOutputs e chain r.1 r.2).isSome = true))

end Oxyra
