import Oxyra.Core.Db

/-!
# Times, locks and transaction inputs (`blockchain.cpp`)

* `checkBlockTimestamp` and `getAdjustedTime` are the two uses of the window of
  timestamps, `isTxSpendtimeUnlocked` the rule for locked outputs.
* `checkTxInputs` is the input check as far as it is not cryptography: the ring
  size rules of each version, the key images, the outputs a ring names and
  their locks. The signatures themselves are the environment's.

All of it is a function of the chain, the version and the clock.
-/

namespace Oxyra

/-! ## Time -/

/-- The timestamps of the last `timestampCheckWindow` blocks, oldest first. -/
def recentTimestamps (chain : Chain) : List Nat :=
  (chain.drop (chain.length - timestampCheckWindow)).map fun sb => sb.bl.timestamp

/-- `check_block_timestamp(timestamps, b)` -/
def checkTimestampMedian (timestamps : List Nat) (b : Block) : Bool :=
  median timestamps ≤ b.timestamp

/-- `check_block_timestamp(b)` -/
def checkBlockTimestamp (now : Nat) (chain : Chain) (b : Block) : Bool :=
  if b.timestamp > now + blockFutureTimeLimit then false
  else if chain.length < timestampCheckWindow then true
  else checkTimestampMedian (recentTimestamps chain) b

/-- `get_adjusted_time(height)` at the top of the chain. The median sorts the
vector in place, so the "last" timestamp it then reads is the largest. -/
def getAdjustedTime (now : Nat) (chain : Chain) : Nat :=
  if chain.length < timestampCheckWindow then now
  else
    let timestamps := recentTimestamps chain
    let medianTs := median timestamps + (timestampCheckWindow + 1) * difficultyTargetV2 / 2
    let adjustedCurrentBlockTs :=
      (timestamps.insertionSort (· ≤ ·)).getLastD 0 + difficultyTargetV2
    min adjustedCurrentBlockTs medianTs

/-- The timestamps of the `timestampCheckWindow` blocks below `height`, oldest first. -/
def timestampsBelow (chain : Chain) (height : Nat) : List Nat :=
  ((chain.take height).drop (height - timestampCheckWindow)).map fun sb => sb.bl.timestamp

/-- `get_adjusted_time(height)`. A height above the chain's throws. -/
def getAdjustedTimeAt (now : Nat) (chain : Chain) (height : Nat) : Option Nat :=
  if height < timestampCheckWindow then some now
  else if height > chain.length then none
  else
    let timestamps := timestampsBelow chain height
    let medianTs := median timestamps + (timestampCheckWindow + 1) * difficultyTargetV2 / 2
    -- `median` has sorted the vector
    let adjustedCurrentBlockTs :=
      (timestamps.insertionSort (· ≤ ·)).getLastD 0 + difficultyTargetV2
    some (if adjustedCurrentBlockTs < medianTs then adjustedCurrentBlockTs else medianTs)

theorem timestampsBelow_length (chain : Chain) :
    timestampsBelow chain chain.length = recentTimestamps chain := by
  rw [timestampsBelow, List.take_length, recentTimestamps]

/-- At the top of the chain the two agree, and nothing is thrown. -/
theorem getAdjustedTimeAt_length (now : Nat) (chain : Chain) :
    getAdjustedTimeAt now chain chain.length = some (getAdjustedTime now chain) := by
  unfold getAdjustedTimeAt getAdjustedTime
  rw [timestampsBelow_length]
  by_cases hlow : chain.length < timestampCheckWindow
  · rw [if_pos hlow, if_pos hlow]
  · rw [if_neg hlow, if_neg hlow, if_neg (Nat.lt_irrefl _)]
    dsimp only
    congr 1
    split <;> omega

def lockedTxAllowedDeltaBlocks : Nat := 1

def isTxSpendtimeUnlocked (now : Nat) (chain : Chain) (hfVersion unlockTime : Nat) : Bool :=
  if unlockTime < maxBlockNumber then
    chain.length - 1 + lockedTxAllowedDeltaBlocks ≥ unlockTime
  else
    let currentTime :=
      if hfVersion ≥ hfDeterministicUnlockTime then getAdjustedTime now chain else now
    let delta :=
      (if hfVersion < 2 then difficultyTargetV1 else difficultyTargetV2)
        * lockedTxAllowedDeltaBlocks
    currentTime + delta ≥ unlockTime

/-! ## Inputs -/

/-- `relative_output_offsets_to_absolute`: running sums in 64 bits. -/
def absoluteOffsetsFrom (acc : UInt64) : List UInt64 → List UInt64
  | [] => []
  | off :: rest => (acc + off) :: absoluteOffsetsFrom (acc + off) rest

/-- `scan_outputkeys_for_indexes` without its visitor: the outputs an input's
ring names, or `none` if one does not exist. -/
def ringOutputs (e : Env) (chain : Chain) (amount : UInt64) (keyOffsets : List UInt64) :
    Option (List OutputData) :=
  let outputs := chain.outputsOfAmount e amount
  (absoluteOffsetsFrom 0 keyOffsets).mapM fun i => outputs[i.toNat]?

/-- `check_tx_input`: the outputs of the ring, all of them unlocked. -/
def checkTxInput (e : Env) (now : Nat) (chain : Chain) (hfVersion : Nat) (amount : UInt64)
    (keyOffsets : List UInt64) : Option (List OutputData) :=
  (ringOutputs e chain amount keyOffsets).bind fun ring =>
    if ring.all fun o => isTxSpendtimeUnlocked now chain hfVersion o.unlockTime then some ring
    else none

/-- The input loop of `check_tx_inputs`: the rings, input by input. -/
def checkTxInputRings (e : Env) (now : Nat) (chain : Chain) (hfVersion : Nat) :
    List TxinV → Option (List (List OutputData))
  | [] => some []
  | .toKey amount keyOffsets image :: rest =>
    if keyOffsets = [] then none
    else if chain.hasKeyImage image then none
    else
      (checkTxInput e now chain hfVersion amount keyOffsets).bind fun ring =>
        (checkTxInputRings e now chain hfVersion rest).map (ring :: ·)
  | _ :: _ => none

/-- `*pmax_used_block_height`: of each ring only the last output's height is
looked at. -/
def maxUsedBlockHeight (rings : List (List OutputData)) : Nat :=
  rings.foldl (fun h ring => max h ((ring.getLast?.map OutputData.height).getD 0)) 0

/-! ## Ring sizes -/

/-- The key offsets of the `txin_to_key` inputs, with their amounts. -/
def toKeyInputs (tx : Transaction) : List (UInt64 × List UInt64) :=
  tx.vin.filterMap fun
    | .toKey amount keyOffsets _ => some (amount, keyOffsets)
    | _ => none

/-- `min_mixin` by version. -/
def minMixin (hfVersion : Nat) : Nat :=
  if hfVersion ≥ 15 then 15 else if hfVersion ≥ 8 then 10 else if hfVersion ≥ 7 then 6
  else if hfVersion ≥ 6 then 4 else 2

/-- `ring_mixin`, with the wrap of the source at an empty ring. -/
def ringMixin (keyOffsets : List UInt64) : Nat :=
  if keyOffsets = [] then 2 ^ 64 - 1 else keyOffsets.length - 1

/-- The mixin rules of `check_tx_inputs` from version 2 on. -/
def checkMixins (e : Env) (chain : Chain) (hfVersion : Nat) (tx : Transaction) : Bool :=
  let ins := toKeyInputs tx
  let unmixable := ins.filter fun (amount, _) =>
    amount ≠ 0 && (chain.outputsOfAmount e amount).length ≤ minMixin hfVersion
  let nUnmixable := unmixable.length
  let nMixable := ins.length - nUnmixable
  let minActual := (ins.map fun r => ringMixin r.2).foldl min (2 ^ 64 - 1)
  let maxActual := (ins.map fun r => ringMixin r.2).foldl max 0
  let sameOk : Bool := hfVersion < 12 || minActual = maxActual
  let sizeOk : Bool :=
    if minActual < minMixin hfVersion && !(hfVersion = 15 && minActual = 10) then
      nUnmixable ≠ 0 && nMixable ≤ 1
    else
      !((hfVersion > 15 && minActual > 15) ||
        (hfVersion = 15 && minActual ≠ 15 && minActual ≠ 10) ||
        (hfVersion < 15 && hfVersion ≥ 10 && minActual > 10) ||
        ((hfVersion = 8 || hfVersion = 9) && minActual ≠ 10))
  let maxTxVersion := if hfVersion ≤ 3 then 1 else 2
  let minTxVersion := if nUnmixable > 0 then 1 else if hfVersion ≥ 6 then 2 else 1
  sameOk && sizeOk && tx.version ≤ maxTxVersion && tx.version ≥ minTxVersion

/-- Sorted inputs, from version 7 on: each key image above the next. -/
def sortedInputs : List KeyImage → Bool
  | a :: b :: rest => memcmpLt b a && sortedInputs (b :: rest)
  | _ => true

/-- The rules on the shape of a transaction that `check_tx_inputs` applies
before it looks at any output. -/
def checkInputShape (e : Env) (chain : Chain) (hfVersion : Nat) (tx : Transaction) : Bool :=
  !(hfVersion ≥ 12 && tx.version ≥ 2 && tx.vout.length < 2) &&
  (hfVersion < 2 || checkMixins e chain hfVersion tx) &&
  (hfVersion < 7 || sortedInputs tx.keyImages)

/-- `check_tx_inputs(tx, tvc, pmax_used_block_height)`: `none` is false. -/
def checkTxInputs (e : Env) (now : Nat) (chain : Chain) (hfVersion : Nat) (tx : Transaction) :
    Option Nat :=
  if !checkInputShape e chain hfVersion tx then none
  else
    (checkTxInputRings e now chain hfVersion tx.vin).bind fun rings =>
      let maxUsed := maxUsedBlockHeight rings
      if hfVersion ≥ hfEnforceMinAge && !(maxUsed + defaultTxSpendableAge ≤ chain.length) then none
      else if tx.version ≠ 1 && tx.rctSignatures.type = .null then none
      else if !e.checkSignatures tx rings hfVersion then none
      else some maxUsed

end Oxyra
