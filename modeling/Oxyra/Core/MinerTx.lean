import Oxyra.Core.Env
import Oxyra.Core.TxExtra

/-!
# The coinbase: producer and consumer

* `constructMinerTx` (`cryptonote_tx_utils.cpp`) builds the coinbase of a
  template. Where the reward is zero it stops early: no outputs, no lock.
* `prevalidateMinerTransaction` and `validateMinerTransaction`
  (`blockchain.cpp`) are the two checks a coinbase goes through.

The two sides treat fees differently. The producer never looks at the fee it
is handed; the consumer wants the outputs to add up to reward plus fees. The
last section says exactly what the consumer accepts, which everything about
the supply rests on.
-/

namespace Oxyra

variable {b : Block} {version : Nat}

/-! ## Construction -/

/-- `add_tx_pub_key_to_extra`: the tag and the 32 bytes of the key. -/
def addTxPubKeyToExtra (extra : List UInt8) (pub : PublicKey) : List UInt8 :=
  extra ++ 0x01 :: (bytesOf pub).map UInt8.ofNat

/-- The `extra` field of a coinbase. -/
def minerTxExtra (e : Env) (txkey : Keypair) (extraNonce : List UInt8) : Option (List UInt8) :=
  let extra := addTxPubKeyToExtra [] txkey.pub
  if extraNonce = [] then e.sortTxExtra extra
  else (Wire.addExtraNonceToTxExtra extra extraNonce).bind e.sortTxExtra

/-- The merging loop of `construct_miner_tx`: fold the first amount into the
second until at most `maxOuts` are left. -/
def mergeOuts (maxOuts : Nat) : Nat → List UInt64 → List UInt64
  | fuel + 1, a :: b :: rest =>
    if maxOuts < rest.length + 2 then mergeOuts maxOuts fuel ((b + a) :: rest)
    else a :: b :: rest
  | _, outs => outs

/-- The output amounts of a coinbase that pays a non-zero reward: `none` is
"max_out must be non-zero" or "max_out exceeded". -/
def minerTxAmounts (blockReward : UInt64) (height maxOuts version : Nat) :
    Option (List UInt64) :=
  let outAmounts :=
    decomposeAmountIntoDigits blockReward (if version ≥ 2 then 0 else defaultDustThreshold)
  if maxOuts < 1 then none
  else if height = 0 ∨ version ≥ 4 then some (mergeOuts maxOuts outAmounts.length outAmounts)
  else if maxOuts ≥ outAmounts.length then some outAmounts
  else none

/-- `set_tx_out` for output number `no`. -/
def minerTxOut (e : Env) (addr : AccountPublicAddress) (txkey : Keypair) (version no : Nat)
    (amount : UInt64) : Option TxOut :=
  (e.derivePublicKey addr txkey.sec no).map fun key =>
    { amount := amount
      target :=
        if version ≥ hfViewTags then .toTaggedKey key (e.deriveViewTag addr txkey.sec no)
        else .toKey key }

/-- `construct_miner_tx` on the transaction `tx` it is handed; `none` is a false
return. -/
def constructMinerTx (e : Env) (height : Nat) (medianWeight alreadyGeneratedCoins
    currentBlockWeight _fee : UInt64) (addr : AccountPublicAddress) (txkey : Keypair)
    (tx : Transaction) (extraNonce : List UInt8) (maxOuts version : Nat) :
    Option Transaction := do
  let extra ← minerTxExtra e txkey extraNonce
  let blockReward ←
    getBlockReward medianWeight currentBlockWeight alreadyGeneratedCoins version
  if blockReward = 0 then
    return { tx with version := 2, vin := [.gen height], vout := [], extra := extra }
  let blockReward :=
    if version ≥ 2 ∧ version < 4 then blockReward - blockReward % baseRewardClampThreshold
    else blockReward
  let outAmounts ← minerTxAmounts blockReward height maxOuts version
  let vout ← outAmounts.zipIdx.mapM fun (amount, no) => minerTxOut e addr txkey version no amount
  if outAmounts.foldl (fun summaryAmounts a => summaryAmounts + a) 0 ≠ blockReward then none
  else
    return { tx with
      version := if version ≥ 4 then 2 else 1
      unlockTime := height + minedMoneyUnlockWindow
      vin := [.gen height]
      vout := vout
      extra := extra }

/-! ## Validation -/

/-- `prevalidate_miner_transaction`. The check of `unlock_time` against
`height + CRYPTONOTE_MINED_MONEY_UNLOCK_WINDOW` is commented out in the source. -/
def prevalidateMinerTransaction (b : Block) (height hfVersion : Nat) : Bool :=
  match b.minerTx.vin with
  | [.gen genHeight] =>
    (b.minerTx.version > 1 || hfVersion < hfMinV2CoinbaseTx) &&
    (!(hfVersion ≥ hfRejectSigsInCoinbase && b.minerTx.version ≥ 2) ||
      b.minerTx.rctSignatures.type = .null) &&
    genHeight = height &&
    checkOutsOverflow b.minerTx &&
    checkOutputTypes b.minerTx hfVersion
  | _ => false

/-- The amounts a version-3 coinbase may use. -/
def decomposedIfRequired (b : Block) (version : Nat) : Bool :=
  version ≠ 3 || b.minerTx.vout.all fun o => isValidDecomposedAmount o.amount

/-- `validate_miner_transaction`, given the median weight its first lines look
up: `none` is a false return, otherwise the updated `base_reward` and
`partial_block_reward`. -/
def validateMinerTransaction (b : Block) (medianWeight cumulativeBlockWeight fee
    alreadyGeneratedCoins : UInt64) (version : Nat) : Option (UInt64 × Bool) :=
  let moneyInUse := b.minerTx.vout.foldl (fun moneyInUse o => moneyInUse + o.amount) 0
  if !decomposedIfRequired b version then none
  else
    match getBlockReward medianWeight cumulativeBlockWeight alreadyGeneratedCoins version with
    | none => none
    | some baseReward =>
      if baseReward + fee < moneyInUse then none
      else if version < 2 ∨ version ≥ hfExactCoinbase then
        if baseReward + fee ≠ moneyInUse then none else some (baseReward, false)
      else if ¬ moneyInUse - fee ≤ baseReward then none
      else some (moneyInUse - fee, baseReward + fee ≠ moneyInUse)

/-! ## What the consumer accepts -/

theorem vin_of_prevalidate {height : Nat}
    (h : prevalidateMinerTransaction b height version = true) : b.minerTx.vin = [.gen height] := by
  unfold prevalidateMinerTransaction at h
  split at h
  · rename_i genHeight hvin
    simp only [Bool.and_eq_true, decide_eq_true_eq] at h
    rw [hvin, h.1.1.2]
  · exact absurd h (by simp)

theorem getBlockHeight_of_prevalidate {height : Nat}
    (h : prevalidateMinerTransaction b height version = true) : getBlockHeight b = height := by
  unfold getBlockHeight
  rw [vin_of_prevalidate h]

/-- The coinbase check with the weights gone: they reach `get_block_reward`
and nothing else. -/
theorem validateMinerTransaction_weight_irrelevant (b : Block) (m m' w w' fee agc : UInt64)
    (version : Nat) :
    validateMinerTransaction b m w fee agc version
      = validateMinerTransaction b m' w' fee agc version := by
  simp only [validateMinerTransaction, getBlockReward_eq]

/-- Once coins exist the reward is zero, and the coinbase must pay out exactly
the fees, in every version. In the "claim less" branch it is the wrapping
subtraction `money_in_use - fee <= 0` that leaves no room. -/
theorem validateMinerTransaction_iff {m w fee agc : UInt64} (hagc : agc ≠ 0) (r : UInt64 × Bool) :
    validateMinerTransaction b m w fee agc version = some r ↔
      decomposedIfRequired b version = true ∧ getOutsMoneyAmount b.minerTx = fee ∧
        r = (0, false) := by
  have hbase : baseRewardOf agc = 0 := by simp [baseRewardOf, hagc]
  have hmoney : b.minerTx.vout.foldl (fun moneyInUse o => moneyInUse + o.amount) 0
      = getOutsMoneyAmount b.minerTx := rfl
  simp only [validateMinerTransaction, getBlockReward_eq, hbase, hmoney, zero_add]
  generalize getOutsMoneyAmount b.minerTx = money
  cases hd : decomposedIfRequired b version with
  | false => simp
  | true =>
    simp only [Bool.not_true, Bool.false_eq_true, if_false, true_and]
    by_cases heq : money = fee
    · -- every guard passes and the reward stays zero
      subst heq
      simp [eq_comm]
    · have hne : fee ≠ money := fun h => heq h.symm
      have hsub : ¬ money - fee ≤ 0 := by
        rw [UInt64.le_iff_toNat_le, UInt64.toNat_zero, Nat.le_zero,
          ← UInt64.toNat_zero, UInt64.toNat_inj]
        intro h
        exact heq (sub_eq_zero.mp h)
      simp [heq, hne, hsub]

/-- The genesis coinbase, with no fees: it may claim less than the supply only
in the versions with the "claim less" rule, and what it claims is what is
recorded. -/
theorem validateMinerTransaction_genesis {m w : UInt64} {r : UInt64 × Bool}
    (h : validateMinerTransaction b m w 0 0 version = some r) :
    getOutsMoneyAmount b.minerTx ≤ moneySupply ∧ r.1 = getOutsMoneyAmount b.minerTx ∧
      (version < 2 ∨ version ≥ hfExactCoinbase → getOutsMoneyAmount b.minerTx = moneySupply) := by
  have hmoney : b.minerTx.vout.foldl (fun moneyInUse o => moneyInUse + o.amount) 0
      = getOutsMoneyAmount b.minerTx := rfl
  simp only [validateMinerTransaction, getBlockReward_eq, baseRewardOf_zero, hmoney, add_zero,
    sub_zero] at h
  generalize getOutsMoneyAmount b.minerTx = money at h
  split at h
  · exact absurd h (by simp)
  split at h
  · exact absurd h (by simp)
  rename_i hle
  have hle' : money ≤ moneySupply := UInt64.not_lt.mp hle
  split at h
  · -- the exact rule
    split at h
    · exact absurd h (by simp)
    · rename_i heq
      have heq' : moneySupply = money := by simpa using heq
      rw [← Option.some.inj h]
      exact ⟨hle', heq', fun _ => heq'.symm⟩
  · rename_i hversion
    rw [← Option.some.inj h]
    exact ⟨hle', rfl, fun hv => absurd hv hversion⟩

end Oxyra
