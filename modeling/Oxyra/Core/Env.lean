import Oxyra.Basic.Reward
import Oxyra.Basic.HardFork
import Oxyra.Basic.Difficulty
import Oxyra.Core.Checkpoints

/-!
# The environment of a node

What the modelled code calls but does not compute itself, and what is fixed
while a node runs.

* Hash functions, signature verification and serialised sizes are arbitrary
  functions: every theorem holds whatever they return, unless it names the
  property of them it needs.
* The hard-fork schedule, the checkpoints, the precomputed block hashes and the
  command-line settings do not change during a run.
-/

namespace Oxyra

/-- An output as `get_output_key` returns it, with where it came from: the block
height and whether that block's coinbase created it. -/
structure OutputData where
  pubkey : PublicKey
  unlockTime : Nat
  height : Nat
  commitment : PublicKey
  fromMinerTx : Bool
deriving DecidableEq, Repr

structure AccountPublicAddress where
  spendPublicKey : PublicKey
  viewPublicKey : PublicKey
deriving DecidableEq, Repr

/-- A fresh `keypair`; it stands for the randomness of one call. -/
structure Keypair where
  pub : PublicKey
  sec : Nat
deriving DecidableEq, Repr

structure Env where
  /-- `get_block_hash` -/
  getBlockHash : Block → Hash
  /-- `get_transaction_hash` -/
  getTransactionHash : Transaction → Hash
  /-- `cn_slow_hash` of the hashing blob: block, variant, height. -/
  cnSlowHash : Block → Nat → Nat → Hash
  /-- `rx_slow_hash` of the hashing blob under a seed. -/
  rxSlowHash : Hash → Block → Hash
  /-- `get_transaction_weight` of an unpruned transaction. -/
  transactionWeight : Transaction → UInt64
  /-- `get_pruned_transaction_weight` -/
  getPrunedTransactionWeight : Transaction → UInt64
  /-- Serialised size of a transaction in bytes. -/
  blobSize : Transaction → Nat
  /-- The rest of `check_tx_semantic`, `check_tx_outputs` and the ringct
  semantics, for a transaction that has inputs. -/
  verSemantics : Transaction → Nat → Bool
  /-- The ring signatures of a transaction against the outputs its inputs name. -/
  checkSignatures : Transaction → List (List OutputData) → Nat → Bool
  /-- `rct::zeroCommit` -/
  zeroCommit : UInt64 → PublicKey
  /-- `check_fee`, from the version, the base reward and the fee median. -/
  checkFee : Nat → UInt64 → UInt64 → UInt64 → UInt64 → Bool
  /-- `generate_key_derivation` and `derive_public_key` for one output. -/
  derivePublicKey : AccountPublicAddress → Nat → Nat → Option PublicKey
  /-- `derive_view_tag` for one output. -/
  deriveViewTag : AccountPublicAddress → Nat → Nat → UInt8
  /-- `parse_and_validate_tx_from_blob` of a text in hexadecimal digits. -/
  parseTx : String → Option Transaction := fun _ => none
  /-- `sort_tx_extra` -/
  sortTxExtra : List UInt8 → Option (List UInt8)
  /-- `time(NULL)` at the n-th time the blockchain looks at the clock. -/
  clock : Nat → Nat
  /-- The schedule held by `m_hardfork`. -/
  forks : ForkTable
  /-- `m_checkpoints` -/
  checkpoints : Checkpoints := {}
  /-- `m_blocks_hash_check`: precomputed id and weight by height. -/
  blocksHashCheck : List (Hash × UInt64) := []
  /-- `m_fixed_difficulty` -/
  fixedDifficulty : Nat := 0
  /-- `m_txpool_max_weight` -/
  txpoolMaxWeight : UInt64 := 648000000
  /-- `m_mine_stem_txes` -/
  mineStemTxes : Bool := false
  /-- `m_long_term_block_weights_window` -/
  longTermWindow : Nat := 100000

namespace Env

variable (e : Env)

/-- `get_transaction_weight(tx)`: the largest word for a pruned transaction. -/
def getTransactionWeight (tx : Transaction) : UInt64 :=
  if tx.pruned then 18446744073709551615 else e.transactionWeight tx

def getTransactionWeightLimit (hfVersion : Nat) : UInt64 :=
  if hfVersion ≥ 8 then getMinBlockWeight hfVersion / 2 - coinbaseBlobReservedSize
  else getMinBlockWeight hfVersion - coinbaseBlobReservedSize

/-- `ver_non_input_consensus` of one transaction: size, version, weight and
inputs, then what the environment decides. -/
def verNonInputConsensus (tx : Transaction) (hfVersion : Nat) : Bool :=
  e.blobSize tx ≤ 1000000 &&
  tx.version ≠ 0 && tx.version ≤ (if hfVersion < 4 then 1 else 2) &&
  !(hfVersion ≥ 8 && e.getTransactionWeight tx > getTransactionWeightLimit hfVersion) &&
  tx.vin ≠ [] && e.verSemantics tx hfVersion

/-- `rx_seedheight` with the default epoch. -/
def rxSeedheight (height : Nat) : Nat :=
  if height ≤ 2048 + 64 then 0 else (height - 64 - 1) / 2048 * 2048

/-- The long hash `get_block_longhash` returns for height 202612 whatever the
block is. -/
def longhash202612 : Hash :=
  0x34f25c3aef4fe195ac96385e5866492f1beefc97a83515d476647f684#256

/-- `get_block_longhash`, given the id at the seed height. -/
def getBlockLonghash (seedHash : Hash) (b : Block) (height : Nat) : Hash :=
  if height = 202612 then longhash202612
  else if b.majorVersion ≥ 12 then e.rxSlowHash seedHash b
  else e.cnSlowHash b (if b.majorVersion ≥ 7 then b.majorVersion - 6 else 0) height

end Env

end Oxyra
