import Oxyra.Core.AltChain
import Oxyra.Core.Wallet

/-!
# The genesis block (`cryptonote_tx_utils.cpp`, `blockchain.cpp`, `wallet2.cpp`)

* `generateGenesisBlock` makes block 0 from a hard-coded transaction and nonce,
  stamped with the current time.
* Its three users: `initGenesis` for a daemon on an empty database, and
  `setupNewBlockchain` and `loadGenesis` for a wallet.
-/

namespace Oxyra

/-! ## Configuration -/

/-- `network_type`; there is no configuration for `UNDEFINED`. -/
inductive NetworkType where
  | mainnet
  | testnet
  | stagenet
  | fakechain
deriving DecidableEq, Repr

/-- `config_t`, the two members the genesis block is made from. -/
structure ConfigT where
  genesisTx : String
  genesisNonce : UInt32

/-- `GENESIS_TX`, the same text for every network. -/
def genesisTxHex : String :=
  "013c01ff00018080b0b1af8389d129020c0045d8c6ed4d609e90e19ec8d9e188b5cd03a4cf" ++
  "8bf94f126cc61796cb967f2101ad615f1095fd6f56e759a61fe1b73b73904ab4339869dd38" ++
  "211c27a08e4284d9"

def getConfig : NetworkType → ConfigT
  | .mainnet => ⟨genesisTxHex, 10000⟩
  | .testnet => ⟨genesisTxHex, 10000⟩
  | .stagenet => ⟨genesisTxHex, 10000⟩
  | .fakechain => ⟨genesisTxHex, 10000⟩

/-! ## Generation -/

/-- `miner::find_nonce_for_given_block`: the loop stops at the first hash that
passes, and at the largest nonce without having looked at it. -/
def findNonceForGivenBlock (longhash : Block → Hash) (diffic : Nat) : Nat → Block → Block
  | 0, bl => bl
  | fuel + 1, bl =>
    if bl.nonce = 4294967295 then bl
    else if checkHash (longhash bl) diffic then bl
    else findNonceForGivenBlock longhash diffic fuel { bl with nonce := bl.nonce + 1 }

/-- `generate_genesis_block`: `none` where the transaction does not parse. -/
def generateGenesisBlock (e : Env) (genesisTx : String) (nonce : UInt32) (now : Nat) :
    Option Block :=
  (e.parseTx genesisTx).map fun tx =>
    let bl : Block :=
      { majorVersion := 1, minorVersion := 0, timestamp := now, nonce := nonce, minerTx := tx }
    findNonceForGivenBlock (fun b => e.getBlockLonghash nullHash b 0) 1
      (4294967295 - nonce.toNat) bl

/-- The genesis block of a network, as both programs ask for it. -/
def genesisFor (e : Env) (net : NetworkType) (now : Nat) : Option Block :=
  generateGenesisBlock e (getConfig net).genesisTx (getConfig net).genesisNonce now

/-- The part of `Blockchain::init` that fills an empty database; `none` is its
false return. The result of `generate_genesis_block` is not looked at: after a
failure the block is still the empty one. -/
def Blockchain.initGenesis (e : Env) (depth : Nat) (s : Blockchain) (net : NetworkType) :
    Option Blockchain :=
  if s.height ≠ 0 then some s
  else
    let bl := (genesisFor e net (s.now e)).getD {}
    let o := s.ticked.addNewBlock e depth bl {}
    if o.bvc.verifivationFailed then none else some o.st

/-! ## The wallet -/

open Wallet (HashChain)

/-- `get_block_hash` of the block `wallet2::generate_genesis` makes. -/
def walletGenesisHash (e : Env) (net : NetworkType) (now : Nat) : Hash :=
  e.getBlockHash ((genesisFor e net now).getD {})

/-- `wallet2::setup_new_blockchain`: the ids of a new wallet. -/
def setupNewBlockchain (e : Env) (net : NetworkType) (now : Nat) : HashChain :=
  ({} : HashChain).pushBack (walletGenesisHash e net now)

/-- The genesis part of `wallet2::load`: a wallet without a chain starts one, any
other has its first id compared; `none` is the exception. -/
def loadGenesis (e : Env) (net : NetworkType) (now : Nat) (c : HashChain) : Option HashChain :=
  let genesisHash := walletGenesisHash e net now
  if c.isEmpty then some (c.pushBack genesisHash)
  else if c.checkGenesis genesisHash then some c
  else none

/-! ## The search for a nonce -/

theorem findNonceForGivenBlock_one (longhash : Block → Hash) (fuel : Nat) (bl : Block) :
    findNonceForGivenBlock longhash 1 fuel bl = bl := by
  cases fuel with
  | zero => rfl
  | succ fuel =>
    unfold findNonceForGivenBlock
    rw [if_pos (checkHash_one (longhash bl))]
    split <;> rfl

theorem generateGenesisBlock_eq (e : Env) (genesisTx : String) (nonce : UInt32) (now : Nat) :
    generateGenesisBlock e genesisTx nonce now = (e.parseTx genesisTx).map fun tx =>
      { majorVersion := 1, minorVersion := 0, timestamp := now, nonce := nonce,
        minerTx := tx } := by
  unfold generateGenesisBlock
  congr 1
  funext tx
  exact findNonceForGivenBlock_one _ _ _

theorem genesisFor_eq (e : Env) (net : NetworkType) (now : Nat) :
    genesisFor e net now = (e.parseTx (getConfig net).genesisTx).map fun tx =>
      { majorVersion := 1, minorVersion := 0, timestamp := now,
        nonce := (getConfig net).genesisNonce, minerTx := tx } :=
  generateGenesisBlock_eq e _ _ now

end Oxyra
