import Oxyra.Lib.Truncate
import Oxyra.Basic.Types

/-!
# Detaching blocks from a wallet (`wallet2.cpp`, `wallet2.h`)

When the daemon reports another chain, or when old transactions are scanned again,
the wallet takes back everything it has read from the blocks at a height and above:
`detach_blockchain`. The hashes of the blocks are kept in the returned data, from
which `reattach_blockchain` puts them back.

* `HashChain`: the hashes of the blocks the wallet has read, from `offset` on.
* `Wallet`: the containers the detachment goes through. Of the payments and the
  confirmed transactions only the fields it reads are kept.

Heights and sizes are natural numbers; nothing is added to them.
-/

namespace Oxyra

namespace Wallet

/-! ## The hash chain -/

@[ext] structure HashChain where
  offset : Nat := 0
  genesis : Hash := nullHash
  blockchain : List Hash := []
deriving DecidableEq

namespace HashChain

def size (c : HashChain) : Nat := c.blockchain.length + c.offset

def pushBack (c : HashChain) (hash : Hash) : HashChain :=
  { c with
    genesis := if c.offset = 0 ∧ c.blockchain = [] then hash else c.genesis
    blockchain := c.blockchain ++ [hash] }

/-- `hashchain::empty` -/
def isEmpty (c : HashChain) : Bool :=
  c.blockchain = [] && c.offset = 0

/-- `wallet2::check_genesis`; false is the exception. -/
def checkGenesis (c : HashChain) (genesisHash : Hash) : Bool :=
  genesisHash = c.genesis

/-- `hashchain::crop`, to a height the chain has. -/
def crop (c : HashChain) (height : Nat) : HashChain :=
  { c with blockchain := c.blockchain.take (height - c.offset) }

/-- The hashes from a height on. -/
def fromHeight (c : HashChain) (height : Nat) : List Hash :=
  c.blockchain.drop (height - c.offset)

/-- `push_back` of each hash in turn. -/
def pushAll (c : HashChain) (hashes : List Hash) : HashChain := hashes.foldl pushBack c

end HashChain

/-! ## What the wallet holds -/

/-- `multisig_info`, the data of another signer. -/
structure MultisigInfo where
  signer : PublicKey
  lr : List (Hash × Hash)
  partialKeyImages : List KeyImage
deriving DecidableEq

/-- `transfer_details`: an output the wallet has received. -/
structure TransferDetails where
  blockHeight : Nat
  tx : Transaction
  txid : Hash
  internalOutputIndex : Nat
  globalOutputIndex : Nat
  spent : Bool
  frozen : Bool
  spentHeight : Nat
  keyImage : KeyImage
  mask : BitVec 256
  amount : UInt64
  rct : Bool
  keyImageKnown : Bool
  keyImageRequest : Bool
  pkIndex : Nat
  subaddrIndex : UInt32 × UInt32
  keyImagePartial : Bool
  multisigK : List (BitVec 256)
  multisigInfo : List MultisigInfo
  uses : List (Nat × Hash)
deriving DecidableEq

structure PaymentDetails where
  txHash : Hash
  amount : UInt64
  blockHeight : Nat
deriving DecidableEq

structure TxDestinationEntry where
  original : String
  amount : UInt64
  isSubaddress : Bool
  isIntegrated : Bool
deriving DecidableEq

structure ConfirmedTransferDetails where
  blockHeight : Nat
  dests : List TxDestinationEntry
deriving DecidableEq

structure BackgroundSyncedTx where
  tx : Transaction
  height : Nat
deriving DecidableEq

/-- The errors of `detach_blockchain` and `reattach_blockchain`. -/
inductive Error
  /-- "key image not found: index …, ki …, … key images known" -/
  | keyImageNotFound (index : Nat) (keyImage : KeyImage) (known : Nat)
  /-- "public key not found" -/
  | publicKeyNotFound
  /-- "Too few outputs, outputs may be corrupted" -/
  | tooFewOutputs
  /-- "Unable to get output public key from output" -/
  | noOutputPublicKey
  /-- "Unexpected blockchain size after re-attaching" -/
  | unexpectedSize
deriving DecidableEq

structure DetachedBlockchainData where
  detachedBlockchain : HashChain := {}
  originalChainSize : Nat
  detachedTxHashes : List Hash
  detachedConfirmedTxsDests : List (Hash × List TxDestinationEntry)
deriving DecidableEq

/-- The cache of the outputs seen so far, by amount and index. -/
abbrev OutputTracker : Type := List ((Nat × Nat) × Nat)

end Wallet

/-- `wallet2`, the containers a detachment goes through. -/
structure Wallet where
  transfers : List Wallet.TransferDetails
  keyImages : List (KeyImage × Nat)
  pubKeys : List (PublicKey × Nat)
  blockchain : Wallet.HashChain
  payments : List (Hash × Wallet.PaymentDetails)
  confirmedTxs : List (Hash × Wallet.ConfirmedTransferDetails)
  backgroundSyncTxs : List (Hash × Wallet.BackgroundSyncedTx)

namespace Wallet

/-! ## Detachment -/

def TransferDetails.getPublicKey (td : TransferDetails) : Except Error PublicKey :=
  match td.tx.vout[td.internalOutputIndex]? with
  | none => .error .tooFewOutputs
  | some out =>
    match getOutputPublicKey out with
    | none => .error .noOutputPublicKey
    | some outputPublicKey => .ok outputPublicKey

/-- `set_unspent` and `thaw` where the output was spent at `height` or above. -/
def TransferDetails.resetSpent (height : Nat) (td : TransferDetails) : TransferDetails :=
  if td.spent ∧ height ≤ td.spentHeight then
    { td with spent := false, spentHeight := 0, frozen := false }
  else td

/-- Pops the uses at `height` or above off the end. -/
def TransferDetails.popUses (height : Nat) (td : TransferDetails) : TransferDetails :=
  { td with uses := td.uses.rdropWhile fun use => height ≤ use.1 }

/-- The loops that take the entries of the detached transfers out of a map. `key` is
what a transfer is filed under, none where the loop passes over it; `i` is the index
of the first transfer of the list. -/
def eraseKeys {κ : Type} [DecidableEq κ] (key : TransferDetails → Except Error (Option κ))
    (missing : Nat → κ → Nat → Error) :
    Nat → List TransferDetails → List (κ × Nat) → Except Error (List (κ × Nat))
  | _, [], m => .ok m
  | i, td :: tds, m =>
    match key td with
    | .error e => .error e
    | .ok none => eraseKeys key missing (i + 1) tds m
    | .ok (some k) =>
      if (m.lookup k).isNone then .error (missing i k m.length)
      else eraseKeys key missing (i + 1) tds (m.filter fun e => e.1 ≠ k)

/-- What a transfer is filed under in `m_key_images`. -/
def TransferDetails.keyImageKey (td : TransferDetails) : Option KeyImage :=
  if !td.keyImageKnown || td.keyImagePartial then none else some td.keyImage

/-- The loop over `m_key_images`. -/
def eraseKeyImages : Nat → List TransferDetails → List (KeyImage × Nat) →
    Except Error (List (KeyImage × Nat)) :=
  eraseKeys (fun td => .ok td.keyImageKey) .keyImageNotFound

/-- The loop over `m_pub_keys`. -/
def erasePubKeys : Nat → List TransferDetails → List (PublicKey × Nat) →
    Except Error (List (PublicKey × Nat)) :=
  eraseKeys (fun td => td.getPublicKey.map some) fun _ _ _ => .publicKeyNotFound

/-- Insertion into a set of hashes. -/
def insertHashes (set hashes : List Hash) : List Hash := hashes.foldl (fun s h => s.insert h) set

/-- The part of `detach_blockchain` about the hash chain: the chain that stays and the
one that is handed out. -/
def HashChain.detach (c : HashChain) (height : Nat) : HashChain × HashChain :=
  if height ≤ c.size ∧ c.offset ≤ height then
    (c.crop height, ({} : HashChain).pushAll (c.fromHeight height))
  else (c, {})

/-- `detach_blockchain`. The cache, where one is given, is cleared. -/
def detachBlockchain (w : Wallet) (height : Nat) (outputTrackerCache : Option OutputTracker) :
    Except Error (Wallet × Option OutputTracker × DetachedBlockchainData) :=
  let transfers := (w.transfers.map (·.resetSpent height)).map (·.popUses height)
  let backgroundSyncTxs := w.backgroundSyncTxs.filter fun e => ¬ height ≤ e.2.height
  let iStart := transfers.findIdx fun td => height ≤ td.blockHeight
  let detached := transfers.drop iStart
  match eraseKeyImages iStart detached w.keyImages with
  | .error e => .error e
  | .ok keyImages =>
    match erasePubKeys iStart detached w.pubKeys with
    | .error e => .error e
    | .ok pubKeys =>
      let (blockchain, detachedBlockchain) := w.blockchain.detach height
      let detachedPayments := w.payments.filter fun e => height ≤ e.2.blockHeight
      let detachedConfirmed := w.confirmedTxs.filter fun e => height ≤ e.2.blockHeight
      let hashes := detached.map (·.txid) ++ detachedPayments.map (·.2.txHash)
        ++ detachedConfirmed.map (·.1)
      .ok ({ transfers := transfers.take iStart, keyImages, pubKeys, blockchain,
             payments := w.payments.filter fun e => ¬ height ≤ e.2.blockHeight
             confirmedTxs := w.confirmedTxs.filter fun e => ¬ height ≤ e.2.blockHeight
             backgroundSyncTxs },
           outputTrackerCache.map fun _ => [],
           { detachedBlockchain
             originalChainSize := w.blockchain.size
             detachedTxHashes := insertHashes [] hashes
             detachedConfirmedTxsDests := detachedConfirmed.map fun e => (e.1, e.2.dests) })

def reattachBlockchain (blockchain : HashChain) (dbd : DetachedBlockchainData) :
    Except Error HashChain :=
  let blockchain := blockchain.pushAll dbd.detachedBlockchain.blockchain
  if blockchain.size ≠ dbd.originalChainSize then .error .unexpectedSize else .ok blockchain

end Wallet

end Oxyra
