import Oxyra.Logic.Invariant

/-!
# A regression-test node

A concrete environment in which runs can be computed: the fixed difficulty of
the daemon's regtest mode, signatures that always verify, and hashes read off a
field of the object (the nonce of a block, the signature word of a transaction).
The witnesses and counterexamples of the theorems run on it.
-/

namespace Oxyra

/-- A schedule that starts in `version` and changes to each version of `later`
at its height. -/
def schedule (version : Nat) (later : List HardforkT)
    (ordered : (⟨version, 0, 0, 0⟩ :: later).Pairwise HardforkT.before := by decide)
    (positive : ∀ f ∈ (⟨version, 0, 0, 0⟩ :: later : List HardforkT), f.version ≠ 0 := by decide) :
    ForkTable where
  heights := ⟨version, 0, 0, 0⟩ :: later
  originalVersion := version
  nonempty := by simp
  ordered := ordered
  positive := positive

/-- The schedule that stays in the first version. -/
abbrev firstVersion : ForkTable := schedule 1 []

theorem schedule_standard (version : Nat) (ordered) (positive) :
    (schedule version [] ordered positive).Standard :=
  ⟨fun n => by cases n <;> rfl, rfl⟩

/-- The coinbase for `height` that pays `amounts`. The signature word makes its
id differ from those of the transactions below. -/
def regtestCoinbase (height : Nat) (amounts : List UInt64) : Transaction :=
  { version := 1
    vin := [.gen height]
    vout := amounts.map fun amount => ⟨amount, .toKey 1⟩
    signatures := 1000 + height }

/-- The environment of a regression-test node under a schedule. -/
def regtest (forks : ForkTable) : Env where
  getBlockHash b := BitVec.ofNat 256 (b.nonce.toNat + 1)
  getTransactionHash tx := BitVec.ofNat 256 (tx.signatures + 1)
  cnSlowHash _ _ _ := 0
  rxSlowHash _ _ := 0
  transactionWeight _ := 100
  getPrunedTransactionWeight _ := 100
  blobSize _ := 100
  verSemantics _ _ := true
  checkSignatures _ _ _ := true
  zeroCommit _ := 0
  checkFee _ _ _ _ _ := true
  derivePublicKey _ _ _ := some 1
  deriveViewTag _ _ _ := 0
  parseTx _ := some (regtestCoinbase 0 [moneySupply])
  sortTxExtra extra := some extra
  clock n := n
  forks := forks
  fixedDifficulty := 1

/-- A block of `version` on top of the block with nonce `parent`. -/
def regtestBlock (version height : Nat) (parent nonce : UInt32) (amounts : List UInt64)
    (txHashes : List Hash) : Block :=
  { majorVersion := version
    minorVersion := version
    prevId := BitVec.ofNat 256 (parent.toNat + 1)
    nonce := nonce
    minerTx := regtestCoinbase height amounts
    txHashes := txHashes }

/-- The genesis block, paying the supply to one output. -/
def regtestGenesis (version : Nat) (amounts : List UInt64) : Block :=
  { regtestBlock version 0 0 0 amounts [] with prevId := nullHash }

theorem regtestGenesis_added :
    GenesisAdded (regtest (schedule 1 [])) {} (regtestGenesis 1 [moneySupply]) {} :=
  .of_init rfl (by decide +kernel)

/-- A transaction with tag `tag` that spends the outputs of `amount` at `index`
and returns all but `fee`. -/
def regtestTx (tag : Nat) (amount : UInt64) (index : UInt64) (fee : UInt64) : Transaction :=
  { version := 1
    vin := [.toKey amount [index] (BitVec.ofNat 256 tag)]
    vout := [⟨amount - fee, .toKey 1⟩]
    signatures := tag }

def regtestSupplement (tx : Transaction) : PoolSupplement :=
  { txsByTxid := [(BitVec.ofNat 256 (tx.signatures + 1), tx)] }

theorem regtestSupplement_ok (forks : ForkTable) (tx : Transaction) :
    (regtestSupplement tx).Ok (regtest forks) := by
  intro r hr
  rw [show r = _ from List.mem_singleton.mp hr]
  rfl

end Oxyra
