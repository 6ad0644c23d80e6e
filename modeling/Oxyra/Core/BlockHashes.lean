import Oxyra.Basic.Types

/-!
# Precomputed block hashes (`blockchain.cpp`)

A node carries hashes of groups of 512 block hashes compiled in. Before it downloads blocks it has
`prevalidate_block_hashes` look at the hashes a peer announces: whole groups that hash to the
compiled value are filed in `m_blocks_hash_check`, and blocks filed there are later accepted
without full verification.

* `m_blocks_hash_of_hashes` is `CompiledHashes.groups`, one pair of hashes for a group: of its block
  hashes and of its block weights.
* Reads of vectors and of the database are partial here: `none` is a read out of range.
* Heights and sizes are natural numbers. No vector of hashes has `2 ^ 58` elements, so only the
  two places where the source means to wrap around do (`lastIndex`, `usable`).
-/

namespace Oxyra

def hashOfHashesStep : Nat := 512

/-- `m_blocks_hash_of_hashes` -/
structure CompiledHashes where
  groups : List (Hash × Hash)
  fits : groups.length * hashOfHashesStep < 2 ^ 58

/-- `cn_fast_hash` over the memory of a vector of hashes and of one of weights. -/
structure GroupHasher where
  hashes : List Hash → Hash
  weights : List UInt64 → Hash

/-- A row of `m_blocks_hash_check`. -/
abbrev HashCheck := Hash × UInt64

/-- The arguments of `prevalidate_block_hashes` and the chain it finds, hash and weight of every
block. -/
structure Prevalidation where
  chain : List (Hash × UInt64)
  height : Nat
  hashes : List Hash
  weights : List UInt64
  fits : hashes.length < 2 ^ 58

namespace Prevalidation

variable (c : Prevalidation)

/-- `height / HASH_OF_HASHES_STEP` -/
def firstIndex : Nat := c.height / hashOfHashesStep

/-- `(height + hashes.size() - 1) / HASH_OF_HASHES_STEP` -/
def lastIndex : Nat :=
  (c.height + c.hashes.length + (2 ^ 64 - 1)) % 2 ^ 64 / hashOfHashesStep

/-- The first group is left out: its first hashes are not in the chain. -/
def skipsFirst : Bool :=
  c.height > c.chain.length && c.height % hashOfHashesStep ≠ 0

/-- `first_index` once the first group is left out or not. -/
def startIndex : Nat :=
  if c.skipsFirst then c.firstIndex + 1 else c.firstIndex

/-- The loop that pushes the data to check, behind the first `pop`. -/
def pushed {α : Type} : Nat → List α → List α
  | _, [] => []
  | 0, x :: xs => x :: pushed 0 xs
  | pop + 1, _ :: xs => pushed pop xs

/-- `pop` -/
def popCount : Nat :=
  if c.skipsFirst then hashOfHashesStep - c.height % hashOfHashesStep else 0

/-- The blocks of the chain that the first group starts with. -/
def borrowed : Option (List (Hash × UInt64)) :=
  if c.skipsFirst then some []
  else
    (List.range (c.height - c.firstIndex * hashOfHashesStep)).mapM fun i =>
      c.chain[c.firstIndex * hashOfHashesStep + i]?

def dataHashes (blocks : List (Hash × UInt64)) : List Hash :=
  blocks.map Prod.fst ++ pushed c.popCount c.hashes

/-- `data_weights`, where there are weights. -/
def dataWeights (blocks : List (Hash × UInt64)) : Option (List UInt64) :=
  if c.weights = [] then none
  else some (blocks.map Prod.snd ++ pushed c.popCount c.weights)

end Prevalidation

/-- The memory of the `k`-th group of a vector. -/
def readGroup {α : Type} (data : List α) (k : Nat) : Option (List α) :=
  if k * hashOfHashesStep + hashOfHashesStep ≤ data.length then
    some ((data.drop (k * hashOfHashesStep)).take hashOfHashesStep)
  else none

/-- The count that is returned: one below zero has wrapped around and is refused. -/
def usableResult (usable : Nat) : Nat :=
  if usable < (2 ^ 64 - 1) / 2 then usable else 0

/-- The loop that files a group: `count` rows from `i` on, their data from `i - offset` on. False
is a consistency failure. -/
def fileRows (dataHashes : List Hash) (dataWeights : Option (List UInt64)) (offset : Nat) :
    Nat → Nat → List HashCheck → Option (Bool × List HashCheck)
  | 0, _, check => some (true, check)
  | count + 1, i, check => do
      let row ← check[i]?
      let hash ← dataHashes[i - offset]?
      if row.1 ≠ nullHash && row.1 ≠ hash then return (false, check)
      let check := check.set i (hash, row.2)
      match dataWeights with
      | none => fileRows dataHashes dataWeights offset count (i + 1) check
      | some weights =>
        let weight ← weights[i - offset]?
        if row.2 ≠ 0 && row.2 ≠ weight then return (false, check)
        fileRows dataHashes dataWeights offset count (i + 1) (check.set i (hash, weight))

section

variable (hasher : GroupHasher) (compiled : CompiledHashes)

/-- Whether the `k`-th group of the data hashes to what is compiled in. The weights are looked at
once the hashes are right. -/
def validGroup (dataHashes : List Hash) (dataWeights : Option (List UInt64)) (k : Nat)
    (expected : Hash × Hash) : Option Bool := do
  let group ← readGroup dataHashes k
  if hasher.hashes group ≠ expected.1 then return false
  match dataWeights with
  | none => return true
  | some weights =>
    let group ← readGroup weights k
    return hasher.weights group = expected.2

/-- The loop over the groups, `count` of them from `n` on. `size` is `hashes.size()` and `first`
is `first_index`. -/
def checkGroups (size first : Nat) (dataHashes : List Hash) (dataWeights : Option (List UInt64)) :
    Nat → Nat → Nat → List HashCheck → Option (Nat × List HashCheck)
  | 0, _, usable, check => some (usableResult usable, check)
  | count + 1, n, usable, check =>
    match compiled.groups[n]? with
    | some expected =>
      -- a group that is not filled cannot be told
      if dataHashes.length < (n - first) * hashOfHashesStep + hashOfHashesStep then
        some (usableResult usable, check)
      else
        match validGroup hasher dataHashes dataWeights (n - first) expected with
        | none => none
        | some false => some (usableResult usable, check)
        | some true =>
          match fileRows dataHashes dataWeights (first * hashOfHashesStep) hashOfHashesStep
            (n * hashOfHashesStep) check with
          | none => none
          | some (false, check) => some (0, check)
          | some (true, check) =>
            checkGroups size first dataHashes dataWeights count (n + 1)
              ((usable + hashOfHashesStep) % 2 ^ 64) check
    | none =>
      -- after the precomputed blocks anything is accepted
      let usable := (usable + hashOfHashesStep) % 2 ^ 64
      checkGroups size first dataHashes dataWeights count (n + 1)
        (if usable > size then size else usable) check

/-- `prevalidate_block_hashes`: how many of the hashes are usable and the table afterwards. -/
def prevalidateBlockHashes (check : List HashCheck) (c : Prevalidation) :
    Option (Nat × List HashCheck) :=
  if ¬ (c.weights = [] ∨ c.weights.length = c.hashes.length) then some (0, check)
  else if c.height ≥ compiled.groups.length * hashOfHashesStep then some (c.hashes.length, check)
  else if check = [] then some (c.hashes.length, check)
  else if c.firstIndex = c.lastIndex ∧ c.hashes.length < hashOfHashesStep ∧
      (c.height + c.hashes.length) % hashOfHashesStep ≠ 0 then some (c.hashes.length, check)
  else do
    let blocks ← c.borrowed
    checkGroups hasher compiled c.hashes.length c.startIndex (c.dataHashes blocks)
      (c.dataWeights blocks) (c.lastIndex + 1 - c.startIndex) c.startIndex
      ((c.startIndex * hashOfHashesStep + (2 ^ 64 - c.height)) % 2 ^ 64) check

/-- Calls one after the other; `none` if one of them reads out of range. -/
def prevalidateAll : List HashCheck → List Prevalidation → Option (List Nat × List HashCheck)
  | check, [] => some ([], check)
  | check, c :: calls => do
      let (usable, check) ← prevalidateBlockHashes hasher compiled check c
      let (results, check) ← prevalidateAll check calls
      return (usable :: results, check)

end

/-- The table `m_blocks_hash_check` is resized to when the groups are loaded. -/
def CompiledHashes.nullTable (compiled : CompiledHashes) : List HashCheck :=
  List.replicate (compiled.groups.length * hashOfHashesStep) (nullHash, 0)

end Oxyra
