import Oxyra.Lib.TakeSome
import Oxyra.Core.Blockchain

/-!
# The prefetched output table (`blockchain.cpp`)

`prepareHandleIncomingBlocks` collects the rings of all transactions of a batch of blocks, queries
the outputs of each amount in bulk and files them in `m_scan_table`, by prefix hash and key image.
`scanOutputkeysForIndexes` takes the outputs of a ring from the table and asks the database for the
rest.

A blob is given by what it parses to. The scan of a ring is modelled with any visitor: whether it
takes an output depends on the outputs it took before.
-/

namespace Oxyra

/-- `m_scan_table`: outputs by prefix hash and key image. -/
abbrev ScanTable := Hash → Option (KeyImage → Option (List OutputData))

/-- The table without entries. -/
def ScanTable.empty : ScanTable := fun _ => none

/-- `find` in both maps. -/
def ScanTable.find (table : ScanTable) (txPrefixHash : Hash) (kImage : KeyImage) :
    Option (List OutputData) :=
  (table txPrefixHash).bind fun images => images kImage

/-- `relative_output_offsets_to_absolute` -/
def absoluteOffsets (keyOffsets : List UInt64) : List Nat :=
  (absoluteOffsetsFrom 0 keyOffsets).map UInt64.toNat

namespace Chain

variable (e : Env) (chain : Chain) (amount : UInt64)

/-- `get_output_key(amount, index)`, which throws where this is `none`. -/
def getOutputKey? (index : Nat) : Option OutputData :=
  (chain.outputsOfAmount e amount)[index]?

/-- `get_output_key({amount}, offsets, outputs, allow_partial)` with partial results allowed. -/
def getOutputKeys (offsets : List Nat) : List OutputData :=
  takeSome (chain.getOutputKey? e amount) offsets

end Chain

/-! ## Scanning a ring -/

/-- The outputs at hand before the visits, with what the table has for this input. -/
def fetchOutputs (e : Env) (chain : Chain) (entry : Option (List OutputData)) (amount : UInt64)
    (offsets : List Nat) : Option (List OutputData) :=
  match entry with
  | none =>
    let outputs := chain.getOutputKeys e amount offsets
    if offsets.length ≠ outputs.length then none else some outputs
  | some outputs =>
    if outputs.length < offsets.length && outputs.length > 0 then
      let addOffsets := offsets.drop outputs.length
      let addOutputs := chain.getOutputKeys e amount addOffsets
      if addOffsets.length ≠ addOutputs.length then none else some (outputs ++ addOutputs)
    else some outputs

/-- The loop over the offsets: an output that is not at hand is asked for. -/
def visitOutputs (handleOutput : List OutputData → OutputData → Bool)
    (getOutputKey? : Nat → Option OutputData) (outputs : List OutputData) :
    Nat → List Nat → List OutputData → Option (List OutputData)
  | _, [], visited => some visited
  | count, i :: rest, visited =>
    match if count < outputs.length then outputs[count]? else getOutputKey? i with
    | none => none
    | some output =>
      if handleOutput visited output then
        visitOutputs handleOutput getOutputKey? outputs (count + 1) rest (visited ++ [output])
      else none

/-- `scan_outputkeys_for_indexes`: `none` is false, otherwise what was visited and
`*pmax_related_block_height`. -/
def scanOutputkeysForIndexes (e : Env) (chain : Chain) (table : ScanTable)
    (handleOutput : List OutputData → OutputData → Bool) (txPrefixHash : Hash) (amount : UInt64)
    (keyOffsets : List UInt64) (kImage : KeyImage) (maxRelatedBlockHeight : Nat) :
    Option (List OutputData × Nat) :=
  if keyOffsets = [] then none
  else
    let offsets := absoluteOffsets keyOffsets
    (fetchOutputs e chain (table.find txPrefixHash kImage) amount offsets).bind fun outputs =>
      (visitOutputs handleOutput (chain.getOutputKey? e amount) outputs 0 offsets []).map
        fun visited =>
          (visited,
            max maxRelatedBlockHeight ((visited.getLast?.map OutputData.height).getD 0))

/-! ## Preparing the table -/

/-- `block_complete_entry`: `none` is a blob that does not parse. -/
structure IncomingEntry where
  block : Option Block
  txs : List (Option Transaction)

/-- What a call returns and the table it leaves. No return value is a throw. -/
structure Prepared where
  ret : Option Bool
  table : ScanTable

/-- `SCAN_TABLE_QUIT` -/
def Prepared.quit : Prepared := ⟨some false, .empty⟩

/-- The first loop over the blocks, which also looks at the parent of the first one. An error is a
return, otherwise whether a block is known. -/
def lookAtBlocks (e : Env) (s : Blockchain) : Nat → List IncomingEntry → Bool → Except Bool Bool
  | _, [], blocksExist => .ok blocksExist
  | blockidx, entry :: rest, blocksExist =>
    match entry.block with
    | none => .error false
    | some b =>
      if blockidx = 0 && b.prevId ≠ s.tailId e then .error true
      else lookAtBlocks e s (blockidx + 1) rest (blocksExist || s.haveBlock e (e.getBlockHash b))

/-- The loop over the blocks that are left when each thread has the same number. -/
def lookAtExtra (e : Env) (s : Blockchain) : List IncomingEntry → Except Bool Bool
  | [] => .ok false
  | entry :: rest =>
    match entry.block with
    | none => .error false
    | some b => if s.haveBlock e (e.getBlockHash b) then .ok true else lookAtExtra e s rest

/-- The returns before the table is cleared. `cancelled` is `m_cancel`, or that computing the long
hashes failed. -/
def returnsEarly (e : Env) (s : Blockchain) (threads : Nat) (cancelled : Bool)
    (entries : List IncomingEntry) : Option Bool :=
  if entries = [] then some false
  else if s.height + entries.length < e.blocksHashCheck.length then some true
  else
    let nMain := threads * (entries.length / threads)
    let known := (lookAtBlocks e s 0 (entries.take nMain) false).bind fun blocksExist =>
      if blocksExist then .ok true else lookAtExtra e s (entries.drop nMain)
    match known with
    | .error ret => some ret
    | .ok blocksExist =>
      if cancelled then some false else if blocksExist then some true else none

/-- What the first pass over the transactions collects: the table with empty maps, `amounts`,
`offset_map` and `txes`. -/
structure Gathered where
  table : ScanTable := .empty
  amounts : List Nat := []
  offsetMap : UInt64 → List Nat := fun _ => []
  txes : List (Transaction × Hash) := []

/-- The offsets of one input added to `offset_map`. -/
def addOffsets (offsetMap : UInt64 → List Nat) : TxinV → UInt64 → List Nat
  | .toKey amount keyOffsets _, a =>
    if a = amount then offsetMap a ++ absoluteOffsets keyOffsets else offsetMap a
  | _, a => offsetMap a

/-- One transaction of the first pass. An input that is not `txin_to_key` throws; the search for a
key image that occurs twice looks at a map that is still empty. -/
def gatherTx (txPrefixHash : Transaction → Hash) (g : Gathered) :
    Option Transaction → Except Prepared Gathered
  | none => .error .quit
  | some tx =>
    if (g.table (txPrefixHash tx)).isSome then .error .quit
    else
      let table : ScanTable := fun h =>
        if h = txPrefixHash tx then some fun _ => none else g.table h
      if !tx.vin.all TxinV.isToKey then .error ⟨none, table⟩
      else .ok
        { table := table
          amounts := sortUnique (g.amounts ++ (toKeyInputs tx).map fun r => r.1.toNat)
          offsetMap := tx.vin.foldl addOffsets g.offsetMap
          txes := g.txes ++ [(tx, txPrefixHash tx)] }

/-- The first pass. `cancel` is what `m_cancel` is at each time it is looked at. -/
def gatherEntries (txPrefixHash : Transaction → Hash) (cancel : Nat → Bool) :
    Nat → List IncomingEntry → Gathered → Except Prepared Gathered
  | _, [], g => .ok g
  | i, entry :: rest, g =>
    if cancel i then .error ⟨some false, g.table⟩
    else (entry.txs.foldlM (gatherTx txPrefixHash) g).bind
      (gatherEntries txPrefixHash cancel (i + 1) rest)

/-- The output for an offset, at the offset's position among all offsets of its amount. -/
def outputAt (offsets : List Nat) (outputs : List OutputData) (offsetNeeded : Nat) :
    Option OutputData :=
  if offsetNeeded ∈ offsets then outputs[offsets.idxOf offsetNeeded]? else none

/-- `emplace` of an input's outputs, up to the first that was not found. -/
def fillInput (offsetMap : UInt64 → List Nat) (txMap : UInt64 → List OutputData)
    (images : KeyImage → Option (List OutputData)) : TxinV → KeyImage → Option (List OutputData)
  | .toKey amount keyOffsets kImage, image =>
    if image = kImage && (images kImage).isNone then
      some (takeSome (outputAt (offsetMap amount) (txMap amount)) (absoluteOffsets keyOffsets))
    else images image
  | _, image => images image

/-- One transaction of the second pass. -/
def fillTx (offsetMap : UInt64 → List Nat) (txMap : UInt64 → List OutputData) (table : ScanTable)
    (r : Transaction × Hash) : Except Prepared ScanTable :=
  match table r.2 with
  | none => .error .quit
  | some images => .ok fun h =>
    if h = r.2 then some (r.1.vin.foldl (fillInput offsetMap txMap) images) else table h

/-- The second pass, in the order of `txes`. -/
def fillEntries (offsetMap : UInt64 → List Nat) (txMap : UInt64 → List OutputData)
    (cancel : Nat → Bool) : Nat → List IncomingEntry → List (Transaction × Hash) → ScanTable →
      Except Prepared ScanTable
  | _, [], _, table => .ok table
  | i, entry :: rest, txes, table =>
    if cancel i then .error ⟨some false, table⟩
    else ((txes.take entry.txs.length).foldlM (fillTx offsetMap txMap) table).bind
      (fillEntries offsetMap txMap cancel (i + 1) rest (txes.drop entry.txs.length))

/-- `tx_map`: the outputs of each amount that the first pass has seen. -/
def queryAmounts (e : Env) (chain : Chain) (g : Gathered) (amount : UInt64) : List OutputData :=
  if amount.toNat ∈ g.amounts then chain.getOutputKeys e amount (sortUnique (g.offsetMap amount))
  else []

/-- `prepare_handle_incoming_blocks`, as far as the table is concerned. -/
def prepareHandleIncomingBlocks (e : Env) (s : Blockchain) (txPrefixHash : Transaction → Hash)
    (threads : Nat) (cancel : Nat → Bool) (entries : List IncomingEntry) (table : ScanTable) :
    Prepared :=
  match returnsEarly e s threads (cancel 0) entries with
  | some ret => ⟨some ret, table⟩
  | none =>
    match gatherEntries txPrefixHash cancel 1 entries {} with
    | .error p => p
    | .ok g =>
      match fillEntries (fun amount => sortUnique (g.offsetMap amount))
          (queryAmounts e s.chain g) cancel (1 + entries.length) entries g.txes g.table with
      | .error p => p
      | .ok table => ⟨some true, table⟩

end Oxyra
