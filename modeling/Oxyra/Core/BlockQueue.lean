import Oxyra.Lib.OrderedSet
import Oxyra.Basic.Types
import Oxyra.Core.Pruning

/-!
# The download queue (`block_queue.cpp`)

While a node catches up it splits the missing blocks into spans and asks each
peer for one. A span is *scheduled* from the moment it is reserved and *filled*
once its blocks have arrived.

* `BlockQueue` holds the spans in the order of their first height, at most one
  for each, together with the index of hashes that have been asked for and the
  index of hashes that have arrived.
* `reserveSpan` chooses a stretch of the hashes a peer has announced
  (`planSpan`) and enters it as a scheduled span.

The transfer rate, the size and the time of a span play no part here and are
left out, and so are the functions that only report on them.
-/

namespace Oxyra

def hasUnprunedBlock (blockHeight blockchainHeight : UInt64) (pruningSeed : UInt32) : Bool :=
  Pruning.hasUnprunedBlock blockHeight.toNat blockchainHeight.toNat pruningSeed.toNat

def getNextUnprunedBlockHeight (blockHeight blockchainHeight : UInt64) (pruningSeed : UInt32) :
    UInt64 :=
  UInt64.ofNat (Pruning.getNextUnprunedBlockHeight blockHeight.toNat blockchainHeight.toNat
    pruningSeed.toNat)

/-! ## Spans -/

/-- `block_queue::span`, over the type of `block_complete_entry`. -/
structure Span (β : Type) where
  startBlockHeight : UInt64
  hashes : List Hash := []
  blocks : List β := []
  connectionId : Uuid
  nblocks : UInt64
  origin : String := ""
deriving DecidableEq, Repr

/-- What `operator<` compares. -/
def Span.key {β : Type} (s : Span β) : Nat := s.startBlockHeight.toNat

theorem Span.key_inj {β : Type} {s s' : Span β} :
    s.key = s'.key ↔ s.startBlockHeight = s'.startBlockHeight :=
  UInt64.toNat_inj

/-- The members of `block_queue`. -/
structure BlockQueue (β : Type) where
  spans : OrderedSet (Span.key (β := β)) := ∅
  requestedHashes : List Hash := []
  haveBlocks : List (Hash × UInt64) := []

namespace BlockQueue

variable {β : Type} (q : BlockQueue β)

def requested (hash : Hash) : Bool := hash ∈ q.requestedHashes

/-- `have` -/
def haveHash (hash : Hash) : Bool := (q.haveBlocks.lookup hash).isSome

/-- The erasure of a set of spans: `erase_block` for each of them. Their hashes go
from both indices. -/
def eraseWhere (p : Span β → Bool) : BlockQueue β :=
  let gone := (q.spans.entries.filter p).flatMap Span.hashes
  { spans := q.spans.filter fun s => !p s
    requestedHashes := q.requestedHashes.filter (· ∉ gone)
    haveBlocks := q.haveBlocks.filter (·.1 ∉ gone) }

/-- `set_span_hashes`: nothing happens unless the span is there and belongs to the
connection. -/
def setSpanHashes (startHeight : UInt64) (connectionId : Uuid) (hashes : List Hash) :
    BlockQueue β :=
  let hit : Span β → Bool := fun s =>
    s.startBlockHeight = startHeight && s.connectionId = connectionId
  match q.spans.find? hit with
  | none => q
  | some s =>
    let q := q.eraseWhere hit
    { q with
      spans := q.spans.insert { s with hashes := hashes }
      requestedHashes := hashes ++ q.requestedHashes }

/-- `remove_span`, with the hashes of the span it removed. -/
def removeSpan (startBlockHeight : UInt64) : Option (List Hash) × BlockQueue β :=
  let hit : Span β → Bool := fun s => s.startBlockHeight = startBlockHeight
  ((q.spans.find? hit).map Span.hashes, q.eraseWhere hit)

/-- `add_blocks` for blocks that have arrived. The hashes of the span they replace
are handed on. -/
def addBlocks (height : UInt64) (bcel : List β) (connectionId : Uuid) (addr : String) :
    BlockQueue β :=
  let (hashes?, q) := q.removeSpan height
  let s : Span β :=
    { startBlockHeight := height, blocks := bcel, connectionId := connectionId
      nblocks := UInt64.ofNat bcel.length, origin := addr }
  let q := { q with spans := q.spans.insert s }
  match hashes? with
  | none => q
  | some hashes =>
    let q := { q with
      requestedHashes := hashes ++ q.requestedHashes
      haveBlocks := q.haveBlocks ++
        (hashes.zipIdx.filter fun (r : Hash × Nat) => (q.haveBlocks.lookup r.1).isNone).map
          fun (r : Hash × Nat) => (r.1, height + UInt64.ofNat r.2) }
    q.setSpanHashes height connectionId hashes

/-- `add_blocks` for a span that is only scheduled. -/
def addScheduled (height nblocks : UInt64) (connectionId : Uuid) (addr : String) : BlockQueue β :=
  let s : Span β :=
    { startBlockHeight := height, connectionId := connectionId, nblocks := nblocks, origin := addr }
  { q with spans := q.spans.insert s }

def flushSpans (connectionId : Uuid) (all : Bool) : BlockQueue β :=
  q.eraseWhere fun s => s.connectionId = connectionId && (all || s.blocks.isEmpty)

def flushStaleSpans (liveConnections : List Uuid) : BlockQueue β :=
  q.eraseWhere fun s => s.blocks.isEmpty && s.connectionId ∉ liveConnections

def removeSpans (connectionId : Uuid) (startBlockHeight : UInt64) : BlockQueue β :=
  q.eraseWhere fun s =>
    s.connectionId = connectionId && s.startBlockHeight ≤ startBlockHeight

/-- `get_next_span`: height, blocks, connection and address of the first span, or of
the first filled one. -/
def getNextSpan (filled : Bool) : Option (UInt64 × List β × Uuid × String) :=
  (q.spans.find? fun s => !filled || !s.blocks.isEmpty).map fun s =>
    (s.startBlockHeight, s.blocks, s.connectionId, s.origin)

/-! ## Reservations -/

/-- The arguments of `reserve_span`. -/
structure ReserveArgs where
  firstBlockHeight : UInt64
  lastBlockHeight : UInt64
  maxBlocks : UInt64
  connectionId : Uuid
  addr : String := ""
  syncPrunedBlocks : Bool := false
  localPruningSeed : UInt32 := 0
  pruningSeed : UInt32 := 0
  blockchainHeight : UInt64
  blockHashes : List (Hash × UInt64)

/-- `block_hashes_start_height` -/
def ReserveArgs.hashesStart (a : ReserveArgs) : UInt64 :=
  a.lastBlockHeight - UInt64.ofNat a.blockHashes.length + 1

/-- The loop that skips hashes already requested: the number of hashes skipped. -/
def skipRequested (requested : Hash → Bool) : List (Hash × UInt64) → Nat
  | [] => 0
  | x :: rest => if requested x.1 then skipRequested requested rest + 1 else 0

/-- The loop that collects the hashes of the span; `wanted` is the condition on the
height. -/
def collectSpan (wanted : UInt64 → Bool) (maxBlocks spanStartHeight : UInt64) :
    List (Hash × UInt64) → UInt64 → List Hash
  | [], _ => []
  | x :: rest, spanLength =>
    if spanLength < maxBlocks && wanted (spanStartHeight + spanLength) then
      x.1 :: collectSpan wanted maxBlocks spanStartHeight rest (spanLength + 1)
    else []

/-- The condition in the head of that loop and the `break` in its body. -/
def ReserveArgs.wanted (a : ReserveArgs) (spanStartHeight height : UInt64) : Bool :=
  let unprunedHere := hasUnprunedBlock height a.blockchainHeight a.localPruningSeed
  let firstIsPruned := a.syncPrunedBlocks &&
    !hasUnprunedBlock spanStartHeight a.blockchainHeight a.localPruningSeed
  (a.syncPrunedBlocks || hasUnprunedBlock height a.blockchainHeight a.pruningSeed) &&
    !(a.syncPrunedBlocks && firstIsPruned == unprunedHere)

/-- Where the peer's next unpruned stripe starts, if that is where to go on. The
height passes through 32 bits. -/
def ReserveArgs.jump (a : ReserveArgs) (spanStartHeight : UInt64) : UInt64 :=
  if a.syncPrunedBlocks then spanStartHeight
  else
    let next :=
      (getNextUnprunedBlockHeight spanStartHeight a.blockchainHeight a.pruningSeed).toUInt32
        |>.toUInt64
    if next > spanStartHeight ∧ next < spanStartHeight + UInt64.ofNat Pruning.stripeSize then next
    else spanStartHeight

/-- The stretch of hashes `reserve_span` settles on: its first height and the hashes
themselves, or `none` where it returns `(0, 0)`. -/
def planSpan (a : ReserveArgs) : Option (UInt64 × List Hash) :=
  if a.lastBlockHeight < a.firstBlockHeight ∨ a.maxBlocks = 0 then none
  else if a.blockHashes.length > a.lastBlockHeight.toNat then none
  else
    let first := a.hashesStart + UInt64.ofNat (skipRequested q.requested a.blockHashes)
    let start := a.jump first
    if start ≥ UInt64.ofNat a.blockHashes.length + a.hashesStart then none
    else
      let rest := a.blockHashes.drop (start - a.hashesStart).toNat
      let skipped := skipRequested q.requested rest
      let start := start + UInt64.ofNat skipped
      let hashes := collectSpan (a.wanted start) a.maxBlocks start (rest.drop skipped) 0
      if hashes = [] then none else some (start, hashes)

def reserveSpan (a : ReserveArgs) : (UInt64 × UInt64) × BlockQueue β :=
  match q.planSpan a with
  | none => ((0, 0), q)
  | some (start, hashes) =>
    let spanLength := UInt64.ofNat hashes.length
    ((start, spanLength),
      (q.addScheduled start spanLength a.connectionId a.addr).setSpanHashes start a.connectionId
        hashes)

/-! ## Reservations through the iterator

The same function with the position `i` in `block_hashes` as the source moves it. Reading past the
end is `none`, and so is a loop that does not end. -/

/-- `while (i != block_hashes.end() && requested_internal((*i).first)) {
++i; ++span_start_height; }` -/
def skipAt (requested : Hash → Bool) (blockHashes : List (Hash × UInt64)) :
    Nat → Nat → UInt64 → Option (Nat × UInt64)
  | 0, _, _ => none
  | fuel + 1, i, spanStartHeight =>
    if i = blockHashes.length then some (i, spanStartHeight)
    else
      blockHashes[i]?.bind fun x =>
        if requested x.1 then skipAt requested blockHashes fuel (i + 1) (spanStartHeight + 1)
        else some (i, spanStartHeight)

/-- The loop that collects the hashes. -/
def collectAt (wanted : UInt64 → Bool) (maxBlocks spanStartHeight : UInt64)
    (blockHashes : List (Hash × UInt64)) : Nat → Nat → UInt64 → Option (List Hash)
  | 0, _, _ => none
  | fuel + 1, i, spanLength =>
    if i = blockHashes.length then some []
    else if spanLength < maxBlocks && wanted (spanStartHeight + spanLength) then
      blockHashes[i]?.bind fun x =>
        (collectAt wanted maxBlocks spanStartHeight blockHashes fuel (i + 1) (spanLength + 1)).map
          (x.1 :: ·)
    else some []

/-- `planSpan` through the iterator. -/
def planSpanAt (a : ReserveArgs) : Option (Option (UInt64 × List Hash)) :=
  let fuel := a.blockHashes.length + 1
  if a.lastBlockHeight < a.firstBlockHeight ∨ a.maxBlocks = 0 then some none
  else if a.blockHashes.length > a.lastBlockHeight.toNat then some none
  else
    (skipAt q.requested a.blockHashes fuel 0 a.hashesStart).bind fun r =>
      let start := a.jump r.2
      if start ≥ UInt64.ofNat a.blockHashes.length + a.hashesStart then some none
      else
        (skipAt q.requested a.blockHashes fuel (start - a.hashesStart).toNat start).bind fun r =>
          (collectAt (a.wanted r.2) a.maxBlocks r.2 a.blockHashes fuel r.1 0).map fun hashes =>
            if hashes = [] then none else some (r.2, hashes)

end BlockQueue

end Oxyra
