import Oxyra.Lib.Incremental
import Oxyra.Lib.Numeral

/-!
# The levin protocol (`levin_protocol_handler_async.h`, `levin_base.cpp`)

Peers exchange messages with a header of 33 bytes that gives the length of what
follows. A message that is to look like noise is sent in pieces of one size: each is a
message of its own without a request or response flag, and the receiver puts them
together until one has the end flag; what it then holds is a message with a header of
its own. A piece with both the begin and the end flag is noise and skipped.

* `step`: one turn of the loop in `handle_recv`, over the bytes not used yet.
* `Handler.handleRecv`: the call for each segment that arrives.
* `makeFragmentedNotify`, `makeNoiseNotify`: the senders.

The handlers of commands and responses, the limits of commands and the sending of a
reply are oracles over the context of the connection. A handler may call `close()` on
its own connection: the loop goes on with the bytes it has, and the next call of
`handle_recv` returns at once. Timers of responses that are waited for are not modelled.
-/

namespace Oxyra.Levin

/-! ## Headers -/

structure BucketHead2 where
  signature : UInt64 := 0
  cb : UInt64 := 0
  haveToReturnData : UInt8 := 0
  command : UInt32 := 0
  returnCode : UInt32 := 0
  flags : UInt32 := 0
  protocolVersion : UInt32 := 0
deriving DecidableEq, Repr

/-- `sizeof(bucket_head2)` -/
def headSize : Nat := 33

def levinSignature : UInt64 := 0x0101010101012101

def packetRequest : UInt32 := 1

def packetResponse : UInt32 := 2

def packetBegin : UInt32 := 4

def packetEnd : UInt32 := 8

def protocolVer1 : UInt32 := 1

/-- The 33 bytes of a header. -/
def BucketHead2.toBytes (head : BucketHead2) : List UInt8 :=
  Numeral.toBytes 8 head.signature.toNat ++ (Numeral.toBytes 8 head.cb.toNat ++
    ([head.haveToReturnData] ++ (Numeral.toBytes 4 head.command.toNat ++
      (Numeral.toBytes 4 head.returnCode.toNat ++ (Numeral.toBytes 4 head.flags.toNat ++
        Numeral.toBytes 4 head.protocolVersion.toNat)))))

/-- The header 33 bytes stand for. -/
def BucketHead2.ofBytes (bytes : List UInt8) : BucketHead2 where
  signature := UInt64.ofNat (Numeral.ofBytes (bytes.take 8))
  cb := UInt64.ofNat (Numeral.ofBytes ((bytes.drop 8).take 8))
  haveToReturnData := UInt8.ofNat (Numeral.ofBytes ((bytes.drop 16).take 1))
  command := UInt32.ofNat (Numeral.ofBytes ((bytes.drop 17).take 4))
  returnCode := UInt32.ofNat (Numeral.ofBytes ((bytes.drop 21).take 4))
  flags := UInt32.ofNat (Numeral.ofBytes ((bytes.drop 25).take 4))
  protocolVersion := UInt32.ofNat (Numeral.ofBytes ((bytes.drop 29).take 4))

/-! ## What the receiver calls -/

inductive Kind where
  | invoke
  | notify
  | response
deriving DecidableEq, Repr

/-- A message handed to a handler. -/
structure Message where
  kind : Kind
  command : UInt32
  returnCode : UInt32
  payload : List UInt8
deriving DecidableEq, Repr

/-- What a handler leaves: the context, and whether it called `close()`. -/
structure Called (σ : Type) where
  context : σ
  close : Bool

/-- What `invoke` leaves, with the return code and the reply. -/
structure Invoked (σ : Type) extends Called σ where
  returnCode : UInt32
  reply : List UInt8

/-- The handlers and limits, over the context `σ` of a connection, and the maximum packet
size after a handshake. -/
structure Config (σ : Type) where
  maxBytes : σ → UInt32 → Nat
  invoke : σ → UInt32 → List UInt8 → Invoked σ
  sendMessage : σ → UInt32 → Invoked σ → Bool × σ
  notify : σ → UInt32 → List UInt8 → Called σ
  responsePending : σ → Bool
  cancelTimer : σ → Bool × σ
  handle : σ → UInt32 → List UInt8 → Called σ
  handshakeCommand : UInt32
  handshakeComplete : σ → Bool
  maxPacketSize : UInt64

/-! ## The receiver -/

/-- `m_state` -/
inductive StreamState where
  | head
  | body
deriving DecidableEq, Repr

/-- What the loop of `handle_recv` carries, apart from the bytes not used yet. -/
structure Parser (σ : Type) where
  state : StreamState
  currentHead : BucketHead2
  fragmentBuffer : List UInt8
  oponentProtocolVer : UInt32
  maxPacketSize : UInt64
  closeCalled : Bool
  context : σ

/-- What became of a message: the connection goes on, or is closed. -/
inductive Received (σ : Type) where
  | next (p : Parser σ) (out : List Message)
  | close (out : List Message)

variable {σ : Type}

/-- After a handler: `m_close_called` stays set. -/
def Parser.after (p : Parser σ) (called : Called σ) : Parser σ :=
  { p with closeCalled := p.closeCalled || called.close, context := called.context }

/-- Hands the payload of a message with the current header to its handler. -/
def dispatch (c : Config σ) (p : Parser σ) (buff : List UInt8) : Received σ :=
  let head := p.currentHead
  if p.oponentProtocolVer = protocolVer1 ∧ head.flags &&& packetResponse ≠ 0 then
    if !c.responsePending p.context then .close []
    else
      let (timerCancelled, context) := c.cancelTimer p.context
      if timerCancelled then
        .next (p.after (c.handle context head.returnCode buff))
          [⟨.response, head.command, head.returnCode, buff⟩]
      else .next { p with context } []
  else if head.haveToReturnData ≠ 0 then
    let invoked := c.invoke p.context head.command buff
    let maxPacketSize :=
      if head.command = c.handshakeCommand ∧ c.handshakeComplete invoked.context then
        c.maxPacketSize
      else p.maxPacketSize
    let (sent, context) := c.sendMessage invoked.context head.command invoked
    let out := [⟨.invoke, head.command, head.returnCode, buff⟩]
    if sent then .next { p.after invoked.toCalled with maxPacketSize, context } out
    else .close out
  else
    .next (p.after (c.notify p.context head.command buff))
      [⟨.notify, head.command, head.returnCode, buff⟩]

/-- What is done with the body of a message, `buff`. A fragment is added to those before
it, and the last one completes a message with a header of its own. -/
def receiveBody (c : Config σ) (maxPacketSize : UInt64) (p : Parser σ) (buff : List UInt8) :
    Received σ :=
  let flags := p.currentHead.flags
  if flags &&& (packetRequest ||| packetResponse) = 0 then
    if flags &&& (packetBegin ||| packetEnd) = packetBegin ||| packetEnd then .next p []
    else
      let fragments := (if flags &&& packetBegin ≠ 0 then [] else p.fragmentBuffer) ++ buff
      if flags &&& packetEnd = 0 then .next { p with fragmentBuffer := fragments } []
      else if fragments.length < headSize then .close []
      else
        let head := BucketHead2.ofBytes (fragments.take headSize)
        if head.cb.toNat > min maxPacketSize.toNat (c.maxBytes p.context head.command) then
          .close []
        else
          dispatch c { p with currentHead := head, fragmentBuffer := [] }
            (fragments.drop headSize)
  else dispatch c p buff

/-- One turn of the loop in `handle_recv`. `maxPacketSize` is the size read at its start. -/
def step (c : Config σ) (maxPacketSize : UInt64) (p : Parser σ) (cache : List UInt8) :
    Move (Parser σ) Message :=
  match p.state with
  | .body =>
    let cb := p.currentHead.cb.toNat
    if cache.length < cb then .wait
    else
      match receiveBody c maxPacketSize { p with state := .head } (cache.take cb) with
      | .close out => .stop out
      | .next p out => .next p out cb
  | .head =>
    if cache.length < headSize then
      -- a wrong signature is not waited for to be complete
      if 8 ≤ cache.length ∧ Numeral.ofBytes (cache.take 8) ≠ levinSignature.toNat then .stop []
      else .wait
    else
      let phead := BucketHead2.ofBytes (cache.take headSize)
      if levinSignature ≠ phead.signature then .stop []
      else if phead.cb.toNat > min maxPacketSize.toNat (c.maxBytes p.context phead.command) then
        .stop []
      else
        .next { p with
          currentHead := phead, state := .body
          oponentProtocolVer := phead.protocolVersion } [] headSize

/-- A bound on the turns of the loop: a header uses bytes, and a body, which may be
empty, comes after a header. -/
def turns (p : Parser σ) (cache : List UInt8) : Nat :=
  2 * cache.length + (if p.state = .body then 1 else 0)

/-- `async_protocol_handler` -/
structure Handler (σ : Type) where
  cacheInBuffer : List UInt8
  parser : Parser σ

namespace Handler

def closeCalled (h : Handler σ) : Bool := h.parser.closeCalled

def close (h : Handler σ) : Handler σ :=
  { h with parser := { h.parser with closeCalled := true } }

/-- A new connection. -/
def init (maxPacketSize : UInt64) (context : σ) : Handler σ where
  cacheInBuffer := []
  parser :=
    { state := .head, currentHead := {}, fragmentBuffer := [], oponentProtocolVer := 0,
      maxPacketSize, closeCalled := false, context }

/-- The guard at the start of `handle_recv`, for a segment of so many bytes. -/
def fits (h : Handler σ) (cb : Nat) : Bool :=
  let maxPacketSize := h.parser.maxPacketSize.toNat
  maxPacketSize ≥ h.cacheInBuffer.length &&
    maxPacketSize - h.cacheInBuffer.length ≥ h.parser.fragmentBuffer.length &&
    !(cb > maxPacketSize - h.cacheInBuffer.length - h.parser.fragmentBuffer.length)

/-- `handle_recv`: whether the connection stays open, and the messages dispatched. -/
def handleRecv (c : Config σ) (h : Handler σ) (segment : List UInt8) :
    Bool × Handler σ × List Message :=
  if h.closeCalled then (false, h, [])
  else if !h.fits segment.length then (false, h, [])
  else
    let run := Incremental.drain (step c h.parser.maxPacketSize) turns h.parser
      (h.cacheInBuffer ++ segment)
    match run.status with
    | .stopped => (false, h, run.out)
    | .listening parser unread => (true, { parser, cacheInBuffer := unread }, run.out)

/-- A segment arrives: where `handle_recv` returns false the connection is closed. -/
def recv (c : Config σ) (h : Handler σ) (segment : List UInt8) : Handler σ × List Message :=
  match h.handleRecv c segment with
  | (true, h, out) => (h, out)
  | (false, h, out) => (h.close, out)

/-- Segments arrive one after the other. -/
def recvAll (c : Config σ) : Handler σ → List (List UInt8) → Handler σ × List Message
  | h, [] => (h, [])
  | h, segment :: segments =>
    let (h, out) := h.recv c segment
    let (h, out') := recvAll c h segments
    (h, out ++ out')

end Handler

/-! ## The senders -/

def makeHeader (command : UInt32) (msgSize : Nat) (flags : UInt32) (expectResponse : Bool) :
    BucketHead2 where
  signature := levinSignature
  cb := UInt64.ofNat msgSize
  haveToReturnData := if expectResponse then 1 else 0
  command := command
  returnCode := 0
  flags := flags
  protocolVersion := protocolVer1

/-- `message_writer::finalize_notify`, for the payload written so far. -/
def finalizeNotify (command : UInt32) (payload : List UInt8) : List UInt8 :=
  (makeHeader command payload.length packetRequest false).toBytes ++ payload

def makeNoiseNotify (noiseBytes : Nat) : Option (List UInt8) :=
  if noiseBytes < headSize then none
  else
    some ((makeHeader 0 (noiseBytes - headSize) (packetBegin ||| packetEnd) false).toBytes ++
      List.replicate (noiseBytes - headSize) 0)

/-- The loop of `make_fragmented_notify` over what is left of the message: a fragment each,
the last one padded. `fuel` is at least the number of bytes left. -/
def fragmentLoop (payloadSpace : Nat) : Nat → List UInt8 → List UInt8
  | 0, _ => []
  | fuel + 1, payload =>
    if payload.isEmpty then []
    else
      let copied := payload.take payloadSpace
      let payload := payload.drop payloadSpace
      if payload.isEmpty then
        (makeHeader 0 payloadSpace packetEnd false).toBytes ++ copied
          ++ List.replicate (payloadSpace - copied.length) 0
      else
        (makeHeader 0 payloadSpace 0 false).toBytes ++ copied
          ++ fragmentLoop payloadSpace fuel payload

def makeFragmentedNotify (noiseSize : Nat) (command : UInt32) (payload : List UInt8) :
    Option (List UInt8) :=
  if noiseSize < headSize * 2 then none
  else if headSize + payload.length ≤ noiseSize then
    some (finalizeNotify command
      (payload ++ List.replicate (noiseSize - (headSize + payload.length)) 0))
  else
    let message := finalizeNotify command payload
    let payloadSpace := noiseSize - headSize
    some ((makeHeader 0 payloadSpace packetBegin false).toBytes ++ message.take payloadSpace
      ++ fragmentLoop payloadSpace message.length (message.drop payloadSpace))

end Oxyra.Levin
