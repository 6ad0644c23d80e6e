import Oxyra.Basic.Difficulty
import Oxyra.Lib.Codec

/-!
# RPC payment (`rpc_payment.cpp`)

A client mines on block templates and is credited for the nonces it finds. Its record keeps
the current template and the one before, each with the nonces that were submitted for it.

The hash functions, the hashing blob of a block and the edits of the coinbase's extra field
are parameters. The statistics are left out, and so are the locks; `time(NULL)` is passed in.
-/

namespace Oxyra.Rpc

def staleThreshold : UInt64 := 15

def penaltyForStale : UInt64 := 0

def penaltyForBadHash : UInt64 := 20

def penaltyForDuplicate : UInt64 := 20

def add64clamp (value add : UInt64) : UInt64 :=
  if value > UInt64.ofNat (2 ^ 64 - 1) - add then UInt64.ofNat (2 ^ 64 - 1) else value + add

def sub64clamp (value sub : UInt64) : UInt64 :=
  if value < sub then 0 else value - sub

/-- The constant members of `rpc_payment`, and what it calls. -/
structure Payment where
  diff : UInt64
  creditsPerHashFound : UInt64
  getBlockHashingBlob : Block → List UInt8
  rxSlowHash : Hash → List UInt8 → Hash
  cnSlowHash : List UInt8 → (variant height : Nat) → Hash
  /-- The four bytes taken from the hash of the client's key. -/
  extraNonceOf : PublicKey → List UInt8
  /-- `remove_field_from_tx_extra` for the nonce -/
  removeExtraNonce : List UInt8 → Option (List UInt8)
  /-- `add_extra_nonce_to_tx_extra` -/
  addExtraNonce : List UInt8 → List UInt8 → Option (List UInt8)

structure ClientInfo where
  block : Block := {}
  previousBlock : Block := {}
  hashingBlob : List UInt8 := []
  previousHashingBlob : List UInt8 := []
  previousSeedHeight : UInt64 := 0
  seedHeight : UInt64 := 0
  previousSeedHash : Hash := nullHash
  seedHash : Hash := nullHash
  cookie : UInt32 := 0
  top : Hash := nullHash
  previousTop : Hash := nullHash
  credits : UInt64 := 0
  payments : List UInt32 := []
  previousPayments : List UInt32 := []
  updateTime : UInt64
  lastRequestTimestamp : UInt64 := 0
  blockTemplateUpdateTime : UInt64 := 0

/-- What `get_info` returns. -/
structure InfoAnswer where
  hashingBlob : List UInt8
  seedHeight : UInt64
  seedHash : Hash
  diff : UInt64
  creditsPerHashFound : UInt64
  credits : UInt64
  cookie : UInt32

/-- What `submit_nonce` returns for a nonce that is credited. -/
structure SubmitAnswer where
  credits : UInt64
  hash : Hash
  block : Block
  stale : Bool

/-- `error_code` and `error_message` of `submit_nonce` -/
structure SubmitError where
  code : Int
  message : String

/-- What the callback `get_block_template` returns: block, seed height and seed hash. -/
abbrev TemplateResult := Block × UInt64 × Hash

namespace ClientInfo

variable (p : Payment) (client : PublicKey) (info : ClientInfo)

/-- `balance`. At the least `int64_t` the negation wraps here. -/
def balance (delta : Int64) : UInt64 × ClientInfo :=
  let credits :=
    if 0 < delta ∧ info.credits > UInt64.ofNat (2 ^ 64 - 1) - delta.toUInt64 then
      UInt64.ofNat (2 ^ 64 - 1)
    else if delta < 0 ∧ info.credits < (-delta).toUInt64 then 0
    else info.credits + delta.toUInt64
  (credits, { info with credits := credits })

/-- `pay`: whether it succeeds, and the credits it reports if it gets that far. -/
def pay (ts payment : UInt64) (sameTs : Bool) : Bool × Option UInt64 × ClientInfo :=
  if ts < info.lastRequestTimestamp ∨ (ts = info.lastRequestTimestamp ∧ sameTs = false) then
    (false, none, info)
  else
    let info := { info with lastRequestTimestamp := ts }
    if info.credits < payment then (false, some info.credits, info)
    else
      let info := { info with credits := info.credits - payment }
      (true, some info.credits, info)

/-- Whether `get_info` takes a new template. -/
def needTemplate (top : Hash) (now : UInt64) : Bool :=
  top ≠ info.top || now ≥ info.blockTemplateUpdateTime + staleThreshold

/-- The new template, with the client's nonce in the coinbase. -/
def newTemplate (getBlockTemplate : List UInt8 → Option TemplateResult) : Option TemplateResult :=
  (getBlockTemplate [0x42, 0x42, 0x42, 0x42]).bind fun (block, seedHeight, seedHash) =>
    (p.removeExtraNonce block.minerTx.extra).bind fun extra =>
      (p.addExtraNonce extra (p.extraNonceOf client)).map fun extra =>
        ({ block with minerTx := { block.minerTx with extra := extra } }, seedHeight, seedHash)

/-- The record once it has a new template. -/
def refresh (now : UInt64) (template : TemplateResult) : ClientInfo :=
  { info with
    previousBlock := info.block
    block := template.1
    previousHashingBlob := info.hashingBlob
    hashingBlob := p.getBlockHashingBlob template.1
    previousTop := info.top
    previousSeedHeight := info.seedHeight
    seedHeight := template.2.1
    previousSeedHash := info.seedHash
    seedHash := template.2.2
    previousPayments := info.payments
    payments := []
    cookie := info.cookie + 1
    blockTemplateUpdateTime := now }

/-- The end of `get_info`. -/
def handOut (top : Hash) (now : UInt64) : InfoAnswer × ClientInfo :=
  ({ hashingBlob := info.hashingBlob
     seedHeight := info.seedHeight
     seedHash := info.seedHash
     diff := p.diff
     creditsPerHashFound := p.creditsPerHashFound
     credits := info.credits
     cookie := info.cookie },
    { info with top := top, updateTime := now })

def getInfo (getBlockTemplate : List UInt8 → Option TemplateResult) (top : Hash) (now : UInt64) :
    Option InfoAnswer × ClientInfo :=
  if info.needTemplate top now then
    match newTemplate p client getBlockTemplate with
    | none => (none, info)
    | some template =>
      let r := (info.refresh p now template).handOut p top now
      (some r.1, r.2)
  else
    let r := info.handOut p top now
    (some r.1, r.2)

end ClientInfo

/-- The hashing blob with the nonce written into it. -/
def withNonce (hashingBlob : List UInt8) (nonce : UInt32) : List UInt8 :=
  hashingBlob.take 39 ++ Codec.bytesOf32 nonce ++ hashingBlob.drop 43

/-- The proof-of-work hash of a hashing blob: `RX_BLOCK_VERSION` is 12, and the first byte of
the blob is a signed `char`. -/
def Payment.slowHash (p : Payment) (block : Block) (seedHash : Hash) (hashingBlob : List UInt8) :
    Hash :=
  if block.majorVersion ≥ 12 then p.rxSlowHash seedHash hashingBlob
  else
    let first := (hashingBlob.headD 0).toNat
    p.cnSlowHash hashingBlob (if 7 ≤ first ∧ first < 128 then first - 6 else 0)
      (getBlockHeight block)

namespace ClientInfo

variable (p : Payment) (info : ClientInfo)

/-- A refusal that costs credits. -/
def refuse (penalty : UInt64) (code : Int) (message : String) :
    Except SubmitError SubmitAnswer × ClientInfo :=
  (.error ⟨code, message⟩,
    { info with credits := sub64clamp info.credits (penalty * p.creditsPerHashFound) })

/-- `payments.insert(nonce)` into the set the nonce belongs to. -/
def noteNonce (isCurrent : Bool) (nonce : UInt32) : ClientInfo :=
  { info with
    payments := if isCurrent then nonce :: info.payments else info.payments
    previousPayments :=
      if isCurrent then info.previousPayments else nonce :: info.previousPayments }

/-- The end of `submit_nonce`, for a nonce that was not submitted before. -/
def checkNonce (isCurrent : Bool) (nonce : UInt32) (now : UInt64) :
    Except SubmitError SubmitAnswer × ClientInfo :=
  if isCurrent = false ∧ now > info.updateTime + staleThreshold then
    info.refuse p penaltyForStale (-18) "stale payment"
  else
    let hashingBlob := if isCurrent then info.hashingBlob else info.previousHashingBlob
    if hashingBlob.length < 43 then (.error ⟨-6, "not initialized"⟩, info)
    else
      let block := if isCurrent then info.block else info.previousBlock
      let seedHash := if isCurrent then info.seedHash else info.previousSeedHash
      let hash := p.slowHash block seedHash (withNonce hashingBlob nonce)
      if checkHash hash p.diff.toNat then
        let credits := add64clamp info.credits p.creditsPerHashFound
        (.ok ⟨credits, hash, { info.block with nonce := nonce }, !isCurrent⟩,
          { info with credits := credits })
      else
        info.refuse p penaltyForBadHash (-16)
          ("Hash does not meet difficulty (could be wrong PoW hash, or mining at lower " ++
            "difficulty than required, or attempt to defraud)")

def submitNonce (nonce : UInt32) (cookie : UInt32) (now : UInt64) :
    Except SubmitError SubmitAnswer × ClientInfo :=
  if cookie ≠ info.cookie ∧ cookie ≠ info.cookie - 1 then
    info.refuse p penaltyForStale (-18) "Very stale payment"
  else
    let isCurrent := decide (cookie = info.cookie)
    let payments := if isCurrent then info.payments else info.previousPayments
    if nonce ∈ payments then info.refuse p penaltyForDuplicate (-17) "Duplicate payment"
    else (info.noteNonce isCurrent nonce).checkNonce p isCurrent nonce now

end ClientInfo

inductive Call where
  | getInfo (getBlockTemplate : List UInt8 → Option TemplateResult) (top : Hash)
  | submitNonce (nonce : UInt32) (cookie : UInt32)
  | pay (ts payment : UInt64) (sameTs : Bool)
  | balance (delta : Int64)

inductive Answer where
  | info (answer : Option InfoAnswer)
  | submitted (answer : Except SubmitError SubmitAnswer)
  | paid (success : Bool) (credits : Option UInt64)
  | balance (credits : UInt64)

/-- One call on a record. -/
def ClientInfo.call (p : Payment) (client : PublicKey) (now : UInt64) (info : ClientInfo) :
    Call → Answer × ClientInfo
  | .getInfo getBlockTemplate top =>
    let r := info.getInfo p client getBlockTemplate top now
    (.info r.1, r.2)
  | .submitNonce nonce cookie =>
    let r := info.submitNonce p nonce cookie now
    (.submitted r.1, r.2)
  | .pay ts payment sameTs =>
    let r := info.pay ts payment sameTs
    (.paid r.1 r.2.1, r.2.2)
  | .balance delta =>
    let r := info.balance delta
    (.balance r.1, r.2)

/-- A call of a client, with the clock where its record is created and in the call. -/
structure Request where
  client : PublicKey
  created : UInt64
  now : UInt64
  call : Call

/-- `m_client_info` -/
abbrev Clients := PublicKey → Option ClientInfo

/-- The record of a client; it is created if there is none. -/
def Clients.infoOf (clients : Clients) (client : PublicKey) (created : UInt64) : ClientInfo :=
  (clients client).getD { updateTime := created }

def Clients.request (p : Payment) (clients : Clients) (r : Request) : Answer × Clients :=
  let answer := (clients.infoOf r.client r.created).call p r.client r.now r.call
  (answer.1, Function.update clients r.client (some answer.2))

/-- Whether a request makes the client's record take a new template. -/
def Clients.refreshes (p : Payment) (clients : Clients) (r : Request) : Bool :=
  match r.call with
  | .getInfo getBlockTemplate top =>
    (clients.infoOf r.client r.created).needTemplate top r.now &&
      (ClientInfo.newTemplate p r.client getBlockTemplate).isSome
  | _ => false

end Oxyra.Rpc
