import Oxyra.Logic.Levin

/-!
# Levin: segmentation and fragmentation

* `segmentation_independent`: what is dispatched, whether the connection is closed and
  where the parser stands do not depend on how the stream was cut into segments.
* `fragmented_notify_received`: a message sent in pieces arrives as one notification,
  however its bytes are cut into segments and with noise between the pieces.
-/

namespace Oxyra.Levin

variable {σ : Type} {c : Config σ} {maxPacketSize : UInt64}

namespace Handler

variable {n : Nat} {out : List Message} {p' q : Parser σ}

/-- **Parsing does not depend on segmentation**, if no handler closes its own connection. Two
ways of cutting a stream, of which every segment gets past the guard on the total size,
dispatch the same messages and agree on whether the connection is closed; where it stays
open the parser, the fragments and the bytes not used are the same. -/
theorem segmentation_independent (c : Config σ) (hnone : c.NoneCloses) (maxPacketSize : UInt64)
    (context : σ)
    (segments segments' : List (List UInt8)) (hcut : segments.flatten = segments'.flatten)
    (hadmitted : (init maxPacketSize context).Admitted c maxPacketSize segments)
    (hadmitted' : (init maxPacketSize context).Admitted c maxPacketSize segments') :
    let r := (init maxPacketSize context).recvAll c segments
    let r' := (init maxPacketSize context).recvAll c segments'
    r.2 = r'.2 ∧ r.1.closeCalled = r'.1.closeCalled ∧
      (r.1.closeCalled = false → r.1 = r'.1) := by
  have hwait : step c maxPacketSize (init maxPacketSize context).parser
      (init maxPacketSize context).cacheInBuffer = .wait := rfl
  obtain ⟨hat, hout⟩ := recvAll_drain rfl hwait hadmitted hnone
  obtain ⟨hat', hout'⟩ := recvAll_drain rfl hwait hadmitted' hnone
  rw [← hcut] at hat' hout'
  generalize Incremental.drain (step c maxPacketSize) turns (init maxPacketSize context).parser
    ((init maxPacketSize context).cacheInBuffer ++ segments.flatten) = run at *
  refine ⟨hout.trans hout'.symm, ?_⟩
  obtain ⟨status, out⟩ := run
  cases status with
  | stopped =>
    have hclosed : ((init maxPacketSize context).recvAll c segments).1.closeCalled = true := hat
    have hclosed' : ((init maxPacketSize context).recvAll c segments').1.closeCalled = true :=
      hat'
    exact ⟨hclosed.trans hclosed'.symm, fun hopen => by simp [hclosed] at hopen⟩
  | listening parser unread =>
    have hsame : ((init maxPacketSize context).recvAll c segments).1 =
        ((init maxPacketSize context).recvAll c segments').1 := Eq.trans hat (Eq.symm hat')
    exact ⟨congrArg closeCalled hsame, fun _ => hsame⟩

def counting : Config Nat where
  maxBytes _ _ := 100
  invoke n _ payload := ⟨⟨n + payload.length, false⟩, 0, []⟩
  sendMessage n _ _ := (true, n)
  notify n _ payload := ⟨n + payload.length, false⟩
  responsePending _ := false
  cancelTimer n := (false, n)
  handle n _ _ := ⟨n, false⟩
  handshakeCommand := 1001
  handshakeComplete _ := false
  maxPacketSize := 1000

theorem counting_noneCloses : counting.NoneCloses :=
  ⟨fun _ _ _ => rfl, fun _ _ _ => rfl, fun _ _ _ => rfl⟩

/-- A notification that arrives at once, or cut inside its header. -/
theorem segmentation_independent_two :
    let bytes := finalizeNotify 7 [1, 2, 3]
    let h := init 1000 0
    h.Admitted counting 1000 [bytes] ∧ h.Admitted counting 1000 [bytes.take 10, bytes.drop 10] ∧
      (h.recvAll counting [bytes]).2 =
        (h.recvAll counting [bytes.take 10, bytes.drop 10]).2 := by
  have hone : (init 1000 0).Admitted counting 1000 [finalizeNotify 7 [1, 2, 3]] :=
    ⟨fun _ => by decide +kernel, trivial⟩
  have htwo : (init 1000 0).Admitted counting 1000
      [(finalizeNotify 7 [1, 2, 3]).take 10, (finalizeNotify 7 [1, 2, 3]).drop 10] :=
    ⟨fun _ => by decide +kernel, fun _ => by decide +kernel, trivial⟩
  exact ⟨hone, htwo,
    (segmentation_independent counting counting_noneCloses 1000 0 _ _ (by decide +kernel) hone
      htwo).1⟩

/-- Handlers that close the connection at the first notification. -/
def closing : Config Nat :=
  { counting with notify := fun n _ _ => ⟨n + 1, true⟩ }

/-- **Where a handler closes its connection the segments matter.** Two notifications that arrive
together are both dispatched; the second is not looked at if it comes in a segment of its own. -/
theorem closing_depends_on_segments :
    let bytes := finalizeNotify 7 [1, 2, 3]
    let h := init 1000 0
    [bytes ++ bytes].flatten = [bytes, bytes].flatten ∧
      ((h.recvAll closing [bytes ++ bytes]).2.map Message.payload) = [[1, 2, 3], [1, 2, 3]] ∧
      ((h.recvAll closing [bytes, bytes]).2.map Message.payload) = [[1, 2, 3]] ∧
      h.fits (bytes ++ bytes).length = true ∧
      (h.recv closing bytes).1.fits bytes.length = true := by
  decide +kernel

end Handler

/-! ## Headers on the wire -/

@[simp] theorem length_toBytes (head : BucketHead2) : head.toBytes.length = headSize := by
  simp [BucketHead2.toBytes, headSize]

theorem ofBytes_toBytes (head : BucketHead2) : BucketHead2.ofBytes head.toBytes = head := by
  have h64 : ∀ v : UInt64, UInt64.ofNat (Numeral.ofBytes (Numeral.toBytes 8 v.toNat)) = v := by
    intro v
    rw [Numeral.ofBytes_toBytes v.toNat_lt, UInt64.ofNat_toNat]
  have h32 : ∀ v : UInt32, UInt32.ofNat (Numeral.ofBytes (Numeral.toBytes 4 v.toNat)) = v := by
    intro v
    rw [Numeral.ofBytes_toBytes v.toNat_lt, UInt32.ofNat_toNat]
  have h8 : ∀ v : UInt8, UInt8.ofNat (Numeral.ofBytes [v]) = v := by
    intro v
    simp [Numeral.ofBytes]
  unfold BucketHead2.ofBytes BucketHead2.toBytes
  simp only [List.drop_append, List.take_append, Numeral.length_toBytes, List.length_cons,
    List.length_nil]
  simp [List.drop_eq_nil_of_le, List.take_of_length_le, h64, h32, h8]

theorem drain_message {p : Parser σ} {head : BucketHead2} {body rest : List UInt8}
    (hstate : p.state = .head) (hsig : head.signature = levinSignature)
    (hcb : head.cb.toNat = body.length)
    (hlimit : body.length ≤ min maxPacketSize.toNat (c.maxBytes p.context head.command))
    (hbody : receiveBody c maxPacketSize
      { p with currentHead := head, oponentProtocolVer := head.protocolVersion } body =
        .next p' out) :
    Incremental.drain (step c maxPacketSize) turns p (head.toBytes ++ (body ++ rest)) =
      (Incremental.drain (step c maxPacketSize) turns p' rest).prepend out := by
  have hhead : step c maxPacketSize p (head.toBytes ++ (body ++ rest)) =
      .next { p with
        currentHead := head, state := .body
        oponentProtocolVer := head.protocolVersion } [] headSize := by
    have hlen : ¬ (head.toBytes ++ (body ++ rest)).length < headSize := by
      rw [List.length_append, length_toBytes]
      omega
    unfold step
    simp only [hstate]
    rw [if_neg hlen, List.take_left' (length_toBytes head), ofBytes_toBytes,
      if_neg (not_not.mpr hsig.symm), hcb, if_neg (not_lt.mpr hlimit)]
  have hstep : step c maxPacketSize { p with
      currentHead := head, state := .body
      oponentProtocolVer := head.protocolVersion } (body ++ rest) =
        .next p' out body.length := by
    have hlen : ¬ (body ++ rest).length < body.length := by
      rw [List.length_append]
      omega
    rw [hstate] at hbody
    simp only [step, hcb, if_neg hlen, List.take_left, hbody]
  rw [(incremental_step c maxPacketSize).drain_next hhead, List.drop_left' (length_toBytes head),
    Incremental.Run.prepend_nil, (incremental_step c maxPacketSize).drain_next hstep,
    List.drop_left]

/-! ## A receiver between messages -/

/-- The parser is between messages, with some fragments and a context. -/
structure Idle (p : Parser σ) (fragments : List UInt8) (context : σ) : Prop where
  state : p.state = .head
  fragmentBuffer : p.fragmentBuffer = fragments
  context : p.context = context

section Idle

variable {p : Parser σ} {fragments body : List UInt8} {context : σ}

theorem Idle.drain_message (hidle : Idle p fragments context) (rest : List UInt8)
    {command flags : UInt32} {fragments' : List UInt8} {context' : σ}
    (hlimit : body.length ≤ min maxPacketSize.toNat (c.maxBytes context command))
    (hbody : ∀ q : Parser σ, Idle q fragments context →
      q.currentHead = makeHeader command body.length flags false →
      ∃ q', Idle q' fragments' context' ∧ receiveBody c maxPacketSize q body = .next q' out) :
    ∃ p', Idle p' fragments' context' ∧
      Incremental.drain (step c maxPacketSize) turns p
        ((makeHeader command body.length flags false).toBytes ++ (body ++ rest)) =
          (Incremental.drain (step c maxPacketSize) turns p' rest).prepend out := by
  obtain ⟨p', hidle', hnext⟩ := hbody
    { p with
      currentHead := makeHeader command body.length flags false
      oponentProtocolVer := protocolVer1 } ⟨hidle.state, hidle.fragmentBuffer, hidle.context⟩ rfl
  have hcb : (makeHeader command body.length flags false).cb.toNat = body.length :=
    UInt64.toNat_ofNat_of_lt' ((hlimit.trans (Nat.min_le_left _ _)).trans_lt maxPacketSize.toNat_lt)
  exact ⟨p', hidle', Levin.drain_message hidle.state rfl hcb (by rwa [hidle.context]) hnext⟩

theorem receiveBody_noise (hflags : q.currentHead.flags = packetBegin ||| packetEnd) :
    receiveBody c maxPacketSize q body = .next q [] := by
  unfold receiveBody
  rw [hflags]
  rfl

theorem receiveBody_begin (hflags : q.currentHead.flags = packetBegin) :
    receiveBody c maxPacketSize q body = .next { q with fragmentBuffer := body } [] := by
  unfold receiveBody
  rw [hflags]
  rfl

theorem receiveBody_middle (hflags : q.currentHead.flags = 0) :
    receiveBody c maxPacketSize q body =
      .next { q with fragmentBuffer := q.fragmentBuffer ++ body } [] := by
  unfold receiveBody
  rw [hflags]
  rfl

theorem dispatch_notify {command : UInt32}
    (hhead : q.currentHead = makeHeader command n packetRequest false) :
    dispatch c q body =
      .next (q.after (c.notify q.context command body)) [⟨.notify, command, 0, body⟩] := by
  have hresponse : ¬ (q.oponentProtocolVer = protocolVer1 ∧
      q.currentHead.flags &&& packetResponse ≠ 0) := by
    have hflags : packetRequest &&& packetResponse = 0 := by decide
    rw [hhead]
    exact fun h => h.2 hflags
  unfold dispatch
  simp only
  rw [if_neg hresponse, hhead]
  rfl

theorem Idle.receive_whole {command : UInt32} (hidle : Idle q fragments context)
    (hhead : q.currentHead = makeHeader command body.length packetRequest false) :
    ∃ q', Idle q' fragments (c.notify context command body).context ∧
      receiveBody c maxPacketSize q body = .next q' [⟨.notify, command, 0, body⟩] := by
  have hflags : ¬ q.currentHead.flags &&& (packetRequest ||| packetResponse) = 0 := by
    have hset : ¬ packetRequest &&& (packetRequest ||| packetResponse) = 0 := by decide
    rw [hhead]
    exact hset
  refine ⟨q.after (c.notify q.context command body),
    ⟨hidle.state, hidle.fragmentBuffer, by rw [Parser.after, hidle.context]⟩, ?_⟩
  unfold receiveBody
  simp only
  rw [if_neg hflags]
  exact dispatch_notify hhead

theorem Idle.receive_end {command : UInt32} {payload padding : List UInt8}
    (hidle : Idle q fragments context) (hflags : q.currentHead.flags = packetEnd)
    (hmessage : fragments ++ body = finalizeNotify command payload ++ padding)
    (hlimit : payload.length ≤ min maxPacketSize.toNat (c.maxBytes context command)) :
    ∃ q', Idle q' [] (c.notify context command (payload ++ padding)).context ∧
      receiveBody c maxPacketSize q body =
        .next q' [⟨.notify, command, 0, payload ++ padding⟩] := by
  obtain ⟨hstate, rfl, rfl⟩ := hidle
  have hlen := length_toBytes (makeHeader command payload.length packetRequest false)
  have htake : (finalizeNotify command payload ++ padding).take headSize =
      (makeHeader command payload.length packetRequest false).toBytes := by
    rw [finalizeNotify, List.append_assoc, List.take_left' hlen]
  have hdrop : (finalizeNotify command payload ++ padding).drop headSize = payload ++ padding := by
    rw [finalizeNotify, List.append_assoc, List.drop_left' hlen]
  have hlong : ¬ (finalizeNotify command payload ++ padding).length < headSize := by
    rw [finalizeNotify, List.append_assoc, List.length_append, hlen]
    omega
  have hcb : (makeHeader command payload.length packetRequest false).cb.toNat = payload.length :=
    UInt64.toNat_ofNat_of_lt' ((hlimit.trans (Nat.min_le_left _ _)).trans_lt maxPacketSize.toNat_lt)
  refine ⟨Parser.after { q with
    currentHead := makeHeader command payload.length packetRequest false, fragmentBuffer := [] }
    (c.notify q.context command (payload ++ padding)), ⟨hstate, rfl, rfl⟩, ?_⟩
  have hkept : (if packetEnd &&& packetBegin ≠ 0 then [] else q.fragmentBuffer) ++ body =
      finalizeNotify command payload ++ padding := by
    rw [if_neg (by decide)]
    exact hmessage
  have hfits : ¬ payload.length > min maxPacketSize.toNat (c.maxBytes q.context
      (makeHeader command payload.length packetRequest false).command) := not_lt.mpr hlimit
  unfold receiveBody
  simp only [hflags, hkept]
  rw [if_pos (by decide), if_neg (by decide), if_neg (by decide), if_neg hlong, htake, hdrop,
    ofBytes_toBytes, hcb, if_neg hfits]
  exact dispatch_notify rfl

end Idle

/-! ## The pieces of a message -/

def fragment (flags : UInt32) (body : List UInt8) : List UInt8 :=
  (makeHeader 0 body.length flags false).toBytes ++ body

@[simp] theorem length_fragment (flags : UInt32) (body : List UInt8) :
    (fragment flags body).length = headSize + body.length := by
  rw [fragment, List.length_append, length_toBytes]

theorem fragment_append (flags : UInt32) (body rest : List UInt8) :
    fragment flags body ++ rest =
      (makeHeader 0 body.length flags false).toBytes ++ (body ++ rest) :=
  List.append_assoc _ _ _

/-- **What the loop of the sender gives:** fragments of one size that put together are the
message and zeros, the last one with the end flag. -/
theorem fragmentLoop_spec {space fuel : Nat} {message : List UInt8} (hspace : 0 < space)
    (hfuel : message.length ≤ fuel) (hmessage : message ≠ []) :
    ∃ (mids : List (List UInt8)) (last : List UInt8) (padding : Nat),
      fragmentLoop space fuel message =
        (mids.map (fragment 0)).flatten ++ fragment packetEnd last ∧
      (∀ body ∈ mids, body.length = space) ∧ last.length = space ∧
      mids.flatten ++ last = message ++ List.replicate padding 0 := by
  induction fuel generalizing message with
  | zero => exact absurd (List.length_eq_zero_iff.mp (Nat.le_zero.mp hfuel)) hmessage
  | succ fuel ih =>
    have hpos := List.length_pos_iff.mpr hmessage
    rw [fragmentLoop, if_neg (by rwa [List.isEmpty_iff])]
    by_cases hrest : (message.drop space).isEmpty
    · -- the last fragment takes what is left and is padded
      have hshort : message.length ≤ space := by
        rwa [List.isEmpty_iff, List.drop_eq_nil_iff] at hrest
      have htake : message.take space = message := List.take_of_length_le hshort
      have hlen : (message ++ List.replicate (space - message.length) 0).length = space := by
        rw [List.length_append, List.length_replicate]
        omega
      refine ⟨[], message ++ List.replicate (space - message.length) 0, space - message.length,
        ?_, by simp, hlen, rfl⟩
      simp only [hrest, if_true, htake]
      rw [fragment, hlen, List.append_assoc]
      rfl
    · have hlong : space < message.length := by
        rwa [List.isEmpty_iff, List.drop_eq_nil_iff, not_le] at hrest
      have hlen : (message.take space).length = space := by
        rw [List.length_take]
        omega
      have hleft : (message.drop space).length ≤ fuel := by
        rw [List.length_drop]
        omega
      obtain ⟨mids, last, padding, hloop, hmids, hlast, hflat⟩ :=
        ih hleft (by rwa [List.isEmpty_iff] at hrest)
      refine ⟨message.take space :: mids, last, padding, ?_, ?_, hlast, ?_⟩
      · simp only [hrest, Bool.false_eq_true, if_false, hloop]
        rw [List.map_cons, List.flatten_cons, List.append_assoc (fragment _ _), fragment_append,
          hlen, List.append_assoc]
      · exact List.forall_mem_cons.mpr ⟨hlen, hmids⟩
      · rw [List.flatten_cons, List.append_assoc, hflat, ← List.append_assoc,
          List.take_append_drop]

def noise (sizes : List Nat) : List UInt8 :=
  (sizes.map fun size => (makeNoiseNotify size).getD []).flatten

theorem makeNoiseNotify_eq {size : Nat} (h : headSize ≤ size) :
    makeNoiseNotify size =
      some (fragment (packetBegin ||| packetEnd) (List.replicate (size - headSize) 0)) := by
  rw [makeNoiseNotify, if_neg (not_lt.mpr h), fragment, List.length_replicate]

/-- Pieces of a message, with noise of some sizes before each. -/
def withNoise (pieces : List (List Nat × List UInt8)) : List UInt8 :=
  (pieces.map fun piece => noise piece.1 ++ piece.2).flatten

section Receive

variable {p : Parser σ} {fragments : List UInt8} {context : σ} (rest : List UInt8)

def NoiseFits (c : Config σ) (maxPacketSize : UInt64) (context : σ) (sizes : List Nat) : Prop :=
  ∀ size ∈ sizes, size - headSize ≤ min maxPacketSize.toNat (c.maxBytes context 0)

/-- **Noise changes nothing** but the header the parser remembers. -/
theorem Idle.drain_noise {sizes : List Nat} (hidle : Idle p fragments context)
    (hfits : NoiseFits c maxPacketSize context sizes) :
    ∃ p', Idle p' fragments context ∧
      Incremental.drain (step c maxPacketSize) turns p (noise sizes ++ rest) =
        Incremental.drain (step c maxPacketSize) turns p' rest := by
  induction sizes generalizing p with
  | nil => exact ⟨p, hidle, rfl⟩
  | cons size sizes ih =>
    have hrest := fun {q : Parser σ} (hq : Idle q fragments context) =>
      ih hq fun n hn => hfits n (List.mem_cons_of_mem _ hn)
    rw [noise, List.map_cons, List.flatten_cons, List.append_assoc]
    by_cases hsize : headSize ≤ size
    · have hlimit : (List.replicate (size - headSize) (0 : UInt8)).length ≤
          min maxPacketSize.toNat (c.maxBytes context 0) := by
        rw [List.length_replicate]
        exact hfits size List.mem_cons_self
      obtain ⟨p', hidle', hdrain⟩ := hidle.drain_message (noise sizes ++ rest) hlimit
        fun q hq hhead => ⟨q, hq, receiveBody_noise (by rw [hhead]; rfl)⟩
      obtain ⟨p'', hidle'', hdrain'⟩ := hrest hidle'
      refine ⟨p'', hidle'', ?_⟩
      rw [← hdrain', makeNoiseNotify_eq hsize, Option.getD_some, fragment_append]
      exact hdrain
    · -- noise that could not hold a header is not sent
      rw [makeNoiseNotify, if_pos (not_le.mp hsize)]
      exact hrest hidle

theorem Idle.drain_piece (hidle : Idle p fragments context) (flags : UInt32) {sizes : List Nat}
    {body fragments' : List UInt8} {context' : σ} (hfits : NoiseFits c maxPacketSize context sizes)
    (hlimit : body.length ≤ min maxPacketSize.toNat (c.maxBytes context 0))
    (hbody : ∀ q : Parser σ, Idle q fragments context →
      q.currentHead = makeHeader 0 body.length flags false →
      ∃ q', Idle q' fragments' context' ∧ receiveBody c maxPacketSize q body = .next q' out) :
    ∃ p', Idle p' fragments' context' ∧
      Incremental.drain (step c maxPacketSize) turns p
        ((noise sizes ++ fragment flags body) ++ rest) =
          (Incremental.drain (step c maxPacketSize) turns p' rest).prepend out := by
  obtain ⟨p₁, hidle₁, hnoise⟩ := hidle.drain_noise (fragment flags body ++ rest) hfits
  obtain ⟨p₂, hidle₂, hdrain⟩ := hidle₁.drain_message rest hlimit hbody
  refine ⟨p₂, hidle₂, ?_⟩
  rw [List.append_assoc, hnoise, fragment_append]
  exact hdrain

theorem Idle.drain_middle {mids : List (List UInt8)} {pieces : List (List Nat × List UInt8)}
    (hidle : Idle p fragments context)
    (hpieces : pieces.map Prod.snd = mids.map (fragment 0))
    (hfits : ∀ piece ∈ pieces, NoiseFits c maxPacketSize context piece.1)
    (hlimit : ∀ body ∈ mids, body.length ≤ min maxPacketSize.toNat (c.maxBytes context 0)) :
    ∃ p', Idle p' (fragments ++ mids.flatten) context ∧
      Incremental.drain (step c maxPacketSize) turns p (withNoise pieces ++ rest) =
        Incremental.drain (step c maxPacketSize) turns p' rest := by
  induction mids generalizing p fragments pieces with
  | nil =>
    obtain rfl : pieces = [] := by simpa using hpieces
    exact ⟨p, by rwa [List.flatten_nil, List.append_nil], rfl⟩
  | cons body mids ih =>
    cases pieces with
    | nil => cases hpieces
    | cons piece pieces =>
      obtain ⟨sizes, bytes⟩ := piece
      obtain ⟨rfl, htail⟩ := List.cons.inj hpieces
      obtain ⟨p₁, hidle₁, hfirst⟩ := hidle.drain_piece (withNoise pieces ++ rest) 0
        (hfits (sizes, fragment 0 body) List.mem_cons_self) (hlimit body List.mem_cons_self)
        fun q hq hhead => ⟨{ q with fragmentBuffer := q.fragmentBuffer ++ body },
          ⟨hq.state, by rw [hq.fragmentBuffer], hq.context⟩,
          receiveBody_middle (by rw [hhead]; rfl)⟩
      obtain ⟨p₂, hidle₂, hrest⟩ := ih hidle₁ htail
        (fun piece hpiece => hfits piece (List.mem_cons_of_mem _ hpiece))
        (fun body hbody => hlimit body (List.mem_cons_of_mem _ hbody))
      refine ⟨p₂, by rwa [List.flatten_cons, ← List.append_assoc], ?_⟩
      rw [withNoise, List.map_cons, List.flatten_cons, List.append_assoc, ← hrest]
      exact hfirst

end Receive

/-! ## The whole way -/

/-- How a message of a payload is cut: into one padded message, or into fragments that put
together are the message and zeros. -/
inductive Cut (noiseSize : Nat) (command : UInt32) (payload padding : List UInt8) :
    List (List UInt8) → Prop
  | whole (hfits : headSize + payload.length ≤ noiseSize)
      (hlen : (payload ++ padding).length = noiseSize - headSize) :
      Cut noiseSize command payload padding [finalizeNotify command (payload ++ padding)]
  | fragmented {first last : List UInt8} {mids : List (List UInt8)}
      (hlong : noiseSize < headSize + payload.length)
      (hlen : ∀ body ∈ first :: (mids ++ [last]), body.length = noiseSize - headSize)
      (hmessage : first ++ (mids.flatten ++ last) = finalizeNotify command payload ++ padding) :
      Cut noiseSize command payload padding
        (fragment packetBegin first :: (mids.map (fragment 0) ++ [fragment packetEnd last]))

theorem length_finalizeNotify (command : UInt32) (payload : List UInt8) :
    (finalizeNotify command payload).length = headSize + payload.length := by
  rw [finalizeNotify, List.length_append, length_toBytes]

theorem Cut.length_piece {noiseSize : Nat} {command : UInt32} {payload padding : List UInt8}
    {pieces : List (List UInt8)} (hnoise : headSize ≤ noiseSize)
    (h : Cut noiseSize command payload padding pieces) :
    ∀ piece ∈ pieces, piece.length = noiseSize := by
  cases h with
  | whole hfits hlen =>
    intro piece hpiece
    rw [List.mem_singleton.mp hpiece, length_finalizeNotify, hlen]
    omega
  | @fragmented first last mids hlong hlen hmessage =>
    have hfragment : ∀ flags body, body ∈ first :: (mids ++ [last]) →
        (fragment flags body).length = noiseSize := by
      intro flags body hbody
      rw [length_fragment, hlen body hbody]
      omega
    intro piece hpiece
    rcases List.mem_cons.mp hpiece with rfl | hpiece
    · exact hfragment _ _ (by simp)
    rcases List.mem_append.mp hpiece with hpiece | hpiece
    · obtain ⟨body, hbody, rfl⟩ := List.mem_map.mp hpiece
      exact hfragment _ _ (by simp [hbody])
    · rw [List.mem_singleton.mp hpiece]
      exact hfragment _ _ (by simp)

/-- **The sender cuts a message into pieces of the noise size.** -/
theorem makeFragmentedNotify_cut {noiseSize : Nat} (hnoise : headSize * 2 ≤ noiseSize)
    (command : UInt32) (payload : List UInt8) :
    ∃ pieces padding, makeFragmentedNotify noiseSize command payload = some pieces.flatten ∧
      Cut noiseSize command payload (List.replicate padding 0) pieces := by
  have hhead : headSize = 33 := rfl
  unfold makeFragmentedNotify
  rw [if_neg (not_lt.mpr hnoise)]
  by_cases hfits : headSize + payload.length ≤ noiseSize
  · rw [if_pos hfits]
    refine ⟨_, noiseSize - (headSize + payload.length), ?_, .whole hfits ?_⟩
    · rw [List.flatten_singleton]
    · rw [List.length_append, List.length_replicate]
      omega
  · rw [if_neg hfits]
    have hlen := length_finalizeNotify command payload
    have hrest : (finalizeNotify command payload).drop (noiseSize - headSize) ≠ [] := by
      rw [ne_eq, List.drop_eq_nil_iff]
      omega
    have hfirst : ((finalizeNotify command payload).take (noiseSize - headSize)).length =
        noiseSize - headSize := by
      rw [List.length_take]
      omega
    have hfuel : ((finalizeNotify command payload).drop (noiseSize - headSize)).length ≤
        (finalizeNotify command payload).length := by
      rw [List.length_drop]
      omega
    obtain ⟨mids, last, padding, hloop, hmids, hlast, hflat⟩ :=
      fragmentLoop_spec (show 0 < noiseSize - headSize by omega) hfuel hrest
    refine ⟨fragment packetBegin ((finalizeNotify command payload).take (noiseSize - headSize)) ::
      (mids.map (fragment 0) ++ [fragment packetEnd last]), padding, ?_,
      .fragmented (not_le.mp hfits) ?_ ?_⟩
    · simp only [hloop]
      rw [List.flatten_cons, fragment_append, hfirst, List.flatten_append, List.flatten_singleton,
        List.append_assoc]
    · intro body hbody
      rcases List.mem_cons.mp hbody with rfl | hbody
      · exact hfirst
      rcases List.mem_append.mp hbody with hbody | hbody
      · exact hmids body hbody
      · rw [List.mem_singleton.mp hbody, hlast]
    · rw [hflat, ← List.append_assoc, List.take_append_drop]

section Receive

variable {p : Parser σ} {fragments payload padding : List UInt8} {context : σ} {noiseSize : Nat}
  {command : UInt32}

/-- The sizes are within the limits of the receiver. -/
structure WithinLimits (c : Config σ) (maxPacketSize : UInt64) (context : σ) (noiseSize : Nat)
    (command : UInt32) (payload : List UInt8) : Prop where
  whole : headSize + payload.length ≤ noiseSize →
    noiseSize - headSize ≤ min maxPacketSize.toNat (c.maxBytes context command)
  piece : noiseSize < headSize + payload.length →
    noiseSize - headSize ≤ min maxPacketSize.toNat (c.maxBytes context 0)
  message : noiseSize < headSize + payload.length →
    payload.length ≤ min maxPacketSize.toNat (c.maxBytes context command)

/-- **The pieces arrive as one notification.** -/
theorem Idle.drain_cut {pieces : List (List Nat × List UInt8)} (hidle : Idle p fragments context)
    (hcut : Cut noiseSize command payload padding (pieces.map Prod.snd))
    (hlimits : WithinLimits c maxPacketSize context noiseSize command payload)
    (hfits : ∀ piece ∈ pieces, NoiseFits c maxPacketSize context piece.1) :
    ∃ p', p'.state = .head ∧
      Incremental.drain (step c maxPacketSize) turns p (withNoise pieces) =
        ⟨.listening p' [], [⟨.notify, command, 0, payload ++ padding⟩]⟩ := by
  have hend : ∀ {q : Parser σ}, q.state = .head →
      Incremental.drain (step c maxPacketSize) turns q [] = ⟨.listening q [], []⟩ := by
    intro q hq
    refine Incremental.drain_wait ?_
    unfold step
    simp only [hq]
    rfl
  generalize hsnd : pieces.map Prod.snd = cut at hcut
  cases hcut with
  | whole hwhole hlen =>
    obtain ⟨⟨sizes, bytes⟩, rfl, rfl⟩ := List.map_eq_singleton_iff.mp hsnd
    have hlimit : (payload ++ padding).length ≤
        min maxPacketSize.toNat (c.maxBytes context command) := hlen ▸ hlimits.whole hwhole
    obtain ⟨p₁, hidle₁, hnoise⟩ := hidle.drain_noise
      (finalizeNotify command (payload ++ padding)) (hfits _ List.mem_cons_self)
    obtain ⟨p₂, hidle₂, hmessage⟩ := hidle₁.drain_message [] hlimit
      fun q hq hhead => hq.receive_whole hhead
    rw [List.append_nil, hend hidle₂.state] at hmessage
    refine ⟨p₂, hidle₂.state, ?_⟩
    rw [withNoise, List.map_singleton, List.flatten_singleton, hnoise]
    exact hmessage
  | @fragmented first last mids hlong hlen hmessage =>
    have hpiece := hlimits.piece hlong
    obtain ⟨⟨sizes, bytes⟩, tail, rfl, rfl, htail⟩ := List.map_eq_cons_iff.mp hsnd
    obtain ⟨middle, ends, rfl, hmiddle, hends⟩ := List.map_eq_append_iff.mp htail
    obtain ⟨⟨sizes', bytes'⟩, rfl, rfl⟩ := List.map_eq_singleton_iff.mp hends
    have hsizes : NoiseFits c maxPacketSize context sizes := hfits _ List.mem_cons_self
    have hsizes' : NoiseFits c maxPacketSize context sizes' :=
      hfits (sizes', fragment packetEnd last) (by simp)
    -- the first piece clears what was left of another message
    obtain ⟨p₁, hidle₁, hfirst⟩ := hidle.drain_piece
      (withNoise middle ++ (noise sizes' ++ fragment packetEnd last)) packetBegin hsizes
      (hlen first (by simp) ▸ hpiece)
      fun q hq hhead => ⟨{ q with fragmentBuffer := first }, ⟨hq.state, rfl, hq.context⟩,
        receiveBody_begin (by rw [hhead]; rfl)⟩
    obtain ⟨p₂, hidle₂, hmids⟩ := hidle₁.drain_middle (noise sizes' ++ fragment packetEnd last)
      hmiddle (fun piece h => hfits piece (by simp [h]))
      fun body hbody => hlen body (by simp [hbody]) ▸ hpiece
    obtain ⟨p₃, hidle₃, hlast⟩ := hidle₂.drain_piece [] packetEnd hsizes'
      (hlen last (by simp) ▸ hpiece) fun q hq hhead =>
        hq.receive_end (by rw [hhead]; rfl) (by rw [List.append_assoc, hmessage])
          (hlimits.message hlong)
    rw [List.append_nil, hend hidle₃.state] at hlast
    refine ⟨p₃, hidle₃.state, ?_⟩
    have hstream : withNoise ((sizes, fragment packetBegin first) ::
        (middle ++ [(sizes', fragment packetEnd last)])) =
        (noise sizes ++ fragment packetBegin first) ++
          (withNoise middle ++ (noise sizes' ++ fragment packetEnd last)) := by
      simp [withNoise]
    rw [hstream, hfirst, hmids, hlast]
    rfl

end Receive

/-! ## Fragmentation round trip -/

theorem eq_of_flatten_eq {α : Type} (hn : 0 < n) {xs ys : List (List α)}
    (hx : ∀ x ∈ xs, x.length = n) (hy : ∀ y ∈ ys, y.length = n) (h : xs.flatten = ys.flatten) :
    xs = ys := by
  induction xs generalizing ys with
  | nil =>
    cases ys with
    | nil => rfl
    | cons y ys =>
      have hlen := congrArg List.length h
      rw [List.flatten_cons, List.length_append, hy y List.mem_cons_self] at hlen
      simp at hlen
      omega
  | cons x xs ih =>
    cases ys with
    | nil =>
      have hlen := congrArg List.length h
      rw [List.flatten_cons, List.length_append, hx x List.mem_cons_self] at hlen
      simp at hlen
      omega
    | cons y ys =>
      rw [List.flatten_cons, List.flatten_cons] at h
      have hlen : x.length = y.length := by
        rw [hx x List.mem_cons_self, hy y List.mem_cons_self]
      obtain ⟨rfl, htail⟩ := List.append_inj h hlen
      rw [ih (fun x' h' => hx x' (List.mem_cons_of_mem _ h'))
        (fun y' h' => hy y' (List.mem_cons_of_mem _ h')) htail]

theorem length_flatten_of_length {α : Type} {xs : List (List α)} (hx : ∀ x ∈ xs, x.length = n) :
    xs.flatten.length = xs.length * n := by
  induction xs with
  | nil => rw [List.flatten_nil, List.length_nil, List.length_nil, Nat.zero_mul]
  | cons x xs ih =>
    rw [List.flatten_cons, List.length_append, hx x List.mem_cons_self,
      ih fun x' h' => hx x' (List.mem_cons_of_mem _ h'), List.length_cons, Nat.succ_mul,
      Nat.add_comm]

namespace Handler

variable {h : Handler σ}

/-- An open connection on which no message has begun to arrive. -/
structure BetweenMessages (h : Handler σ) : Prop where
  isOpen : h.closeCalled = false
  cache : h.cacheInBuffer = []
  state : h.parser.state = .head

/-- The segments dispatch one message, after which the connection is between messages, or has
been closed by a handler. -/
def ReceivesOnce (c : Config σ) (h : Handler σ) (segments : List (List UInt8))
    (message : Message) : Prop :=
  (h.recvAll c segments).2 = [message] ∧
    (c.NoneCloses → (h.recvAll c segments).1.BetweenMessages)

theorem BetweenMessages.of_listening {p : Parser σ} {input : List UInt8} (hnone : c.NoneCloses)
    (hopen : p.closeCalled = false)
    (hdrain : Incremental.drain (step c maxPacketSize) turns p input = ⟨.listening p' [], out⟩)
    (hstate : p'.state = .head)
    (hat : h.At (Incremental.drain (step c maxPacketSize) turns p input).status) :
    h.BetweenMessages := by
  have hopen' : p'.closeCalled = false :=
    (incremental_step c maxPacketSize).drain_invariant
      (fun hstep _ hq => (step_closeCalled hstep (.inl hnone)).trans hq) hdrain hopen
  rw [hdrain] at hat
  obtain rfl : h = ⟨[], p'⟩ := hat
  exact ⟨hopen', rfl, hstate⟩

theorem receivesOnce_of_drain {segments : List (List UInt8)} {message : Message}
    (hbetween : h.BetweenMessages) (hadmitted : h.Admitted c h.parser.maxPacketSize segments)
    (hstate : p'.state = .head)
    (hdrain : Incremental.drain (step c h.parser.maxPacketSize) turns h.parser segments.flatten =
      ⟨.listening p' [], [message]⟩) :
    h.ReceivesOnce c segments message := by
  have hwait : step c h.parser.maxPacketSize h.parser h.cacheInBuffer = .wait := by
    rw [hbetween.cache]
    unfold step
    simp only [hbetween.state]
    rfl
  have hwhole : Incremental.drain (step c h.parser.maxPacketSize) turns h.parser
      (h.cacheInBuffer ++ segments.flatten) = ⟨.listening p' [], [message]⟩ := by
    rw [hbetween.cache]
    exact hdrain
  refine ⟨recvAll_single hbetween.isOpen hwait hadmitted hwhole, fun hnone => ?_⟩
  obtain ⟨hat, -⟩ := recvAll_drain hbetween.isOpen hwait hadmitted hnone
  exact .of_listening hnone hbetween.isOpen hwhole hstate hat

/-- **Fragmentation round trip.** What `make_fragmented_notify` gives is a positive number of
pieces of the noise size. A receiver between messages, within whose limits the sizes are,
dispatches one notification of it, of the payload and zeros, however it is cut into
segments; and noise between the pieces changes nothing. -/
theorem fragmented_notify_received (c : Config σ) (h : Handler σ) (hbetween : h.BetweenMessages)
    (noiseSize : Nat) (hnoise : headSize * 2 ≤ noiseSize) (command : UInt32)
    (payload : List UInt8)
    (hlimits : WithinLimits c h.parser.maxPacketSize h.parser.context noiseSize command payload) :
    ∃ bytes padding, makeFragmentedNotify noiseSize command payload = some bytes ∧
      (∃ n, 0 < n ∧ bytes.length = n * noiseSize) ∧
      (∀ segments, segments.flatten = bytes →
        h.Admitted c h.parser.maxPacketSize segments →
        h.ReceivesOnce c segments
          ⟨.notify, command, 0, payload ++ List.replicate padding 0⟩) ∧
      ∀ pieces : List (List Nat × List UInt8), (pieces.map Prod.snd).flatten = bytes →
        (∀ piece ∈ pieces, piece.2.length = noiseSize ∧
          NoiseFits c h.parser.maxPacketSize h.parser.context piece.1) →
        ∀ segments, segments.flatten = withNoise pieces →
          h.Admitted c h.parser.maxPacketSize segments →
          h.ReceivesOnce c segments
            ⟨.notify, command, 0, payload ++ List.replicate padding 0⟩ := by
  have hhead : headSize = 33 := rfl
  obtain ⟨cut, padding, hbytes, hcut⟩ := makeFragmentedNotify_cut hnoise command payload
  have hlen := hcut.length_piece (by omega)
  have hidle : Idle h.parser h.parser.fragmentBuffer h.parser.context :=
    ⟨hbetween.state, rfl, rfl⟩
  refine ⟨cut.flatten, padding, hbytes, ⟨cut.length, ?_, length_flatten_of_length hlen⟩,
    (and_iff_right_of_imp ?_).mpr ?_⟩
  · cases hcut with
    | whole => exact Nat.one_pos
    | fragmented => exact Nat.succ_pos _
  · -- no noise at all
    intro hreceive segments hsegments hadmitted
    refine hreceive (cut.map fun piece => ([], piece)) ?_ ?_ segments ?_ hadmitted
    · rw [List.map_map]
      exact congrArg List.flatten (List.map_id _)
    · intro piece hpiece
      obtain ⟨piece, hmem, rfl⟩ := List.mem_map.mp hpiece
      exact ⟨hlen piece hmem, fun _ hsize => absurd hsize List.not_mem_nil⟩
    · rw [hsegments, withNoise, List.map_map]
      exact congrArg List.flatten (List.map_id _).symm
  · -- the pieces are those of the sender
    intro pieces hflat hpieces segments hsegments hadmitted
    have hsame : pieces.map Prod.snd = cut := by
      refine eq_of_flatten_eq (by omega) (fun x hx => ?_) hlen hflat
      obtain ⟨piece, hpiece, rfl⟩ := List.mem_map.mp hx
      exact (hpieces piece hpiece).1
    obtain ⟨p', hstate, hdrain⟩ := hidle.drain_cut (hsame ▸ hcut) hlimits
      fun piece hpiece => (hpieces piece hpiece).2
    exact receivesOnce_of_drain hbetween hadmitted hstate (hsegments ▸ hdrain)

/-- Forty bytes in pieces of 66, to a new connection. -/
theorem fragmented_notify_received_forty :
    (init 1000 0).BetweenMessages ∧
      WithinLimits counting 1000 0 66 7 (List.replicate 40 1) ∧
      ∃ bytes padding, makeFragmentedNotify 66 7 (List.replicate 40 1) = some bytes ∧
        ∀ segments, segments.flatten = bytes → (init 1000 0).Admitted counting 1000 segments →
          (init 1000 0).ReceivesOnce counting segments
            ⟨.notify, 7, 0, List.replicate 40 1 ++ List.replicate padding 0⟩ := by
  have hbetween : (init 1000 0).BetweenMessages := ⟨rfl, rfl, rfl⟩
  have hlimits : WithinLimits counting 1000 0 66 7 (List.replicate 40 1) :=
    ⟨by decide, by decide, by decide⟩
  obtain ⟨bytes, padding, hbytes, -, hreceive, -⟩ :=
    fragmented_notify_received counting (init 1000 0) hbetween 66 (by decide) 7
      (List.replicate 40 1) hlimits
  exact ⟨hbetween, hlimits, bytes, padding, hbytes, hreceive⟩

/-! ## A stream of notifications -/

/-- A notification on its way, in pieces with noise of some sizes before each. -/
structure Sending where
  noiseSize : Nat
  command : UInt32
  payload : List UInt8
  pieces : List (List Nat × List UInt8)

/-- The pieces are those of `make_fragmented_notify`, and all sizes are within the limits
of the receiver, whatever its handlers have made of the context by then. -/
structure Sending.Ok (c : Config σ) (maxPacketSize : UInt64) (m : Sending) : Prop where
  space : headSize * 2 ≤ m.noiseSize
  made : makeFragmentedNotify m.noiseSize m.command m.payload =
    some (m.pieces.map Prod.snd).flatten
  length : ∀ piece ∈ m.pieces, piece.2.length = m.noiseSize
  fits : ∀ context, WithinLimits c maxPacketSize context m.noiseSize m.command m.payload ∧
    ∀ piece ∈ m.pieces, NoiseFits c maxPacketSize context piece.1

def Sending.Gives (m : Sending) (message : Message) : Prop :=
  ∃ padding, message = ⟨.notify, m.command, 0, m.payload ++ List.replicate padding 0⟩

theorem Sending.Ok.drain {m : Sending} (hm : m.Ok c maxPacketSize) {p : Parser σ}
    (hp : p.state = .head) : ∃ p' message, p'.state = .head ∧ m.Gives message ∧
      Incremental.drain (step c maxPacketSize) turns p (withNoise m.pieces) =
        ⟨.listening p' [], [message]⟩ := by
  obtain ⟨cut, padding, hbytes, hcut⟩ := makeFragmentedNotify_cut hm.space m.command m.payload
  have hpos : 0 < m.noiseSize := lt_of_lt_of_le (by decide) hm.space
  have hsame : m.pieces.map Prod.snd = cut := by
    refine eq_of_flatten_eq hpos (fun x hx => ?_)
      (hcut.length_piece (le_trans (by decide) hm.space))
      (Option.some.inj (hm.made.symm.trans hbytes))
    obtain ⟨piece, hpiece, rfl⟩ := List.mem_map.mp hx
    exact hm.length piece hpiece
  obtain ⟨p', hp', hdrain⟩ := Idle.drain_cut ⟨hp, rfl, rfl⟩ (hsame ▸ hcut) (hm.fits p.context).1
    (hm.fits p.context).2
  exact ⟨p', _, hp', ⟨padding, rfl⟩, hdrain⟩

theorem step_head_nil {p : Parser σ} (hp : p.state = .head) :
    step c maxPacketSize p [] = .wait := by
  unfold step
  simp only [hp]
  rfl

theorem drain_sent (sent : List Sending) (hsent : ∀ m ∈ sent, m.Ok c maxPacketSize)
    {p : Parser σ} (hp : p.state = .head) :
    ∃ p' out, p'.state = .head ∧ List.Forall₂ Sending.Gives sent out ∧
      Incremental.drain (step c maxPacketSize) turns p
        (sent.map fun m => withNoise m.pieces).flatten = ⟨.listening p' [], out⟩ := by
  induction sent generalizing p with
  | nil => exact ⟨p, [], hp, .nil, Incremental.drain_wait (step_head_nil hp)⟩
  | cons m sent ih =>
    -- the first notification leaves the parser at the head of the next
    obtain ⟨p₁, message, hp₁, hgives, hfirst⟩ := (hsent m List.mem_cons_self).drain hp
    obtain ⟨p', out, hp', hall, hrest⟩ := ih (fun m hm => hsent m (List.mem_cons_of_mem _ hm)) hp₁
    refine ⟨p', message :: out, hp', .cons hgives hall, ?_⟩
    rw [List.map_cons, List.flatten_cons, (incremental_step c _).drain_append, hfirst]
    exact congrArg (Incremental.Run.prepend [message]) hrest

/-- **Notifications arrive once each and in order.** Any number of notifications, each cut
into pieces with noise between them and sent one after the other, reach a receiver between
messages whose handlers do not close the connection as that many messages in the order they
were sent, however the stream is cut into segments, and leave it between messages. -/
theorem notifications_in_order (c : Config σ) (hnone : c.NoneCloses) (h : Handler σ)
    (hbetween : h.BetweenMessages)
    (sent : List Sending) (hsent : ∀ m ∈ sent, m.Ok c h.parser.maxPacketSize)
    (segments : List (List UInt8))
    (hstream : segments.flatten = (sent.map fun m => withNoise m.pieces).flatten)
    (hadmitted : h.Admitted c h.parser.maxPacketSize segments) :
    List.Forall₂ Sending.Gives sent (h.recvAll c segments).2 ∧
      (h.recvAll c segments).1.BetweenMessages := by
  obtain ⟨p', out, hp', hall, hrun⟩ := drain_sent sent hsent hbetween.state
  obtain ⟨hat, hout⟩ := recvAll_drain hbetween.isOpen
    (by rw [hbetween.cache]; exact step_head_nil hbetween.state) hadmitted hnone
  rw [hbetween.cache, List.nil_append, hstream] at hat hout
  refine ⟨?_, .of_listening hnone hbetween.isOpen hrun hp' hat⟩
  rwa [hout, hrun]

theorem notifications_in_order_two :
    let one := List.replicate 33 (1 : UInt8)
    let two := List.replicate 33 (2 : UInt8)
    let sent : List Sending := [⟨66, 7, one, [([], finalizeNotify 7 one)]⟩,
      ⟨66, 8, two, [([40], finalizeNotify 8 two)]⟩]
    let segments := [(sent.map fun m => withNoise m.pieces).flatten]
    List.Forall₂ Sending.Gives sent ((init 1000 0).recvAll counting segments).2 := by
  intro one two sent segments
  have hok : ∀ m ∈ sent, m.Ok counting 1000 := by
    simp only [sent, List.forall_mem_cons]
    refine ⟨⟨by decide, by decide, by decide, fun _ => ⟨⟨?_, ?_, ?_⟩, ?_⟩⟩,
      ⟨by decide, by decide, by decide, fun _ => ⟨⟨?_, ?_, ?_⟩, ?_⟩⟩, by simp⟩ <;>
      simp [one, two, counting, headSize, NoiseFits]
  exact (notifications_in_order counting counting_noneCloses (init 1000 0) ⟨rfl, rfl, rfl⟩ sent hok
    segments (by simp [segments]) ⟨fun _ => by decide +kernel, trivial⟩).1

end Handler

end Oxyra.Levin
