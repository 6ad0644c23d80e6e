import Oxyra.Core.Levin

/-!
# The levin receiver as an incremental parser

The loop of `handle_recv` does not look beyond the bytes it uses, and a header that is
refused before it is complete would be refused once it is. So the calls for the
segments of a stream amount to one run over the whole of it, as long as the guard on
the total size lets every segment in, the maximum packet size does not change and no
handler closes its own connection (`recvAll_feed`). Where one does, what is dispatched
is at least the first message (`recvAll_starts`).
-/

namespace Oxyra.Levin

variable {σ : Type} {c : Config σ} {maxPacketSize : UInt64} {p p' : Parser σ}
  {cache buff : List UInt8} {out : List Message} {r : Incremental.Run UInt8 (Parser σ) Message}

/-! ## Steps -/

/-- No handler calls `close()` on its own connection. -/
structure Config.NoneCloses (c : Config σ) : Prop where
  invoke : ∀ context command payload, (c.invoke context command payload).close = false
  notify : ∀ context command payload, (c.notify context command payload).close = false
  handle : ∀ context code payload, (c.handle context code payload).close = false

/-- What a body that was received leaves of the parser: only a handler that was given a message
can have closed the connection. -/
structure Follows (c : Config σ) (p : Parser σ) (out : List Message) (p' : Parser σ) : Prop where
  state : p'.state = p.state
  closeCalled : c.NoneCloses ∨ out = [] → p'.closeCalled = p.closeCalled

theorem Follows.of_called {called : Called σ} {message : Message} (hstate : p'.state = p.state)
    (hclose : p'.closeCalled = (p.after called).closeCalled)
    (hnone : c.NoneCloses → called.close = false) : Follows c p [message] p' := by
  refine ⟨hstate, fun hquiet => ?_⟩
  rw [hclose, Parser.after, hnone (hquiet.resolve_right (List.cons_ne_nil _ _)), Bool.or_false]

theorem dispatch_next (h : dispatch c p buff = .next p' out) : Follows c p out p' := by
  unfold dispatch at h
  simp only at h
  split at h
  · split at h
    · cases h
    · split at h
      · cases h
        exact .of_called rfl rfl fun hnone => hnone.handle _ _ _
      · cases h
        exact ⟨rfl, fun _ => rfl⟩
  · split at h
    · split at h
      · cases h
        exact .of_called rfl rfl fun hnone => hnone.invoke _ _ _
      · cases h
    · cases h
      exact .of_called rfl rfl fun hnone => hnone.notify _ _ _

theorem receiveBody_next (h : receiveBody c maxPacketSize p buff = .next p' out) :
    Follows c p out p' := by
  unfold receiveBody at h
  simp only at h
  split at h
  · split at h
    · cases h
      exact ⟨rfl, fun _ => rfl⟩
    generalize (if p.currentHead.flags &&& packetBegin ≠ 0 then [] else p.fragmentBuffer) ++ buff =
      fragments at h
    split at h
    · cases h
      exact ⟨rfl, fun _ => rfl⟩
    split at h
    · cases h
    split at h
    · cases h
    · -- the completed message is dispatched with the header it carries
      have hnext := dispatch_next h
      exact ⟨hnext.state, hnext.closeCalled⟩
  · exact dispatch_next h

theorem step_next {n : Nat} (h : step c maxPacketSize p cache = .next p' out n) :
    n ≤ cache.length ∧
      (p.state = .head ∧ n = headSize ∧ p'.state = .body ∧ p'.closeCalled = p.closeCalled ∨
        p.state = .body ∧ n = p.currentHead.cb.toNat ∧
          Follows c { p with state := .head } out p') := by
  unfold step at h
  cases hstate : p.state with
  | head =>
    simp only [hstate] at h
    split at h
    · split at h <;> cases h
    rename_i hlen
    split at h
    · cases h
    split at h
    · cases h
    cases h
    exact ⟨not_lt.mp hlen, .inl ⟨rfl, rfl, rfl, rfl⟩⟩
  | body =>
    simp only [hstate] at h
    split at h
    · cases h
    rename_i hlen
    generalize hrec : receiveBody c maxPacketSize { p with state := .head }
      (cache.take p.currentHead.cb.toNat) = r at h
    cases r with
    | close out => cases h
    | next q out =>
      cases h
      exact ⟨not_lt.mp hlen, .inr ⟨rfl, rfl, receiveBody_next hrec⟩⟩

theorem step_closeCalled {n : Nat} (h : step c maxPacketSize p cache = .next p' out n)
    (hquiet : c.NoneCloses ∨ out = []) : p'.closeCalled = p.closeCalled := by
  obtain ⟨-, ⟨-, -, -, hsame⟩ | ⟨-, -, hbody⟩⟩ := step_next h
  · exact hsame
  · exact hbody.closeCalled hquiet

theorem signature_ofBytes {bytes : List UInt8} (h : 8 ≤ bytes.length) :
    (BucketHead2.ofBytes (bytes.take headSize)).signature.toNat =
      Numeral.ofBytes (bytes.take 8) := by
  have htake : (bytes.take headSize).take 8 = bytes.take 8 := by
    rw [List.take_take]
    rfl
  have hlt := Numeral.ofBytes_lt (bytes.take 8)
  rw [List.length_take, Nat.min_eq_left h] at hlt
  rw [BucketHead2.ofBytes, htake, UInt64.toNat_ofNat_of_lt']
  exact hlt

/-- **The loop of `handle_recv` does not depend on how the stream is cut.** -/
theorem incremental_step (c : Config σ) (maxPacketSize : UInt64) :
    Incremental (step c maxPacketSize) turns where
  next_append := by
    intro p cache p' out n h
    obtain ⟨hn, -⟩ := step_next h
    refine ⟨hn, fun more => ?_⟩
    unfold step at h ⊢
    cases hstate : p.state with
    | head =>
      simp only [hstate] at h ⊢
      split at h
      · split at h <;> cases h
      rename_i hlen
      rw [if_neg (by rw [List.length_append]; omega),
        List.take_append_of_le_length (not_lt.mp hlen)]
      exact h
    | body =>
      simp only [hstate] at h ⊢
      split at h
      · cases h
      rename_i hlen
      rw [if_neg (by rw [List.length_append]; omega),
        List.take_append_of_le_length (not_lt.mp hlen)]
      exact h
  stop_append := by
    intro p cache out h more
    unfold step at h ⊢
    cases hstate : p.state with
    | head =>
      simp only [hstate] at h ⊢
      split at h
      · -- refused before the header is complete
        split at h
        · rename_i hshort
          obtain ⟨hlen, hsig⟩ := hshort
          have hlen' : 8 ≤ (cache ++ more).length := by rw [List.length_append]; omega
          rw [← List.take_append_of_le_length hlen] at hsig
          cases h
          split
          · rw [if_pos ⟨hlen', hsig⟩]
          · refine if_pos fun heq => hsig ?_
            rw [← signature_ofBytes hlen', ← heq]
        · cases h
      · rename_i hlen
        rw [if_neg (by rw [List.length_append]; omega),
          List.take_append_of_le_length (not_lt.mp hlen)]
        exact h
    | body =>
      simp only [hstate] at h ⊢
      split at h
      · cases h
      rename_i hlen
      rw [if_neg (by rw [List.length_append]; omega),
        List.take_append_of_le_length (not_lt.mp hlen)]
      exact h
  shrinks := by
    intro p cache p' out n h
    obtain ⟨hn, ⟨hstate, rfl, hstate', -⟩ | ⟨hstate, rfl, hbody⟩⟩ := step_next h
    · rw [turns, turns, hstate, hstate', List.length_drop, headSize] at *
      simp only [if_true, reduceCtorEq, if_false]
      omega
    · have hstate' : p'.state = .head := hbody.state
      rw [turns, turns, hstate, hstate', List.length_drop]
      simp only [if_true, reduceCtorEq, if_false]
      omega

/-- A run on a connection that no handler has closed so far. -/
def Unclosed (r : Incremental.Run UInt8 (Parser σ) Message) : Prop :=
  ∀ parser unread, r.status = .listening parser unread → parser.closeCalled = false

/-- **What closes a connection is a handler that was given a message.** -/
theorem Unclosed.feed (h : Unclosed r) (segment : List UInt8)
    (hquiet : c.NoneCloses ∨
      (Incremental.feed (step c maxPacketSize) turns r segment).out = r.out) :
    Unclosed (Incremental.feed (step c maxPacketSize) turns r segment) := by
  obtain ⟨status, out⟩ := r
  cases status with
  | stopped => exact h
  | listening parser unread =>
    intro parser' unread' hstatus
    simp only [Incremental.feed, Incremental.Run.prepend] at hquiet hstatus
    generalize hrun : Incremental.drain (step c maxPacketSize) turns parser
      (unread ++ segment) = run at hquiet hstatus
    obtain ⟨status', out'⟩ := run
    obtain rfl : status' = .listening parser' unread' := hstatus
    have hkept : ∀ {q input q' out'' n}, step c maxPacketSize q input = .next q' out'' n →
        out'' ⊆ out' → q.closeCalled = false → q'.closeCalled = false := by
      intro q input q' out'' n hstep hsub hq
      refine (step_closeCalled hstep (hquiet.imp_right fun hnil => ?_)).trans hq
      obtain rfl : out' = [] := List.append_right_eq_self.mp hnil
      exact List.subset_nil.mp hsub
    exact (incremental_step c maxPacketSize).drain_invariant hkept hrun (h parser unread rfl)

/-! ## Calls -/

namespace Handler

variable {h : Handler σ} {segment : List UInt8} {segments : List (List UInt8)}

/-- The segments get past the guard at the start of `handle_recv`, under one maximum packet
size, as long as the connection is open. -/
def Admitted (c : Config σ) (maxPacketSize : UInt64) : Handler σ → List (List UInt8) → Prop
  | _, [] => True
  | h, segment :: segments =>
    (h.closeCalled = false →
      h.fits segment.length = true ∧ h.parser.maxPacketSize = maxPacketSize) ∧
    Admitted c maxPacketSize (h.recv c segment).1 segments

/-- The handler that has come to some point of the stream. -/
def At (h : Handler σ) : Incremental.Status UInt8 (Parser σ) → Prop
  | .stopped => h.closeCalled = true
  | .listening parser unread => h = ⟨unread, parser⟩

theorem recv_closed (hclosed : h.closeCalled = true) : h.recv c segment = (h.close, []) := by
  simp [recv, handleRecv, hclosed]

theorem recvAll_closed (hclosed : h.closeCalled = true) :
    (h.recvAll c segments).2 = [] ∧ (h.recvAll c segments).1.closeCalled = true := by
  induction segments generalizing h with
  | nil => exact ⟨rfl, hclosed⟩
  | cons segment segments ih =>
    obtain ⟨hout, hclosed'⟩ := ih (h := h.close) rfl
    rw [recvAll, recv_closed hclosed]
    exact ⟨hout, hclosed'⟩

theorem recv_feed (hat : h.At r.status) (hopen : Unclosed r)
    (hadmitted : h.closeCalled = false →
      h.fits segment.length = true ∧ h.parser.maxPacketSize = maxPacketSize) :
    (h.recv c segment).1.At
        (Incremental.feed (step c maxPacketSize) turns r segment).status ∧
      r.out ++ (h.recv c segment).2 =
        (Incremental.feed (step c maxPacketSize) turns r segment).out := by
  obtain ⟨status, out⟩ := r
  cases status with
  | stopped =>
    rw [recv_closed hat]
    exact ⟨rfl, List.append_nil _⟩
  | listening parser unread =>
    obtain rfl : h = ⟨unread, parser⟩ := hat
    have hclosed : closeCalled ⟨unread, parser⟩ = false := hopen parser unread rfl
    obtain ⟨hfits, rfl⟩ := hadmitted hclosed
    simp only [recv, handleRecv, hclosed, hfits, Incremental.feed, Incremental.Run.prepend,
      Bool.false_eq_true, if_false, Bool.not_true]
    generalize Incremental.drain (step c parser.maxPacketSize) turns parser
      (unread ++ segment) = run
    obtain ⟨status, out'⟩ := run
    cases status with
    | stopped => exact ⟨rfl, rfl⟩
    | listening parser' unread' => exact ⟨rfl, rfl⟩

/-- **The calls for the segments of a stream are one run over it**, if no handler closes. -/
theorem recvAll_feed (hnone : c.NoneCloses) (hat : h.At r.status) (hopen : Unclosed r)
    (hadmitted : h.Admitted c maxPacketSize segments) :
    (h.recvAll c segments).1.At
        (segments.foldl (Incremental.feed (step c maxPacketSize) turns) r).status ∧
      r.out ++ (h.recvAll c segments).2 =
        (segments.foldl (Incremental.feed (step c maxPacketSize) turns) r).out := by
  induction segments generalizing h r with
  | nil => exact ⟨hat, List.append_nil _⟩
  | cons segment segments ih =>
    obtain ⟨hat', hout⟩ := recv_feed (c := c) hat hopen hadmitted.1
    obtain ⟨hat'', hout'⟩ := ih hat' (hopen.feed segment (.inl hnone)) hadmitted.2
    refine ⟨hat'', ?_⟩
    rw [List.foldl_cons, ← hout', ← hout, List.append_assoc]
    rfl

theorem feedAll_out_le (c : Config σ) (maxPacketSize : UInt64) (segments : List (List UInt8))
    (r : Incremental.Run UInt8 (Parser σ) Message) :
    r.out <+: (segments.foldl (Incremental.feed (step c maxPacketSize) turns) r).out := by
  induction segments generalizing r with
  | nil => exact List.prefix_rfl
  | cons segment segments ih =>
    refine List.IsPrefix.trans ?_ (ih _)
    obtain ⟨status, out⟩ := r
    cases status with
    | stopped => exact List.prefix_rfl
    | listening parser unread => exact List.prefix_append _ _

theorem feedAll_stopped (segments : List (List UInt8)) (out : List Message) :
    segments.foldl (Incremental.feed (step c maxPacketSize) turns) ⟨.stopped, out⟩ =
      ⟨.stopped, out⟩ := by
  induction segments with
  | nil => rfl
  | cons segment segments ih => exact ih

/-- **Whatever the handlers do, the calls dispatch a beginning of what the stream holds**, and
nothing at all only if it holds nothing. -/
theorem recvAll_starts (hat : h.At r.status) (hopen : Unclosed r)
    (hadmitted : h.Admitted c maxPacketSize segments) :
    let whole := segments.foldl (Incremental.feed (step c maxPacketSize) turns) r
    r.out ++ (h.recvAll c segments).2 <+: whole.out ∧
      ((h.recvAll c segments).2 = [] → r.out = whole.out) := by
  induction segments generalizing h r with
  | nil => exact ⟨by simp [recvAll], fun _ => rfl⟩
  | cons segment segments ih =>
    obtain ⟨hat', hout⟩ := recv_feed (c := c) hat hopen hadmitted.1
    have hmono := feedAll_out_le c maxPacketSize segments
      (Incremental.feed (step c maxPacketSize) turns r segment)
    have hall : (h.recvAll c (segment :: segments)).2 =
      (h.recv c segment).2 ++ ((h.recv c segment).1.recvAll c segments).2 := rfl
    have hfeed : c.NoneCloses ∨ _ → Unclosed
        (Incremental.feed (step c maxPacketSize) turns r segment) := hopen.feed segment
    rw [List.foldl_cons, hall, ← List.append_assoc, hout]
    generalize Incremental.feed (step c maxPacketSize) turns r segment = r' at *
    cases hclosed : (h.recv c segment).1.closeCalled with
    | true =>
      -- the rest of the stream is not looked at
      rw [(recvAll_closed hclosed).1, List.append_nil, List.append_nil]
      refine ⟨hmono, fun hnil => ?_⟩
      have hsame : r'.out = r.out := by rw [← hout, hnil, List.append_nil]
      obtain ⟨status, out'⟩ := r'
      cases status with
      | stopped => rw [feedAll_stopped, ← hsame]
      | listening parser unread =>
        have hparser := hfeed (.inr hsame) parser unread rfl
        rw [show (h.recv c segment).1 = ⟨unread, parser⟩ from hat'] at hclosed
        exact absurd (hclosed.symm.trans hparser) (by simp)
    | false =>
      have hopen' : Unclosed r' := by
        intro parser unread hstatus
        rw [hstatus] at hat'
        rwa [show (h.recv c segment).1 = ⟨unread, parser⟩ from hat'] at hclosed
      obtain ⟨hstarts, hsome⟩ := ih hat' hopen' hadmitted.2
      refine ⟨hstarts, fun hnil => ?_⟩
      obtain ⟨hfirst, hrest⟩ := List.append_eq_nil_iff.mp hnil
      rw [← hsome hrest, ← hout, hfirst, List.append_nil]

section Waiting

variable (hopen : h.closeCalled = false)
  (hwait : step c maxPacketSize h.parser h.cacheInBuffer = .wait)
include hopen hwait

theorem at_waiting :
    let r := Incremental.drain (step c maxPacketSize) turns h.parser h.cacheInBuffer
    h.At r.status ∧ Unclosed r ∧ r.out = [] := by
  rw [Incremental.drain_wait hwait]
  refine ⟨rfl, ?_, rfl⟩
  rintro parser unread ⟨⟩
  exact hopen

theorem recvAll_drain (hadmitted : h.Admitted c maxPacketSize segments) (hnone : c.NoneCloses) :
    let run := Incremental.drain (step c maxPacketSize) turns h.parser
      (h.cacheInBuffer ++ segments.flatten)
    (h.recvAll c segments).1.At run.status ∧ (h.recvAll c segments).2 = run.out := by
  obtain ⟨hat, hunclosed, hnil⟩ := at_waiting hopen hwait
  have hrun := recvAll_feed hnone hat hunclosed hadmitted
  rwa [(incremental_step c maxPacketSize).feedAll_drain, hnil, List.nil_append] at hrun

/-- **One message arrives, however it is cut**, also where its handler closes the connection. -/
theorem recvAll_single {p' : Parser σ} {unread : List UInt8} {message : Message}
    (hadmitted : h.Admitted c maxPacketSize segments)
    (hrun : Incremental.drain (step c maxPacketSize) turns h.parser
      (h.cacheInBuffer ++ segments.flatten) = ⟨.listening p' unread, [message]⟩) :
    (h.recvAll c segments).2 = [message] := by
  obtain ⟨hat, hunclosed, hnil⟩ := at_waiting hopen hwait
  have hstarts := recvAll_starts hat hunclosed hadmitted
  rw [(incremental_step c maxPacketSize).feedAll_drain, hrun, hnil, List.nil_append] at hstarts
  obtain ⟨hbegin, hnone⟩ := hstarts
  rcases List.prefix_cons_iff.mp hbegin with hout | ⟨rest, hout, hrest⟩
  · exact absurd (hnone hout) (List.cons_ne_nil _ _).symm
  · rw [hout, List.prefix_nil.mp hrest]

end Waiting

end Handler

end Oxyra.Levin
