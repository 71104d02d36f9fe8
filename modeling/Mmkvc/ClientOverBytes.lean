/-
# The client over a byte stream

Requests and responses travel as frames of `MmbpCodec`, and each end takes from the
connection as many bytes at a time as the network brings.  The steps of the calls and of the
connection callback are those of the client over messages; the receive callback of either end
is a step, and the response handler runs once for each response that it hands over.

`mmkvClient_over_bytes` says that within the limits of the frames the client does over bytes
what it does over messages.
-/
import Mmkvc.ByteChannel
import Mmkvc.ClientRequests

namespace Mmkvc

namespace MmkvClient

/-! ## States and steps -/

/-- The client, the connection and the server.  `issued` and `received` are histories: the
requests whose frames were ever sent, and those that the server ever read. -/
structure ByteState where
  cbq : List OutstandingCall
  pendingRequestq : List Request
  connected : Bool
  phase : ℕ → Phase
  toServer : Channel
  issued : List MmbpRequest
  received : List MmbpRequest
  answered : ℕ
  toClient : Channel
  /-- Responses of the last data event whose handler has not run yet. -/
  decoded : List MmbpResponse
  outcomes : List (Except ClientFault (Call × MmkvValue))
  /-- An error callback was called, or a read went wrong. -/
  faulty : Bool

/-- A client that is not connected yet. -/
def byteInit : ByteState where
  cbq := []
  pendingRequestq := []
  connected := false
  phase := fun _ => .idle
  toServer := Channel.empty
  issued := []
  received := []
  answered := 0
  toClient := Channel.empty
  decoded := []
  outcomes := []
  faulty := false

inductive ByteAction where
  | push (call : Call) (u : Unwritten)
  | test (i : ℕ)
  | send (i : ℕ)
  | append (i : ℕ)
  | connect
  /-- The next `n` bytes come to the server. -/
  | serverReads (n : ℕ) (u : Unwritten)
  | answer (response : MmbpResponse)
  /-- The next `n` bytes come to the client. -/
  | clientReads (n : ℕ) (count : BitVec 64)
  /-- The message callback, for the next response of the data event. -/
  | handle
  deriving DecidableEq, Repr

/-- What the step is of the client over messages. -/
def ByteAction.own : ByteAction → List Action
  | .push call u => [.push call u]
  | .test i => [.test i]
  | .send i => [.send i]
  | .append i => [.append i]
  | .connect => [.connect]
  | .serverReads _ _ => []
  | .answer response => [.answer response]
  | .clientReads _ _ => []
  | .handle => [.handle]

/-- The messages that a data event hands over. -/
def messages {μ : Type} (es : List (MmbpCodec.Event (Bool × μ))) : List μ :=
  es.filterMap fun e => match e with
    | .message m => some m.2
    | .error _ => none

/-- The error callback is called. -/
def anyError {μ : Type} (es : List (MmbpCodec.Event (Bool × μ))) : Bool :=
  es.any fun e => match e with
    | .message _ => false
    | .error _ => true

section

variable (kv : Kvarint) (kn : Kanon) (xx : XXHash)

/-- `codec_.Send` of a request. -/
def requestFrame (req : MmbpRequest) : Bytes := MmbpCodec.serializeTo kv kn xx (req.serializeTo kv kn)

/-- The server's `Send` of a response. -/
def responseFrame (response : MmbpResponse) : Bytes :=
  MmbpCodec.serializeTo kv kn xx (response.serializeTo kv kn)

/-- The receive callback of the server. -/
def serverReceive (u : Unwritten) (b : Bytes) :
    Except Fault (List (MmbpCodec.Event (Bool × MmbpRequest)) × Bytes) :=
  (MmbpCodec.receive kv kn xx (parseRequest kv kn u)).run b

/-- The receive callback of the client. -/
def clientReceive (count : BitVec 64) (b : Bytes) :
    Except Fault (List (MmbpCodec.Event (Bool × MmbpResponse)) × Bytes) :=
  (MmbpCodec.receive kv kn xx (MmbpCodec.parseResponse kv kn count)).run b

/-- The state after an action, if it is enabled. -/
def byteStep (b : ByteState) : ByteAction → Option ByteState
  | .push call u =>
    match b.phase call.id with
    | .idle => (prepareValue u.statusCode).toOption.map fun value =>
      { b with
        cbq := b.cbq ++ [{ value := value, cb := call }]
        phase := Function.update b.phase call.id (.pushed (call.api.request u)) }
    | _ => none
  | .test i =>
    match b.phase i with
    | .pushed req => some { b with phase := Function.update b.phase i (.tested req b.connected) }
    | _ => none
  | .send i =>
    match b.phase i with
    | .tested req true => some
      { b with
        toServer := b.toServer.send (requestFrame kv kn xx req)
        issued := b.issued ++ [req]
        phase := Function.update b.phase i .done }
    | _ => none
  | .append i =>
    match b.phase i with
    | .tested req false => some
      { b with
        pendingRequestq := b.pendingRequestq ++ [{ call := i, req := req }]
        phase := Function.update b.phase i .done }
    | _ => none
  | .connect =>
    if b.connected then none
    else some
      { b with
        connected := true
        toServer := b.toServer.send
          ((b.pendingRequestq.map fun request => requestFrame kv kn xx request.req).flatten)
        issued := b.issued ++ b.pendingRequestq.map Request.req
        pendingRequestq := [] }
  | .serverReads n u =>
    match b.toServer.deliver (serverReceive kv kn xx u) n with
    | .ok (es, ch) => some
      { b with
        toServer := ch
        received := b.received ++ messages es
        faulty := b.faulty || anyError es }
    | .error _ => some { b with faulty := true }
  | .answer response =>
    if b.answered < b.received.length then some
      { b with
        answered := b.answered + 1
        toClient := b.toClient.send (responseFrame kv kn xx response) }
    else none
  | .clientReads n count =>
    if b.decoded ≠ [] then none
    else match b.toClient.deliver (clientReceive kv kn xx count) n with
      | .ok (es, ch) => some
        { b with
          toClient := ch
          decoded := messages es
          faulty := b.faulty || anyError es }
      | .error _ => some { b with faulty := true }
  | .handle =>
    match b.decoded, b.cbq with
    | [], _ => none
    | _ :: decoded, [] => some
      { b with decoded := decoded, outcomes := b.outcomes ++ [.error .emptyQueue] }
    | response :: decoded, front :: cbq => some
      { b with
        decoded := decoded
        cbq := cbq
        outcomes := b.outcomes ++ [handleFront front response] }

/-- A request that a frame can hold. -/
def ValidRequest (req : MmbpRequest) : Prop :=
  req.Encodable ∧ MmbpCodec.Fits kv kn xx (req.serializeTo kv kn)

/-- A response that a frame can hold. -/
def ValidResponse (response : MmbpResponse) : Prop :=
  response.Encodable ∧ MmbpCodec.Fits kv kn xx (response.serializeTo kv kn)

/-- The limits of the frames: calls and answers that they can hold, and less than 64MB
readable at a data event. -/
def InLimits (b : ByteState) : ByteAction → Prop
  | .push call u => ValidRequest kv kn xx (call.api.request u)
  | .answer response => ValidResponse kv kn xx response
  | .serverReads n _ => (b.toServer.readable n).length < MmbpCodec.maxSize
  | .clientReads n _ => (b.toClient.readable n).length < MmbpCodec.maxSize
  | _ => True

end

/-! ## What a step can do -/

section

variable {kv : Kvarint} {kn : Kanon} {xx : XXHash} {b b' : ByteState}

/-- A call can be pushed if it was not yet; its callback waits behind the others. -/
theorem byteStep_push {call : Call} {u : Unwritten}
    (h : byteStep kv kn xx b (.push call u) = some b') :
    b.phase call.id = .idle ∧ b' =
      { b with
        cbq := b.cbq ++ [{ value := { statusCode := u.statusCode, type := .V_INVALID,
                                      payload := .none }, cb := call }]
        phase := Function.update b.phase call.id (.pushed (call.api.request u)) } := by
  simp only [byteStep] at h
  split at h
  · rename_i hphase
    exact ⟨hphase, (Option.some.inj h).symm⟩
  · cases h

/-- A call that was pushed looks at the connection. -/
theorem byteStep_test {i : ℕ} (h : byteStep kv kn xx b (.test i) = some b') :
    ∃ req, b.phase i = .pushed req
      ∧ b' = { b with phase := Function.update b.phase i (.tested req b.connected) } := by
  simp only [byteStep] at h
  split at h
  · rename_i req hphase
    exact ⟨req, hphase, (Option.some.inj h).symm⟩
  · cases h

/-- A call that found a connection writes its frame behind the bytes on the way. -/
theorem byteStep_send {i : ℕ} (h : byteStep kv kn xx b (.send i) = some b') :
    ∃ req, b.phase i = .tested req true ∧ b' =
      { b with
        toServer := b.toServer.send (requestFrame kv kn xx req)
        issued := b.issued ++ [req]
        phase := Function.update b.phase i .done } := by
  simp only [byteStep] at h
  split at h
  · rename_i req hphase
    exact ⟨req, hphase, (Option.some.inj h).symm⟩
  · cases h

/-- A call that found no connection adds its request to the queue. -/
theorem byteStep_append {i : ℕ} (h : byteStep kv kn xx b (.append i) = some b') :
    ∃ req, b.phase i = .tested req false ∧ b' =
      { b with
        pendingRequestq := b.pendingRequestq ++ [{ call := i, req := req }]
        phase := Function.update b.phase i .done } := by
  simp only [byteStep] at h
  split at h
  · rename_i req hphase
    exact ⟨req, hphase, (Option.some.inj h).symm⟩
  · cases h

/-- The client connects once, and writes the frames of the queue in one piece. -/
theorem byteStep_connect (h : byteStep kv kn xx b .connect = some b') :
    b.connected = false ∧ b' =
      { b with
        connected := true
        toServer := b.toServer.send
          ((b.pendingRequestq.map fun request => requestFrame kv kn xx request.req).flatten)
        issued := b.issued ++ b.pendingRequestq.map Request.req
        pendingRequestq := [] } := by
  simp only [byteStep] at h
  split_ifs at h with hconnected
  exact ⟨Bool.eq_false_of_not_eq_true hconnected, (Option.some.inj h).symm⟩

/-- The server answers the oldest request it has read and not answered. -/
theorem byteStep_answer {response : MmbpResponse}
    (h : byteStep kv kn xx b (.answer response) = some b') :
    b.answered < b.received.length ∧ b' =
      { b with
        answered := b.answered + 1
        toClient := b.toClient.send (responseFrame kv kn xx response) } := by
  simp only [byteStep] at h
  split_ifs at h with hlt
  exact ⟨hlt, (Option.some.inj h).symm⟩

/-- The oldest decoded response is given to the front callback, if there is one. -/
theorem byteStep_handle (h : byteStep kv kn xx b .handle = some b') :
    ∃ response decoded, b.decoded = response :: decoded
      ∧ ((b.cbq = [] ∧ b' =
          { b with decoded := decoded, outcomes := b.outcomes ++ [.error .emptyQueue] })
        ∨ ∃ front cbq, b.cbq = front :: cbq ∧ b' =
          { b with
            decoded := decoded
            cbq := cbq
            outcomes := b.outcomes ++ [handleFront front response] }) := by
  simp only [byteStep] at h
  split at h
  · cases h
  · rename_i response decoded hdecoded hcbq
    exact ⟨response, decoded, hdecoded, Or.inl ⟨hcbq, (Option.some.inj h).symm⟩⟩
  · rename_i response decoded front cbq hdecoded hcbq
    exact ⟨response, decoded, hdecoded, Or.inr ⟨front, cbq, hcbq, (Option.some.inj h).symm⟩⟩

end

/-! ## What the two clients agree on -/

/-- The queues, the calls and the callbacks are the same, each request that the server read is
the one that was issued, each response that was handed over is the one that was sent, and
nothing went wrong. -/
structure SameClient (b : ByteState) (s : State) : Prop where
  cbq : s.cbq = b.cbq
  pendingRequestq : s.pendingRequestq = b.pendingRequestq
  connected : s.connected = b.connected
  phase : s.phase = b.phase
  received : List.Forall₂ MmbpRequest.SameOnWire b.received (b.issued.take b.received.length)
  answered_le : b.answered ≤ b.received.length
  wire : s.wire.map Request.req = b.issued.drop b.answered
  decoded : List.Forall₂ MmbpResponse.SameOnWire b.decoded
    ((s.inbox.map Prod.snd).take b.decoded.length)
  handled : s.handled.map Handled.outcome = b.outcomes
  notFaulty : b.faulty = false

/-- A call that was made and not handed over has a request that a frame can hold. -/
def Phase.Requests (P : MmbpRequest → Prop) : Phase → Prop
  | .pushed req => P req
  | .tested req _ => P req
  | _ => True

/-- The two clients agree, and the bytes are the frames of what the client over messages has
on its way. -/
structure Related (kv : Kvarint) (kn : Kanon) (xx : XXHash) (b : ByteState) (s : State) : Prop
    extends SameClient b s where
  inv : Inv s
  toServer : b.toServer.Carries (requestFrame kv kn xx) (ValidRequest kv kn xx)
    (b.issued.drop b.received.length)
  toClient : b.toClient.Carries (responseFrame kv kn xx) (ValidResponse kv kn xx)
    ((s.inbox.map Prod.snd).drop b.decoded.length)
  pendingValid : ∀ request ∈ b.pendingRequestq, ValidRequest kv kn xx request.req
  phaseValid : ∀ i, (b.phase i).Requests (ValidRequest kv kn xx)

section

variable {kv : Kvarint} {kn : Kanon} {xx : XXHash} {b b' : ByteState} {s : State}

theorem serializeTo_ne_nil (hkv : kv.Inverse) (payload : Bytes) :
    MmbpCodec.serializeTo kv kn xx payload ≠ [] := fun h =>
  hkv.encode_ne_nil (by norm_num) _ (List.append_eq_nil_iff.mp h).1

/-- The two clients begin alike. -/
theorem related_init : Related kv kn xx byteInit init where
  cbq := rfl
  pendingRequestq := rfl
  connected := rfl
  phase := rfl
  received := List.Forall₂.nil
  answered_le := le_rfl
  wire := rfl
  decoded := List.Forall₂.nil
  handled := rfl
  notFaulty := rfl
  inv := inv_init
  toServer := Channel.carries_empty _ _
  toClient := Channel.carries_empty _ _
  pendingValid := by rintro _ ⟨⟩
  phaseValid := fun _ => trivial

/-! ## Steps of the calls -/

/-- A property of the requests of all phases is kept by a phase with that property. -/
theorem phaseValid_update {P : MmbpRequest → Prop} {phase : ℕ → Phase}
    (h : ∀ i, (phase i).Requests P) {p : Phase} (hp : p.Requests P) (i j : ℕ) :
    (Function.update phase i p j).Requests P := by
  by_cases hj : j = i
  · rw [hj, Function.update_self]
    exact hp
  · rw [Function.update_of_ne hj]
    exact h j

/-- A push of the client over bytes is one of the client over messages. -/
theorem Related.push {call : Call} {u : Unwritten} (h : Related kv kn xx b s)
    (hvalid : ValidRequest kv kn xx (call.api.request u))
    (hstep : byteStep kv kn xx b (.push call u) = some b') :
    ∃ s', step s (.push call u) = some s' ∧ Related kv kn xx b' s' := by
  obtain ⟨hphase, rfl⟩ := byteStep_push hstep
  have hown : ∃ s', step s (.push call u) = some s' := by
    simp only [step, h.phase, hphase]
    exact ⟨_, rfl⟩
  obtain ⟨s', hown⟩ := hown
  have hinv := h.inv.step _ _ _ hown
  obtain ⟨-, rfl⟩ := step_push hown
  have hrequest : (Phase.pushed (call.api.request u)).Requests (ValidRequest kv kn xx) := hvalid
  exact ⟨_, hown,
    { h with
      cbq := by rw [h.cbq]
      phase := by rw [h.phase]
      inv := hinv
      phaseValid := phaseValid_update h.phaseValid hrequest _ }⟩

/-- The test is the same on both levels. -/
theorem Related.test {i : ℕ} (h : Related kv kn xx b s)
    (hstep : byteStep kv kn xx b (.test i) = some b') :
    ∃ s', step s (.test i) = some s' ∧ Related kv kn xx b' s' := by
  obtain ⟨req, hphase, rfl⟩ := byteStep_test hstep
  have hown : step s (.test i)
      = some { s with phase := Function.update s.phase i (.tested req s.connected) } := by
    simp only [step, h.phase, hphase]
  have hinv := h.inv.step _ _ _ hown
  have hrequest : (Phase.tested req b.connected).Requests (ValidRequest kv kn xx) := by
    have hvalid := h.phaseValid i
    rw [hphase] at hvalid
    exact hvalid
  exact ⟨_, hown,
    { h with
      phase := by rw [h.phase, h.connected]
      inv := hinv
      phaseValid := phaseValid_update h.phaseValid hrequest _ }⟩

/-- Requests whose frames are sent are on their way behind the others. -/
theorem Related.received_append (h : Related kv kn xx b s) (reqs : List MmbpRequest) :
    List.Forall₂ MmbpRequest.SameOnWire b.received ((b.issued ++ reqs).take b.received.length)
      ∧ (b.issued ++ reqs).drop b.answered = b.issued.drop b.answered ++ reqs
      ∧ (b.issued ++ reqs).drop b.received.length = b.issued.drop b.received.length ++ reqs := by
  have hle : b.received.length ≤ b.issued.length := by
    have hlen := h.received.length_eq
    rw [List.length_take] at hlen
    omega
  refine ⟨?_, List.drop_append_of_le_length (h.answered_le.trans hle),
    List.drop_append_of_le_length hle⟩
  rw [List.take_append_of_le_length hle]
  exact h.received

/-- A frame on the way is a request on the way. -/
theorem Related.send {i : ℕ} (hkv : kv.Inverse) (h : Related kv kn xx b s)
    (hstep : byteStep kv kn xx b (.send i) = some b') :
    ∃ s', step s (.send i) = some s' ∧ Related kv kn xx b' s' := by
  obtain ⟨req, hphase, rfl⟩ := byteStep_send hstep
  have hown : step s (.send i) = some
      { s with
        wire := s.wire ++ [{ call := i, req := req }]
        phase := Function.update s.phase i .done
        sent := s.sent ++ [i] } := by
    simp only [step, h.phase, hphase]
  have hinv := h.inv.step _ _ _ hown
  have hvalid : ValidRequest kv kn xx req := by
    have hvalid := h.phaseValid i
    rw [hphase] at hvalid
    exact hvalid
  have hdone : Phase.done.Requests (ValidRequest kv kn xx) := trivial
  obtain ⟨hreceived, hwire, hunread⟩ := h.received_append [req]
  exact ⟨_, hown,
    { h with
      phase := by rw [h.phase]
      received := hreceived
      wire := by rw [List.map_append, h.wire, hwire]; rfl
      inv := hinv
      toServer := by
        rw [hunread]
        exact h.toServer.send (fun _ _ => serializeTo_ne_nil hkv _) hvalid
      phaseValid := phaseValid_update h.phaseValid hdone _ }⟩

/-- A request that waits is the same on both levels. -/
theorem Related.append {i : ℕ} (h : Related kv kn xx b s)
    (hstep : byteStep kv kn xx b (.append i) = some b') :
    ∃ s', step s (.append i) = some s' ∧ Related kv kn xx b' s' := by
  obtain ⟨req, hphase, rfl⟩ := byteStep_append hstep
  have hown : step s (.append i) = some
      { s with
        pendingRequestq := s.pendingRequestq ++ [{ call := i, req := req }]
        phase := Function.update s.phase i .done } := by
    simp only [step, h.phase, hphase]
  have hinv := h.inv.step _ _ _ hown
  have hvalid : ValidRequest kv kn xx req := by
    have hvalid := h.phaseValid i
    rw [hphase] at hvalid
    exact hvalid
  have hdone : Phase.done.Requests (ValidRequest kv kn xx) := trivial
  exact ⟨_, hown,
    { h with
      pendingRequestq := by rw [h.pendingRequestq]
      phase := by rw [h.phase]
      inv := hinv
      pendingValid := by
        intro request hrequest
        rcases List.mem_append.mp hrequest with hrequest | hrequest
        · exact h.pendingValid request hrequest
        · rw [List.mem_singleton.mp hrequest]
          exact hvalid
      phaseValid := phaseValid_update h.phaseValid hdone _ }⟩

/-- The frames of the queue are requests on the way, in the same order. -/
theorem Related.connect (hkv : kv.Inverse) (h : Related kv kn xx b s)
    (hstep : byteStep kv kn xx b .connect = some b') :
    ∃ s', step s .connect = some s' ∧ Related kv kn xx b' s' := by
  obtain ⟨hconnected, rfl⟩ := byteStep_connect hstep
  have hown : ∃ s', step s .connect = some s' := by
    simp only [step, h.connected, hconnected]
    exact ⟨_, rfl⟩
  obtain ⟨s', hown⟩ := hown
  have hinv := h.inv.step _ _ _ hown
  obtain ⟨-, rfl⟩ := step_connect hown
  obtain ⟨hreceived, hwire, hunread⟩ := h.received_append (b.pendingRequestq.map Request.req)
  have hframes : b.pendingRequestq.map (fun request => requestFrame kv kn xx request.req)
      = (b.pendingRequestq.map Request.req).map (requestFrame kv kn xx) := by
    rw [List.map_map]
    rfl
  exact ⟨_, hown,
    { h with
      pendingRequestq := rfl
      connected := rfl
      received := hreceived
      wire := by rw [List.map_append, h.wire, hwire, h.pendingRequestq]
      inv := hinv
      toServer := by
        rw [hunread, hframes]
        refine h.toServer.sendAll (fun _ _ => serializeTo_ne_nil hkv _) fun req hreq => ?_
        obtain ⟨request, hrequest, rfl⟩ := List.mem_map.mp hreq
        exact h.pendingValid request hrequest
      pendingValid := by rintro _ ⟨⟩ }⟩

/-! ## Data events -/

/-- The messages of events that are all messages, none of them an error. -/
theorem messages_of_forall₂ {μ α : Type} {read : α → μ}
    {es : List (MmbpCodec.Event (Bool × μ))} {ms : List α}
    (h : List.Forall₂ (fun e m => e = .message (true, read m)) es ms) :
    messages es = ms.map read ∧ anyError es = false := by
  induction h with
  | nil => exact ⟨rfl, rfl⟩
  | cons he _ ih =>
    subst he
    exact ⟨congrArg (_ :: ·) ih.1, ih.2⟩

/-- The server reads the frames of requests however the stream is cut. -/
theorem framed_serverReceive (hkv : kv.Inverse) (hshort : kv.ShortPrefix) (hkn32 : kn.Inverse32)
    (hkn64 : kn.Inverse64) (hchunks : kn.ChunksCover) (hxx : xx.Streaming) (u : Unwritten) :
    Framing.Framed (serverReceive kv kn xx u) MmbpCodec.maxSize
      (fun fuel => (MmbpCodec.receiveLoop kv kn xx (parseRequest kv kn u) fuel).run)
      (requestFrame kv kn xx)
      (fun e req => e = .message (true, MmbpRequest.carry (newRequest u) req))
      (ValidRequest kv kn xx) :=
  MmbpCodec.framed hkv hshort hkn32 hchunks hxx (fun _ hreq => hreq.2)
    fun _ hreq => MmbpRequest.reads_parseFrom hkv hkn64 _ _ hreq.1 rfl rfl rfl

/-- The client reads the frames of responses however the stream is cut. -/
theorem framed_clientReceive (hkv : kv.Inverse) (hshort : kv.ShortPrefix) (hkn32 : kn.Inverse32)
    (hkn64 : kn.Inverse64) (hchunks : kn.ChunksCover) (hxx : xx.Streaming) (count : BitVec 64) :
    Framing.Framed (clientReceive kv kn xx count) MmbpCodec.maxSize
      (fun fuel => (MmbpCodec.receiveLoop kv kn xx (MmbpCodec.parseResponse kv kn count) fuel).run)
      (responseFrame kv kn xx)
      (fun e response =>
        e = .message (true, MmbpResponse.carry (MmbpResponse.fresh count) response))
      (ValidResponse kv kn xx) :=
  MmbpCodec.framed hkv hshort hkn32 hchunks hxx (fun _ hm => hm.2)
    fun _ hm => MmbpResponse.reads_parseFrom hkv hkn64 _ _ hm.1 rfl rfl rfl

/-- The messages that were read, and those of the next data event. -/
theorem forall₂_take_append {α β : Type} {R : α → β → Prop} {as : List α} {bs : List β}
    (has : List.Forall₂ R as (bs.take as.length)) {as' : List α}
    (has' : List.Forall₂ R as' ((bs.drop as.length).take as'.length)) :
    List.Forall₂ R (as ++ as') (bs.take (as ++ as').length) := by
  rw [List.length_append, List.take_add]
  exact List.rel_append has has'

/-- What the server reads of the stream is no step of the client over messages. -/
theorem Related.serverReads (hkv : kv.Inverse) (hshort : kv.ShortPrefix) (hkn32 : kn.Inverse32)
    (hkn64 : kn.Inverse64) (hchunks : kn.ChunksCover) (hxx : xx.Streaming)
    (h : Related kv kn xx b s) {n : ℕ} {u : Unwritten}
    (hlimit : (b.toServer.readable n).length < MmbpCodec.maxSize)
    (hstep : byteStep kv kn xx b (.serverReads n u) = some b') : Related kv kn xx b' s := by
  obtain ⟨es, ch, hdeliver, hes, hch⟩ :=
    h.toServer.deliver (framed_serverReceive hkv hshort hkn32 hkn64 hchunks hxx u) hlimit
  simp only [byteStep, hdeliver] at hstep
  obtain rfl := Option.some.inj hstep
  obtain ⟨hmessages, herror⟩ := messages_of_forall₂ hes
  have hlength : (messages es).length = es.length := by
    rw [hmessages, List.length_map, ← hes.length_eq]
  have hsame : List.Forall₂ MmbpRequest.SameOnWire (messages es)
      ((b.issued.drop b.received.length).take (messages es).length) := by
    rw [hlength, hmessages, List.forall₂_map_left_iff]
    exact List.forall₂_same.mpr fun req _ => MmbpRequest.carry_sameOnWire _ req
  exact
    { h with
      received := forall₂_take_append h.received hsame
      answered_le := by
        rw [List.length_append]
        exact h.answered_le.trans (Nat.le_add_right _ _)
      notFaulty := by rw [h.notFaulty, herror]; rfl
      toServer := by
        rw [List.length_append, hlength, ← List.drop_drop]
        exact hch }

/-- What the client reads of the stream is no step of the client over messages. -/
theorem Related.clientReads (hkv : kv.Inverse) (hshort : kv.ShortPrefix) (hkn32 : kn.Inverse32)
    (hkn64 : kn.Inverse64) (hchunks : kn.ChunksCover) (hxx : xx.Streaming)
    (h : Related kv kn xx b s) {n : ℕ} {count : BitVec 64}
    (hlimit : (b.toClient.readable n).length < MmbpCodec.maxSize)
    (hstep : byteStep kv kn xx b (.clientReads n count) = some b') : Related kv kn xx b' s := by
  obtain ⟨es, ch, hdeliver, hes, hch⟩ :=
    h.toClient.deliver (framed_clientReceive hkv hshort hkn32 hkn64 hchunks hxx count) hlimit
  simp only [byteStep, hdeliver] at hstep
  split_ifs at hstep with hdecoded
  rw [not_not] at hdecoded
  obtain rfl := Option.some.inj hstep
  obtain ⟨hmessages, herror⟩ := messages_of_forall₂ hes
  have hlength : (messages es).length = es.length := by
    rw [hmessages, List.length_map, ← hes.length_eq]
  rw [hdecoded, List.length_nil, List.drop_zero] at hes hch hmessages
  exact
    { h with
      decoded := by
        rw [hlength, hmessages, List.forall₂_map_left_iff]
        exact List.forall₂_same.mpr fun response _ => MmbpResponse.carry_sameOnWire _ response
      notFaulty := by rw [h.notFaulty, herror]; rfl
      toClient := by
        rw [hlength]
        exact hch }

/-! ## Answers and the response handler -/

/-- An answer is the next response on the way. -/
theorem Related.answer (hkv : kv.Inverse) (h : Related kv kn xx b s) {response : MmbpResponse}
    (hvalid : ValidResponse kv kn xx response)
    (hstep : byteStep kv kn xx b (.answer response) = some b') :
    ∃ s', step s (.answer response) = some s' ∧ Related kv kn xx b' s' := by
  obtain ⟨hlt, rfl⟩ := byteStep_answer hstep
  have hissued : b.answered < b.issued.length := by
    have hlen := h.received.length_eq
    rw [List.length_take] at hlen
    omega
  -- the oldest request that was not answered is on the wire
  have hwire := h.wire
  rw [List.drop_eq_getElem_cons hissued] at hwire
  obtain ⟨request, wire, hcons, hreq, hrest⟩ := List.map_eq_cons_iff.mp hwire
  have hown : step s (.answer response) = some
      { s with wire := wire, inbox := s.inbox ++ [(request.call, response)] } := by
    simp only [step, hcons]
  have hinv := h.inv.step _ _ _ hown
  have hle : b.decoded.length ≤ (s.inbox.map Prod.snd).length := by
    have hlen := h.decoded.length_eq
    rw [List.length_take] at hlen
    omega
  have hinbox : (s.inbox ++ [(request.call, response)]).map Prod.snd
      = s.inbox.map Prod.snd ++ [response] := List.map_append
  exact ⟨_, hown,
    { h with
      answered_le := hlt
      wire := hrest
      decoded := by
        rw [hinbox, List.take_append_of_le_length hle]
        exact h.decoded
      inv := hinv
      toClient := by
        rw [hinbox, List.drop_append_of_le_length hle]
        exact h.toClient.send (fun _ _ => serializeTo_ne_nil hkv _) hvalid }⟩

/-- Handling a decoded response is handling the oldest response that has arrived. -/
theorem Related.handle (h : Related kv kn xx b s)
    (hstep : byteStep kv kn xx b .handle = some b') :
    ∃ s', step s .handle = some s' ∧ Related kv kn xx b' s' := by
  obtain ⟨response, decoded, hdecoded, hcases⟩ := byteStep_handle hstep
  have hsame := h.decoded
  rw [hdecoded, List.length_cons] at hsame
  -- the response is the next one of the inbox, as far as the wire carries it
  cases hinbox : s.inbox with
  | nil =>
    rw [hinbox] at hsame
    cases hsame
  | cons r inbox =>
    obtain ⟨i, sent⟩ := r
    rw [hinbox, List.map_cons, List.take_succ_cons] at hsame
    obtain ⟨hsent, hrest⟩ := List.forall₂_cons.mp hsame
    have hclient := h.toClient
    rw [hdecoded, hinbox, List.map_cons, List.length_cons, List.drop_succ_cons] at hclient
    rcases hcases with ⟨hempty, -⟩ | ⟨front, cbq, hcbq, rfl⟩
    · -- a response that came finds a callback
      have hlt := h.inv.handled_lt (by rw [hinbox]; exact List.cons_ne_nil _ _)
      have hlen := congrArg List.length h.inv.cbq
      rw [h.cbq, hempty, List.map_nil, List.length_nil, List.length_drop] at hlen
      omega
    · have htag : front.value.type = .V_INVALID :=
        h.inv.tag front (by rw [h.cbq, hcbq]; exact List.mem_cons_self)
      have hown : step s .handle = some
          { s with
            inbox := inbox
            cbq := cbq
            handled := s.handled ++
              [{ call := i, response := sent, outcome := handleFront front sent }] } := by
        simp only [step, hinbox, h.cbq, hcbq]
      have hinv := h.inv.step _ _ _ hown
      have houtcome : handleFront front sent = handleFront front response := by
        rw [handleFront_invalid front htag, handleFront_invalid front htag, hsent.statusCode]
      exact ⟨_, hown,
        { h with
          cbq := rfl
          decoded := hrest
          handled := by
            rw [List.map_append, h.handled, List.map_singleton, houtcome]
          inv := hinv
          toClient := hclient }⟩

/-- **Every step over bytes is a step over messages**, or none. -/
theorem Related.step (hkv : kv.Inverse) (hshort : kv.ShortPrefix) (hkn32 : kn.Inverse32)
    (hkn64 : kn.Inverse64) (hchunks : kn.ChunksCover) (hxx : xx.Streaming)
    (h : Related kv kn xx b s) {a : ByteAction} (hlimit : InLimits kv kn xx b a)
    (hstep : byteStep kv kn xx b a = some b') :
    ∃ s', Transition.run MmkvClient.step s a.own = some s' ∧ Related kv kn xx b' s' := by
  have hone : ∀ {a : Action}, (∃ s', MmkvClient.step s a = some s' ∧ Related kv kn xx b' s') →
      ∃ s', Transition.run MmkvClient.step s [a] = some s' ∧ Related kv kn xx b' s' := by
    rintro a ⟨s', hs', h'⟩
    exact ⟨s', Transition.run_cons.mpr ⟨s', hs', rfl⟩, h'⟩
  cases a with
  | push call u => exact hone (h.push hlimit hstep)
  | test i => exact hone (h.test hstep)
  | send i => exact hone (h.send hkv hstep)
  | append i => exact hone (h.append hstep)
  | connect => exact hone (h.connect hkv hstep)
  | serverReads n u =>
    exact ⟨s, rfl, h.serverReads hkv hshort hkn32 hkn64 hchunks hxx hlimit hstep⟩
  | answer response => exact hone (h.answer hkv hlimit hstep)
  | clientReads n count =>
    exact ⟨s, rfl, h.clientReads hkv hshort hkn32 hkn64 hchunks hxx hlimit hstep⟩
  | handle => exact hone (h.handle hstep)

end

end MmkvClient

namespace MmkvClient

/-- Every run within the limits over bytes is a run over messages, step for step. -/
theorem exists_related {kv : Kvarint} {kn : Kanon} {xx : XXHash} (hkv : kv.Inverse)
    (hshort : kv.ShortPrefix) (hkn32 : kn.Inverse32) (hkn64 : kn.Inverse64)
    (hchunks : kn.ChunksCover) (hxx : xx.Streaming) {acts : List ByteAction} {b : ByteState}
    (hlimits : Transition.AllSteps (byteStep kv kn xx) (InLimits kv kn xx) byteInit acts)
    (hrun : Transition.run (byteStep kv kn xx) byteInit acts = some b) :
    ∃ s, Transition.run step init (acts.flatMap ByteAction.own) = some s
      ∧ Related kv kn xx b s :=
  Transition.run_of_refines
    (fun _ _ _ _ h hlimit hstep => h.step hkv hshort hkn32 hkn64 hchunks hxx hlimit hstep)
    related_init hlimits hrun

/-- When all bytes have come, so have all requests. -/
theorem Related.length_received {kv : Kvarint} {kn : Kanon} {xx : XXHash} {b : ByteState}
    {s : State} (h : Related kv kn xx b s) (hnetwork : b.toServer.network = []) :
    b.received.length = b.issued.length := by
  have hle := h.received.length_eq
  have hnil := List.drop_eq_nil_iff.mp (h.toServer.eq_nil hnetwork)
  rw [List.length_take] at hle
  omega

/-- When all bytes have come, so have all responses. -/
theorem Related.length_decoded {kv : Kvarint} {kn : Kanon} {xx : XXHash} {b : ByteState}
    {s : State} (h : Related kv kn xx b s) (hnetwork : b.toClient.network = []) :
    b.decoded.length = s.inbox.length := by
  have hle := h.decoded.length_eq
  have hnil := List.drop_eq_nil_iff.mp (h.toClient.eq_nil hnetwork)
  rw [List.length_take] at hle
  rw [List.length_map] at hle hnil
  omega

end MmkvClient

/-- **The client over bytes is the client over messages.**  Take any run over a connection,
whatever the number of bytes that come at a time: if calls and answers are such that frames
can hold them, and less than 64MB are readable at each data event, then its steps are a run
over messages with the same queues, calls and callbacks; no error is reported; the server
reads the requests issued, in order and each once; and once the bytes have come, so have all
the messages. -/
theorem mmkvClient_over_bytes {kv : Kvarint} {kn : Kanon} {xx : XXHash}
    (hkv : kv.Inverse) (hshort : kv.ShortPrefix) (hkn32 : kn.Inverse32) (hkn64 : kn.Inverse64)
    (hchunks : kn.ChunksCover) (hxx : xx.Streaming) {acts : List MmkvClient.ByteAction}
    {b : MmkvClient.ByteState}
    (hlimits : Transition.AllSteps (MmkvClient.byteStep kv kn xx) (MmkvClient.InLimits kv kn xx)
      MmkvClient.byteInit acts)
    (hrun : Transition.run (MmkvClient.byteStep kv kn xx) MmkvClient.byteInit acts = some b) :
    ∃ s, Transition.run MmkvClient.step MmkvClient.init (acts.flatMap MmkvClient.ByteAction.own)
        = some s
      ∧ MmkvClient.SameClient b s
      ∧ (b.toServer.network = [] → b.received.length = b.issued.length)
      ∧ (b.toClient.network = [] → b.decoded.length = s.inbox.length) := by
  obtain ⟨s, hs, h⟩ := MmkvClient.exists_related hkv hshort hkn32 hkn64 hchunks hxx hlimits hrun
  exact ⟨s, hs, h.toSameClient, h.length_received, h.length_decoded⟩

namespace MmkvClient

instance (req : MmbpRequest) : Decidable req.Encodable :=
  decidable_of_iff (req.key.length < 2 ^ 16 ∧ req.kvs.length < 2 ^ 32
      ∧ (∀ e ∈ req.kvs, e.key.length < 2 ^ 16 ∧ e.value.length < 2 ^ 32)
      ∧ req.values.length < 2 ^ 32 ∧ (∀ v ∈ req.values, v.length < 2 ^ 32)
      ∧ req.value.length < 2 ^ 32 ∧ req.vmembers.length < 2 ^ 32
      ∧ ∀ v ∈ req.vmembers, v.value.length < 2 ^ 32)
    ⟨fun h => ⟨h.1, h.2.1, fun e he => (h.2.2.1 e he).1, fun e he => (h.2.2.1 e he).2,
        h.2.2.2.1, h.2.2.2.2.1, h.2.2.2.2.2.1, h.2.2.2.2.2.2.1, h.2.2.2.2.2.2.2⟩,
      fun h => ⟨h.key, h.kvs, fun e he => ⟨h.kvs_key e he, h.kvs_value e he⟩, h.values,
        h.values_value, h.value, h.vmembers, h.vmembers_value⟩⟩

instance (response : MmbpResponse) : Decidable response.Encodable :=
  decidable_of_iff (response.value.length < 2 ^ 32 ∧ response.values.length < 2 ^ 32
      ∧ (∀ v ∈ response.values, v.length < 2 ^ 32) ∧ response.kvs.length < 2 ^ 32
      ∧ (∀ e ∈ response.kvs, e.key.length < 2 ^ 16 ∧ e.value.length < 2 ^ 32)
      ∧ response.vmembers.length < 2 ^ 32 ∧ ∀ v ∈ response.vmembers, v.value.length < 2 ^ 32)
    ⟨fun h => ⟨h.1, h.2.1, h.2.2.1, h.2.2.2.1, fun e he => (h.2.2.2.2.1 e he).1,
        fun e he => (h.2.2.2.2.1 e he).2, h.2.2.2.2.2.1, h.2.2.2.2.2.2⟩,
      fun h => ⟨h.value, h.values, h.values_value, h.kvs,
        fun e he => ⟨h.kvs_key e he, h.kvs_value e he⟩, h.vmembers, h.vmembers_value⟩⟩

instance decidableInLimits (kv : Kvarint) (kn : Kanon) (xx : XXHash) (b : ByteState) :
    ∀ a, Decidable (InLimits kv kn xx b a)
  | .push _ _ => inferInstanceAs (Decidable (_ ∧ _))
  | .answer _ => inferInstanceAs (Decidable (_ ∧ _))
  | .serverReads _ _ => inferInstanceAs (Decidable (_ < _))
  | .clientReads _ _ => inferInstanceAs (Decidable (_ < _))
  | .test _ | .send _ | .append _ | .connect | .handle => isTrue trivial

/-- An `AddStr` that waits for the connection, its request cut by the network, and its answer. -/
def cutAdd : List ByteAction :=
  [.push { id := 0, api := .addStr [97] [98] } Unwritten.zero, .test 0, .append 0, .connect,
    .serverReads 3 Unwritten.zero, .serverReads 100 Unwritten.zero, .answer MmbpResponse.hi,
    .clientReads 100 0, .handle]

end MmkvClient

theorem mmkvClient_over_bytes_cutAdd :
    ∃ b s, Transition.run (MmkvClient.byteStep Kvarint.leb128 Kanon.bigEndian XXHash.seed0)
        MmkvClient.byteInit MmkvClient.cutAdd = some b
      ∧ Transition.run MmkvClient.step MmkvClient.init
        (MmkvClient.cutAdd.flatMap MmkvClient.ByteAction.own) = some s
      ∧ MmkvClient.SameClient b s ∧ b.received.length = 1 := by
  have hlimits : Transition.AllSteps
      (MmkvClient.byteStep Kvarint.leb128 Kanon.bigEndian XXHash.seed0)
      (MmkvClient.InLimits Kvarint.leb128 Kanon.bigEndian XXHash.seed0)
      MmkvClient.byteInit MmkvClient.cutAdd := by decide +kernel
  have hreceived : (Transition.run
      (MmkvClient.byteStep Kvarint.leb128 Kanon.bigEndian XXHash.seed0)
      MmkvClient.byteInit MmkvClient.cutAdd).map (·.received.length) = some 1 := by decide +kernel
  obtain ⟨b, hb, hlength⟩ := Option.map_eq_some_iff.mp hreceived
  obtain ⟨s, hs, hsame, -⟩ := mmkvClient_over_bytes Kvarint.leb128_inverse
    Kvarint.leb128_shortPrefix Kanon.bigEndian_inverse32 Kanon.bigEndian_inverse64
    Kanon.bigEndian_chunksCover XXHash.seed0_streaming hlimits hb
  exact ⟨b, s, hb, hs, hsame, hlength⟩

end Mmkvc
