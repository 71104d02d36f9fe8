/-
# The client (`client/mmkv_client.{h,cc}`)

Calls of any number of threads and the event loop take turns in steps: each section
under a mutex and each `codec_.Send` is one.  A call pushes its callback on
`cbq_`, tests `cli_->GetConnection()`, and then sends its request or appends it to
`pending_requestq_`; the connection event flushes that queue; the server answers
in the order of the requests, and a response pops the front of `cbq_`.

`mmkvClient_response_own_callback` says when responses reach their own callbacks,
`mmkvClient_not_stranded_iff` when no request is left behind by the connection
event, and `mmkvClient_getStr_asserts` what a value read by `GetStr` comes to.
-/
import Mathlib.Data.List.Infix
import Mmkvc.MmkvValue
import Mmkvc.Transition

namespace Mmkvc

namespace MmkvClient

/-! ## Calls -/

/-- `Command::STR_ADD`. -/
def STR_ADD : BitVec 16 := 0
/-- `Command::STR_GET`. -/
def STR_GET : BitVec 16 := 2

/-- A call of the string API. -/
inductive Api where
  | addStr (key value : Bytes)
  | getStr (key : Bytes)
  deriving DecidableEq, Repr

/-- What the default constructors of `MmbpRequest` and `MmkvValue` leave unwritten. -/
structure Unwritten where
  expireTime : BitVec 64
  range : Range
  statusCode : StatusCode
  deriving DecidableEq, Repr

/-- `MmbpRequest()`. -/
def newRequest (u : Unwritten) : MmbpRequest where
  hasBits := 0
  command := commandNum
  key := []
  kvs := []
  values := []
  value := []
  vmembers := []
  expireTime := u.expireTime
  range := u.range

/-- The request that `AddStr` and `GetStr` build. -/
def Api.request (u : Unwritten) : Api → MmbpRequest
  | .addStr key value =>
    { ({ newRequest u with command := STR_ADD, key := key }.setKey) with value := value }.setValue
  | .getStr key => { newRequest u with command := STR_GET, key := key }.setKey

/-- A call: its number stands for the callback that it registers. -/
structure Call where
  id : ℕ
  api : Api
  deriving DecidableEq, Repr

/-- `OutstandingCall`. -/
structure OutstandingCall where
  value : MmkvValue
  cb : Call
  deriving DecidableEq, Repr

/-- A request on its way, with the number of its call. -/
structure Request where
  call : ℕ
  req : MmbpRequest
  deriving DecidableEq, Repr

/-- How far a call of `PrepareOutstandingCall` has got. -/
inductive Phase where
  | idle
  | pushed (req : MmbpRequest)
  | tested (req : MmbpRequest) (conn : Bool)
  | done
  deriving DecidableEq, Repr

/-- The response to a call that the message callback has handled, and the callback
it gave it to with the value it made of it. -/
structure Handled where
  call : ℕ
  response : MmbpResponse
  outcome : Except ClientFault (Call × MmkvValue)

/-! ## States and steps -/

/-- The client, the connection and the server.  The last two fields are histories:
the calls whose callbacks were ever pushed, and those whose requests were ever
sent. -/
structure State where
  cbq : List OutstandingCall
  pendingRequestq : List Request
  connected : Bool
  phase : ℕ → Phase
  wire : List Request
  inbox : List (ℕ × MmbpResponse)
  handled : List Handled
  pushed : List ℕ
  sent : List ℕ

/-- A client that is not connected yet. -/
def init : State where
  cbq := []
  pendingRequestq := []
  connected := false
  phase := fun _ => .idle
  wire := []
  inbox := []
  handled := []
  pushed := []
  sent := []

/-- The steps of the calls, of the event loop and of the server. -/
inductive Action where
  /-- A call pushes its callback on `cbq_`. -/
  | push (call : Call) (u : Unwritten)
  /-- It tests `cli_->GetConnection()`. -/
  | test (i : ℕ)
  /-- It sends its request. -/
  | send (i : ℕ)
  /-- It appends its request to `pending_requestq_`. -/
  | append (i : ℕ)
  /-- The connection callback. -/
  | connect
  /-- The server answers the oldest request it has not answered. -/
  | answer (response : MmbpResponse)
  /-- The message callback. -/
  | handle
  deriving DecidableEq, Repr

/-- `MmkvValue value;`, moved into a temporary `OutstandingCall` and with it into the queue. -/
def prepareValue (statusCode : StatusCode) : Except ClientFault MmkvValue := do
  let (value, _) ← MmkvValue.moveConstruct (MmkvValue.construct statusCode)
  let (value, _) ← MmkvValue.moveConstruct value
  return value

/-- Moving the front of the queue out and filling it from the response. -/
def handleFront (front : OutstandingCall) (response : MmbpResponse) :
    Except ClientFault (Call × MmkvValue) := do
  let (value, _) ← MmkvValue.moveAssign (MmkvValue.construct S_UNSET) front.value
  let value ← value.fromResponse response
  return (front.cb, value)

/-- The state after an action, if it is enabled. -/
def step (s : State) : Action → Option State
  | .push call u =>
    match s.phase call.id with
    | .idle => (prepareValue u.statusCode).toOption.map fun value =>
      { s with
        cbq := s.cbq ++ [{ value := value, cb := call }]
        phase := Function.update s.phase call.id (.pushed (call.api.request u))
        pushed := s.pushed ++ [call.id] }
    | _ => none
  | .test i =>
    match s.phase i with
    | .pushed req => some { s with phase := Function.update s.phase i (.tested req s.connected) }
    | _ => none
  | .send i =>
    match s.phase i with
    | .tested req true => some
      { s with
        wire := s.wire ++ [{ call := i, req := req }]
        phase := Function.update s.phase i .done
        sent := s.sent ++ [i] }
    | _ => none
  | .append i =>
    match s.phase i with
    | .tested req false => some
      { s with
        pendingRequestq := s.pendingRequestq ++ [{ call := i, req := req }]
        phase := Function.update s.phase i .done }
    | _ => none
  | .connect =>
    if s.connected then none
    else some
      { s with
        connected := true
        wire := s.wire ++ s.pendingRequestq
        sent := s.sent ++ s.pendingRequestq.map Request.call
        pendingRequestq := [] }
  | .answer response =>
    match s.wire with
    | [] => none
    | request :: wire => some { s with wire := wire, inbox := s.inbox ++ [(request.call, response)] }
  | .handle =>
    match s.inbox, s.cbq with
    | [], _ => none
    | (i, response) :: inbox, [] => some
      { s with
        inbox := inbox
        handled := s.handled ++
          [{ call := i, response := response, outcome := .error .emptyQueue }] }
    | (i, response) :: inbox, front :: cbq => some
      { s with
        inbox := inbox
        cbq := cbq
        handled := s.handled ++
          [{ call := i, response := response, outcome := handleFront front response }] }

/-! ## What a step can do -/

/-- A front without a tag is given to its callback with the status alone. -/
theorem handleFront_invalid (front : OutstandingCall) (h : front.value.type = .V_INVALID)
    (response : MmbpResponse) :
    handleFront front response = .ok (front.cb,
      { statusCode := response.statusCode, type := .V_INVALID, payload := .none }) := by
  rw [handleFront, MmkvValue.moveAssign, MmkvValue.moveConstruct_eq, h]
  rfl

section Steps

variable {s s' : State}

/-- A call can be pushed if it was not yet; its callback waits behind the others. -/
theorem step_push {call : Call} {u : Unwritten} (h : step s (.push call u) = some s') :
    s.phase call.id = .idle ∧ s' =
      { s with
        cbq := s.cbq ++ [{ value := { statusCode := u.statusCode, type := .V_INVALID,
                                      payload := .none }, cb := call }]
        phase := Function.update s.phase call.id (.pushed (call.api.request u))
        pushed := s.pushed ++ [call.id] } := by
  simp only [step] at h
  split at h
  · rename_i hphase
    exact ⟨hphase, (Option.some.inj h).symm⟩
  · cases h

/-- A call that was pushed looks at the connection. -/
theorem step_test {i : ℕ} (h : step s (.test i) = some s') :
    ∃ req, s.phase i = .pushed req
      ∧ s' = { s with phase := Function.update s.phase i (.tested req s.connected) } := by
  simp only [step] at h
  split at h
  · rename_i req hphase
    exact ⟨req, hphase, (Option.some.inj h).symm⟩
  · cases h

/-- A call that found a connection sends its request. -/
theorem step_send {i : ℕ} (h : step s (.send i) = some s') :
    ∃ req, s.phase i = .tested req true ∧ s' =
      { s with
        wire := s.wire ++ [{ call := i, req := req }]
        phase := Function.update s.phase i .done
        sent := s.sent ++ [i] } := by
  simp only [step] at h
  split at h
  · rename_i req hphase
    exact ⟨req, hphase, (Option.some.inj h).symm⟩
  · cases h

/-- A call that found no connection adds its request to the queue. -/
theorem step_append {i : ℕ} (h : step s (.append i) = some s') :
    ∃ req, s.phase i = .tested req false ∧ s' =
      { s with
        pendingRequestq := s.pendingRequestq ++ [{ call := i, req := req }]
        phase := Function.update s.phase i .done } := by
  simp only [step] at h
  split at h
  · rename_i req hphase
    exact ⟨req, hphase, (Option.some.inj h).symm⟩
  · cases h

/-- The client connects once and sends the requests of the queue. -/
theorem step_connect (h : step s .connect = some s') :
    s.connected = false ∧ s' =
      { s with
        connected := true
        wire := s.wire ++ s.pendingRequestq
        sent := s.sent ++ s.pendingRequestq.map Request.call
        pendingRequestq := [] } := by
  simp only [step] at h
  split_ifs at h with hconn
  exact ⟨Bool.eq_false_of_not_eq_true hconn, (Option.some.inj h).symm⟩

/-- The server answers the oldest request on the way. -/
theorem step_answer {response : MmbpResponse} (h : step s (.answer response) = some s') :
    ∃ request wire, s.wire = request :: wire
      ∧ s' = { s with wire := wire, inbox := s.inbox ++ [(request.call, response)] } := by
  simp only [step] at h
  split at h
  · cases h
  · rename_i request wire hwire
    exact ⟨request, wire, hwire, (Option.some.inj h).symm⟩

/-- The oldest response is given to the front callback, if there is one. -/
theorem step_handle (h : step s .handle = some s') :
    ∃ i response inbox, s.inbox = (i, response) :: inbox
      ∧ ((s.cbq = [] ∧ s' =
          { s with
            inbox := inbox
            handled := s.handled ++
              [{ call := i, response := response, outcome := .error .emptyQueue }] })
        ∨ ∃ front cbq, s.cbq = front :: cbq ∧ s' =
          { s with
            inbox := inbox
            cbq := cbq
            handled := s.handled ++
              [{ call := i, response := response,
                 outcome := handleFront front response }] }) := by
  simp only [step] at h
  split at h
  · cases h
  · rename_i i response inbox hinbox hcbq
    exact ⟨i, response, inbox, hinbox, Or.inl ⟨hcbq, (Option.some.inj h).symm⟩⟩
  · rename_i i response inbox front cbq hinbox hcbq
    exact ⟨i, response, inbox, hinbox, Or.inr ⟨front, cbq, hcbq, (Option.some.inj h).symm⟩⟩

end Steps

/-! ## The invariant -/

/-- What holds in every reachable state: each call is pushed once, and handed over
once it is done; requests, responses and callbacks keep their orders; and no value
has a tag. -/
structure Inv (s : State) : Prop where
  nodup_pushed : s.pushed.Nodup
  mem_pushed : ∀ i, i ∈ s.pushed ↔ s.phase i ≠ .idle
  handedOver : ∀ i, s.sent.count i + (s.pendingRequestq.map Request.call).count i
    = if s.phase i = .done then 1 else 0
  fifo : s.handled.map Handled.call ++ (s.inbox.map Prod.fst ++ s.wire.map Request.call) = s.sent
  cbq : s.cbq.map (fun oc => oc.cb.id) = s.pushed.drop s.handled.length
  tag : ∀ oc ∈ s.cbq, oc.value.type = .V_INVALID
  outcome : ∀ (k : ℕ) (e : Handled), s.handled[k]? = some e → ∃ cb value,
    e.outcome = .ok (cb, value) ∧ s.pushed[k]? = some cb.id ∧ value.type = .V_INVALID
      ∧ value.statusCode = e.response.statusCode

/-- At first no call has been made. -/
theorem inv_init : Inv init where
  nodup_pushed := List.nodup_nil
  mem_pushed := fun i => by simp [init]
  handedOver := fun i => rfl
  fifo := rfl
  cbq := rfl
  tag := fun oc h => by cases h
  outcome := fun k e h => by simp [init] at h

namespace Inv

variable {s s' : State}

/-- The requests handed over are those of different calls whose callbacks were pushed. -/
theorem length_sent_le (h : Inv s) :
    s.sent.length + s.pendingRequestq.length ≤ s.pushed.length := by
  have hcount : ∀ i, (s.sent ++ s.pendingRequestq.map Request.call).count i
      = if s.phase i = .done then 1 else 0 := by
    intro i
    rw [List.count_append, h.handedOver]
  have hnodup : (s.sent ++ s.pendingRequestq.map Request.call).Nodup := by
    rw [List.nodup_iff_count_le_one]
    intro i
    rw [hcount]
    split_ifs <;> omega
  have hsub : (s.sent ++ s.pendingRequestq.map Request.call) ⊆ s.pushed := by
    intro i hi
    rw [h.mem_pushed]
    rintro hidle
    have hpos := List.count_pos_iff.mpr hi
    rw [hcount, hidle, if_neg (by rintro ⟨⟩)] at hpos
    omega
  have hlen := (hnodup.subperm hsub).length_le
  rwa [List.length_append, List.length_map] at hlen

/-- A response that arrives finds a callback in the queue. -/
theorem handled_lt (h : Inv s) (hinbox : s.inbox ≠ []) : s.handled.length < s.pushed.length := by
  have hlen := congrArg List.length h.fifo
  have hpos := List.length_pos_of_ne_nil hinbox
  have hle := h.length_sent_le
  simp only [List.length_append, List.length_map] at hlen
  omega

/-- A new call keeps the invariant. -/
theorem push {call : Call} {u : Unwritten} (h : Inv s) (hstep : step s (.push call u) = some s') :
    Inv s' := by
  obtain ⟨hidle, rfl⟩ := step_push hstep
  have hnotin : call.id ∉ s.pushed := fun hmem => (h.mem_pushed call.id).mp hmem hidle
  refine ⟨?_, ?_, ?_, h.fifo, ?_, ?_, ?_⟩
  · exact h.nodup_pushed.append (List.nodup_singleton _)
      (List.disjoint_singleton.mpr hnotin)
  · intro i
    by_cases hi : i = call.id
    · subst hi; simp
    · simp [h.mem_pushed, hi]
  · intro i
    by_cases hi : i = call.id
    · subst hi
      have := h.handedOver call.id
      rw [hidle] at this
      simpa using this
    · simpa [hi] using h.handedOver i
  · have hlen := h.length_sent_le
    have hfifo := congrArg List.length h.fifo
    simp only [List.length_append, List.length_map] at hfifo
    have hle : s.handled.length ≤ s.pushed.length := by omega
    rw [List.map_append, h.cbq, List.drop_append_of_le_length hle]
    rfl
  · rintro oc hoc
    rcases List.mem_append.mp hoc with hoc | hoc
    · exact h.tag oc hoc
    · rw [List.mem_singleton.mp hoc]
  · intro k e he
    obtain ⟨cb, value, hout, hcb, hrest⟩ := h.outcome k e he
    exact ⟨cb, value, hout, (List.getElem?_append_left
      (List.getElem?_eq_some_iff.mp hcb).1).trans hcb, hrest⟩

/-- A phase that moves on between pushing and handing over changes no queue. -/
theorem test {i : ℕ} (h : Inv s) (hstep : step s (.test i) = some s') : Inv s' := by
  obtain ⟨req, hphase, rfl⟩ := step_test hstep
  refine ⟨h.nodup_pushed, ?_, ?_, h.fifo, h.cbq, h.tag, h.outcome⟩
  · intro j
    by_cases hj : j = i
    · subst hj; simp [h.mem_pushed, hphase]
    · simp [h.mem_pushed, hj]
  · intro j
    by_cases hj : j = i
    · subst hj
      have := h.handedOver j
      rw [hphase] at this
      simpa using this
    · simpa [hj] using h.handedOver j

/-- A request that is sent keeps the invariant. -/
theorem send {i : ℕ} (h : Inv s) (hstep : step s (.send i) = some s') : Inv s' := by
  obtain ⟨req, hphase, rfl⟩ := step_send hstep
  refine ⟨h.nodup_pushed, ?_, ?_, ?_, h.cbq, h.tag, h.outcome⟩
  · intro j
    by_cases hj : j = i
    · subst hj; simp [h.mem_pushed, hphase]
    · simp [h.mem_pushed, hj]
  · intro j
    by_cases hj : j = i
    · subst hj
      have := h.handedOver j
      rw [hphase, if_neg (by rintro ⟨⟩)] at this
      simp only [List.count_append, List.count_singleton_self, Function.update_self, if_true]
      omega
    · have hne : List.count j [i] = 0 := List.count_eq_zero.mpr (by simpa using hj)
      simpa [hj, List.count_append, hne] using h.handedOver j
  · show _ ++ (_ ++ (s.wire ++ [_]).map Request.call) = s.sent ++ [i]
    rw [List.map_append, ← h.fifo]
    simp only [List.append_assoc]
    rfl

/-- A request that waits keeps the invariant. -/
theorem append {i : ℕ} (h : Inv s) (hstep : step s (.append i) = some s') : Inv s' := by
  obtain ⟨req, hphase, rfl⟩ := step_append hstep
  refine ⟨h.nodup_pushed, ?_, ?_, h.fifo, h.cbq, h.tag, h.outcome⟩
  · intro j
    by_cases hj : j = i
    · subst hj; simp [h.mem_pushed, hphase]
    · simp [h.mem_pushed, hj]
  · intro j
    by_cases hj : j = i
    · subst hj
      have := h.handedOver j
      rw [hphase, if_neg (by rintro ⟨⟩)] at this
      simp only [List.map_append, List.count_append, List.map_cons, List.map_nil,
        List.count_singleton_self, Function.update_self, if_true]
      omega
    · have hne : List.count j [i] = 0 := List.count_eq_zero.mpr (by simpa using hj)
      simpa [hj, List.count_append, hne] using h.handedOver j

/-- The connection event keeps the invariant: the requests of the queue are handed over. -/
theorem connect (h : Inv s) (hstep : step s .connect = some s') : Inv s' := by
  obtain ⟨-, rfl⟩ := step_connect hstep
  refine ⟨h.nodup_pushed, h.mem_pushed, ?_, ?_, h.cbq, h.tag, h.outcome⟩
  · intro i
    rw [← h.handedOver i, List.count_append]
    rfl
  · show _ ++ (_ ++ (s.wire ++ s.pendingRequestq).map Request.call) = s.sent ++ _
    rw [List.map_append, ← h.fifo]
    simp only [List.append_assoc]

/-- An answer keeps the invariant. -/
theorem answer {response : MmbpResponse} (h : Inv s)
    (hstep : step s (.answer response) = some s') : Inv s' := by
  obtain ⟨request, wire, hwire, rfl⟩ := step_answer hstep
  refine ⟨h.nodup_pushed, h.mem_pushed, h.handedOver, ?_, h.cbq, h.tag, h.outcome⟩
  rw [← h.fifo, hwire, List.map_append, List.map_cons, List.append_assoc]
  rfl

/-- The front of the queue is the callback pushed after as many as were handled. -/
theorem handle (h : Inv s) (hstep : step s .handle = some s') : Inv s' := by
  obtain ⟨i, response, inbox, hinbox, hcases⟩ := step_handle hstep
  have hlt := h.handled_lt (by rw [hinbox]; exact List.cons_ne_nil _ _)
  rcases hcases with ⟨hcbq, -⟩ | ⟨front, cbq, hcbq, rfl⟩
  · have hnil := h.cbq
    rw [hcbq, List.map_nil, eq_comm, List.drop_eq_nil_iff] at hnil
    omega
  · have hfront := h.cbq
    rw [hcbq, List.map_cons, List.drop_eq_getElem_cons hlt, List.cons.injEq] at hfront
    have htag : front.value.type = .V_INVALID :=
      h.tag front (by rw [hcbq]; exact List.mem_cons_self)
    refine ⟨h.nodup_pushed, h.mem_pushed, h.handedOver, ?_, ?_, ?_, ?_⟩
    · rw [← h.fifo, hinbox, List.map_append, List.append_assoc]
      rfl
    · rw [hfront.2, List.length_append]
      rfl
    · rintro oc hoc
      exact h.tag oc (by rw [hcbq]; exact List.mem_cons_of_mem _ hoc)
    · intro k e he
      rcases Nat.lt_or_ge k s.handled.length with hk | hk
      · rw [List.getElem?_append_left hk] at he
        exact h.outcome k e he
      · rw [List.getElem?_append_right hk] at he
        obtain ⟨hk', he⟩ := List.getElem?_eq_some_iff.mp he
        rw [List.length_singleton] at hk'
        obtain rfl : k = s.handled.length := by omega
        simp only [Nat.sub_self, List.getElem_cons_zero] at he
        subst he
        exact ⟨front.cb, _, handleFront_invalid front htag response,
          (List.getElem?_eq_getElem hlt).trans (congrArg some hfront.1.symm), rfl, rfl⟩

/-- **Every step keeps the invariant.** -/
theorem step (s : State) (a : Action) (s' : State) (h : Inv s)
    (hstep : MmkvClient.step s a = some s') : Inv s' := by
  cases a with
  | push call u => exact h.push hstep
  | test i => exact h.test hstep
  | send i => exact h.send hstep
  | append i => exact h.append hstep
  | connect => exact h.connect hstep
  | answer response => exact h.answer hstep
  | handle => exact h.handle hstep

end Inv

/-- The invariant holds in every reachable state. -/
theorem inv_of_run {s : State} {acts : List Action}
    (hrun : Transition.run step init acts = some s) : Inv s :=
  Transition.invariant_of_run Inv.step inv_init hrun

/-! ## Responses and their callbacks -/

/-- The response was given to the callback registered with its request. -/
def Handled.OwnCallback (e : Handled) : Prop :=
  ∃ cb value, e.outcome = .ok (cb, value) ∧ cb.id = e.call

/-- A step that puts requests on the wire puts there those whose callbacks were
pushed right behind the callbacks of the requests already sent. -/
def InOrder (s : State) : Action → Prop
  | .send i => [i] <+: s.pushed.drop s.sent.length
  | .connect => s.pendingRequestq.map Request.call <+: s.pushed.drop s.sent.length
  | _ => True

theorem append_prefix_iff {α : Type} {l m n : List α} (h : l <+: n) :
    l ++ m <+: n ↔ m <+: n.drop l.length := by
  obtain ⟨r, rfl⟩ := h
  rw [List.prefix_append_right_inj, List.drop_left]

/-- What a step does to the two histories. -/
theorem step_histories {s s' : State} {a : Action} (h : step s a = some s') :
    ∃ l m, s'.sent = s.sent ++ l ∧ s'.pushed = s.pushed ++ m
      ∧ (s.sent <+: s.pushed → (InOrder s a ↔ s'.sent <+: s'.pushed)) := by
  cases a with
  | push call u =>
    obtain ⟨-, rfl⟩ := step_push h
    exact ⟨[], _, (List.append_nil _).symm, rfl,
      fun hp => iff_of_true trivial (hp.trans (List.prefix_append _ _))⟩
  | test i =>
    obtain ⟨req, -, rfl⟩ := step_test h
    exact ⟨[], [], (List.append_nil _).symm, (List.append_nil _).symm, fun hp => iff_of_true trivial hp⟩
  | send i =>
    obtain ⟨req, -, rfl⟩ := step_send h
    exact ⟨_, [], rfl, (List.append_nil _).symm, fun hp => (append_prefix_iff hp).symm⟩
  | append i =>
    obtain ⟨req, -, rfl⟩ := step_append h
    exact ⟨[], [], (List.append_nil _).symm, (List.append_nil _).symm, fun hp => iff_of_true trivial hp⟩
  | connect =>
    obtain ⟨-, rfl⟩ := step_connect h
    exact ⟨_, [], rfl, (List.append_nil _).symm, fun hp => (append_prefix_iff hp).symm⟩
  | answer response =>
    obtain ⟨request, wire, -, rfl⟩ := step_answer h
    exact ⟨[], [], (List.append_nil _).symm, (List.append_nil _).symm, fun hp => iff_of_true trivial hp⟩
  | handle =>
    obtain ⟨i, response, inbox, -, ⟨-, rfl⟩ | ⟨front, cbq, -, rfl⟩⟩ := step_handle h
    · exact ⟨[], [], (List.append_nil _).symm, (List.append_nil _).symm,
        fun hp => iff_of_true trivial hp⟩
    · exact ⟨[], [], (List.append_nil _).symm, (List.append_nil _).symm,
        fun hp => iff_of_true trivial hp⟩

/-- The steps of a run were in order exactly when the requests sent are the first
of those whose callbacks were pushed. -/
theorem allSteps_inOrder_iff {s : State} {acts : List Action}
    (hrun : Transition.run step init acts = some s) :
    Transition.AllSteps step InOrder init acts ↔ s.sent <+: s.pushed := by
  -- once the order is lost it stays lost: the histories only grow
  have hlast : ∀ s a s', Inv s → ¬ s.sent <+: s.pushed → step s a = some s' →
      ¬ s'.sent <+: s'.pushed := by
    intro s a s' h hbad hstep hpre
    obtain ⟨l, m, hsent, hpushed, -⟩ := step_histories hstep
    rw [hsent, hpushed] at hpre
    have hle := h.length_sent_le
    exact hbad (List.prefix_of_prefix_length_le ((List.prefix_append _ _).trans hpre)
      (List.prefix_append _ _) (by omega))
  constructor
  · intro hall
    refine (Transition.invariant_of_allSteps (I := fun s => s.sent <+: s.pushed) ?_
      List.nil_prefix hall hrun)
    intro s a s' hpre horder hstep
    obtain ⟨l, m, -, -, hiff⟩ := step_histories hstep
    exact (hiff hpre).mp horder
  · intro hpre
    refine Transition.allSteps_of_not_bad (B := fun s => ¬ s.sent <+: s.pushed) Inv.step ?_ hlast
      inv_init hrun (not_not_intro hpre)
    intro s a s' h hbad hstep
    by_cases hs : s.sent <+: s.pushed
    · obtain ⟨l, m, -, -, hiff⟩ := step_histories hstep
      exact fun h => hbad ((hiff hs).mpr h)
    · exact hlast s a s' h hs hstep

/-- A state in which the requests were sent in order handles responses right. -/
theorem Inv.ownCallback {s : State} (h : Inv s) (hpre : s.sent <+: s.pushed) :
    ∀ e ∈ s.handled, e.OwnCallback := by
  intro e he
  obtain ⟨k, hk, rfl⟩ := List.getElem_of_mem he
  obtain ⟨cb, value, hout, hcb, -⟩ := h.outcome k _ (List.getElem?_eq_getElem hk)
  refine ⟨cb, value, hout, ?_⟩
  have hsent : s.sent[k]? = some s.handled[k].call := by
    rw [← h.fifo, List.getElem?_append_left (by rwa [List.length_map]), List.getElem?_map,
      List.getElem?_eq_getElem hk]
    rfl
  obtain ⟨r, hr⟩ := hpre
  rw [← hr, List.getElem?_append_left (List.getElem?_eq_some_iff.mp hsent).1, hsent] at hcb
  exact (Option.some.inj hcb).symm

/-- The steps of the server and of the message callback. -/
def Action.IsReply : Action → Prop
  | .answer _ => True
  | .handle => True
  | _ => False

/-- The responses that are due can all be handled. -/
theorem exists_drain (n : ℕ) : ∀ s : State, 2 * s.wire.length + s.inbox.length = n →
    ∃ more s', (∀ a ∈ more, a.IsReply) ∧ Transition.run step s more = some s'
      ∧ s'.wire = [] ∧ s'.inbox = [] ∧ s'.sent = s.sent ∧ s'.pushed = s.pushed := by
  induction n using Nat.strong_induction_on with
  | _ n ih =>
    intro s hn
    -- one reply, and the induction hypothesis for the rest
    have hgo : ∀ a s₁, a.IsReply → step s a = some s₁ →
        2 * s₁.wire.length + s₁.inbox.length < n → s₁.sent = s.sent → s₁.pushed = s.pushed →
        ∃ more s', (∀ a ∈ more, a.IsReply) ∧ Transition.run step s more = some s'
          ∧ s'.wire = [] ∧ s'.inbox = [] ∧ s'.sent = s.sent ∧ s'.pushed = s.pushed := by
      intro a s₁ ha hstep hlt hsent hpushed
      obtain ⟨more, s', hmore, hrun, hwire, hinbox, hsent', hpushed'⟩ := ih _ hlt s₁ rfl
      exact ⟨a :: more, s', List.forall_mem_cons.mpr ⟨ha, hmore⟩,
        Transition.run_cons.mpr ⟨s₁, hstep, hrun⟩, hwire, hinbox, hsent'.trans hsent,
        hpushed'.trans hpushed⟩
    cases hwire : s.wire with
    | cons request wire =>
      have hstep : step s (.answer MmbpResponse.hi) = some { s with
          wire := wire, inbox := s.inbox ++ [(request.call, MmbpResponse.hi)] } := by
        simp only [step, hwire]
      refine hgo (.answer MmbpResponse.hi) _ trivial hstep ?_ rfl rfl
      rw [hwire] at hn
      simp only [List.length_append, List.length_cons, List.length_nil] at hn ⊢
      omega
    | nil =>
      cases hinbox : s.inbox with
      | nil => exact ⟨[], s, by simp, rfl, hwire, hinbox, rfl, rfl⟩
      | cons r inbox =>
        obtain ⟨s₁, hstep⟩ : ∃ s₁, step s .handle = some s₁ := by
          obtain ⟨i, response⟩ := r
          cases hcbq : s.cbq with
          | nil => exact Option.isSome_iff_exists.mp (by simp only [step, hinbox, hcbq]; rfl)
          | cons front cbq => exact Option.isSome_iff_exists.mp (by simp only [step, hinbox, hcbq]; rfl)
        rw [hwire, hinbox, List.length_cons] at hn
        obtain ⟨i, response, inbox', hin, ⟨-, rfl⟩ | ⟨front, cbq, -, rfl⟩⟩ := step_handle hstep
        · rw [hinbox, List.cons.injEq] at hin
          exact hgo .handle _ trivial hstep (by simp only [hwire, ← hin.2]; omega) rfl rfl
        · rw [hinbox, List.cons.injEq] at hin
          exact hgo .handle _ trivial hstep (by simp only [hwire, ← hin.2]; omega) rfl rfl

/-- Once every response is handled, each went to its own callback only if the
requests were sent in order. -/
theorem Inv.prefix_of_ownCallback {s : State} (h : Inv s) (hwire : s.wire = [])
    (hinbox : s.inbox = []) (hown : ∀ e ∈ s.handled, e.OwnCallback) : s.sent <+: s.pushed := by
  have hsent : s.handled.map Handled.call = s.sent := by
    rw [← h.fifo, hwire, hinbox]
    simp
  rw [List.prefix_iff_getElem?]
  intro k hk
  have hk' : k < s.handled.length := by rwa [← hsent, List.length_map] at hk
  obtain ⟨cb, value, hout, hcb, -⟩ := h.outcome k _ (List.getElem?_eq_getElem hk')
  obtain ⟨cb', value', hout', hid⟩ := hown _ (List.getElem_mem hk')
  rw [hout] at hout'
  obtain ⟨rfl, -⟩ := Prod.mk.inj (Except.ok.inj hout')
  have hk'' : s.sent[k] = s.handled[k].call := by
    simp only [← hsent, List.getElem_map]
  rw [hcb, hid, hk'']

/-! ## Requests and the connection event -/

/-- No call appends its request after the connection event. -/
def NoLateAppend (s : State) : Action → Prop
  | .append _ => s.connected = false
  | _ => True

/-- No call is in progress. -/
def Quiescent (s : State) : Prop := ∀ i, s.phase i = .idle ∨ s.phase i = .done

/-- No request waits, and each completed call's request was sent exactly once. -/
def Delivered (s : State) : Prop :=
  s.pendingRequestq = [] ∧ ∀ i, s.phase i = .done → s.sent.count i = 1

/-- If no request waits, every completed call has sent its own once. -/
theorem Inv.delivered_iff {s : State} (h : Inv s) : Delivered s ↔ s.pendingRequestq = [] := by
  refine ⟨And.left, fun hpending => ⟨hpending, ?_⟩⟩
  intro i hi
  have hcount := h.handedOver i
  rw [hpending, if_pos hi] at hcount
  simpa using hcount

/-- A request that is appended in time is flushed. -/
theorem pending_of_step {s s' : State} {a : Action} (hstep : step s a = some s')
    (ha : NoLateAppend s a) (h : s.connected = true → s.pendingRequestq = []) :
    s'.connected = true → s'.pendingRequestq = [] := by
  cases a with
  | push call u => obtain ⟨-, rfl⟩ := step_push hstep; exact h
  | test i => obtain ⟨req, -, rfl⟩ := step_test hstep; exact h
  | send i => obtain ⟨req, -, rfl⟩ := step_send hstep; exact h
  | append i =>
    obtain ⟨req, -, rfl⟩ := step_append hstep
    intro hconn
    have hnot : s.connected = false := ha
    exact absurd (hnot.symm.trans hconn) (by decide)
  | connect => obtain ⟨-, rfl⟩ := step_connect hstep; exact fun _ => rfl
  | answer response => obtain ⟨request, wire, -, rfl⟩ := step_answer hstep; exact h
  | handle =>
    obtain ⟨i, response, inbox, -, ⟨-, rfl⟩ | ⟨front, cbq, -, rfl⟩⟩ := step_handle hstep
    · exact h
    · exact h

/-- A request that waits on a connected client waits for ever. -/
theorem stranded_of_step {s s' : State} {a : Action} (hstep : step s a = some s')
    (h : s.connected = true ∧ s.pendingRequestq ≠ []) :
    s'.connected = true ∧ s'.pendingRequestq ≠ [] := by
  cases a with
  | push call u => obtain ⟨-, rfl⟩ := step_push hstep; exact h
  | test i => obtain ⟨req, -, rfl⟩ := step_test hstep; exact h
  | send i => obtain ⟨req, -, rfl⟩ := step_send hstep; exact h
  | append i =>
    obtain ⟨req, -, rfl⟩ := step_append hstep
    exact ⟨h.1, List.append_ne_nil_of_right_ne_nil _ (List.cons_ne_nil _ _)⟩
  | connect =>
    obtain ⟨hconn, -⟩ := step_connect hstep
    exact absurd (hconn.symm.trans h.1) (by decide)
  | answer response => obtain ⟨request, wire, -, rfl⟩ := step_answer hstep; exact h
  | handle =>
    obtain ⟨i, response, inbox, -, ⟨-, rfl⟩ | ⟨front, cbq, -, rfl⟩⟩ := step_handle hstep
    · exact h
    · exact h

/-- A late request is left in the queue of a connected client. -/
theorem stranded_of_lateAppend {s s' : State} {a : Action} (hstep : step s a = some s')
    (ha : ¬ NoLateAppend s a) : s'.connected = true ∧ s'.pendingRequestq ≠ [] := by
  cases a with
  | append i =>
    obtain ⟨req, -, rfl⟩ := step_append hstep
    exact ⟨Bool.eq_true_of_not_eq_false ha,
      List.append_ne_nil_of_right_ne_nil _ (List.cons_ne_nil _ _)⟩
  | _ => exact absurd trivial ha

/-! ## Values -/

/-- The callback is given a value with the status of the response, whose
`ToStrValue` is the value of the response. -/
def Handled.DeliversStr (e : Handled) : Prop :=
  ∃ cb value, e.outcome = .ok (cb, value) ∧ value.statusCode = e.response.statusCode
    ∧ value.toStrValue = .ok e.response.value

/-! ## A run -/

/-- An unwritten object. -/
def Unwritten.zero : Unwritten where
  expireTime := 0
  range := { left := 0, right := 0 }
  statusCode := 0

/-- Call 0 finds no connection and appends its request after the connection event;
call 1 sends at once, and its response is handled. -/
def lateAppend : List Action :=
  [.push { id := 0, api := .addStr [97] [98] } Unwritten.zero, .test 0, .connect, .append 0,
    .push { id := 1, api := .getStr [97] } Unwritten.zero, .test 1, .send 1,
    .answer MmbpResponse.hi, .handle]

/-- Call 0 finds no connection and appends its request in time; it is flushed with the
connection, and call 1 sends behind it.  Both responses are handled. -/
def promptGet : List Action :=
  [.push { id := 0, api := .addStr [97] [104, 105] } Unwritten.zero, .test 0, .append 0, .connect,
    .push { id := 1, api := .getStr [97] } Unwritten.zero, .test 1, .send 1,
    .answer { MmbpResponse.fresh 0 with statusCode := S_OK }, .answer MmbpResponse.hi,
    .handle, .handle]

end MmkvClient

/-- **When responses reach their own callbacks.**  In every run whose steps put the
requests on the wire in the order in which their callbacks were pushed, each
response that is handled goes to the callback registered with its request.  After
a run with another step, replies can follow of which one goes to another callback. -/
theorem mmkvClient_response_own_callback {acts : List MmkvClient.Action} {s : MmkvClient.State}
    (hrun : Transition.run MmkvClient.step MmkvClient.init acts = some s) :
    (Transition.AllSteps MmkvClient.step MmkvClient.InOrder MmkvClient.init acts →
      ∀ e ∈ s.handled, e.OwnCallback)
    ∧ (¬ Transition.AllSteps MmkvClient.step MmkvClient.InOrder MmkvClient.init acts →
      ∃ more s', (∀ a ∈ more, a.IsReply) ∧ Transition.run MmkvClient.step s more = some s'
        ∧ ∃ e ∈ s'.handled, ¬ e.OwnCallback) := by
  rw [MmkvClient.allSteps_inOrder_iff hrun]
  refine ⟨(MmkvClient.inv_of_run hrun).ownCallback, fun hpre => ?_⟩
  obtain ⟨more, s', hmore, hrun', hwire, hinbox, hsent, hpushed⟩ :=
    MmkvClient.exists_drain _ s rfl
  have hinv := MmkvClient.inv_of_run (Transition.run_append.mpr ⟨s, hrun, hrun'⟩)
  refine ⟨more, s', hmore, hrun', ?_⟩
  by_contra hown
  push Not at hown
  rw [← hsent, ← hpushed] at hpre
  exact hpre (hinv.prefix_of_ownCallback hwire hinbox hown)

theorem mmkvClient_response_own_callback_promptGet :
    ∃ s, Transition.run MmkvClient.step MmkvClient.init MmkvClient.promptGet = some s
      ∧ ∀ e ∈ s.handled, e.OwnCallback := by
  obtain ⟨s, hrun⟩ : ∃ s, Transition.run MmkvClient.step MmkvClient.init MmkvClient.promptGet
    = some s := ⟨_, rfl⟩
  refine ⟨s, hrun, (mmkvClient_response_own_callback hrun).1 ?_⟩
  rw [MmkvClient.allSteps_inOrder_iff hrun]
  obtain rfl := Option.some.inj hrun
  decide

/-- The response to call 1 goes to the callback of call 0, whose request waits. -/
theorem mmkvClient_lateAppend_wrong_callback :
    ¬ ∀ (acts : List MmkvClient.Action) (s : MmkvClient.State),
      Transition.run MmkvClient.step MmkvClient.init acts = some s →
        ∀ e ∈ s.handled, e.OwnCallback := by
  intro h
  obtain ⟨s, hrun⟩ : ∃ s, Transition.run MmkvClient.step MmkvClient.init MmkvClient.lateAppend
    = some s := ⟨_, rfl⟩
  have hown := h _ s hrun
  obtain rfl := Option.some.inj hrun
  obtain ⟨cb, value, hout, hid⟩ := hown _ List.mem_cons_self
  obtain ⟨rfl, -⟩ := Prod.mk.inj (Except.ok.inj hout)
  exact absurd hid (by decide)

/-- **When no request is stranded.**  A run that ends connected, with calls in progress
or without, has an empty queue and has sent the request of each completed call exactly
once, if and only if no call appended its request after the connection event. -/
theorem mmkvClient_not_stranded_iff {acts : List MmkvClient.Action} {s : MmkvClient.State}
    (hrun : Transition.run MmkvClient.step MmkvClient.init acts = some s)
    (hconn : s.connected = true) :
    MmkvClient.Delivered s
      ↔ Transition.AllSteps MmkvClient.step MmkvClient.NoLateAppend MmkvClient.init acts := by
  rw [(MmkvClient.inv_of_run hrun).delivered_iff]
  constructor
  · intro hpending
    refine Transition.allSteps_of_not_bad (I := fun _ => True)
      (B := fun s => s.connected = true ∧ s.pendingRequestq ≠ []) (fun _ _ _ _ _ => trivial)
      ?_ ?_ trivial hrun (fun hbad => hbad.2 hpending)
    · rintro s a s' - ha hstep
      exact MmkvClient.stranded_of_lateAppend hstep ha
    · rintro s a s' - hbad hstep
      exact MmkvClient.stranded_of_step hstep hbad
  · intro hall
    refine Transition.invariant_of_allSteps
      (I := fun s => s.connected = true → s.pendingRequestq = []) ?_ (fun h => by cases h)
      hall hrun hconn
    intro s a s' h ha hstep
    exact MmkvClient.pending_of_step hstep ha h

theorem mmkvClient_not_stranded_iff_promptGet :
    ∃ s, Transition.run MmkvClient.step MmkvClient.init MmkvClient.promptGet = some s
      ∧ (MmkvClient.Delivered s ↔ Transition.AllSteps MmkvClient.step MmkvClient.NoLateAppend
          MmkvClient.init MmkvClient.promptGet) := by
  obtain ⟨s, hrun⟩ : ∃ s, Transition.run MmkvClient.step MmkvClient.init MmkvClient.promptGet
    = some s := ⟨_, rfl⟩
  refine ⟨s, hrun, mmkvClient_not_stranded_iff hrun ?_⟩
  obtain rfl := Option.some.inj hrun
  rfl

/-- The request of call 0 is left in the queue of a connected client. -/
theorem mmkvClient_lateAppend_stranded :
    ¬ ∀ (acts : List MmkvClient.Action) (s : MmkvClient.State),
      Transition.run MmkvClient.step MmkvClient.init acts = some s → s.connected = true →
        MmkvClient.Quiescent s → MmkvClient.Delivered s := by
  intro h
  obtain ⟨s, hrun⟩ : ∃ s, Transition.run MmkvClient.step MmkvClient.init MmkvClient.lateAppend
    = some s := ⟨_, rfl⟩
  have hdelivered := h _ s hrun
  obtain rfl := Option.some.inj hrun
  refine absurd (hdelivered rfl ?_).1 (List.cons_ne_nil _ _)
  intro i
  by_cases h0 : i = 0
  · subst h0; exact Or.inr rfl
  · by_cases h1 : i = 1
    · subst h1; exact Or.inr rfl
    · exact Or.inl (by simp [MmkvClient.init, h0, h1])

/-- **`GetStr` never delivers the value.**  In every run, for no response that is
handled is the callback given a value whose `ToStrValue` is the value of the
response: the value has lost its tag, or never had one, and the assertion fails. -/
theorem mmkvClient_getStr_asserts {acts : List MmkvClient.Action} {s : MmkvClient.State}
    (hrun : Transition.run MmkvClient.step MmkvClient.init acts = some s) :
    ∀ e ∈ s.handled, ¬ e.DeliversStr := by
  rintro e he ⟨cb, value, hout, -, hstr⟩
  obtain ⟨k, hk, rfl⟩ := List.getElem_of_mem he
  obtain ⟨cb', value', hout', -, htag, -⟩ :=
    (MmkvClient.inv_of_run hrun).outcome k _ (List.getElem?_eq_getElem hk)
  rw [hout'] at hout
  obtain ⟨-, rfl⟩ := Prod.mk.inj (Except.ok.inj hout)
  rw [MmkvValue.toStrValue_invalid _ htag] at hstr
  cases hstr

theorem mmkvClient_getStr_asserts_promptGet :
    ∃ s, Transition.run MmkvClient.step MmkvClient.init MmkvClient.promptGet = some s
      ∧ ∀ e ∈ s.handled, ¬ e.DeliversStr := by
  obtain ⟨s, hrun⟩ : ∃ s, Transition.run MmkvClient.step MmkvClient.init MmkvClient.promptGet
    = some s := ⟨_, rfl⟩
  exact ⟨s, hrun, mmkvClient_getStr_asserts hrun⟩

/-- The value `hi` does not reach the callback of the call that asked for it. -/
theorem mmkvClient_promptGet_asserts :
    ¬ ∀ (acts : List MmkvClient.Action) (s : MmkvClient.State),
      Transition.run MmkvClient.step MmkvClient.init acts = some s →
        ∀ e ∈ s.handled, e.response.hasValue = true → e.DeliversStr := by
  intro h
  obtain ⟨s, hrun⟩ : ∃ s, Transition.run MmkvClient.step MmkvClient.init MmkvClient.promptGet
    = some s := ⟨_, rfl⟩
  have hdelivers := h _ s hrun
  obtain rfl := Option.some.inj hrun
  obtain ⟨cb, value, hout, -, hstr⟩ :=
    hdelivers _ (List.mem_cons_of_mem _ List.mem_cons_self) (by decide)
  obtain ⟨-, rfl⟩ := Prod.mk.inj (Except.ok.inj hout)
  cases hstr

end Mmkvc
