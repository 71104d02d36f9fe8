/-
# Callbacks in their turn

Which callbacks were called, and with what, is decided by the calls that were made, the
answers that were sent and the number of responses handled: the `k`-th callback registered is
called with the `k`-th answer.
-/
import Mmkvc.ClientOverBytes

namespace Mmkvc

namespace MmkvClient

/-- The calls, in the order in which they registered their callbacks. -/
def registered (acts : List Action) : List Call :=
  acts.filterMap fun a => match a with
    | .push call _ => some call
    | _ => none

/-- The answers of the server. -/
def answers (acts : List Action) : List MmbpResponse :=
  acts.filterMap fun a => match a with
    | .answer response => some response
    | _ => none

/-- A callback is called with the status of a response. -/
def called (call : Call) (response : MmbpResponse) : Except ClientFault (Call × MmkvValue) :=
  .ok (call, { statusCode := response.statusCode, type := .V_INVALID, payload := .none })

theorem registered_append (acts : List Action) (a : Action) :
    registered (acts ++ [a]) = registered acts ++ registered [a] := List.filterMap_append

theorem answers_append (acts : List Action) (a : Action) :
    answers (acts ++ [a]) = answers acts ++ answers [a] := List.filterMap_append

/-- What the history says of the state. -/
structure InTurn (acts : List Action) (s : State) : Prop where
  inv : Inv s
  pushed : s.pushed = (registered acts).map Call.id
  cbq : s.cbq.map OutstandingCall.cb = (registered acts).drop s.handled.length
  answers : s.handled.map Handled.response ++ s.inbox.map Prod.snd = answers acts
  outcomes : s.handled.map Handled.outcome
    = List.zipWith called ((registered acts).take s.handled.length)
        (s.handled.map Handled.response)
  handled : s.handled.length = acts.count .handle

theorem inTurn_init : InTurn [] init := ⟨inv_init, rfl, rfl, rfl, rfl, rfl⟩

section

variable {acts : List Action} {s s' : State}

/-- There are as many callbacks as handled responses, at least. -/
theorem InTurn.length_handled_le (h : InTurn acts s) :
    s.handled.length ≤ (registered acts).length := by
  have hle := h.inv.length_sent_le
  have hfifo := congrArg List.length h.inv.fifo
  have hpushed := congrArg List.length h.pushed
  simp only [List.length_append, List.length_map] at hfifo hpushed
  omega

/-- A step that leaves the queue, the inbox and what was handled as they are. -/
theorem InTurn.of_same (h : InTurn acts s) {a : Action} (hstep : step s a = some s')
    (hregistered : registered [a] = []) (hanswers : MmkvClient.answers [a] = [])
    (ha : a ≠ .handle) (hpushed : s'.pushed = s.pushed) (hcbq : s'.cbq = s.cbq)
    (hinbox : s'.inbox = s.inbox) (hhandled : s'.handled = s.handled) :
    InTurn (acts ++ [a]) s' where
  inv := h.inv.step _ _ _ hstep
  pushed := by rw [hpushed, registered_append, hregistered, List.append_nil, h.pushed]
  cbq := by rw [hcbq, hhandled, registered_append, hregistered, List.append_nil, h.cbq]
  answers := by
    rw [hhandled, hinbox, answers_append, hanswers, List.append_nil, h.answers]
  outcomes := by
    rw [hhandled, registered_append, hregistered, List.append_nil, h.outcomes]
  handled := by
    rw [hhandled, h.handled, List.count_append, List.count_singleton, if_neg (by simpa using ha),
      Nat.add_zero]

/-- A call registers its callback behind the others. -/
theorem InTurn.push {call : Call} {u : Unwritten} (h : InTurn acts s)
    (hstep : step s (.push call u) = some s') : InTurn (acts ++ [.push call u]) s' := by
  have hinv := h.inv.step _ _ _ hstep
  have hle := h.length_handled_le
  have hregistered : registered (acts ++ [.push call u]) = registered acts ++ [call] :=
    registered_append _ _
  obtain ⟨-, rfl⟩ := step_push hstep
  refine ⟨hinv, ?_, ?_, ?_, ?_, ?_⟩
  · rw [hregistered, List.map_append, ← h.pushed]
    rfl
  · rw [hregistered, List.map_append, h.cbq, List.drop_append_of_le_length hle]
    rfl
  · rw [answers_append, h.answers]
    exact (List.append_nil _).symm
  · rw [hregistered, List.take_append_of_le_length hle]
    exact h.outcomes
  · rw [List.count_append, ← h.handled]
    rfl

/-- An answer arrives behind the others. -/
theorem InTurn.answer {response : MmbpResponse} (h : InTurn acts s)
    (hstep : MmkvClient.step s (.answer response) = some s') :
    InTurn (acts ++ [.answer response]) s' := by
  have hinv := h.inv.step _ _ _ hstep
  have hregistered : registered (acts ++ [.answer response]) = registered acts :=
    (registered_append _ _).trans (List.append_nil _)
  obtain ⟨request, wire, -, rfl⟩ := step_answer hstep
  refine ⟨hinv, ?_, ?_, ?_, ?_, ?_⟩
  · rw [hregistered, h.pushed]
  · rw [hregistered, h.cbq]
  · rw [answers_append, ← h.answers, List.map_append, List.append_assoc]
    rfl
  · rw [hregistered, h.outcomes]
  · rw [List.count_append, ← h.handled]
    rfl

/-- The oldest response goes to the callback whose turn it is. -/
theorem InTurn.handle (h : InTurn acts s) (hstep : MmkvClient.step s .handle = some s') :
    InTurn (acts ++ [.handle]) s' := by
  have hinv := h.inv.step _ _ _ hstep
  have hregistered : registered (acts ++ [.handle]) = registered acts :=
    (registered_append _ _).trans (List.append_nil _)
  obtain ⟨i, response, inbox, hinbox, hcases⟩ := step_handle hstep
  have hlt : s.handled.length < (registered acts).length := by
    have hlt := h.inv.handled_lt (by rw [hinbox]; exact List.cons_ne_nil _ _)
    rwa [h.pushed, List.length_map] at hlt
  have hcbq := h.cbq
  rw [List.drop_eq_getElem_cons hlt] at hcbq
  rcases hcases with ⟨hempty, -⟩ | ⟨front, cbq, hcons, rfl⟩
  · rw [hempty] at hcbq
    cases hcbq
  · rw [hcons, List.map_cons, List.cons.injEq] at hcbq
    have htag := h.inv.tag front (by rw [hcons]; exact List.mem_cons_self)
    have houtcome : handleFront front response
        = called (registered acts)[s.handled.length] response := by
      rw [handleFront_invalid front htag, hcbq.1]
      rfl
    have hanswers := h.answers
    rw [hinbox] at hanswers
    refine ⟨hinv, ?_, ?_, ?_, ?_, ?_⟩
    · rw [hregistered, h.pushed]
    · rw [hregistered, hcbq.2, List.length_append]
      rfl
    · rw [answers_append, ← hanswers, List.map_append, List.append_assoc]
      exact (List.append_nil _).symm
    · rw [hregistered, List.length_append, List.length_singleton, List.map_append, List.map_append,
        h.outcomes, List.take_succ_eq_append_getElem hlt, List.zipWith_append
          (by rw [List.length_take, List.length_map]; omega)]
      exact congrArg (_ ++ ·) (congrArg (fun outcome => [outcome]) houtcome)
    · rw [List.length_append, List.count_append, ← h.handled]
      rfl

/-- **Every step keeps the callbacks in their turn.** -/
theorem InTurn.step (acts : List Action) (s : State) (a : Action) (s' : State)
    (h : InTurn acts s) (hstep : MmkvClient.step s a = some s') : InTurn (acts ++ [a]) s' := by
  cases a with
  | push call u => exact h.push hstep
  | test i =>
    obtain ⟨req, -, rfl⟩ := step_test hstep
    exact h.of_same hstep rfl rfl nofun rfl rfl rfl rfl
  | send i =>
    obtain ⟨req, -, rfl⟩ := step_send hstep
    exact h.of_same hstep rfl rfl nofun rfl rfl rfl rfl
  | append i =>
    obtain ⟨req, -, rfl⟩ := step_append hstep
    exact h.of_same hstep rfl rfl nofun rfl rfl rfl rfl
  | connect =>
    obtain ⟨-, rfl⟩ := step_connect hstep
    exact h.of_same hstep rfl rfl nofun rfl rfl rfl rfl
  | answer response => exact h.answer hstep
  | handle => exact h.handle hstep

theorem inTurn_of_run (hrun : Transition.run MmkvClient.step init acts = some s) :
    InTurn acts s :=
  Transition.invariant_of_history InTurn.step inTurn_init hrun

/-- The callbacks called, as far as the responses were handled. -/
theorem InTurn.outcomes_eq (h : InTurn acts s) :
    s.handled.map Handled.outcome
      = (List.zipWith called (registered acts) (MmkvClient.answers acts)).take
          (acts.count .handle) := by
  have hanswers : s.handled.map Handled.response
      = (MmkvClient.answers acts).take s.handled.length := by
    rw [← h.answers, List.take_append_of_le_length (by rw [List.length_map]),
      List.take_of_length_le (by rw [List.length_map])]
  rw [h.outcomes, hanswers, ← List.take_zipWith, h.handled]

/-- Once every call is handed over, as many requests were sent as callbacks registered. -/
theorem Inv.length_sent (h : Inv s) (hquiescent : Quiescent s)
    (hpending : s.pendingRequestq = []) : s.sent.length = s.pushed.length := by
  have hperm : s.sent.Perm s.pushed := by
    rw [List.perm_iff_count]
    intro i
    have hover := h.handedOver i
    rw [hpending, List.map_nil, List.count_nil, Nat.add_zero] at hover
    rw [hover]
    rcases hquiescent i with hidle | hdone
    · rw [if_neg (by rw [hidle]; exact nofun), List.count_eq_zero_of_not_mem]
      exact fun hmem => (h.mem_pushed i).mp hmem hidle
    · rw [if_pos hdone, List.count_eq_one_of_mem h.nodup_pushed]
      exact (h.mem_pushed i).mpr (by rw [hdone]; exact nofun)
  exact hperm.length_eq

/-- Once nothing is on its way either, every callback has been called. -/
theorem InTurn.length_handled (h : InTurn acts s) (hquiescent : Quiescent s)
    (hpending : s.pendingRequestq = []) (hwire : s.wire = []) (hinbox : s.inbox = []) :
    s.handled.length = (registered acts).length := by
  have hfifo := congrArg List.length h.inv.fifo
  rw [hwire, hinbox, List.map_nil, List.map_nil, List.append_nil, List.append_nil, List.length_map,
    h.inv.length_sent hquiescent hpending, h.pushed, List.length_map] at hfifo
  exact hfifo

end

/-- A run over bytes handles a response as often as the run over messages. -/
theorem count_handle (acts : List ByteAction) :
    (acts.flatMap ByteAction.own).count .handle = acts.count .handle := by
  induction acts with
  | nil => rfl
  | cons a acts ih =>
    rw [List.flatMap_cons, List.count_append, ih, List.count_cons, Nat.add_comm]
    cases a <;> rfl

/-- No call is in progress, no request waits, and nothing is on its way in either direction. -/
structure Finished (b : ByteState) : Prop where
  quiescent : ∀ i, b.phase i = .idle ∨ b.phase i = .done
  pendingRequestq : b.pendingRequestq = []
  toServer : b.toServer.network = []
  answered : b.answered = b.received.length
  toClient : b.toClient.network = []
  decoded : b.decoded = []

end MmkvClient

/-- **The `k`-th callback registered is called with the `k`-th answer**, over a connection that
brings any number of bytes at a time.  As many callbacks have been called as responses were
handled, each with the status of its answer, and when nothing is left to be done each
callback registered has been called exactly once. -/
theorem mmkvClient_callbacks_in_turn {kv : Kvarint} {kn : Kanon} {xx : XXHash}
    (hkv : kv.Inverse) (hshort : kv.ShortPrefix) (hkn32 : kn.Inverse32) (hkn64 : kn.Inverse64)
    (hchunks : kn.ChunksCover) (hxx : xx.Streaming) {acts : List MmkvClient.ByteAction}
    {b : MmkvClient.ByteState}
    (hlimits : Transition.AllSteps (MmkvClient.byteStep kv kn xx) (MmkvClient.InLimits kv kn xx)
      MmkvClient.byteInit acts)
    (hrun : Transition.run (MmkvClient.byteStep kv kn xx) MmkvClient.byteInit acts = some b) :
    let own := acts.flatMap MmkvClient.ByteAction.own
    b.outcomes = (List.zipWith MmkvClient.called (MmkvClient.registered own)
        (MmkvClient.answers own)).take b.outcomes.length
      ∧ b.outcomes.length = acts.count .handle
      ∧ (MmkvClient.Finished b → b.outcomes.length = (MmkvClient.registered own).length) := by
  intro own
  obtain ⟨s, hs, h⟩ := MmkvClient.exists_related hkv hshort hkn32 hkn64 hchunks hxx hlimits hrun
  have hturn : MmkvClient.InTurn own s := MmkvClient.inTurn_of_run hs
  have hlength : b.outcomes.length = s.handled.length := by rw [← h.handled, List.length_map]
  refine ⟨?_, ?_, fun hfinished => ?_⟩
  · rw [hlength, hturn.handled, ← h.handled]
    exact hturn.outcomes_eq
  · rw [hlength, hturn.handled]
    exact MmkvClient.count_handle acts
  · have hwire := h.wire
    rw [hfinished.answered, h.length_received hfinished.toServer, List.drop_length,
      List.map_eq_nil_iff] at hwire
    have hinbox := h.length_decoded hfinished.toClient
    rw [hfinished.decoded, List.length_nil, eq_comm, List.length_eq_zero_iff] at hinbox
    rw [hlength]
    refine hturn.length_handled ?_ (h.pendingRequestq.trans hfinished.pendingRequestq) hwire hinbox
    intro i
    rw [h.phase]
    exact hfinished.quiescent i

/-- A call whose answer was handled. -/
theorem mmkvClient_callbacks_in_turn_cutAdd :
    ∃ b, Transition.run (MmkvClient.byteStep Kvarint.leb128 Kanon.bigEndian XXHash.seed0)
        MmkvClient.byteInit MmkvClient.cutAdd = some b
      ∧ b.outcomes.length = 1
      ∧ b.outcomes = [MmkvClient.called { id := 0, api := .addStr [97] [98] } MmbpResponse.hi] := by
  have hlimits : Transition.AllSteps
      (MmkvClient.byteStep Kvarint.leb128 Kanon.bigEndian XXHash.seed0)
      (MmkvClient.InLimits Kvarint.leb128 Kanon.bigEndian XXHash.seed0)
      MmkvClient.byteInit MmkvClient.cutAdd := by decide +kernel
  have hsome : (Transition.run
      (MmkvClient.byteStep Kvarint.leb128 Kanon.bigEndian XXHash.seed0)
      MmkvClient.byteInit MmkvClient.cutAdd).isSome = true := by decide +kernel
  obtain ⟨b, hb⟩ := Option.isSome_iff_exists.mp hsome
  obtain ⟨houtcomes, hlength, -⟩ := mmkvClient_callbacks_in_turn Kvarint.leb128_inverse
    Kvarint.leb128_shortPrefix Kanon.bigEndian_inverse32 Kanon.bigEndian_inverse64
    Kanon.bigEndian_chunksCover XXHash.seed0_streaming hlimits hb
  have hone : b.outcomes.length = 1 := hlength
  rw [hone] at houtcomes
  exact ⟨b, hb, hone, houtcomes⟩

end Mmkvc
