/-
# Responses that nobody asked for

The peer of the client may send a response at any time, with no request before it.
The message callback takes the front of `cbq_` for each of them and does not look
whether there is one.
-/
import Mmkvc.MmkvClient

namespace Mmkvc

namespace MmkvClient

/-- What the client, its event loop and an honest server do, and a response that the
peer sends of its own accord over the connection. -/
inductive PeerAction where
  | own (a : Action)
  | respond (i : ℕ) (response : MmbpResponse)
  deriving DecidableEq, Repr

/-- The state after an action, if it is enabled. -/
def peerStep (s : State) : PeerAction → Option State
  | .own a => step s a
  | .respond i response =>
    if s.connected then some { s with inbox := s.inbox ++ [(i, response)] } else none

/-- A call registers its callback. -/
def PeerAction.isPush : PeerAction → Bool
  | .own (.push _ _) => true
  | _ => false

/-- The message callback handles a response. -/
def PeerAction.isHandle : PeerAction → Bool
  | .own .handle => true
  | _ => false

/-- The message callback finds a front to take. -/
def PopsSafely (s : State) (a : PeerAction) : Prop := a.isHandle = true → s.cbq ≠ []

/-- At no time have more responses been handled than calls registered. -/
def NeverAhead (acts : List PeerAction) : Prop :=
  ∀ k, (acts.take k).countP PeerAction.isHandle ≤ (acts.take k).countP PeerAction.isPush

/-- Registrations lengthen the queue and handled responses shorten it. -/
theorem length_cbq_of_peerStep {s s' : State} {a : PeerAction} (h : peerStep s a = some s')
    (hsafe : PopsSafely s a) :
    s'.cbq.length + (if a.isHandle then 1 else 0) = s.cbq.length + (if a.isPush then 1 else 0) := by
  cases a with
  | respond i response =>
    rw [peerStep] at h
    split_ifs at h
    cases h
    rfl
  | own a =>
    cases a with
    | push call u =>
      obtain ⟨-, rfl⟩ := step_push h
      exact List.length_append
    | test i => obtain ⟨req, -, rfl⟩ := step_test h; rfl
    | send i => obtain ⟨req, -, rfl⟩ := step_send h; rfl
    | append i => obtain ⟨req, -, rfl⟩ := step_append h; rfl
    | connect => obtain ⟨-, rfl⟩ := step_connect h; rfl
    | answer response => obtain ⟨request, wire, -, rfl⟩ := step_answer h; rfl
    | handle =>
      obtain ⟨i, response, inbox, -, ⟨hempty, -⟩ | ⟨front, cbq, hcbq, rfl⟩⟩ := step_handle h
      · exact absurd hempty (hsafe rfl)
      · rw [hcbq]
        rfl

/-- Along a run from a state with callbacks registered: the queue is never popped empty
exactly when the responses handled never outnumber these and the calls registered since. -/
theorem allSteps_popsSafely_iff {s s' : State} {acts : List PeerAction}
    (hrun : Transition.run peerStep s acts = some s') :
    Transition.AllSteps peerStep PopsSafely s acts
      ↔ ∀ k, (acts.take k).countP PeerAction.isHandle
          ≤ s.cbq.length + (acts.take k).countP PeerAction.isPush := by
  induction acts generalizing s with
  | nil => simp [Transition.AllSteps]
  | cons a acts ih =>
    obtain ⟨t, ht, hrun⟩ := Transition.run_cons.mp hrun
    constructor
    · rintro ⟨hsafe, hrest⟩ k
      have hlen := length_cbq_of_peerStep ht hsafe
      cases k with
      | zero => exact Nat.zero_le _
      | succ k =>
        have hk := (ih hrun).mp (hrest t ht) k
        rw [List.take_succ_cons, List.countP_cons, List.countP_cons]
        omega
    · intro h
      have hsafe : PopsSafely s a := by
        intro hhandle hempty
        have hone := h 1
        have hpush : a.isPush = false := by
          cases a with
          | respond i response => rfl
          | own a => cases a <;> first | rfl | cases hhandle
        rw [List.take_succ_cons, List.take_zero, List.countP_singleton, List.countP_singleton,
          if_pos hhandle, hpush, hempty] at hone
        simp at hone
      have hlen := length_cbq_of_peerStep ht hsafe
      refine ⟨hsafe, fun t' ht' => ?_⟩
      obtain rfl := Option.some.inj (ht.symm.trans ht')
      refine (ih hrun).mpr fun k => ?_
      have hk := h (k + 1)
      rw [List.take_succ_cons, List.countP_cons, List.countP_cons] at hk
      omega

/-- A peer that answers each request once keeps the queue from being popped empty. -/
theorem allSteps_popsSafely_of_answers {s s' : State} {acts : List Action} (hs : Inv s)
    (hrun : Transition.run peerStep s (acts.map .own) = some s') :
    Transition.AllSteps peerStep PopsSafely s (acts.map .own) := by
  induction acts generalizing s with
  | nil => trivial
  | cons a acts ih =>
    obtain ⟨t, ht, hrun⟩ := Transition.run_cons.mp hrun
    refine ⟨?_, fun t' ht' => ?_⟩
    · rintro hhandle hempty
      cases a <;> cases hhandle
      obtain ⟨i, response, inbox, hinbox, -⟩ := step_handle ht
      have hlt := hs.handled_lt (by rw [hinbox]; exact List.cons_ne_nil _ _)
      have hlen := congrArg List.length hs.cbq
      rw [List.length_map, hempty, List.length_drop, List.length_nil] at hlen
      omega
    · obtain rfl := Option.some.inj (ht.symm.trans ht')
      exact ih (hs.step s a t ht) hrun

end MmkvClient

/-- **When the response handler finds a callback.**  In a run of calls, of the event loop
and of a peer that responds as it likes, each message callback finds `cbq_` non-empty
exactly when at no time more responses have been handled than calls registered. -/
theorem mmkvClient_pops_safely_iff {acts : List MmkvClient.PeerAction} {s : MmkvClient.State}
    (hrun : Transition.run MmkvClient.peerStep MmkvClient.init acts = some s) :
    Transition.AllSteps MmkvClient.peerStep MmkvClient.PopsSafely MmkvClient.init acts
      ↔ MmkvClient.NeverAhead acts := by
  rw [MmkvClient.allSteps_popsSafely_iff hrun]
  simp only [MmkvClient.init, List.length_nil, Nat.zero_add]
  exact Iff.rfl

/-- The connection, a call, and a response that the peer sends before it got the request. -/
theorem mmkvClient_pops_safely_iff_early :
    Transition.AllSteps MmkvClient.peerStep MmkvClient.PopsSafely MmkvClient.init
      [.own .connect, .own (.push { id := 0, api := .getStr [] } MmkvClient.Unwritten.zero),
        .respond 0 (MmbpResponse.fresh 0), .own .handle] := by
  obtain ⟨s, hs⟩ : ∃ s, Transition.run MmkvClient.peerStep MmkvClient.init
      [.own .connect, .own (.push { id := 0, api := .getStr [] } MmkvClient.Unwritten.zero),
        .respond 0 (MmbpResponse.fresh 0), .own .handle] = some s := ⟨_, rfl⟩
  refine (mmkvClient_pops_safely_iff hs).mpr fun k => ?_
  rcases k with _ | _ | _ | _ | k
  · exact le_rfl
  · exact le_rfl
  · exact Nat.zero_le _
  · exact Nat.zero_le _
  · rw [List.take_of_length_le (by simp)]
    exact le_rfl

/-- The connection is up, no call was made, and the peer sends a response. -/
theorem mmkvClient_pops_empty_queue :
    ¬ ∀ acts : List MmkvClient.PeerAction, ∀ s : MmkvClient.State,
      Transition.run MmkvClient.peerStep MmkvClient.init acts = some s →
        Transition.AllSteps MmkvClient.peerStep MmkvClient.PopsSafely MmkvClient.init acts := by
  intro h
  have hall := h [.own .connect, .respond 0 (MmbpResponse.fresh 0), .own .handle] _ rfl
  exact (hall.2 _ rfl).2 _ rfl |>.1 rfl rfl

end Mmkvc
