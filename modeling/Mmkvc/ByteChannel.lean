/-
# Messages over a byte stream

A sender appends the frames of its messages to a byte stream, and a receiver of frames takes
from it as many bytes at a time as the network brings.  `Carries ch ms` says that the bytes
that are on the way, and those that lie unread at the receiver, are the frames of `ms`; the
channel is then a queue of messages, whatever the number of bytes that come at a time.
-/
import Mmkvc.Framing

namespace Mmkvc

/-- The bytes that a receiver has not consumed, and those that have not come to it. -/
structure Channel where
  unread : Bytes
  network : Bytes

namespace Channel

open Framing

variable {α ε : Type}

def empty : Channel := ⟨[], []⟩

/-- Bytes that are sent. -/
def send (ch : Channel) (b : Bytes) : Channel := { ch with network := ch.network ++ b }

/-- What the receiver can read when the next `n` bytes have come. -/
def readable (ch : Channel) (n : ℕ) : Bytes := ch.unread ++ ch.network.take n

/-- A data event with the next `n` bytes. -/
def deliver (receive : Bytes → Except Fault (List ε × Bytes)) (ch : Channel) (n : ℕ) :
    Except Fault (List ε × Channel) := do
  let (es, unread) ← receive (ch.readable n)
  return (es, ⟨unread, ch.network.drop n⟩)

/-- The channel has the frames of these messages, none of them whole at the receiver. -/
structure Carries (frame : α → Bytes) (Valid : α → Prop) (ch : Channel) (ms : List α) : Prop where
  bytes : ch.unread ++ ch.network = (ms.map frame).flatten
  partly : framesWithin (ms.map frame) ch.unread.length = 0
  valid : ∀ m ∈ ms, Valid m

variable {frame : α → Bytes} {Valid : α → Prop} {ch : Channel} {ms : List α} {m : α}

theorem carries_empty (frame : α → Bytes) (Valid : α → Prop) : Carries frame Valid empty [] :=
  ⟨rfl, rfl, nofun⟩

/-- Fewer bytes than the frames have end in the same frames when more of them follow. -/
theorem framesWithin_append {fs gs : List Bytes} {n : ℕ} (hn : n ≤ fs.flatten.length)
    (hzero : framesWithin fs n = 0) (hgs : ∀ g ∈ gs, g ≠ []) : framesWithin (fs ++ gs) n = 0 := by
  cases fs with
  | nil =>
    obtain rfl : n = 0 := Nat.le_zero.mp hn
    cases gs with
    | nil => rfl
    | cons g gs =>
      have hpos := List.length_pos_of_ne_nil (hgs g List.mem_cons_self)
      rw [List.nil_append, framesWithin, if_neg (Nat.not_le.mpr hpos)]
  | cons f fs =>
    rw [framesWithin] at hzero
    rw [List.cons_append, framesWithin]
    split_ifs at hzero ⊢
    rfl

/-- There are no more whole frames than frames. -/
theorem framesWithin_le (fs : List Bytes) (n : ℕ) : framesWithin fs n ≤ fs.length := by
  induction fs generalizing n with
  | nil => exact le_rfl
  | cons f fs ih =>
    rw [framesWithin]
    split_ifs
    · exact Nat.succ_le_succ (ih _)
    · exact Nat.zero_le _

/-- **A message is sent.** -/
theorem Carries.send (h : Carries frame Valid ch ms) (hframe : ∀ m, Valid m → frame m ≠ [])
    (hm : Valid m) : Carries frame Valid (ch.send (frame m)) (ms ++ [m]) := by
  have hle : ch.unread.length ≤ (ms.map frame).flatten.length := by
    rw [← h.bytes, List.length_append]
    exact Nat.le_add_right _ _
  refine ⟨?_, ?_, fun m' hm' => ?_⟩
  · show ch.unread ++ (ch.network ++ frame m) = _
    rw [← List.append_assoc, h.bytes, List.map_append, List.flatten_append, List.map_singleton,
      List.flatten_singleton]
  · rw [List.map_append]
    refine framesWithin_append hle h.partly fun g hg => ?_
    obtain rfl := List.mem_singleton.mp hg
    exact hframe m hm
  · rcases List.mem_append.mp hm' with hm' | hm'
    · exact h.valid m' hm'
    · exact List.mem_singleton.mp hm' ▸ hm

/-- Several messages are sent in one piece. -/
theorem Carries.sendAll (h : Carries frame Valid ch ms) (hframe : ∀ m, Valid m → frame m ≠ [])
    {ms' : List α} (hms : ∀ m ∈ ms', Valid m) :
    Carries frame Valid (ch.send (ms'.map frame).flatten) (ms ++ ms') := by
  induction ms' generalizing ch ms with
  | nil =>
    rw [List.append_nil]
    have hsame : ch.send (([] : List α).map frame).flatten = ch := by
      unfold Channel.send
      rw [List.map_nil, List.flatten_nil, List.append_nil]
    rwa [hsame]
  | cons m ms' ih =>
    have hfirst := h.send hframe (hms m List.mem_cons_self)
    have hrest := ih hfirst fun m' hm' => hms m' (List.mem_cons_of_mem m hm')
    have hsend : (ch.send (frame m)).send (ms'.map frame).flatten
        = ch.send ((m :: ms').map frame).flatten := by
      unfold Channel.send
      rw [List.map_cons, List.flatten_cons, List.append_assoc]
    rw [hsend, List.append_assoc] at hrest
    exact hrest

variable {receive : Bytes → Except Fault (List ε × Bytes)} {limit : ℕ}
  {loop : ℕ → Bytes → Except Fault (List ε × Bytes)} {Delivers : ε → α → Prop}

/-- **A data event** hands over the first messages. -/
theorem Carries.deliver (h : Carries frame Valid ch ms)
    (hframed : Framed receive limit loop frame Delivers Valid) {n : ℕ}
    (hlimit : (ch.readable n).length < limit) :
    ∃ es ch', ch.deliver receive n = .ok (es, ch')
      ∧ List.Forall₂ Delivers es (ms.take es.length)
      ∧ Carries frame Valid ch' (ms.drop es.length) := by
  have hcut : ch.readable n ++ ch.network.drop n = (ms.map frame).flatten := by
    unfold readable
    rw [List.append_assoc, List.take_append_drop, h.bytes]
  obtain ⟨es, b, hrun, hes, hb, hrest⟩ := hframed.loop_stream ms h.valid (ch.readable n)
    (ch.network.drop n) hcut hlimit _ (Nat.lt_succ_self _)
  have hreceive := (hframed.receive_eq _ hlimit).trans hrun
  have hpart := framesWithin_rest _ _ _ hb
  -- as many events as frames have ended
  have hcount : framesWithin (ms.map frame) (ch.readable n).length = es.length := by
    rw [hes.length_eq, List.length_take, eq_comm, min_eq_left]
    have hle := framesWithin_le (ms.map frame) (ch.readable n).length
    rwa [List.length_map] at hle
  rw [hcount] at hes hrest hpart
  refine ⟨es, ⟨b, ch.network.drop n⟩, ?_, hes, ?_, ?_,
    fun m hm => h.valid m (List.mem_of_mem_drop hm)⟩
  · unfold Channel.deliver
    rw [hreceive]
    rfl
  · rw [List.map_drop]
    exact hrest
  · rw [List.map_drop]
    exact hpart

/-- Nothing is on its way once all bytes have come. -/
theorem Carries.eq_nil (h : Carries frame Valid ch ms) (hnetwork : ch.network = []) : ms = [] := by
  have hbytes := h.bytes
  rw [hnetwork, List.append_nil] at hbytes
  have hpart := h.partly
  rw [hbytes, framesWithin_flatten, List.length_map] at hpart
  exact List.eq_nil_of_length_eq_zero hpart

end Channel

end Mmkvc
