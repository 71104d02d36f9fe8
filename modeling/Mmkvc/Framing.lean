/-
# Frames cut from a byte stream

A receiver is run after each chunk of a byte stream on the bytes it left unread
and the new ones.  If it hands over a frame that stands whole at the front, goes
on with the bytes behind it, and leaves a frame that is not whole where it is,
then what it hands over, and when, does not depend on how the stream is cut
(`feed_frames`).
-/
import Mmkvc.Reader

namespace Mmkvc

namespace Framing

variable {α ε : Type}

/-! ## Feeding chunks -/

/-- The data events one after the other: what each of them hands over, and what is
left unread after the last. -/
def feed (receive : Bytes → Except Fault (List ε × Bytes)) :
    Bytes → List Bytes → Except Fault (List (List ε) × Bytes)
  | b, [] => .ok ([], b)
  | b, c :: cs => do
    let (es, b) ← receive (b ++ c)
    let (ess, b) ← feed receive b cs
    return (es :: ess, b)

/-- Fewer than `limit` bytes are readable at every data event. -/
def Below (receive : Bytes → Except Fault (List ε × Bytes)) (limit : ℕ) :
    Bytes → List Bytes → Prop
  | _, [] => True
  | b, c :: cs =>
    (b ++ c).length < limit
      ∧ ∀ es b', receive (b ++ c) = .ok (es, b') → Below receive limit b' cs

/-- How many of the frames have ended after `n` bytes of their concatenation. -/
def framesWithin : List Bytes → ℕ → ℕ
  | [], _ => 0
  | f :: fs, n => if f.length ≤ n then framesWithin fs (n - f.length) + 1 else 0

theorem framesWithin_cons_le (f : Bytes) (fs : List Bytes) (n : ℕ) :
    framesWithin (f :: fs) (f.length + n) = framesWithin fs n + 1 := by
  rw [framesWithin, if_pos (Nat.le_add_right _ _), Nat.add_sub_cancel_left]

/-- More bytes have no fewer whole frames. -/
theorem framesWithin_mono (fs : List Bytes) {n m : ℕ} (h : n ≤ m) :
    framesWithin fs n ≤ framesWithin fs m := by
  induction fs generalizing n m with
  | nil => exact le_rfl
  | cons f fs ih =>
    rw [framesWithin, framesWithin]
    split_ifs with hn hm
    · exact Nat.succ_le_succ (ih (Nat.sub_le_sub_right h _))
    · omega
    · exact Nat.zero_le _
    · exact le_rfl

/-- Counting may stop after some whole frames and go on from there. -/
theorem framesWithin_add (fs : List Bytes) (n m : ℕ) (hm : m ≤ framesWithin fs n) :
    framesWithin fs n = m + framesWithin (fs.drop m) (n - (fs.take m).flatten.length) := by
  induction m generalizing fs n with
  | zero => simp
  | succ m ih =>
    cases fs with
    | nil => simp [framesWithin] at hm
    | cons f fs =>
      by_cases hf : f.length ≤ n
      · rw [framesWithin, if_pos hf] at hm ⊢
        rw [ih fs (n - f.length) (by omega), List.drop_succ_cons, List.take_succ_cons,
          List.flatten_cons, List.length_append, Nat.sub_sub]
        omega
      · rw [framesWithin, if_neg hf] at hm
        omega

/-! ## Receivers of frames -/

/-- `receive` is a loop over the frames of the `Valid` messages: `loop fuel` goes
round at most `fuel` times. -/
structure Framed (receive : Bytes → Except Fault (List ε × Bytes)) (limit : ℕ)
    (loop : ℕ → Bytes → Except Fault (List ε × Bytes)) (frame : α → Bytes)
    (Delivers : ε → α → Prop) (Valid : α → Prop) : Prop where
  receive_eq : ∀ b, b.length < limit → receive b = loop (b.length + 1) b
  frame_ne_nil : ∀ a, Valid a → frame a ≠ []
  loop_nil : ∀ fuel, loop (fuel + 1) [] = .ok ([], [])
  loop_short : ∀ a, Valid a → ∀ p fuel, p <+: frame a → p ≠ frame a → p.length < limit →
    loop (fuel + 1) p = .ok ([], p)
  loop_frame : ∀ a, Valid a → ∀ t fuel es b, (frame a ++ t).length < limit →
    loop fuel t = .ok (es, b) →
    ∃ e, Delivers e a ∧ loop (fuel + 1) (frame a ++ t) = .ok (e :: es, b)

variable {receive : Bytes → Except Fault (List ε × Bytes)} {limit : ℕ}
  {loop : ℕ → Bytes → Except Fault (List ε × Bytes)} {frame : α → Bytes}
  {Delivers : ε → α → Prop} {Valid : α → Prop}

/-- One round of the loop per frame: from bytes `b` of a stream of frames whose
remainder is `r`, the whole frames are handed over and the rest is left. -/
theorem Framed.loop_stream (h : Framed receive limit loop frame Delivers Valid) (as : List α)
    (hv : ∀ a ∈ as, Valid a) (b r : Bytes) (hcut : b ++ r = (as.map frame).flatten)
    (hlimit : b.length < limit) (fuel : ℕ) (hfuel : b.length < fuel) :
    ∃ es b', loop fuel b = .ok (es, b')
      ∧ List.Forall₂ Delivers es (as.take (framesWithin (as.map frame) b.length))
      ∧ b = ((as.map frame).take (framesWithin (as.map frame) b.length)).flatten ++ b'
      ∧ b' ++ r = ((as.map frame).drop (framesWithin (as.map frame) b.length)).flatten := by
  induction as generalizing b fuel with
  | nil =>
    obtain ⟨fuel, rfl⟩ : ∃ k, fuel = k + 1 := ⟨fuel - 1, by omega⟩
    obtain ⟨rfl, rfl⟩ := List.append_eq_nil_iff.mp hcut
    exact ⟨[], [], h.loop_nil fuel, List.Forall₂.nil, rfl, rfl⟩
  | cons a as ih =>
    obtain ⟨fuel, rfl⟩ : ∃ k, fuel = k + 1 := ⟨fuel - 1, by omega⟩
    have ha := hv a (List.mem_cons_self ..)
    rw [List.map_cons, List.flatten_cons] at hcut
    by_cases hlen : (frame a).length ≤ b.length
    · -- the first frame is whole: one round hands it over
      obtain ⟨t, rfl⟩ : frame a <+: b :=
        List.prefix_of_prefix_length_le ⟨_, rfl⟩ ⟨r, hcut⟩ hlen
      have hcut' : t ++ r = (as.map frame).flatten := by
        rwa [List.append_assoc, List.append_cancel_left_eq] at hcut
      have hpos := List.length_pos_of_ne_nil (h.frame_ne_nil a ha)
      have hlen' : (frame a ++ t).length = (frame a).length + t.length := List.length_append
      obtain ⟨es, b', hrun, hes, hb, hr⟩ := ih (fun x hx => hv x (List.mem_cons_of_mem a hx)) t
        hcut' (by omega) fuel (by omega)
      obtain ⟨e, he, hloop⟩ := h.loop_frame a ha t fuel es b' hlimit hrun
      rw [List.map_cons, List.length_append, framesWithin_cons_le, List.take_succ_cons,
        List.take_succ_cons, List.drop_succ_cons, List.flatten_cons]
      refine ⟨e :: es, b', hloop, List.Forall₂.cons he hes, ?_, hr⟩
      rw [List.append_assoc, ← hb]
    · -- the first frame is not whole: the loop waits
      have hp : b <+: frame a :=
        List.prefix_of_prefix_length_le ⟨r, hcut⟩ ⟨_, rfl⟩ (by omega)
      have hne : b ≠ frame a := by rintro rfl; exact hlen le_rfl
      have hzero : framesWithin ((a :: as).map frame) b.length = 0 := by
        rw [List.map_cons, framesWithin, if_neg hlen]
      rw [hzero]
      exact ⟨[], b, h.loop_short a ha b fuel hp hne hlimit, List.Forall₂.nil, rfl, hcut⟩

/-- After whole frames have been handed over, none stands whole at the front. -/
theorem framesWithin_rest (fs : List Bytes) (b b' : Bytes)
    (hb : b = (fs.take (framesWithin fs b.length)).flatten ++ b') :
    framesWithin (fs.drop (framesWithin fs b.length)) b'.length = 0 := by
  have hadd := framesWithin_add fs b.length _ le_rfl
  have hlen : b.length - (fs.take (framesWithin fs b.length)).flatten.length = b'.length := by
    have := congrArg List.length hb
    rw [List.length_append] at this
    omega
  rw [hlen] at hadd
  omega

/-- The whole stream is all of its frames. -/
theorem framesWithin_flatten (fs : List Bytes) : framesWithin fs fs.flatten.length = fs.length := by
  induction fs with
  | nil => rfl
  | cons f fs ih =>
    rw [List.flatten_cons, List.length_append, framesWithin_cons_le, ih, List.length_cons]

/-- **Framing is independent of chunking.**  Chunks whose concatenation is a stream
of frames, cut anywhere, make the receiver hand over exactly the messages framed,
in order and each at the event that brings its last byte, and leave nothing.
The bytes `b` are unread at the start, and hold no whole frame. -/
theorem Framed.feed_frames (h : Framed receive limit loop frame Delivers Valid)
    (chunks : List Bytes) (as : List α) (hv : ∀ a ∈ as, Valid a) (b : Bytes)
    (hcut : b ++ chunks.flatten = (as.map frame).flatten)
    (hpart : framesWithin (as.map frame) b.length = 0) (hbelow : Below receive limit b chunks) :
    ∃ ess, feed receive b chunks = .ok (ess, []) ∧ ess.length = chunks.length
      ∧ ∀ k, List.Forall₂ Delivers (ess.take k).flatten
          (as.take (framesWithin (as.map frame) (b.length + (chunks.take k).flatten.length))) := by
  induction chunks generalizing as b with
  | nil =>
    rw [List.flatten_nil, List.append_nil] at hcut
    subst hcut
    rw [framesWithin_flatten, List.length_map] at hpart
    obtain rfl := List.eq_nil_of_length_eq_zero hpart
    exact ⟨[], rfl, rfl, fun k => by simp⟩
  | cons c cs ih =>
    obtain ⟨hlimit, hbelow⟩ := hbelow
    rw [List.flatten_cons, ← List.append_assoc] at hcut
    obtain ⟨es, b', hrun, hes, hb, hr⟩ :=
      h.loop_stream as hv (b ++ c) cs.flatten hcut hlimit _ (Nat.lt_succ_self _)
    have hrec : receive (b ++ c) = .ok (es, b') := (h.receive_eq _ hlimit).trans hrun
    have hrest := framesWithin_rest _ _ _ hb
    set n := framesWithin (as.map frame) (b ++ c).length with hn
    rw [← List.map_drop] at hr hrest
    obtain ⟨ess, hfeed, hlen, htimes⟩ :=
      ih (as.drop n) (fun a ha => hv a (List.mem_of_mem_drop ha)) b' hr hrest (hbelow es b' hrec)
    refine ⟨es :: ess, ?_, by rw [List.length_cons, hlen, List.length_cons], ?_⟩
    · rw [feed, hrec]
      show (feed receive b' cs >>= fun p => pure (es :: p.1, p.2)) = _
      rw [hfeed]
      rfl
    · intro k
      cases k with
      | zero =>
        have hzero : b.length + ((c :: cs).take 0).flatten.length = b.length := rfl
        rw [hzero, hpart]
        exact List.Forall₂.nil
      | succ k =>
        -- the frames within the first `k + 1` chunks: those of this event, then the later ones
        have hlen' : b.length + ((c :: cs).take (k + 1)).flatten.length
            = (b ++ c).length + (cs.take k).flatten.length := by
          rw [List.take_succ_cons, List.flatten_cons, List.length_append, List.length_append,
            Nat.add_assoc]
        have hleft : (b ++ c).length + (cs.take k).flatten.length
            - (((as.map frame).take n).flatten).length
              = b'.length + (cs.take k).flatten.length := by
          rw [hb, List.length_append]
          omega
        rw [hlen', framesWithin_add _ _ n (framesWithin_mono _ (Nat.le_add_right _ _)), hleft,
          ← List.map_drop, List.take_succ_cons, List.flatten_cons, List.take_add]
        exact List.rel_append hes (htimes k)

/-- The case of a stream whose beginning is the first data event. -/
theorem Framed.feed_stream (h : Framed receive limit loop frame Delivers Valid)
    (chunks : List Bytes) (as : List α) (hv : ∀ a ∈ as, Valid a)
    (hcut : chunks.flatten = (as.map frame).flatten) (hbelow : Below receive limit [] chunks) :
    ∃ ess, feed receive [] chunks = .ok (ess, []) ∧ ess.length = chunks.length
      ∧ List.Forall₂ Delivers ess.flatten as
      ∧ ∀ k, List.Forall₂ Delivers (ess.take k).flatten
          (as.take (framesWithin (as.map frame) (chunks.take k).flatten.length)) := by
  have hpart : framesWithin (as.map frame) ([] : Bytes).length = 0 := by
    cases as with
    | nil => rfl
    | cons a as =>
      have hpos := List.length_pos_of_ne_nil (h.frame_ne_nil a (hv a (List.mem_cons_self ..)))
      rw [List.map_cons, List.length_nil, framesWithin, if_neg (Nat.not_le.mpr hpos)]
  obtain ⟨ess, hfeed, hlen, htimes⟩ := h.feed_frames chunks as hv [] hcut hpart hbelow
  simp only [List.length_nil, Nat.zero_add] at htimes
  refine ⟨ess, hfeed, hlen, ?_, htimes⟩
  have hall := htimes chunks.length
  rwa [List.take_length, ← hlen, List.take_length, hcut, framesWithin_flatten, List.length_map,
    List.take_length] at hall

end Framing

end Mmkvc
