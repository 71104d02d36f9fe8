/-
# Frames that the receiver rejects (`protocol/mmbp_codec.cc`)

`SetUpConnection`'s callback calls `error_cb_` for a frame and leaves the loop.
Where it then stands in the stream depends on the error: at the frame when its
length prefix is no valid one, behind the prefix when checksum or tag are wrong,
and behind all that has arrived when the buffer is discarded.

A `Receiver` counts the bytes of the stream, so that frames and messages have
places in it.
-/
import Mmkvc.MmbpCodec
import Mmkvc.Transition

namespace Mmkvc

namespace MmbpCodec

/-- `MmbpResponse::ParseFrom` leaves the end of what it was given. -/
theorem forward_parseResponse {kv : Kvarint} {kn : Kanon} (count : BitVec 64) (n : BitVec 32) :
    Reader.Forward (parseResponse kv kn count n) := MmbpResponse.forward_parseFrom _

/-! ## Where frames and messages stand -/

/-- A piece of the stream: its first byte, and the one behind its last. -/
structure Span where
  first : ℕ
  behind : ℕ
  deriving DecidableEq, Repr

/-- The two have a byte in common. -/
def Span.Overlaps (a b : Span) : Prop :=
  ∃ i, (a.first ≤ i ∧ i < a.behind) ∧ (b.first ≤ i ∧ i < b.behind)

/-- The receiving side of a connection: how many bytes have arrived, those still
unread, and the frames `error_cb_` was called for. -/
structure Receiver where
  received : ℕ
  unread : Bytes
  rejected : List Span
  deriving DecidableEq, Repr

namespace Receiver

/-- Nothing has arrived yet. -/
def start : Receiver := { received := 0, unread := [], rejected := [] }

/-- Where the read cursor stands. -/
def position (s : Receiver) : ℕ := s.received - s.unread.length

end Receiver

section

variable (kv : Kvarint) (kn : Kanon) (xx : XXHash) {μ : Type}

/-- `message_cb_` with a note of where the payload it is given stands, when `received`
bytes have arrived. -/
def located (messageCb : BitVec 32 → Reader μ) (received : ℕ) (payloadSize : BitVec 32) :
    Reader (Span × μ) := do
  let first := received - (← get).length
  let m ← messageCb payloadSize
  return ({ first := first, behind := first + payloadSize.toNat }, m)

/-- What is unread at the frame for which the loop calls `error_cb_`, if it does. -/
def rejectedFrame (messageCb : BitVec 32 → Reader μ) : ℕ → Bytes → Option Bytes
  | 0, _ => none
  | fuel + 1, b =>
    match kv.decode 32 b with
    | .error .invalid => some b
    | .error .short => none
    | .ok (sizeHeaderLen, sizeHeader) =>
      match (receiveFrame kn xx messageCb sizeHeaderLen sizeHeader).run b with
      | .ok ((true, _), b') => rejectedFrame messageCb fuel b'
      | .ok ((false, []), _) => none
      | .ok ((false, _ :: _), _) => some b
      | .error _ => none

/-- The same for a data event.  A buffer that is too large is rejected from its first byte on;
`frameSpan` records of it only what its front frame declares. -/
def rejectedEvent (messageCb : BitVec 32 → Reader μ) (b : Bytes) : Option Bytes :=
  if maxSize ≤ b.length then some b
  else rejectedFrame kv kn xx messageCb (b.length + 1) b

/-- How long the frame at the front says it is; all that has arrived, if it has no
length prefix. -/
def declaredLength (b : Bytes) : ℕ :=
  match kv.decode 32 b with
  | .ok (sizeHeaderLen, sizeHeader) => sizeHeaderLen + sizeHeader.toNat
  | .error _ => b.length

/-- The frame at the front of `b`, when `received` bytes have arrived. -/
def frameSpan (received : ℕ) (b : Bytes) : Span where
  first := received - b.length
  behind := received - b.length + declaredLength kv b

/-- A data event: the calls to the owner, and the receiver after it. -/
def dataEvent (messageCb : BitVec 32 → Reader μ) (s : Receiver) (chunk : Bytes) :
    Option (List (Event (Span × μ)) × Receiver) :=
  let received := s.received + chunk.length
  let buffer := s.unread ++ chunk
  match (receive kv kn xx (located messageCb received)).run buffer with
  | .error _ => none
  | .ok (es, unread) =>
    let rejected := rejectedEvent kv kn xx (located messageCb received) buffer
    some (es,
      { received := received
        unread := unread
        rejected := s.rejected ++ (rejected.map (frameSpan kv received)).toList })

/-- The receiver after a data event. -/
def receiverStep (messageCb : BitVec 32 → Reader μ) (s : Receiver) (chunk : Bytes) :
    Option Receiver :=
  (dataEvent kv kn xx messageCb s chunk).map Prod.snd

/-- No message that the event hands over has a byte of a frame rejected before it. -/
def NoReinterpretation (messageCb : BitVec 32 → Reader μ) (s : Receiver) (chunk : Bytes) : Prop :=
  ∀ es s', dataEvent kv kn xx messageCb s chunk = some (es, s') →
    ∀ span m, .message (span, m) ∈ es → ∀ r ∈ s.rejected, ¬ span.Overlaps r

end

/-- The read cursor is not inside a frame that was rejected. -/
def Receiver.Outside (s : Receiver) : Prop :=
  ∀ r ∈ s.rejected, ¬ (r.first < s.position ∧ s.position < r.behind)

instance (s : Receiver) : Decidable s.Outside := inferInstanceAs (Decidable (∀ r ∈ _, _))

/-! ## One round -/

section

variable {kv : Kvarint} {kn : Kanon} {xx : XXHash} {μ : Type} {messageCb : BitVec 32 → Reader μ}

/-- The test of an untrusted length. -/
def BadSize (len : ℕ) (size : BitVec 32) : Prop :=
  size < BitVec.ofNat 32 minSize
    ∨ BitVec.ofNat 64 maxSize - BitVec.ofNat 64 len ≤ size.setWidth 64

/-- What a round of the loop does: it stays at the frame, with an error if the
length is bad; it stops behind the length prefix with an error; or it hands a
message over. -/
inductive RoundOutcome (messageCb : BitVec 32 → Reader μ) (len : ℕ) (size : BitVec 32)
    (b : Bytes) : Bool × List (Event μ) → Bytes → Prop where
  | badSize (h : BadSize len size) :
    RoundOutcome messageCb len size b (false, [.error .E_INVALID_SIZE_HEADER]) b
  | wait (h : ¬ BadSize len size) : RoundOutcome messageCb len size b (false, []) b
  | refused (code : ErrorCode) (hlen : len ≤ b.length) :
    RoundOutcome messageCb len size b (false, [.error code]) (b.drop len)
  | message (m : μ) (payload b' : Bytes)
    (hcb : (messageCb (size - BitVec.ofNat 32 mmbpTagSize - BitVec.ofNat 32 checksumLength)).run
      ((b.drop len).drop mmbpTagSize) = .ok (m, payload))
    (hb' : b' = payload.drop checksumLength) :
    RoundOutcome messageCb len size b (true, [.message m]) b'

/-- Verification reads nothing away. -/
theorem run_verifyCheckSum_unread {size : BitVec 32} {b b' : Bytes} {v : Bool}
    (h : (verifyCheckSum kn xx size).run b = .ok (v, b')) : b' = b := by
  have hpeek : ∀ {n : ℕ} {s b b' : Bytes}, (Reader.peek n).run b = .ok (s, b') → b' = b := by
    intro n s b b' h
    rw [Reader.run_peek] at h
    split_ifs at h
    cases h
    rfl
  obtain ⟨region, b₁, h₁, h⟩ := run_bind_eq_ok.mp h
  obtain ⟨whole, b₂, h₂, h⟩ := run_bind_eq_ok.mp h
  cases h
  rw [hpeek h₂, hpeek h₁]

/-- What is skipped was there. -/
theorem run_advance_eq_ok {n : ℕ} {b b' : Bytes} {u : Unit}
    (h : (Reader.advance n).run b = .ok (u, b')) : n ≤ b.length ∧ b' = b.drop n := by
  rw [Reader.run_advance] at h
  split_ifs at h with hn
  cases h
  exact ⟨hn, rfl⟩

/-- A round refuses the frame, waits for it, or delivers it. -/
theorem receiveFrame_outcome {len : ℕ} {size : BitVec 32} {b b' : Bytes}
    {r : Bool × List (Event μ)}
    (h : (receiveFrame kn xx messageCb len size).run b = .ok (r, b')) :
    RoundOutcome messageCb len size b r b' := by
  obtain ⟨_, _, hget, h⟩ := run_bind_eq_ok.mp h
  cases hget
  by_cases hbad : BadSize len size
  · rw [BadSize] at hbad
    rw [if_pos hbad] at h
    cases h
    exact .badSize hbad
  rw [BadSize] at hbad
  by_cases hwait : BitVec.ofNat 64 b.length - BitVec.ofNat 64 len < size.setWidth 64
  · rw [if_neg hbad, if_pos hwait] at h
    cases h
    exact .wait hbad
  · rw [if_neg hbad, if_neg hwait] at h
    obtain ⟨_, b₁, hadv, h⟩ := run_bind_eq_ok.mp h
    obtain ⟨hlen, rfl⟩ := run_advance_eq_ok hadv
    obtain ⟨verified, b₂, hsum, h⟩ := run_bind_eq_ok.mp h
    obtain rfl := run_verifyCheckSum_unread hsum
    cases verified with
    | false =>
      cases h
      exact .refused _ hlen
    | true =>
      obtain ⟨tag, b₃, hpeek, h⟩ := run_bind_eq_ok.mp h
      rw [Reader.run_peek] at hpeek
      split_ifs at hpeek
      cases hpeek
      split_ifs at h
      · obtain ⟨_, b₄, hadv, h⟩ := run_bind_eq_ok.mp h
        obtain ⟨-, rfl⟩ := run_advance_eq_ok hadv
        obtain ⟨m, b₅, hcb, h⟩ := run_bind_eq_ok.mp h
        obtain ⟨_, b₆, hadv, h⟩ := run_bind_eq_ok.mp h
        obtain ⟨-, rfl⟩ := run_advance_eq_ok hadv
        cases h
        exact .message m b₅ _ hcb rfl
      · cases h
        exact .refused _ hlen

/-! ## The loop -/

/-- Whatever follows, the frame at the front is rejected for its length prefix. -/
def Stuck (kv : Kvarint) (b : Bytes) : Prop :=
  kv.decode 32 b = .error .invalid
    ∨ ∃ len size, kv.decode 32 b = .ok (len, size) ∧ BadSize len size

/-- Bytes that arrive later do not help a frame that is rejected for its length prefix. -/
theorem Stuck.append (hkv : kv.Settled) {b : Bytes} (h : Stuck kv b) (c : Bytes) :
    Stuck kv (b ++ c) := by
  rcases h with h | ⟨len, size, h, hbad⟩
  · left
    rw [hkv.decode_append b c (by rw [h]; nofun), h]
  · right
    refine ⟨len, size, ?_, hbad⟩
    rw [hkv.decode_append b c (by rw [h]; nofun), h]

/-- The loop leaves a suffix, and behind a frame that it rejects it stands inside,
unless it is stuck at its first byte. -/
theorem receiveLoop_rejects (hkv : kv.Settled) (hcb : ∀ n, Reader.Forward (messageCb n))
    {fuel : ℕ} {b b' : Bytes} {es : List (Event μ)}
    (h : (receiveLoop kv kn xx messageCb fuel).run b = .ok (es, b')) :
    b' <:+ b ∧ ∀ f, rejectedFrame kv kn xx messageCb fuel b = some f →
      f <:+ b ∧ (b'.length < f.length ∨ b' = f ∧ Stuck kv f) := by
  -- by the rounds of the loop: only a message lets it go on
  induction fuel generalizing b es with
  | zero => cases h
  | succ fuel ih =>
    obtain ⟨_, _, hget, h⟩ := run_bind_eq_ok.mp h
    cases hget
    rw [rejectedFrame]
    cases hd : kv.decode 32 b with
    | error e =>
      rw [hd] at h
      cases e with
      | invalid =>
        cases h
        refine ⟨List.suffix_rfl, ?_⟩
        rintro f hf
        cases hf
        exact ⟨List.suffix_rfl, .inr ⟨rfl, .inl hd⟩⟩
      | short =>
        cases h
        exact ⟨List.suffix_rfl, nofun⟩
    | ok r =>
      obtain ⟨len, size⟩ := r
      rw [hd] at h
      obtain ⟨⟨continues, es₁⟩, b₁, hframe, h⟩ := run_bind_eq_ok.mp h
      simp only [hframe]
      cases receiveFrame_outcome hframe with
      | badSize hbad =>
        cases h
        refine ⟨List.suffix_rfl, ?_⟩
        rintro f hf
        cases hf
        exact ⟨List.suffix_rfl, .inr ⟨rfl, .inr ⟨len, size, hd, hbad⟩⟩⟩
      | wait =>
        cases h
        exact ⟨List.suffix_rfl, nofun⟩
      | refused code hlen =>
        cases h
        refine ⟨List.drop_suffix len b, ?_⟩
        rintro f hf
        cases hf
        -- the cursor is behind the length prefix, inside the refused frame
        have hpos := hkv.decode_pos hd
        refine ⟨List.suffix_rfl, .inl ?_⟩
        rw [List.length_drop]
        omega
      | message m payload b₁ hm hb₁ =>
        subst hb₁
        obtain ⟨es₂, b₂, hloop, h⟩ := run_bind_eq_ok.mp h
        cases h
        have hsuffix : payload.drop checksumLength <:+ b :=
          (List.drop_suffix _ _).trans (((hcb _ _ _ _ hm).trans (List.drop_suffix _ _)).trans
            (List.drop_suffix _ _))
        obtain ⟨hb', hrej⟩ := ih hloop
        refine ⟨hb'.trans hsuffix, ?_⟩
        rintro f hf
        obtain ⟨hfb, hf'⟩ := hrej f hf
        exact ⟨hfb.trans hsuffix, hf'⟩

/-- What holds of every message read from bytes not longer than `b` holds of those that
the loop hands over. -/
theorem receiveLoop_messages (hcb : ∀ n, Reader.Forward (messageCb n)) {P : μ → Prop} {k : ℕ}
    (hP : ∀ n b m b', (messageCb n).run b = .ok (m, b') → b.length ≤ k → P m) {fuel : ℕ}
    {b b' : Bytes} {es : List (Event μ)}
    (h : (receiveLoop kv kn xx messageCb fuel).run b = .ok (es, b')) (hb : b.length ≤ k) :
    ∀ m, .message m ∈ es → P m := by
  induction fuel generalizing b es with
  | zero => cases h
  | succ fuel ih =>
    obtain ⟨_, _, hget, h⟩ := run_bind_eq_ok.mp h
    cases hget
    cases hd : kv.decode 32 b with
    | error e =>
      rw [hd] at h
      cases e <;> cases h <;> intro m hm <;> simp at hm
    | ok r =>
      obtain ⟨len, size⟩ := r
      rw [hd] at h
      obtain ⟨⟨continues, es₁⟩, b₁, hframe, h⟩ := run_bind_eq_ok.mp h
      cases receiveFrame_outcome hframe with
      | badSize => cases h; intro m hm; simp at hm
      | wait => cases h; intro m hm; simp at hm
      | refused => cases h; intro m hm; simp at hm
      | message m₁ payload b₁ hm₁ hb₁ =>
        subst hb₁
        obtain ⟨es₂, b₂, hloop, h⟩ := run_bind_eq_ok.mp h
        cases h
        have hpayload : ((b.drop len).drop mmbpTagSize).length ≤ k := by
          rw [List.length_drop, List.length_drop]
          omega
        have hrest : (payload.drop checksumLength).length ≤ k := by
          have hle := (hcb _ _ _ _ hm₁).length_le
          rw [List.length_drop]
          omega
        intro m hm
        rcases List.mem_cons.mp hm with hm | hm
        · cases hm
          exact hP _ _ _ _ hm₁ hpayload
        · exact ih hloop hrest m hm

/-- Stuck at its first frame, the loop hands nothing over and stays. -/
theorem receiveLoop_stuck {b b' : Bytes} {fuel : ℕ} {es : List (Event μ)} (hstuck : Stuck kv b)
    (h : (receiveLoop kv kn xx messageCb fuel).run b = .ok (es, b')) :
    b' = b ∧ ∀ m, .message m ∉ es := by
  cases fuel with
  | zero => cases h
  | succ fuel =>
    obtain ⟨_, _, hget, h⟩ := run_bind_eq_ok.mp h
    cases hget
    rcases hstuck with hd | ⟨len, size, hd, hbad⟩
    · rw [hd] at h
      cases h
      exact ⟨rfl, by simp⟩
    · rw [hd] at h
      obtain ⟨r, b₁, hframe, h⟩ := run_bind_eq_ok.mp h
      rw [receiveFrame, run_bind_ok (Reader.run_get b)] at hframe
      rw [BadSize] at hbad
      rw [if_pos hbad] at hframe
      cases hframe
      cases h
      exact ⟨rfl, by simp⟩

/-! ## Data events -/

/-- Noting where the payload stands reads nothing. -/
theorem forward_located (hcb : ∀ n, Reader.Forward (messageCb n)) (received : ℕ) (n : BitVec 32) :
    Reader.Forward (located messageCb received n) := by
  have hget : Reader.Forward (get : Reader Bytes) := by
    intro b a b' h
    cases h
    exact List.suffix_rfl
  exact hget.bind fun _ => (hcb n).bind fun _ => Reader.forward_pure _

/-- A message does not begin before the first byte that was unread. -/
theorem located_first_le {received k : ℕ} {n : BitVec 32} {b b' : Bytes} {m : Span × μ}
    (h : (located messageCb received n).run b = .ok (m, b')) (hb : b.length ≤ k) :
    received - k ≤ m.1.first := by
  obtain ⟨_, _, hget, h⟩ := run_bind_eq_ok.mp h
  cases hget
  obtain ⟨m', b₁, hcb, h⟩ := run_bind_eq_ok.mp h
  cases h
  exact Nat.sub_le_sub_left hb received

/-- What a data event does to the bytes that it finds: it leaves a suffix, and the
messages stand in them; if they begin with a frame that is rejected whatever
follows, there are no messages, and they are discarded or left as they are; and
behind a frame that it rejects it stands inside, unless it is stuck there. -/
structure EventSpec (kv : Kvarint) (kn : Kanon) (xx : XXHash) (messageCb : BitVec 32 → Reader μ)
    (b : Bytes) (es : List (Event μ)) (b' : Bytes) : Prop where
  suffix : b' <:+ b
  stuck : Stuck kv b → (∀ m, .message m ∉ es) ∧ (b' = b ∨ b'.length < b.length)
  rejected : ∀ f, rejectedEvent kv kn xx messageCb b = some f →
    f <:+ b ∧ (b'.length < f.length ∨ b' = f ∧ Stuck kv f)

/-- What a reception does to the buffer, by its events. -/
theorem receive_eventSpec (hkv : kv.Settled) (hcb : ∀ n, Reader.Forward (messageCb n))
    {b b' : Bytes} {es : List (Event μ)}
    (h : (receive kv kn xx messageCb).run b = .ok (es, b')) :
    EventSpec kv kn xx messageCb b es b' := by
  by_cases hb : b.length < maxSize
  · rw [run_receive hb] at h
    obtain ⟨hsuffix, hrej⟩ := receiveLoop_rejects hkv hcb h
    refine ⟨hsuffix, fun hstuck => ?_, ?_⟩
    · obtain ⟨rfl, hes⟩ := receiveLoop_stuck hstuck h
      exact ⟨hes, .inl rfl⟩
    · rw [rejectedEvent, if_neg (Nat.not_le.mpr hb)]
      exact hrej
  · -- the buffer is discarded
    have hmax : maxSize ≤ b.length := Nat.not_lt.mp hb
    rw [receive, run_bind_ok (Reader.run_get b), if_pos hmax] at h
    obtain ⟨_, b₁, hadv, h⟩ := run_bind_eq_ok.mp h
    obtain ⟨-, rfl⟩ := run_advance_eq_ok hadv
    cases h
    have hpos : (b.drop b.length).length < b.length := by
      rw [List.drop_length, List.length_nil]
      exact lt_of_lt_of_le (by norm_num [maxSize]) hmax
    refine ⟨List.drop_suffix _ _, fun _ => ⟨by simp, .inr hpos⟩, ?_⟩
    rw [rejectedEvent, if_pos hmax]
    rintro f hf
    cases hf
    exact ⟨List.suffix_rfl, .inl hpos⟩

/-- What holds of every message that is parsed holds of those that are delivered. -/
theorem receive_messages (hcb : ∀ n, Reader.Forward (messageCb n)) {P : μ → Prop} {b b' : Bytes}
    (hP : ∀ n c m c', (messageCb n).run c = .ok (m, c') → c.length ≤ b.length → P m)
    {es : List (Event μ)} (h : (receive kv kn xx messageCb).run b = .ok (es, b')) :
    ∀ m, .message m ∈ es → P m := by
  by_cases hb : b.length < maxSize
  · rw [run_receive hb] at h
    exact receiveLoop_messages hcb hP h le_rfl
  · rw [receive, run_bind_ok (Reader.run_get b), if_pos (Nat.not_lt.mp hb)] at h
    obtain ⟨_, b₁, -, h⟩ := run_bind_eq_ok.mp h
    cases h
    intro m hm
    simp at hm

/-! ## Runs -/

/-- What every run keeps: a rejected frame is behind the read cursor, or the cursor
is inside it, or nothing is handed over until the frame is discarded. -/
structure Kept (kv : Kvarint) (s : Receiver) : Prop where
  unread_le : s.unread.length ≤ s.received
  rejected : ∀ r ∈ s.rejected, r.behind ≤ s.position ∨ r.first < s.position
    ∨ r.first = s.position ∧ Stuck kv s.unread

theorem kept_start : Kept kv Receiver.start where
  unread_le := le_rfl
  rejected := nofun

/-- A data event is one reception of what is in the buffer. -/
theorem dataEvent_eq_some {s s' : Receiver} {chunk : Bytes} {es : List (Event (Span × μ))}
    (h : dataEvent kv kn xx messageCb s chunk = some (es, s')) :
    ∃ unread, (receive kv kn xx (located messageCb (s.received + chunk.length))).run
        (s.unread ++ chunk) = .ok (es, unread)
      ∧ s' = { received := s.received + chunk.length
               unread := unread
               rejected := s.rejected ++ ((rejectedEvent kv kn xx
                 (located messageCb (s.received + chunk.length)) (s.unread ++ chunk)).map
                   (frameSpan kv (s.received + chunk.length))).toList } := by
  simp only [dataEvent] at h
  split at h
  · cases h
  · rename_i es' unread hrun
    cases h
    exact ⟨unread, hrun, rfl⟩

/-- A data event keeps what is known of the rejected frames. -/
theorem Kept.step (hkv : kv.Settled) (hcb : ∀ n, Reader.Forward (messageCb n)) {s s' : Receiver}
    {chunk : Bytes} (hs : Kept kv s) (h : receiverStep kv kn xx messageCb s chunk = some s') :
    Kept kv s' := by
  obtain ⟨⟨es, t⟩, hevent, rfl⟩ := Option.map_eq_some_iff.mp h
  obtain ⟨unread, hrun, rfl⟩ := dataEvent_eq_some hevent
  have hspec := receive_eventSpec hkv (forward_located hcb _) hrun
  have hle := hs.unread_le
  have hunread := hspec.suffix.length_le
  rw [List.length_append] at hunread
  refine ⟨by simp only; omega, ?_⟩
  simp only [Receiver.position] at *
  intro r hr
  rcases List.mem_append.mp hr with hr | hr
  · -- a frame of an earlier event
    rcases hs.rejected r hr with hbehind | hinside | ⟨hfirst, hstuck⟩
    · left; simp only [Receiver.position] at hbehind; omega
    · right; left; simp only [Receiver.position] at hinside; omega
    · simp only [Receiver.position] at hfirst
      right
      rcases (hspec.stuck (hstuck.append hkv chunk)).2 with heq | hlt
      · right
        rw [heq]
        refine ⟨?_, hstuck.append hkv chunk⟩
        rw [List.length_append]
        omega
      · left
        rw [List.length_append] at hlt
        omega
  · -- the frame that this event rejects
    right
    obtain ⟨f, hf, rfl⟩ := Option.map_eq_some_iff.mp (Option.mem_toList.mp hr)
    obtain ⟨hfb, hlt | ⟨rfl, hstuck⟩⟩ := hspec.rejected f hf
    · left
      have hfle := hfb.length_le
      rw [List.length_append] at hfle
      simp only [frameSpan]
      omega
    · exact .inr ⟨rfl, hstuck⟩

/-- With the cursor outside, the next event hands over nothing of a rejected frame. -/
theorem Kept.noReinterpretation (hkv : kv.Settled) (hcb : ∀ n, Reader.Forward (messageCb n))
    {s : Receiver} (hs : Kept kv s) (hout : s.Outside) (chunk : Bytes) :
    NoReinterpretation kv kn xx messageCb s chunk := by
  rintro es s' hevent span m hm r hr ⟨i, ⟨hfirst, -⟩, -, hbehind⟩
  obtain ⟨unread, hrun, -⟩ := dataEvent_eq_some hevent
  have hle := hs.unread_le
  have hplace := receive_messages (forward_located hcb _)
    (P := fun m => s.received + chunk.length - (s.unread ++ chunk).length ≤ m.1.first)
    (fun n c m c' hc hlen => located_first_le hc hlen) hrun _ hm
  rw [List.length_append] at hplace
  have hcursor : s.position < r.behind := by
    simp only [Receiver.position] at *
    omega
  rcases hs.rejected r hr with h | h | ⟨-, hstuck⟩
  · omega
  · exact hout r hr ⟨h, hcursor⟩
  · have hspec := receive_eventSpec hkv (forward_located hcb _) hrun
    exact (hspec.stuck (hstuck.append hkv chunk)).1 _ hm

end

end MmbpCodec

/-- **When rejected frames stay rejected.**  Over any stream, cut into data events
anywhere: if each event finds the read cursor outside the frames that were
rejected before it, no event hands over a message with a byte of one of them. -/
theorem mmbpCodec_rejected_not_reinterpreted {kv : Kvarint} {kn : Kanon} {xx : XXHash}
    (hkv : kv.Settled) {μ : Type} {messageCb : BitVec 32 → Reader μ}
    (hcb : ∀ n, Reader.Forward (messageCb n)) (chunks : List Bytes)
    (h : Transition.AllSteps (MmbpCodec.receiverStep kv kn xx messageCb)
      (fun s _ => s.Outside) MmbpCodec.Receiver.start chunks) :
    Transition.AllSteps (MmbpCodec.receiverStep kv kn xx messageCb)
      (MmbpCodec.NoReinterpretation kv kn xx messageCb) MmbpCodec.Receiver.start chunks :=
  h.imp (fun _ _ _ hs _ hstep => hs.step hkv hcb hstep)
    (fun _ chunk hs hout => hs.noReinterpretation hkv hcb hout chunk) MmbpCodec.kept_start

/-- A message, a length that is too small, and a frame that then arrives for nothing. -/
theorem mmbpCodec_rejected_not_reinterpreted_badSize :
    Transition.AllSteps
      (MmbpCodec.receiverStep Kvarint.leb128 Kanon.bigEndian XXHash.seed0
        (MmbpCodec.parseResponse Kvarint.leb128 Kanon.bigEndian 0))
      (MmbpCodec.NoReinterpretation Kvarint.leb128 Kanon.bigEndian XXHash.seed0
        (MmbpCodec.parseResponse Kvarint.leb128 Kanon.bigEndian 0)) MmbpCodec.Receiver.start
      [[10, 77, 77, 66, 80, 0, 0, 209, 30, 149, 81, 3],
        [10, 77, 77, 66, 80, 0, 0, 209, 30, 149, 81]] :=
  mmbpCodec_rejected_not_reinterpreted Kvarint.leb128_settled
    (MmbpCodec.forward_parseResponse 0) _ (by decide +kernel)

/-- A frame with a wrong checksum whose body begins with a frame of its own: the next
data event, of one byte, hands over the message of the inner frame. -/
theorem mmbpCodec_reinterprets_refused_frame :
    ¬ ∀ chunks : List Bytes, Transition.AllSteps
      (MmbpCodec.receiverStep Kvarint.leb128 Kanon.bigEndian XXHash.seed0
        (MmbpCodec.parseResponse Kvarint.leb128 Kanon.bigEndian 0))
      (MmbpCodec.NoReinterpretation Kvarint.leb128 Kanon.bigEndian XXHash.seed0
        (MmbpCodec.parseResponse Kvarint.leb128 Kanon.bigEndian 0))
      MmbpCodec.Receiver.start chunks := by
  intro h
  obtain ⟨-, hsecond⟩ := h
    [[15, 10, 77, 77, 66, 80, 0, 0, 209, 30, 149, 81, 0, 0, 0, 0], [128]]
  have hfirst : MmbpCodec.receiverStep Kvarint.leb128 Kanon.bigEndian XXHash.seed0
      (MmbpCodec.parseResponse Kvarint.leb128 Kanon.bigEndian 0) MmbpCodec.Receiver.start
        [15, 10, 77, 77, 66, 80, 0, 0, 209, 30, 149, 81, 0, 0, 0, 0]
      = some
        { received := 16
          unread := [10, 77, 77, 66, 80, 0, 0, 209, 30, 149, 81, 0, 0, 0, 0]
          rejected := [{ first := 0, behind := 16 }] } := by decide +kernel
  obtain ⟨hno, -⟩ := hsecond _ hfirst
  have hevent : ∃ m s', MmbpCodec.dataEvent Kvarint.leb128 Kanon.bigEndian XXHash.seed0
      (MmbpCodec.parseResponse Kvarint.leb128 Kanon.bigEndian 0)
        { received := 16
          unread := [10, 77, 77, 66, 80, 0, 0, 209, 30, 149, 81, 0, 0, 0, 0]
          rejected := [{ first := 0, behind := 16 }] } [128]
      = some ([.message ({ first := 6, behind := 8 }, m), .error .E_INVALID_SIZE_HEADER], s') :=
    ⟨_, _, by rfl⟩
  obtain ⟨m, s', hevent⟩ := hevent
  exact hno _ s' hevent _ m (List.mem_cons_self ..) _ (List.mem_singleton_self _)
    ⟨6, by decide, by decide⟩

end Mmkvc
