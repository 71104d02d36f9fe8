/-
# The frame codec (`protocol/mmbp_codec.{h,cc}`)

A frame is a varint length, then the tag `MMBP`, the payload and a checksum over
tag and payload.  `receive` is the callback that `SetUpConnection` installs: it
runs at each data event on what is unread, and hands over every frame that is
whole.  `mmbpCodec_receive_serializeTo` says that the messages it hands over do
not depend on how the byte stream was cut.
-/
import Mmkvc.Framing
import Mmkvc.MmbpResponse

namespace Mmkvc

namespace MmbpCodec

/-- `MmbpCodec::ErrorCode`. -/
inductive ErrorCode where
  | E_NOERROR
  | E_INVALID_SIZE_HEADER
  | E_INVALID_CHECKSUM
  | E_INVALID_MESSAGE
  | E_NO_COMPLETE_MESSAGE
  deriving DecidableEq, Repr

/-- A call that the receiver makes to its owner: `message_cb_` with what it read,
or `error_cb_`. -/
inductive Event (μ : Type) where
  | message (m : μ)
  | error (code : ErrorCode)
  deriving DecidableEq, Repr

/-- `CHECKSUM_LENGTH`. -/
def checksumLength : ℕ := 4
/-- `MAX_SIZE`, 64MB. -/
def maxSize : ℕ := 2 ^ 26
/-- `MMBP_TAG`. -/
def mmbpTag : Bytes := [77, 77, 66, 80]
/-- `MMBP_TAG_SIZE`. -/
def mmbpTagSize : ℕ := 4
/-- `MIN_SIZE`. -/
def minSize : ℕ := mmbpTagSize + checksumLength

section

variable (kv : Kvarint) (kn : Kanon) (xx : XXHash) {μ : Type}

/-- `SerializeTo`, of a message that serializes to `payload`. -/
def serializeTo (payload : Bytes) : Bytes :=
  let buffer := mmbpTag ++ payload
  let checksum := xx.digest ((kn.chunks buffer).foldl xx.update xx.reset)
  let buffer := buffer ++ kn.append32 checksum
  kv.encode 32 (BitVec.ofNat 32 buffer.length) ++ buffer

/-- `VerifyCheckSum`: the checksum is behind the `sizeHeader - 4` bytes it is over. -/
def verifyCheckSum (sizeHeader : BitVec 32) : Reader Bool := do
  let region ← Reader.peek (sizeHeader - BitVec.ofNat 32 checksumLength).toNat
  let whole ← Reader.peek sizeHeader.toNat
  return xx.xxh32 region == kn.read32 (whole.drop (sizeHeader.toNat - checksumLength))

/-- One round of the loop with a length prefix that was decoded: whether it goes
on, and the call it made. -/
def receiveFrame (messageCb : BitVec 32 → Reader μ) (sizeHeaderLen : ℕ) (sizeHeader : BitVec 32) :
    Reader (Bool × List (Event μ)) := do
  let readableSize := BitVec.ofNat 64 (← get).length
  if sizeHeader < BitVec.ofNat 32 minSize
      ∨ BitVec.ofNat 64 maxSize - BitVec.ofNat 64 sizeHeaderLen ≤ sizeHeader.setWidth 64 then
    return (false, [.error .E_INVALID_SIZE_HEADER])
  -- waiting for the complete message
  else if readableSize - BitVec.ofNat 64 sizeHeaderLen < sizeHeader.setWidth 64 then
    return (false, [])
  else do
    Reader.advance sizeHeaderLen
    if ← verifyCheckSum kn xx sizeHeader then
      if (← Reader.peek mmbpTagSize) = mmbpTag then
        Reader.advance mmbpTagSize
        let m ← messageCb
          (sizeHeader - BitVec.ofNat 32 mmbpTagSize - BitVec.ofNat 32 checksumLength)
        Reader.advance checksumLength
        return (true, [.message m])
      else return (false, [.error .E_INVALID_MESSAGE])
    else return (false, [.error .E_INVALID_CHECKSUM])

/-- The loop of the callback, at most `fuel` rounds of it. -/
def receiveLoop (messageCb : BitVec 32 → Reader μ) : ℕ → Reader (List (Event μ))
  | 0 => throw Fault.outOfFuel
  | fuel + 1 => do
    match kv.decode 32 (← get) with
    | .error .invalid => return [.error .E_INVALID_MESSAGE]
    | .error .short => return []
    | .ok (sizeHeaderLen, sizeHeader) =>
      let (continues, es) ← receiveFrame kn xx messageCb sizeHeaderLen sizeHeader
      if continues then
        let es' ← receiveLoop messageCb fuel
        return es ++ es'
      else return es

/-- The callback that `SetUpConnection` installs.  Every round that goes on
consumes the tag and the checksum, so the readable size bounds their number. -/
def receive (messageCb : BitVec 32 → Reader μ) : Reader (List (Event μ)) := do
  let readableSize := (← get).length
  if maxSize ≤ readableSize then
    Reader.advance readableSize
    return [.error .E_INVALID_SIZE_HEADER]
  else receiveLoop kv kn xx messageCb (readableSize + 1)

end

/-! ## One round of the loop -/

section Rounds

variable {kv : Kvarint} {kn : Kanon} {xx : XXHash} {μ : Type} {messageCb : BitVec 32 → Reader μ}

/-- Verification compares the hash of the frame with the checksum at its end and reads nothing away.
-/
theorem run_verifyCheckSum (size : BitVec 32) (b : Bytes) (h4 : 4 ≤ size.toNat)
    (hlen : size.toNat ≤ b.length) :
    (verifyCheckSum kn xx size).run b
      = .ok (xx.xxh32 (b.take (size.toNat - 4))
          == kn.read32 ((b.take size.toNat).drop (size.toNat - 4)), b) := by
  have hsub : (size - BitVec.ofNat 32 checksumLength).toNat = size.toNat - 4 := by
    rw [checksumLength, BitVec.toNat_sub_of_le (by rw [BitVec.le_def]; simpa using h4)]
    rfl
  rw [verifyCheckSum, StateT.run_bind, Reader.run_peek, hsub, if_pos (by omega)]
  show (Reader.peek size.toNat >>= fun whole => pure (_ == kn.read32 (whole.drop _))).run b = _
  rw [StateT.run_bind, Reader.run_peek, if_pos hlen]
  rfl

/-- The test of an untrusted length passes one that the frame of a message has. -/
theorem sizeHeader_ok {len : ℕ} {size : BitVec 32} (hmin : minSize ≤ size.toNat)
    (hmax : len + size.toNat < maxSize) :
    ¬ (size < BitVec.ofNat 32 minSize
      ∨ BitVec.ofNat 64 maxSize - BitVec.ofNat 64 len ≤ size.setWidth 64) := by
  simp only [minSize, mmbpTagSize, checksumLength, maxSize] at *
  rw [BitVec.lt_def, BitVec.le_def, BitVec.toNat_sub_of_le (by rw [BitVec.le_def]; simp; omega)]
  simp only [BitVec.toNat_ofNat, BitVec.toNat_setWidth]
  omega

/-- The comparison on 64-bit numbers says whether the whole frame has arrived. -/
theorem readable_lt_iff {len n : ℕ} {size : BitVec 32} (hlen : len ≤ n) (hn : n < maxSize) :
    BitVec.ofNat 64 n - BitVec.ofNat 64 len < size.setWidth 64 ↔ n < len + size.toNat := by
  simp only [maxSize] at hn
  rw [BitVec.lt_def, BitVec.toNat_sub_of_le (by rw [BitVec.le_def]; simp; omega)]
  simp only [BitVec.toNat_ofNat, BitVec.toNat_setWidth]
  omega

/-- A frame that has not wholly arrived is waited for. -/
theorem run_receiveFrame_wait {len : ℕ} {size : BitVec 32} {b : Bytes}
    (hmin : minSize ≤ size.toNat) (hmax : len + size.toNat < maxSize) (hlen : len ≤ b.length)
    (hb : b.length < maxSize) (hwait : b.length < len + size.toNat) :
    (receiveFrame kn xx messageCb len size).run b = .ok ((false, []), b) := by
  refine (run_bind_ok (Reader.run_get b)).trans ?_
  rw [if_neg (sizeHeader_ok hmin hmax), if_pos ((readable_lt_iff hlen hb).mpr hwait)]
  rfl

/-- What the loop goes on with behind a frame that passes its tests: the message, and
four bytes skipped. -/
def afterMessage (messageCb : BitVec 32 → Reader μ) (payloadSize : BitVec 32) :
    Reader (Bool × List (Event μ)) := do
  let m ← messageCb payloadSize
  Reader.advance checksumLength
  return (true, [.message m])

/-- A whole frame behind its length prefix `pre`, with the checksum of its payload:
the message callback is run on what begins with the payload. -/
theorem run_receiveFrame_passing {size : BitVec 32} {pre payload cks rest : Bytes}
    (hsize : size.toNat = (mmbpTag ++ payload ++ cks).length) (hcks : cks.length = checksumLength)
    (hmax : pre.length + size.toNat < maxSize)
    (hb : (pre ++ (mmbpTag ++ payload ++ cks ++ rest)).length < maxSize)
    (hsum : xx.xxh32 (mmbpTag ++ payload) = kn.read32 cks) :
    (receiveFrame kn xx messageCb pre.length size).run
        (pre ++ (mmbpTag ++ payload ++ cks ++ rest))
      = (afterMessage messageCb (BitVec.ofNat 32 payload.length)).run
          (payload ++ (cks ++ rest)) := by
  rw [checksumLength] at hcks
  have hsize' : size.toNat = 4 + payload.length + 4 := by
    rw [hsize, List.length_append, List.length_append, hcks]
    rfl
  have hpayload : size - BitVec.ofNat 32 mmbpTagSize - BitVec.ofNat 32 checksumLength
      = BitVec.ofNat 32 payload.length := by
    apply BitVec.eq_of_toNat_eq
    simp only [mmbpTagSize, checksumLength, BitVec.toNat_sub, BitVec.toNat_ofNat]
    omega
  have hsum' : (verifyCheckSum kn xx size).run (mmbpTag ++ payload ++ cks ++ rest)
      = .ok (true, mmbpTag ++ payload ++ cks ++ rest) := by
    have hregion : size.toNat - 4 = (mmbpTag ++ payload).length := by
      rw [hsize, List.length_append, hcks, Nat.add_sub_cancel]
    rw [run_verifyCheckSum size _ (by omega) (by rw [List.length_append]; omega), hregion, hsize,
      List.take_left, List.drop_left, List.append_assoc _ cks rest, List.take_left, hsum,
      beq_self_eq_true]
  have htag : mmbpTag ++ payload ++ cks ++ rest = mmbpTag ++ (payload ++ (cks ++ rest)) := by
    simp only [List.append_assoc]
  refine (run_bind_ok (Reader.run_get _)).trans ?_
  rw [if_neg (sizeHeader_ok (by simp only [minSize, mmbpTagSize, checksumLength]; omega) hmax),
    if_neg (by rw [readable_lt_iff (by rw [List.length_append]; omega) hb, List.length_append,
      List.length_append, hsize]; omega)]
  refine (run_bind_ok (Reader.reads_advance pre _ rfl _)).trans ?_
  refine (run_bind_ok hsum').trans ?_
  rw [if_pos rfl, htag]
  refine (run_bind_ok (Reader.run_peek_append (s := mmbpTag) rfl _)).trans ?_
  rw [if_pos rfl, hpayload]
  exact run_bind_ok (Reader.reads_advance mmbpTag _ rfl _)

/-- A callback that reads the payload to its end has the loop go on behind the frame. -/
theorem run_receiveFrame_whole {size : BitVec 32} {pre payload cks rest : Bytes} {m : μ}
    (hsize : size.toNat = (mmbpTag ++ payload ++ cks).length) (hcks : cks.length = 4)
    (hmax : pre.length + size.toNat < maxSize)
    (hb : (pre ++ (mmbpTag ++ payload ++ cks ++ rest)).length < maxSize)
    (hsum : xx.xxh32 (mmbpTag ++ payload) = kn.read32 cks)
    (hcb : Reader.Reads (messageCb (BitVec.ofNat 32 payload.length)) payload m) :
    (receiveFrame kn xx messageCb pre.length size).run
        (pre ++ (mmbpTag ++ payload ++ cks ++ rest)) = .ok ((true, [.message m]), rest) := by
  rw [run_receiveFrame_passing hsize hcks hmax hb hsum, afterMessage]
  refine (run_bind_ok (hcb (cks ++ rest))).trans ?_
  exact (run_bind_ok (Reader.reads_advance cks _ hcks rest)).trans rfl

/-- Below the maximum size the loop runs until there is nothing to do. -/
theorem run_receive {b : Bytes} (hb : b.length < maxSize) :
    (receive kv kn xx messageCb).run b
      = (receiveLoop kv kn xx messageCb (b.length + 1)).run b := by
  refine (run_bind_ok (Reader.run_get b)).trans ?_
  rw [if_neg (Nat.not_le.mpr hb)]

/-- A size that has not wholly arrived is waited for. -/
theorem run_receiveLoop_short {fuel : ℕ} {b : Bytes} (h : kv.decode 32 b = .error .short) :
    (receiveLoop kv kn xx messageCb (fuel + 1)).run b = .ok ([], b) := by
  refine (run_bind_ok (Reader.run_get b)).trans ?_
  rw [h]
  rfl

/-- What the loop waits for, it leaves in the buffer. -/
theorem run_receiveLoop_wait {fuel len : ℕ} {size : BitVec 32} {b : Bytes}
    (h : kv.decode 32 b = .ok (len, size))
    (hframe : (receiveFrame kn xx messageCb len size).run b = .ok ((false, []), b)) :
    (receiveLoop kv kn xx messageCb (fuel + 1)).run b = .ok ([], b) := by
  refine (run_bind_ok (Reader.run_get b)).trans ?_
  rw [h]
  exact (run_bind_ok hframe).trans rfl

/-- A frame is delivered, and the loop goes on behind it. -/
theorem run_receiveLoop_frame {fuel len : ℕ} {size : BitVec 32} {b b' b'' : Bytes} {m : μ}
    {es : List (Event μ)} (h : kv.decode 32 b = .ok (len, size))
    (hframe : (receiveFrame kn xx messageCb len size).run b = .ok ((true, [.message m]), b'))
    (hloop : (receiveLoop kv kn xx messageCb fuel).run b' = .ok (es, b'')) :
    (receiveLoop kv kn xx messageCb (fuel + 1)).run b = .ok (.message m :: es, b'') := by
  refine (run_bind_ok (Reader.run_get b)).trans ?_
  rw [h]
  refine (run_bind_ok hframe).trans ?_
  exact (run_bind_ok hloop).trans rfl

end Rounds

/-! ## Frames -/

section Frames

variable {kv : Kvarint} {kn : Kanon} {xx : XXHash} {μ : Type} {messageCb : BitVec 32 → Reader μ}

/-- Tag, payload and checksum: the part of a frame that its length counts. -/
def body (kn : Kanon) (xx : XXHash) (payload : Bytes) : Bytes :=
  mmbpTag ++ payload
    ++ kn.append32 (xx.digest ((kn.chunks (mmbpTag ++ payload)).foldl xx.update xx.reset))

/-- The length prefix of a frame. -/
def header (kv : Kvarint) (kn : Kanon) (xx : XXHash) (payload : Bytes) : Bytes :=
  kv.encode 32 (BitVec.ofNat 32 (body kn xx payload).length)

theorem serializeTo_eq (payload : Bytes) :
    serializeTo kv kn xx payload = header kv kn xx payload ++ body kn xx payload := rfl

/-- The limit on the length of a frame. -/
def Fits (kv : Kvarint) (kn : Kanon) (xx : XXHash) (payload : Bytes) : Prop :=
  (body kn xx payload).length < maxSize - (header kv kn xx payload).length

instance (payload : Bytes) : Decidable (Fits kv kn xx payload) :=
  inferInstanceAs (Decidable (_ < _))

theorem length_body (hkn : kn.Inverse32) (payload : Bytes) :
    (body kn xx payload).length = 4 + payload.length + 4 := by
  rw [body, List.length_append, List.length_append, hkn.length_append32]
  rfl

theorem toNat_length_body (payload : Bytes) (hfits : Fits kv kn xx payload) :
    (BitVec.ofNat 32 (body kn xx payload).length).toNat = (body kn xx payload).length := by
  rw [Fits, maxSize] at hfits
  exact toNat_ofNat_of_lt 32 _ (by omega)

/-- The sender's streaming checksum is the one the receiver computes in one call. -/
theorem xxh32_eq (hkn : kn.Inverse32) (hchunks : kn.ChunksCover) (hxx : xx.Streaming)
    (payload : Bytes) :
    xx.xxh32 (mmbpTag ++ payload) = kn.read32
      (kn.append32 (xx.digest ((kn.chunks (mmbpTag ++ payload)).foldl xx.update xx.reset))) := by
  rw [hkn.read32_append32, hxx, hchunks]

theorem decode_header (hkv : kv.Inverse) (payload t : Bytes) :
    kv.decode 32 (header kv kn xx payload ++ t)
      = .ok ((header kv kn xx payload).length, BitVec.ofNat 32 (body kn xx payload).length) := by
  rw [header, hkv.decode_encode (by norm_num) le_rfl, BitVec.setWidth_eq]

/-- A frame that is not whole is left where it is: cut inside the length prefix it
is `KVARINT_DECODE_BUF_SHORT`, behind it the loop waits for the complete message. -/
theorem run_receiveLoop_prefix (hkv : kv.Inverse) (hshort : kv.ShortPrefix)
    (hkn : kn.Inverse32) {payload p : Bytes} (hfits : Fits kv kn xx payload)
    (hp : p <+: serializeTo kv kn xx payload) (hne : p ≠ serializeTo kv kn xx payload)
    (fuel : ℕ) : (receiveLoop kv kn xx messageCb (fuel + 1)).run p = .ok ([], p) := by
  rw [serializeTo_eq] at hp hne
  obtain ⟨r, hr⟩ := hp
  have hlen := congrArg List.length hr
  have hpos : 0 < r.length :=
    List.length_pos_of_ne_nil (by rintro rfl; exact hne (by rwa [List.append_nil] at hr))
  rw [List.length_append, List.length_append] at hlen
  by_cases hhead : (header kv kn xx payload).length ≤ p.length
  · obtain ⟨q, rfl⟩ := List.prefix_of_prefix_length_le (List.prefix_append _ _) ⟨r, hr⟩ hhead
    have hsize := toNat_length_body payload hfits
    have hbody : (body kn xx payload).length = 4 + payload.length + 4 := length_body hkn payload
    rw [Fits] at hfits
    refine run_receiveLoop_wait (decode_header hkv payload q) (run_receiveFrame_wait ?_ ?_ hhead ?_ ?_)
    · simp only [minSize, mmbpTagSize, checksumLength]
      omega
    · omega
    · omega
    · omega
  · have hp' : p <+: header kv kn xx payload :=
      List.prefix_of_prefix_length_le ⟨r, hr⟩ (List.prefix_append _ _) (by omega)
    have hne' : p ≠ header kv kn xx payload := by rintro rfl; exact hhead le_rfl
    exact run_receiveLoop_short (hshort (by norm_num) _ p hp' hne')

/-- A whole frame is handed over, and the loop goes on behind it. -/
theorem run_receiveLoop_serializeTo (hkv : kv.Inverse) (hkn : kn.Inverse32)
    (hchunks : kn.ChunksCover) (hxx : xx.Streaming) {payload t : Bytes} {m : μ}
    (hfits : Fits kv kn xx payload)
    (hcb : Reader.Reads (messageCb (BitVec.ofNat 32 payload.length)) payload m)
    (hlimit : (serializeTo kv kn xx payload ++ t).length < maxSize) {fuel : ℕ}
    {es : List (Event μ)} {b : Bytes}
    (hloop : (receiveLoop kv kn xx messageCb fuel).run t = .ok (es, b)) :
    (receiveLoop kv kn xx messageCb (fuel + 1)).run (serializeTo kv kn xx payload ++ t)
      = .ok (.message m :: es, b) := by
  have hsize := toNat_length_body payload hfits
  rw [serializeTo_eq, List.append_assoc] at hlimit ⊢
  rw [Fits] at hfits
  exact run_receiveLoop_frame (decode_header hkv payload _)
    (run_receiveFrame_whole hsize (hkn.length_append32 _) (by omega) hlimit
      (xxh32_eq hkn hchunks hxx payload) hcb) hloop

/-- The receive callback is a receiver of frames, for every message callback that
reads each payload to its end. -/
theorem framed (hkv : kv.Inverse) (hshort : kv.ShortPrefix) (hkn : kn.Inverse32)
    (hchunks : kn.ChunksCover) (hxx : xx.Streaming) {α : Type} {payload : α → Bytes}
    {read : α → μ} {Valid : α → Prop} (hfits : ∀ a, Valid a → Fits kv kn xx (payload a))
    (hcb : ∀ a, Valid a →
      Reader.Reads (messageCb (BitVec.ofNat 32 (payload a).length)) (payload a) (read a)) :
    Framing.Framed (receive kv kn xx messageCb).run maxSize
      (fun fuel => (receiveLoop kv kn xx messageCb fuel).run)
      (fun a => serializeTo kv kn xx (payload a)) (fun e a => e = .message (read a)) Valid where
  receive_eq := fun _ => run_receive
  frame_ne_nil := by
    intro a _ h
    exact hkv.encode_ne_nil (by norm_num) _ (List.append_eq_nil_iff.mp h).1
  loop_nil := by
    intro fuel
    exact run_receiveLoop_short (hshort (by norm_num) (0 : BitVec 32) [] (List.nil_prefix)
      (hkv.encode_ne_nil (by norm_num) _).symm)
  loop_short := fun a ha p fuel hp hne _ =>
    run_receiveLoop_prefix hkv hshort hkn (hfits a ha) hp hne fuel
  loop_frame := fun a ha t fuel es b hlimit hloop =>
    ⟨_, rfl, run_receiveLoop_serializeTo hkv hkn hchunks hxx (hfits a ha) (hcb a ha) hlimit hloop⟩

end Frames

/-! ## Responses over a connection -/

/-- The message callback of a client parses a response and keeps what
`ParseFrom` returned. -/
def parseResponse (kv : Kvarint) (kn : Kanon) (count : BitVec 64) :
    BitVec 32 → Reader (Bool × MmbpResponse) :=
  fun _ => (MmbpResponse.fresh count).parseFrom kv kn

/-- A successfully parsed response that is the one sent as far as the wire carries it. -/
def Delivers (e : Event (Bool × MmbpResponse)) (m : MmbpResponse) : Prop :=
  ∃ m' : MmbpResponse, e = .message (true, m') ∧ m'.SameOnWire m

end MmbpCodec

/-- **Stream framing is independent of chunking.**  Frames of responses within the
limits, cut into chunks anywhere, make the receive callback hand over exactly
these responses: after `k` data events those whose last byte has arrived, in
order and each once; no error is reported and nothing is left unread. -/
theorem mmbpCodec_receive_serializeTo {kv : Kvarint} {kn : Kanon} {xx : XXHash}
    (hkv : kv.Inverse) (hshort : kv.ShortPrefix) (hkn32 : kn.Inverse32) (hkn64 : kn.Inverse64)
    (hchunks : kn.ChunksCover) (hxx : xx.Streaming) (ms : List MmbpResponse)
    (hms : ∀ m ∈ ms, m.Encodable ∧ MmbpCodec.Fits kv kn xx (m.serializeTo kv kn))
    (count : BitVec 64) (chunks : List Bytes)
    (hcut : chunks.flatten
      = (ms.map fun m => MmbpCodec.serializeTo kv kn xx (m.serializeTo kv kn)).flatten)
    (hbelow : Framing.Below
      (MmbpCodec.receive kv kn xx (MmbpCodec.parseResponse kv kn count)).run
      MmbpCodec.maxSize [] chunks) :
    ∃ ess : List (List (MmbpCodec.Event (Bool × MmbpResponse))),
      Framing.feed (MmbpCodec.receive kv kn xx (MmbpCodec.parseResponse kv kn count)).run
          [] chunks = .ok (ess, [])
        ∧ ess.length = chunks.length
        ∧ List.Forall₂ MmbpCodec.Delivers ess.flatten ms
        ∧ ∀ k, List.Forall₂ MmbpCodec.Delivers (ess.take k).flatten
            (ms.take (Framing.framesWithin
              (ms.map fun m => MmbpCodec.serializeTo kv kn xx (m.serializeTo kv kn))
              (chunks.take k).flatten.length)) := by
  have hcb : ∀ m : MmbpResponse,
      m.Encodable ∧ MmbpCodec.Fits kv kn xx (m.serializeTo kv kn) →
        Reader.Reads (MmbpCodec.parseResponse kv kn count
          (BitVec.ofNat 32 (m.serializeTo kv kn).length)) (m.serializeTo kv kn)
          (true, MmbpResponse.carry (MmbpResponse.fresh count) m) :=
    fun m hm => MmbpResponse.reads_parseFrom hkv hkn64 _ m hm.1 rfl rfl rfl
  have hframed := MmbpCodec.framed hkv hshort hkn32 hchunks hxx (fun _ hm => hm.2) hcb
  have himp : ∀ (e : MmbpCodec.Event (Bool × MmbpResponse)) (m : MmbpResponse),
      e = .message (true, MmbpResponse.carry (MmbpResponse.fresh count) m) →
        MmbpCodec.Delivers e m := by
    rintro _ m rfl
    exact ⟨_, rfl, MmbpResponse.carry_sameOnWire _ m⟩
  obtain ⟨ess, hfeed, hlen, hall, htimes⟩ := hframed.feed_stream chunks ms hms hcut hbelow
  exact ⟨ess, hfeed, hlen, hall.imp himp, fun k => (htimes k).imp himp⟩

/-- Its frame, cut behind the length prefix. -/
theorem mmbpCodec_receive_serializeTo_hi :
    let frame := MmbpCodec.serializeTo Kvarint.leb128 Kanon.bigEndian XXHash.seed0
      (MmbpResponse.hi.serializeTo Kvarint.leb128 Kanon.bigEndian)
    ∃ ess : List (List (MmbpCodec.Event (Bool × MmbpResponse))),
      Framing.feed (MmbpCodec.receive Kvarint.leb128 Kanon.bigEndian XXHash.seed0
          (MmbpCodec.parseResponse Kvarint.leb128 Kanon.bigEndian 0)).run
          [] [frame.take 1, frame.drop 1] = .ok (ess, [])
        ∧ List.Forall₂ MmbpCodec.Delivers (ess.take 1).flatten []
        ∧ List.Forall₂ MmbpCodec.Delivers ess.flatten [MmbpResponse.hi] := by
  intro frame
  have hms : ∀ m ∈ [MmbpResponse.hi], m.Encodable ∧ MmbpCodec.Fits Kvarint.leb128 Kanon.bigEndian
      XXHash.seed0 (m.serializeTo Kvarint.leb128 Kanon.bigEndian) := by
    rintro m hm
    obtain rfl := List.mem_singleton.mp hm
    exact ⟨by constructor <;> decide, by decide⟩
  have hwait : (MmbpCodec.receive Kvarint.leb128 Kanon.bigEndian XXHash.seed0
      (MmbpCodec.parseResponse Kvarint.leb128 Kanon.bigEndian 0)).run (frame.take 1)
        = .ok ([], frame.take 1) :=
    (MmbpCodec.run_receive (by decide)).trans
      (MmbpCodec.run_receiveLoop_prefix Kvarint.leb128_inverse Kvarint.leb128_shortPrefix
        Kanon.bigEndian_inverse32 (hms _ (List.mem_singleton_self _)).2 (List.take_prefix 1 _)
        (by decide) _)
  have hbelow : Framing.Below (MmbpCodec.receive Kvarint.leb128 Kanon.bigEndian XXHash.seed0
      (MmbpCodec.parseResponse Kvarint.leb128 Kanon.bigEndian 0)).run MmbpCodec.maxSize []
        [frame.take 1, frame.drop 1] := by
    refine ⟨by decide, fun es b' h => ?_⟩
    obtain ⟨-, rfl⟩ := Prod.mk.inj (Except.ok.inj (hwait.symm.trans h))
    exact ⟨by decide, fun _ _ _ => trivial⟩
  obtain ⟨ess, hfeed, -, hall, htimes⟩ :=
    mmbpCodec_receive_serializeTo Kvarint.leb128_inverse Kvarint.leb128_shortPrefix
      Kanon.bigEndian_inverse32 Kanon.bigEndian_inverse64 Kanon.bigEndian_chunksCover
      XXHash.seed0_streaming [MmbpResponse.hi] hms 0 [frame.take 1, frame.drop 1] (by decide) hbelow
  exact ⟨ess, hfeed, htimes 1, hall⟩

end Mmkvc
