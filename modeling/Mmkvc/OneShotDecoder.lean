/-
# The one-shot decoder (`protocol/mmbp_codec.cc`)

`Parse` decodes one frame.  The length prefix is decoded as a varint, but it is the
four bytes at the front, taken for a number of fixed width, that the rest goes by.
Such a number begins with the most significant byte, and the first byte of the
length of a frame is never small: the number is larger than any buffer, and `Parse`
waits for what cannot come.
-/
import Mmkvc.MmbpCodec

namespace Mmkvc

/-- An `MmbpMessage`: the virtual functions that the codec calls, and what the wire carries
of a message. -/
structure MmbpMessage (μ : Type) where
  serializeTo : μ → Bytes
  parseFrom : μ → Reader (Bool × μ)
  /-- What `New` returns. -/
  new : μ
  SameOnWire : μ → μ → Prop

/-- The requests.  `prototype` is what `New` finds in the members it does not write. -/
def MmbpRequest.message (kv : Kvarint) (kn : Kanon) (prototype : MmbpRequest) :
    MmbpMessage MmbpRequest where
  serializeTo := MmbpRequest.serializeTo kv kn
  parseFrom := MmbpRequest.parseFrom kv kn
  new := prototype
  SameOnWire := MmbpRequest.SameOnWire

/-- The responses.  `New` leaves `count_` as it finds it. -/
def MmbpResponse.message (kv : Kvarint) (kn : Kanon) (count : BitVec 64) :
    MmbpMessage MmbpResponse where
  serializeTo := MmbpResponse.serializeTo kv kn
  parseFrom := MmbpResponse.parseFrom kv kn
  new := MmbpResponse.fresh count
  SameOnWire := MmbpResponse.SameOnWire

namespace MmbpCodec

section

variable (kv : Kvarint) (kn : Kanon) (xx : XXHash) {μ : Type} (msg : MmbpMessage μ)

/-- `Parse` from where the four bytes have been skipped: the code, and the message
that the caller gave. -/
def parseBody (sizeHeader : BitVec 32) (message : μ) : Reader (ErrorCode × μ) := do
  if sizeHeader < BitVec.ofNat 32 minSize ∨ BitVec.ofNat 32 maxSize ≤ sizeHeader then
    return (.E_INVALID_SIZE_HEADER, message)
  else if ← verifyCheckSum kn xx sizeHeader then
    if (← Reader.peek mmbpTagSize) = mmbpTag then
      Reader.advance mmbpTagSize
      -- the pointer goes to the new message here, and the caller does not see that one
      let (ok, _) ← msg.parseFrom msg.new
      if ok then
        Reader.advance checksumLength
        return (.E_NOERROR, message)
      else return (.E_INVALID_MESSAGE, message)
    else return (.E_INVALID_MESSAGE, message)
  else return (.E_INVALID_CHECKSUM, message)

/-- `Parse`: the code it returns, and the message that `message` points to when it returns. -/
def parse (message : μ) : Reader (ErrorCode × μ) := do
  match kv.decode 32 (← get) with
  | .error _ => return (.E_NO_COMPLETE_MESSAGE, message)
  | .ok (sizeHeaderLen, _) =>
    let sizeHeader := kn.read32 (← Reader.peek 4)
    let readableSize := BitVec.ofNat 64 (← get).length
    if readableSize < BitVec.ofNat 64 minSize ∨ BitVec.ofNat 64 maxSize ≤ readableSize then
      return (.E_INVALID_MESSAGE, message)
    else if sizeHeader.setWidth 64 ≤ readableSize - BitVec.ofNat 64 sizeHeaderLen then do
      Reader.advance 4
      parseBody kn xx msg sizeHeader message
    else return (.E_NO_COMPLETE_MESSAGE, message)

/-- The frame of a message. -/
def frame (m : μ) : Bytes := serializeTo kv kn xx (msg.serializeTo m)

/-- The frame of `m` is decoded: `t` is what is left, and `message` has the fields of `m`. -/
def Decodes (m : μ) (t : Bytes) (message : μ) : Prop :=
  ∃ filled, (parse kv kn xx msg message).run (frame kv kn xx msg m ++ t)
      = .ok ((.E_NOERROR, filled), t)
    ∧ msg.SameOnWire filled m

/-- The bytes are left for more to come. -/
def Waits (p : Bytes) (message : μ) : Prop :=
  ∃ left, (parse kv kn xx msg message).run p = .ok ((.E_NO_COMPLETE_MESSAGE, left), p)

/-- **What `Parse` is for.**  A whole frame is decoded, and a strict prefix of one is
waited on. -/
structure MatchesEncoder (m : μ) : Prop where
  decodes : ∀ t message, (frame kv kn xx msg m ++ t).length < maxSize →
    Decodes kv kn xx msg m t message
  waits : ∀ p message, p <+: frame kv kn xx msg m → p ≠ frame kv kn xx msg m →
    Waits kv kn xx msg p message

end

/-! ## The first byte of a number -/

/-- The first byte of a length either announces another byte by its highest bit, or is the
whole length. -/
def LeadingByte (kv : Kvarint) : Prop :=
  ∀ i : BitVec 32, ∃ b bs, kv.encode 32 i = b :: bs ∧ (128 ≤ b.toNat ∨ b.toNat = i.toNat)

/-- Of a number of fixed width the first byte is the most significant one. -/
def NetworkOrder (kn : Kanon) : Prop :=
  ∀ (b : UInt8) (bs : Bytes), bs.length = 3 → b.toNat * 2 ^ 24 ≤ (kn.read32 (b :: bs)).toNat

/-- A first byte of LEB128 below 128 is the number itself. -/
theorem leadingByte_leb128 : LeadingByte Kvarint.leb128 := by
  intro i
  show ∃ b bs, Leb128.encodeNat 4 i.toNat = b :: bs ∧ _
  rw [Leb128.encodeNat]
  split_ifs with hsmall
  · exact ⟨_, [], rfl, Or.inr (UInt8.toNat_ofNat_of_lt' (by show _ < 256; omega))⟩
  · refine ⟨_, _, rfl, Or.inl ?_⟩
    rw [UInt8.toNat_ofNat_of_lt' (by show _ < 256; omega)]
    omega

/-- Big-endian numbers begin with the most significant byte. -/
theorem networkOrder_bigEndian : NetworkOrder Kanon.bigEndian := by
  intro b bs hbs
  obtain ⟨x, y, z, rfl⟩ := List.length_eq_three.mp hbs
  have hb := b.toNat_lt
  have hx := x.toNat_lt
  have hy := y.toNat_lt
  have hz := z.toNat_lt
  show _ ≤ (BitVec.ofNat 32 (((((0 * 256 + b.toNat) * 256 + x.toNat) * 256 + y.toNat) * 256)
    + z.toNat)).toNat
  rw [BitVec.toNat_ofNat, Nat.mod_eq_of_lt (by omega)]
  omega

/-! ## One call -/

section

variable {kv : Kvarint} {kn : Kanon} {xx : XXHash} {μ : Type} {msg : MmbpMessage μ}

/-- The message stays as it was. -/
theorem parseBody_keeps (size : BitVec 32) (message : μ) {b b' : Bytes} {r : ErrorCode × μ}
    (h : (parseBody kn xx msg size message).run b = .ok (r, b')) : r.2 = message := by
  rw [parseBody] at h
  split_ifs at h with hsize
  · cases h
    rfl
  obtain ⟨verified, b₁, -, h⟩ := run_bind_eq_ok.mp h
  split_ifs at h with hverified
  · obtain ⟨tag, b₂, -, h⟩ := run_bind_eq_ok.mp h
    split_ifs at h with htag
    · obtain ⟨-, b₃, -, h⟩ := run_bind_eq_ok.mp h
      obtain ⟨⟨ok, filled⟩, b₄, -, h⟩ := run_bind_eq_ok.mp h
      cases ok with
      | true =>
        obtain ⟨-, b₅, -, h⟩ := run_bind_eq_ok.mp h
        cases h
        rfl
      | false =>
        cases h
        rfl
    · cases h
      rfl
  · cases h
    rfl

/-- **The caller's message is never filled**: whatever the bytes are and whatever code
is returned for them, it is as it was. -/
theorem parse_keeps (message : μ) {b b' : Bytes} {r : ErrorCode × μ}
    (h : (parse kv kn xx msg message).run b = .ok (r, b')) : r.2 = message := by
  obtain ⟨_, _, hget, h⟩ := run_bind_eq_ok.mp h
  cases hget
  cases hdecode : kv.decode 32 b with
  | error e =>
    rw [hdecode] at h
    cases h
    rfl
  | ok header =>
    rw [hdecode] at h
    obtain ⟨word, b₁, -, h⟩ := run_bind_eq_ok.mp h
    obtain ⟨_, _, -, h⟩ := run_bind_eq_ok.mp h
    dsimp only at h
    split_ifs at h with hlimits hwhole
    · cases h
      rfl
    · obtain ⟨-, b₂, -, h⟩ := run_bind_eq_ok.mp h
      exact parseBody_keeps _ message h
    · cases h
      rfl

/-- A size that is not there is an incomplete message. -/
theorem run_parse_short {b : Bytes} {e : DecodeErr} (hdecode : kv.decode 32 b = .error e)
    (message : μ) : (parse kv kn xx msg message).run b
      = .ok ((.E_NO_COMPLETE_MESSAGE, message), b) := by
  refine (run_bind_ok (Reader.run_get b)).trans ?_
  rw [hdecode]
  rfl

/-- Fewer than four bytes are not a number of fixed width: the read leaves the buffer. -/
theorem run_parse_outside {b : Bytes} {len : ℕ} {size : BitVec 32}
    (hdecode : kv.decode 32 b = .ok (len, size)) (hlen : b.length < 4) (message : μ) :
    (parse kv kn xx msg message).run b = .error .outOfReadable := by
  refine (run_bind_ok (Reader.run_get b)).trans ?_
  rw [hdecode]
  apply run_bind_error
  rw [Reader.run_peek, if_neg (Nat.not_le.mpr hlen)]

/-- Fewer bytes than the smallest frame has are an invalid message. -/
theorem run_parse_few {b : Bytes} {len : ℕ} {size : BitVec 32}
    (hdecode : kv.decode 32 b = .ok (len, size)) (h4 : 4 ≤ b.length) (hmin : b.length < minSize)
    (message : μ) : (parse kv kn xx msg message).run b
      = .ok ((.E_INVALID_MESSAGE, message), b) := by
  have hword : (Reader.peek 4).run b = .ok (b.take 4, b) := by
    rw [Reader.run_peek, if_pos h4]
  simp only [minSize, mmbpTagSize, checksumLength] at hmin
  have hfew : BitVec.ofNat 64 b.length < BitVec.ofNat 64 minSize := by
    rw [BitVec.lt_def, toNat_ofNat_of_lt 64 _ (by omega), minSize, mmbpTagSize, checksumLength]
    exact hmin
  refine (run_bind_ok (Reader.run_get b)).trans ?_
  rw [hdecode]
  refine (run_bind_ok hword).trans ((run_bind_ok (Reader.run_get b)).trans ?_)
  rw [if_pos (Or.inl hfew)]
  rfl

/-- A number beyond the limit is waited for. -/
theorem run_parse_beyond {b : Bytes} {len : ℕ} {size : BitVec 32}
    (hdecode : kv.decode 32 b = .ok (len, size)) (hlen : len ≤ b.length)
    (hmin : minSize ≤ b.length) (hmax : b.length < maxSize)
    (hbeyond : maxSize ≤ (kn.read32 (b.take 4)).toNat) (message : μ) :
    (parse kv kn xx msg message).run b = .ok ((.E_NO_COMPLETE_MESSAGE, message), b) := by
  simp only [minSize, mmbpTagSize, checksumLength] at hmin
  have hword : (Reader.peek 4).run b = .ok (b.take 4, b) := by
    rw [Reader.run_peek, if_pos (by omega)]
  have hlimits : ¬ (BitVec.ofNat 64 b.length < BitVec.ofNat 64 minSize
      ∨ BitVec.ofNat 64 maxSize ≤ BitVec.ofNat 64 b.length) := by
    simp only [maxSize] at hmax
    rw [BitVec.lt_def, BitVec.le_def, toNat_ofNat_of_lt 64 b.length (by omega)]
    simp only [minSize, mmbpTagSize, checksumLength, maxSize, BitVec.toNat_ofNat]
    omega
  have hwait : ¬ (kn.read32 (b.take 4)).setWidth 64
      ≤ BitVec.ofNat 64 b.length - BitVec.ofNat 64 len := by
    rw [BitVec.not_le, readable_lt_iff hlen hmax]
    omega
  refine (run_bind_ok (Reader.run_get b)).trans ?_
  rw [hdecode]
  refine (run_bind_ok hword).trans ((run_bind_ok (Reader.run_get b)).trans ?_)
  rw [if_neg hlimits, if_neg hwait]
  rfl

/-! ## Frames -/

/-- The bytes of a length prefix, read as a number of fixed width, are beyond the limit. -/
theorem maxSize_le_read32 (hlead : LeadingByte kv) (hnet : NetworkOrder kn) {i : BitVec 32}
    (hi : minSize ≤ i.toNat) {b : Bytes} (hb : kv.encode 32 i <+: b) (h4 : 4 ≤ b.length) :
    maxSize ≤ (kn.read32 (b.take 4)).toNat := by
  obtain ⟨c, cs, hcs, hc⟩ := hlead i
  rw [hcs] at hb
  obtain ⟨rest, rfl⟩ := hb
  have h3 : ((cs ++ rest).take 3).length = 3 := by
    rw [List.cons_append, List.length_cons] at h4
    rw [List.length_take]
    omega
  have hread := hnet c ((cs ++ rest).take 3) h3
  rw [List.cons_append, List.take_succ_cons]
  simp only [minSize, mmbpTagSize, checksumLength] at hi
  simp only [maxSize]
  omega

/-- Behind a whole length prefix nothing is taken for a frame. -/
theorem run_parse_header (hkv : kv.Inverse) (hkn : kn.Inverse32) (hlead : LeadingByte kv)
    (hnet : NetworkOrder kn) {payload b : Bytes} (hfits : Fits kv kn xx payload)
    (hb : header kv kn xx payload <+: b) (hmin : minSize ≤ b.length) (hmax : b.length < maxSize)
    (message : μ) : (parse kv kn xx msg message).run b
      = .ok ((.E_NO_COMPLETE_MESSAGE, message), b) := by
  have hsize : minSize ≤ (BitVec.ofNat 32 (body kn xx payload).length).toNat := by
    rw [toNat_length_body payload hfits, length_body hkn, minSize, mmbpTagSize, checksumLength]
    omega
  have h4 : 4 ≤ b.length := by
    simp only [minSize, mmbpTagSize, checksumLength] at hmin
    omega
  have hbeyond := maxSize_le_read32 hlead hnet hsize hb h4
  have hlen := hb.length_le
  obtain ⟨t, rfl⟩ := hb
  exact run_parse_beyond (decode_header hkv payload t) hlen hmin hmax hbeyond message

/-- No frame is decoded. -/
theorem not_decodes (hkv : kv.Inverse) (hkn : kn.Inverse32) (hlead : LeadingByte kv)
    (hnet : NetworkOrder kn) {m : μ} {t : Bytes}
    (hmax : (frame kv kn xx msg m ++ t).length < maxSize) (message : μ) :
    ¬ Decodes kv kn xx msg m t message := by
  rintro ⟨filled, hrun, -⟩
  rw [frame, serializeTo_eq] at hmax hrun
  have hlen : (body kn xx (msg.serializeTo m)).length = 4 + (msg.serializeTo m).length + 4 :=
    length_body hkn _
  have hall : (header kv kn xx (msg.serializeTo m) ++ body kn xx (msg.serializeTo m) ++ t).length
      = (header kv kn xx (msg.serializeTo m)).length + (body kn xx (msg.serializeTo m)).length
        + t.length := by
    rw [List.length_append, List.length_append]
  have hfits : Fits kv kn xx (msg.serializeTo m) := by
    rw [Fits]
    omega
  have hmin : minSize
      ≤ (header kv kn xx (msg.serializeTo m) ++ body kn xx (msg.serializeTo m) ++ t).length := by
    simp only [minSize, mmbpTagSize, checksumLength]
    omega
  cases (run_parse_header hkv hkn hlead hnet hfits
    ⟨body kn xx (msg.serializeTo m) ++ t, (List.append_assoc _ _ _).symm⟩ hmin hmax
    message).symm.trans hrun

/-- A strict prefix of a frame is waited on if it ends inside the length prefix, or if it
has room for a tag and a checksum. -/
theorem waits_iff (hkv : kv.Inverse) (hshort : kv.ShortPrefix) (hkn : kn.Inverse32)
    (hlead : LeadingByte kv) (hnet : NetworkOrder kn) {m : μ}
    (hfits : Fits kv kn xx (msg.serializeTo m)) {p : Bytes} (hp : p <+: frame kv kn xx msg m)
    (hne : p ≠ frame kv kn xx msg m) (message : μ) :
    Waits kv kn xx msg p message
      ↔ p.length < (header kv kn xx (msg.serializeTo m)).length ∨ minSize ≤ p.length := by
  rw [frame, serializeTo_eq] at hp hne
  have hmax : p.length < maxSize := by
    have hlen := hp.length_le
    rw [List.length_append] at hlen
    rw [Fits] at hfits
    omega
  rcases Nat.lt_or_ge p.length (header kv kn xx (msg.serializeTo m)).length with hcut | hhead
  · have hp' : p <+: header kv kn xx (msg.serializeTo m) :=
      List.prefix_of_prefix_length_le hp (List.prefix_append _ _) hcut.le
    have hne' : p ≠ header kv kn xx (msg.serializeTo m) := by
      rintro rfl
      exact hcut.false
    exact iff_of_true
      ⟨message, run_parse_short (hshort (by norm_num) _ p hp' hne') message⟩ (Or.inl hcut)
  · obtain ⟨q, rfl⟩ := List.prefix_of_prefix_length_le (List.prefix_append _ _) hp hhead
    have hdecode : kv.decode 32 (header kv kn xx (msg.serializeTo m) ++ q) = .ok (_, _) :=
      decode_header hkv _ q
    constructor
    · rintro ⟨left, hrun⟩
      by_contra hnot
      rw [not_or, Nat.not_le] at hnot
      rcases Nat.lt_or_ge (header kv kn xx (msg.serializeTo m) ++ q).length 4 with h4 | h4
      · cases (run_parse_outside hdecode h4 message).symm.trans hrun
      · cases (run_parse_few hdecode h4 hnot.2 message).symm.trans hrun
    · intro h
      exact ⟨message, run_parse_header hkv hkn hlead hnet hfits (List.prefix_append _ _)
        (h.resolve_left (Nat.not_lt.mpr hhead)) hmax message⟩

end

end MmbpCodec

/-- **What `Parse` makes of frames.**  It decodes none, whatever follows it; and it waits
on exactly those strict prefixes that end inside the length prefix or have eight bytes. -/
theorem mmbpCodec_parse_serializeTo {kv : Kvarint} {kn : Kanon} {xx : XXHash} {μ : Type}
    {msg : MmbpMessage μ} (hkv : kv.Inverse) (hshort : kv.ShortPrefix) (hkn : kn.Inverse32)
    (hlead : MmbpCodec.LeadingByte kv) (hnet : MmbpCodec.NetworkOrder kn) (m : μ)
    (hfits : MmbpCodec.Fits kv kn xx (msg.serializeTo m)) :
    ¬ MmbpCodec.MatchesEncoder kv kn xx msg m
      ∧ (∀ t message, (MmbpCodec.frame kv kn xx msg m ++ t).length < MmbpCodec.maxSize →
          ¬ MmbpCodec.Decodes kv kn xx msg m t message)
      ∧ ∀ p message, p <+: MmbpCodec.frame kv kn xx msg m → p ≠ MmbpCodec.frame kv kn xx msg m →
          (MmbpCodec.Waits kv kn xx msg p message
            ↔ p.length < (MmbpCodec.header kv kn xx (msg.serializeTo m)).length
              ∨ MmbpCodec.minSize ≤ p.length) := by
  have hdecodes : ∀ t message,
      (MmbpCodec.frame kv kn xx msg m ++ t).length < MmbpCodec.maxSize →
        ¬ MmbpCodec.Decodes kv kn xx msg m t message :=
    fun t message hmax => MmbpCodec.not_decodes hkv hkn hlead hnet hmax message
  refine ⟨fun h => ?_, hdecodes, fun p message hp hne =>
    MmbpCodec.waits_iff hkv hshort hkn hlead hnet hfits hp hne message⟩
  have hmax : (MmbpCodec.frame kv kn xx msg m ++ []).length < MmbpCodec.maxSize := by
    rw [MmbpCodec.frame, MmbpCodec.serializeTo_eq, List.append_nil, List.length_append]
    rw [MmbpCodec.Fits] at hfits
    omega
  exact hdecodes [] msg.new hmax (h.decodes [] msg.new hmax)

/-- The response that carries `hi`: its frame is not decoded, and its first byte alone is
not waited on. -/
theorem mmbpCodec_parse_serializeTo_hi :
    let msg := MmbpResponse.message Kvarint.leb128 Kanon.bigEndian 0
    ¬ MmbpCodec.MatchesEncoder Kvarint.leb128 Kanon.bigEndian XXHash.seed0 msg MmbpResponse.hi
      ∧ ∀ message, ¬ MmbpCodec.Waits Kvarint.leb128 Kanon.bigEndian XXHash.seed0 msg
        ((MmbpCodec.frame Kvarint.leb128 Kanon.bigEndian XXHash.seed0 msg MmbpResponse.hi).take 1)
        message := by
  intro msg
  have hfits : MmbpCodec.Fits Kvarint.leb128 Kanon.bigEndian XXHash.seed0
      (msg.serializeTo MmbpResponse.hi) := by decide
  obtain ⟨hnot, -, hwaits⟩ := mmbpCodec_parse_serializeTo Kvarint.leb128_inverse
    Kvarint.leb128_shortPrefix Kanon.bigEndian_inverse32 MmbpCodec.leadingByte_leb128
    MmbpCodec.networkOrder_bigEndian MmbpResponse.hi hfits
  refine ⟨hnot, fun message hwait => ?_⟩
  exact absurd ((hwaits _ message (List.take_prefix 1 _) (by decide)).mp hwait) (by decide)

/-- The frame of the response that carries `hi` is waited on for ever. -/
theorem mmbpCodec_parse_not_matches :
    ¬ ∀ m : MmbpResponse, m.Encodable →
      MmbpCodec.Fits Kvarint.leb128 Kanon.bigEndian XXHash.seed0
        (m.serializeTo Kvarint.leb128 Kanon.bigEndian) →
      MmbpCodec.MatchesEncoder Kvarint.leb128 Kanon.bigEndian XXHash.seed0
        (MmbpResponse.message Kvarint.leb128 Kanon.bigEndian 0) m := by
  intro h
  obtain ⟨filled, hrun, -⟩ :=
    (h MmbpResponse.hi (by constructor <;> decide) (by decide)).decodes [] MmbpResponse.hi
      (by decide)
  have hwait : (MmbpCodec.parse Kvarint.leb128 Kanon.bigEndian XXHash.seed0
      (MmbpResponse.message Kvarint.leb128 Kanon.bigEndian 0) MmbpResponse.hi).run
      (MmbpCodec.frame Kvarint.leb128 Kanon.bigEndian XXHash.seed0
        (MmbpResponse.message Kvarint.leb128 Kanon.bigEndian 0) MmbpResponse.hi ++ [])
      = .ok ((.E_NO_COMPLETE_MESSAGE, MmbpResponse.hi),
        MmbpCodec.frame Kvarint.leb128 Kanon.bigEndian XXHash.seed0
          (MmbpResponse.message Kvarint.leb128 Kanon.bigEndian 0) MmbpResponse.hi) := by
    decide +kernel
  cases hwait.symm.trans hrun

end Mmkvc
