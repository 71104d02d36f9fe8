/-
# What the receiver makes of the client's requests

`AddStr` and `GetStr` check no length, and a frame narrows three of them: that of
the key to 16 bits, that of the value to 32, and its own to 32.
`mmkvClient_request_decoded_iff` says which of the requests that the receiving codec
accepts are parsed as they were issued.
-/
import Mmkvc.FrameBoundary
import Mmkvc.MmkvClient

namespace Mmkvc

/-! ## What a parsed request can hold -/

namespace MmbpRequest

variable {kv : Kvarint} {kn : Kanon}

/-- What is taken has the length that was asked for, and was there. -/
theorem run_take_eq_ok {n : ℕ} {s b b' : Bytes} (h : (Reader.take n).run b = .ok (s, b')) :
    s.length = n ∧ n ≤ b.length := by
  rw [Reader.run_take] at h
  split_ifs at h with hn
  cases h
  exact ⟨List.length_take_of_le hn, hn⟩

/-- A string is not longer than what was readable, nor than its length field can say. -/
theorem length_parseString {is16 : Bool} {b b' s : Bytes}
    (h : (parseString kv is16).run b = .ok (s, b')) :
    s.length ≤ b.length ∧ (is16 = true → s.length < 2 ^ 16) := by
  cases is16 with
  | true =>
    obtain ⟨out, b₁, hout, hs⟩ := run_bind_eq_ok.mp h
    obtain ⟨hlen, hle⟩ := run_take_eq_ok hs
    have hb₁ := (forward_parseUninit 16 _ _ _ hout).length_le
    have := out.isLt
    exact ⟨by omega, fun _ => by omega⟩
  | false =>
    obtain ⟨out, b₁, hout, hs⟩ := run_bind_eq_ok.mp h
    obtain ⟨hlen, hle⟩ := run_take_eq_ok hs
    have hb₁ := (forward_parseUninit 32 _ _ _ hout).length_le
    exact ⟨by omega, nofun⟩

/-- A decoded key is shorter than `2 ^ 16`, and behind it there are fewer bytes. -/
theorem parseKey_bounds {r r' : MmbpRequest} {b b' : Bytes}
    (h : (parseKey kv r).run b = .ok (r', b')) (hr : r.key = []) :
    r'.key.length < 2 ^ 16 ∧ r'.value = r.value ∧ b' <:+ b := by
  rw [parseKey] at h
  split_ifs at h
  · obtain ⟨key, b₁, hkey, h⟩ := run_bind_eq_ok.mp h
    cases h
    exact ⟨(length_parseString hkey).2 rfl, rfl, forward_parseString true _ _ _ hkey⟩
  · cases h
    exact ⟨by rw [hr]; norm_num, rfl, List.suffix_rfl⟩

/-- Decoding the fields keeps the key, and the value is no longer than the bytes. -/
theorem parsePayload_bounds {r r' : MmbpRequest} {ok : Bool} {b b' : Bytes}
    (h : (parsePayload kv kn r).run b = .ok ((ok, r'), b')) (hr : r.value = []) :
    r'.key = r.key ∧ r'.value.length ≤ b.length := by
  have hnil : r.value.length ≤ b.length := by rw [hr]; exact Nat.zero_le _
  rw [parsePayload] at h
  split_ifs at h
  · obtain ⟨value, b₁, hvalue, h⟩ := run_bind_eq_ok.mp h
    cases h
    exact ⟨rfl, (length_parseString hvalue).1⟩
  · obtain ⟨values, b₁, -, h⟩ := run_bind_eq_ok.mp h
    cases h
    exact ⟨rfl, hnil⟩
  · obtain ⟨kvs, b₁, -, h⟩ := run_bind_eq_ok.mp h
    cases h
    exact ⟨rfl, hnil⟩
  · obtain ⟨count, b₁, -, h⟩ := run_bind_eq_ok.mp h
    cases h
    exact ⟨rfl, hnil⟩
  · obtain ⟨⟨okLeft, left⟩, b₁, -, h⟩ := run_bind_eq_ok.mp h
    cases okLeft with
    | false =>
      cases h
      exact ⟨rfl, hnil⟩
    | true =>
      obtain ⟨right, b₂, -, h⟩ := run_bind_eq_ok.mp h
      cases h
      exact ⟨rfl, hnil⟩
  · obtain ⟨vmembers, b₁, -, h⟩ := run_bind_eq_ok.mp h
    cases h
    exact ⟨rfl, hnil⟩
  · cases h
    exact ⟨rfl, hnil⟩

/-- **A request that is parsed has a key whose length 16 bits can say, and a value not
longer than what was readable.** -/
theorem parseFrom_bounds {r r' : MmbpRequest} {ok : Bool} {b b' : Bytes}
    (h : (parseFrom kv kn r).run b = .ok ((ok, r'), b')) (hkey : r.key = [])
    (hvalue : r.value = []) : r'.key.length < 2 ^ 16 ∧ r'.value.length ≤ b.length := by
  have hnil : r.key.length < 2 ^ 16 ∧ r.value.length ≤ b.length := by
    rw [hkey, hvalue]
    exact ⟨by norm_num, Nat.zero_le _⟩
  obtain ⟨⟨okCommand, command⟩, b₁, hcommand, h⟩ := run_bind_eq_ok.mp h
  cases okCommand with
  | false =>
    cases h
    exact hnil
  | true =>
    obtain ⟨⟨okBits, hasBits⟩, b₂, hbits, h⟩ := run_bind_eq_ok.mp h
    cases okBits with
    | false =>
      cases h
      exact hnil
    | true =>
      obtain ⟨r₁, b₃, hr₁, h⟩ := run_bind_eq_ok.mp h
      obtain ⟨⟨okPayload, r₂⟩, b₄, hr₂, h⟩ := run_bind_eq_ok.mp h
      obtain ⟨hkey₁, hvalue₁, hb₃⟩ := parseKey_bounds hr₁ hkey
      obtain ⟨hkey₂, hvalue₂⟩ := parsePayload_bounds hr₂ (hvalue₁.trans hvalue)
      have hb : b₃.length ≤ b.length := (hb₃.trans ((forward_parseUnsigned 8 _ _ _ _ hbits).trans
        (forward_parseUnsigned 16 _ _ _ _ hcommand))).length_le
      have hbounds : r₂.key.length < 2 ^ 16 ∧ r₂.value.length ≤ b.length :=
        ⟨hkey₂ ▸ hkey₁, hvalue₂.trans hb⟩
      cases okPayload with
      | false =>
        cases h
        exact hbounds
      | true =>
        obtain ⟨r₃, b₅, hr₃, h⟩ := run_bind_eq_ok.mp h
        cases h
        rw [parseExpireTime] at hr₃
        split_ifs at hr₃
        · obtain ⟨expireTime, b₆, -, hr₃⟩ := run_bind_eq_ok.mp hr₃
          cases hr₃
          exact hbounds
        · cases hr₃
          exact hbounds

end MmbpRequest

/-! ## Frames of a payload -/

namespace MmbpCodec

variable {kv : Kvarint} {kn : Kanon} {xx : XXHash} {size : BitVec 32}
  {pre payload cks rest issued : Bytes}

/-- Of a stream that begins with the frame of `issued`, the codec decodes the length
that `SerializeTo` wrote. -/
theorem Passes.size_eq_of_prefix (hkv : kv.Inverse) (hsettled : kv.Settled)
    (h : Passes kv kn xx size pre payload cks rest)
    (hb : pre ++ (mmbpTag ++ payload ++ cks ++ rest) <+: serializeTo kv kn xx issued
      ∨ serializeTo kv kn xx issued <+: pre ++ (mmbpTag ++ payload ++ cks ++ rest)) :
    pre.length = (header kv kn xx issued).length
      ∧ size = BitVec.ofNat 32 (body kn xx issued).length := by
  have hdecode := h.decode
  have hframe : kv.decode 32 (pre ++ (mmbpTag ++ payload ++ cks ++ rest))
      = .ok ((header kv kn xx issued).length, BitVec.ofNat 32 (body kn xx issued).length) := by
    rcases hb with ⟨t, ht⟩ | ⟨t, ht⟩
    · rw [← hsettled.decode_append _ t (by rw [hdecode]; nofun), ht, serializeTo_eq]
      exact decode_header hkv issued _
    · rw [← ht, serializeTo_eq, List.append_assoc]
      exact decode_header hkv issued _
  rw [hdecode] at hframe
  simpa using hframe

/-- The frame that it takes is the one issued, unless the length of that was narrowed. -/
theorem Passes.eq_issued (hkv : kv.Inverse) (hsettled : kv.Settled)
    (h : Passes kv kn xx size pre payload cks rest)
    (hb : pre ++ (mmbpTag ++ payload ++ cks ++ rest) <+: serializeTo kv kn xx issued
      ∨ serializeTo kv kn xx issued <+: pre ++ (mmbpTag ++ payload ++ cks ++ rest))
    (hkn : kn.Inverse32) (hlen : (body kn xx issued).length < 2 ^ 32) :
    payload = issued ∧ size.toNat = (body kn xx issued).length := by
  obtain ⟨hpre, rfl⟩ := h.size_eq_of_prefix hkv hsettled hb
  have hsize := toNat_ofNat_of_lt 32 _ hlen
  have hwhole : (pre ++ (mmbpTag ++ payload ++ cks)).length
      = (serializeTo kv kn xx issued).length := by
    rw [serializeTo_eq, List.length_append, ← h.size_eq, hsize, hpre, List.length_append]
  have htaken : pre ++ (mmbpTag ++ payload ++ cks)
      <+: pre ++ (mmbpTag ++ payload ++ cks ++ rest) := by
    rw [← List.append_assoc pre _ rest]
    exact List.prefix_append _ _
  have heq : pre ++ (mmbpTag ++ payload ++ cks) = header kv kn xx issued ++ body kn xx issued := by
    rcases hb with hb | hb
    · exact (htaken.trans hb).eq_of_length hwhole
    · exact (List.prefix_of_prefix_length_le htaken hb hwhole.le).eq_of_length hwhole
  have hbody := List.append_inj_right heq hpre
  rw [body, List.append_assoc, List.append_assoc] at hbody
  have hrest := List.append_inj_right hbody rfl
  have hcks : payload.length = issued.length := by
    have hl := congrArg List.length hrest
    rw [List.length_append, List.length_append, h.length_cks, hkn.length_append32,
      checksumLength] at hl
    omega
  exact ⟨List.append_inj_left hrest hcks, hsize⟩

/-- A frame within the limit passes the tests of the codec, with anything behind it. -/
theorem passes_serializeTo (hkv : kv.Inverse) (hkn : kn.Inverse32) (hchunks : kn.ChunksCover)
    (hxx : xx.Streaming) (hfits : Fits kv kn xx issued)
    (hbelow : (serializeTo kv kn xx issued ++ rest).length < maxSize) :
    Passes kv kn xx (BitVec.ofNat 32 (body kn xx issued).length) (header kv kn xx issued) issued
      (kn.append32 (xx.digest ((kn.chunks (mmbpTag ++ issued)).foldl xx.update xx.reset))) rest where
  decode := decode_header hkv issued _
  size_eq := toNat_length_body issued hfits
  length_cks := hkn.length_append32 _
  size_lt := by
    rw [toNat_length_body issued hfits]
    rw [Fits] at hfits
    omega
  below := by
    rw [serializeTo_eq, body, List.append_assoc] at hbelow
    exact hbelow
  checksum := xxh32_eq hkn hchunks hxx issued

end MmbpCodec

/-! ## Requests as issued -/

namespace MmkvClient

section

variable (kv : Kvarint) (kn : Kanon) (xx : XXHash)

/-- The message callback of a receiver of requests. -/
def parseRequest (u : Unwritten) : BitVec 32 → Reader (Bool × MmbpRequest) :=
  fun _ => (newRequest u).parseFrom kv kn

/-- The frame that a call puts on the wire. -/
def Api.frame (u : Unwritten) (api : Api) : Bytes :=
  MmbpCodec.serializeTo kv kn xx ((api.request u).serializeTo kv kn)

/-- The round of the loop on `b` hands over a parsed request with the command, the
has-bits, the key and the value of `r`. -/
def DecodedAs (u : Unwritten) (r : MmbpRequest) (sizeHeaderLen : ℕ) (sizeHeader : BitVec 32)
    (b : Bytes) : Prop :=
  ∃ (r' : MmbpRequest) (b' : Bytes),
    (MmbpCodec.receiveFrame kn xx (parseRequest kv kn u) sizeHeaderLen sizeHeader).run b
        = .ok ((true, [.message (true, r')]), b')
      ∧ r'.command = r.command ∧ r'.hasBits = r.hasBits ∧ r'.key = r.key ∧ r'.value = r.value

end

section

variable {kv : Kvarint} {kn : Kanon} {xx : XXHash}

theorem Api.hasBits_addStr (u : Unwritten) (key value : Bytes) :
    ((Api.addStr key value).request u).hasBits = 3 :=
  show setBit (setBit 0 0) 1 = 3 by decide

theorem Api.hasBits_getStr (u : Unwritten) (key : Bytes) :
    ((Api.getStr key).request u).hasBits = 1 :=
  show setBit 0 0 = 1 by decide

/-- What `AddStr` writes: the command, the bits, the key and the value. -/
theorem Api.serializeTo_request_addStr (u : Unwritten) (key value : Bytes) :
    ((Api.addStr key value).request u).serializeTo kv kn
      = kv.encode 16 STR_ADD ++ (kv.encode 8 3
        ++ (serializeString kv key true ++ (serializeString kv value false ++ []))) := by
  rw [MmbpRequest.serializeTo, MmbpRequest.serializePayload, MmbpRequest.hasKey,
    MmbpRequest.hasValue, MmbpRequest.hasExpireTime, hasBits_addStr, if_pos (by decide),
    if_pos (by decide), if_neg (by decide)]
  rfl

/-- What `GetStr` writes: the command, the bits and the key. -/
theorem Api.serializeTo_request_getStr (u : Unwritten) (key : Bytes) :
    ((Api.getStr key).request u).serializeTo kv kn
      = kv.encode 16 STR_GET ++ (kv.encode 8 1 ++ (serializeString kv key true ++ ([] ++ []))) := by
  rw [MmbpRequest.serializeTo, MmbpRequest.serializePayload, MmbpRequest.hasKey,
    MmbpRequest.hasValue, MmbpRequest.hasValues, MmbpRequest.hasKvs, MmbpRequest.hasCount,
    MmbpRequest.hasRange, MmbpRequest.hasVmembers, MmbpRequest.hasExpireTime, hasBits_getStr,
    if_pos (by decide), if_neg (by decide), if_neg (by decide), if_neg (by decide),
    if_neg (by decide), if_neg (by decide), if_neg (by decide), if_neg (by decide)]
  rfl

/-- A string needs ten bytes for its length, at most. -/
theorem length_serializeString_le (hcompact : kv.Compact) (str : Bytes) (is16 : Bool) :
    (serializeString kv str is16).length ≤ 10 + str.length := by
  have h16 := hcompact (by norm_num) (by norm_num) (BitVec.ofNat 16 str.length)
  have h32 := hcompact (by norm_num) (by norm_num) (BitVec.ofNat 32 str.length)
  rw [serializeString, List.length_append]
  split_ifs <;> omega

/-- Apart from key and value a request takes at most forty bytes. -/
theorem Api.length_serializeTo_le (hcompact : kv.Compact) (api : Api) (u : Unwritten) :
    ((api.request u).serializeTo kv kn).length
      ≤ 40 + (api.request u).key.length + (api.request u).value.length := by
  cases api with
  | addStr key value =>
    have hcommand := hcompact (by norm_num) (by norm_num) STR_ADD
    have hbits := hcompact (n := 8) (by norm_num) (by norm_num) 3
    have hkey := length_serializeString_le hcompact key true
    have hvalue := length_serializeString_le hcompact value false
    rw [serializeTo_request_addStr]
    simp only [List.length_append, List.length_nil]
    show _ ≤ 40 + key.length + value.length
    omega
  | getStr key =>
    have hcommand := hcompact (by norm_num) (by norm_num) STR_GET
    have hbits := hcompact (n := 8) (by norm_num) (by norm_num) 1
    have hkey := length_serializeString_le hcompact key true
    rw [serializeTo_request_getStr]
    simp only [List.length_append, List.length_nil]
    show _ ≤ 40 + key.length + 0
    omega

/-- The value of a request is no longer than what is written. -/
theorem Api.length_value_le (api : Api) (u : Unwritten) :
    (api.request u).value.length ≤ ((api.request u).serializeTo kv kn).length := by
  cases api with
  | addStr key value =>
    rw [serializeTo_request_addStr, serializeString, serializeString]
    simp only [List.length_append]
    show value.length ≤ _
    omega
  | getStr key => exact Nat.zero_le _

/-- A request is within the limits of the format if its key and its value are. -/
theorem Api.encodable_request (u : Unwritten) (api : Api)
    (hkey : (api.request u).key.length < 2 ^ 16)
    (hvalue : (api.request u).value.length < 2 ^ 32) : (api.request u).Encodable := by
  cases api <;>
    exact
      { key := hkey
        kvs := by norm_num [request, newRequest, MmbpRequest.setKey, MmbpRequest.setValue]
        kvs_key := nofun
        kvs_value := nofun
        values := by norm_num [request, newRequest, MmbpRequest.setKey, MmbpRequest.setValue]
        values_value := nofun
        value := hvalue
        vmembers := by norm_num [request, newRequest, MmbpRequest.setKey, MmbpRequest.setValue]
        vmembers_value := nofun }

/-- What a fresh message holds after the round trip. -/
theorem Api.carry_request (u u' : Unwritten) (api : Api) :
    (MmbpRequest.carry (newRequest u') (api.request u)).command = (api.request u).command
      ∧ (MmbpRequest.carry (newRequest u') (api.request u)).hasBits = (api.request u).hasBits
      ∧ (MmbpRequest.carry (newRequest u') (api.request u)).key = (api.request u).key
      ∧ (MmbpRequest.carry (newRequest u') (api.request u)).value = (api.request u).value := by
  have hsame := MmbpRequest.carry_sameOnWire (newRequest u') (api.request u)
  refine ⟨hsame.command, hsame.hasBits, hsame.key ?_, ?_⟩
  · cases api with
    | addStr key value => rw [MmbpRequest.hasKey, hasBits_addStr]; decide
    | getStr key => rw [MmbpRequest.hasKey, hasBits_getStr]; decide
  · cases api with
    | addStr key value =>
      have hpayload := hsame.payload
      rw [MmbpRequest.hasValue, hasBits_addStr, if_pos (by decide)] at hpayload
      exact hpayload
    | getStr key =>
      rw [MmbpRequest.carry, MmbpRequest.carryExpireTime, MmbpRequest.carryPayload,
        MmbpRequest.hasValue, MmbpRequest.hasValues, MmbpRequest.hasKvs, MmbpRequest.hasCount,
        MmbpRequest.hasRange, MmbpRequest.hasVmembers, hasBits_getStr, if_neg (by decide),
        if_neg (by decide), if_neg (by decide), if_neg (by decide), if_neg (by decide),
        if_neg (by decide)]
      rfl

/-- Key and value of a request that is decoded as issued: a 16-bit length, and what a
buffer holds. -/
theorem DecodedAs.bounds {u : Unwritten} {r : MmbpRequest} {size : BitVec 32}
    {pre payload cks rest : Bytes} (h : MmbpCodec.Passes kv kn xx size pre payload cks rest)
    (hdecoded : DecodedAs kv kn xx u r pre.length size
      (pre ++ (MmbpCodec.mmbpTag ++ payload ++ cks ++ rest))) :
    r.key.length < 2 ^ 16 ∧ r.value.length < MmbpCodec.maxSize := by
  obtain ⟨r', b', hrun, -, -, hkey, hvalue⟩ := hdecoded
  rw [MmbpCodec.run_receiveFrame_passing h.size_eq h.length_cks h.size_lt h.below h.checksum]
    at hrun
  obtain ⟨m, b₁, hparse, hrun⟩ := run_bind_eq_ok.mp hrun
  obtain ⟨_, b₂, -, hrun⟩ := run_bind_eq_ok.mp hrun
  cases hrun
  obtain ⟨hkey16, hvalue'⟩ := MmbpRequest.parseFrom_bounds hparse rfl rfl
  have hbelow := h.below
  rw [hkey] at hkey16
  rw [hvalue] at hvalue'
  simp only [List.length_append] at hvalue' hbelow
  exact ⟨hkey16, by omega⟩

end

end MmkvClient

/-- **Which requests are decoded as issued.**  Let the codec take a frame from the
stream that begins with the frame of an `AddStr` or `GetStr`.  The request it hands over
is the one issued exactly when the key is shorter than 2^16 bytes and tag, request and
checksum together are shorter than 2^32. -/
theorem mmkvClient_request_decoded_iff {kv : Kvarint} {kn : Kanon} {xx : XXHash}
    (hkv : kv.Inverse) (hsettled : kv.Settled) (hcompact : kv.Compact) (hkn : kn.Inverse32)
    (hkn64 : kn.Inverse64) (u u' : MmkvClient.Unwritten) (api : MmkvClient.Api)
    {size : BitVec 32} {pre payload cks rest : Bytes}
    (h : MmbpCodec.Passes kv kn xx size pre payload cks rest)
    (hb : pre ++ (MmbpCodec.mmbpTag ++ payload ++ cks ++ rest) <+: api.frame kv kn xx u
      ∨ api.frame kv kn xx u <+: pre ++ (MmbpCodec.mmbpTag ++ payload ++ cks ++ rest)) :
    MmkvClient.DecodedAs kv kn xx u' (api.request u) pre.length size
        (pre ++ (MmbpCodec.mmbpTag ++ payload ++ cks ++ rest))
      ↔ (api.request u).key.length < 2 ^ 16
        ∧ (MmbpCodec.body kn xx ((api.request u).serializeTo kv kn)).length < 2 ^ 32 := by
  constructor
  · intro hdecoded
    obtain ⟨hkey, hvalue⟩ := hdecoded.bounds h
    -- the value fitted into the buffer, so nothing was narrowed to 32 bits
    have hlen : ((api.request u).serializeTo kv kn).length ≤ _ :=
      api.length_serializeTo_le hcompact u
    rw [MmbpCodec.length_body hkn]
    simp only [MmbpCodec.maxSize] at hvalue
    exact ⟨hkey, by omega⟩
  · rintro ⟨hkey, hbody⟩
    obtain ⟨rfl, hsize⟩ := h.eq_issued hkv hsettled hb hkn hbody
    have hvalue : (api.request u).value.length < 2 ^ 32 := by
      have hle : _ ≤ ((api.request u).serializeTo kv kn).length := api.length_value_le u
      rw [MmbpCodec.length_body hkn] at hbody
      omega
    have hreads := MmbpRequest.reads_parseFrom hkv hkn64 (MmkvClient.newRequest u')
      (api.request u) (api.encodable_request u hkey hvalue) rfl rfl rfl
    obtain ⟨hcommand, hbits, hkey', hvalue'⟩ := api.carry_request u u'
    exact ⟨_, rest, MmbpCodec.run_receiveFrame_whole h.size_eq h.length_cks h.size_lt h.below
      h.checksum hreads, hcommand, hbits, hkey', hvalue'⟩

/-- An `AddStr` of one byte to one byte. -/
theorem mmkvClient_request_decoded_iff_short :
    MmkvClient.DecodedAs Kvarint.leb128 Kanon.bigEndian XXHash.seed0 MmkvClient.Unwritten.zero
      ((MmkvClient.Api.addStr [107] [118]).request MmkvClient.Unwritten.zero) 1 14
      ([14] ++ (MmbpCodec.mmbpTag ++ [0, 3, 1, 107, 1, 118] ++ [255, 1, 162, 188] ++ [])) := by
  have hpasses : MmbpCodec.Passes Kvarint.leb128 Kanon.bigEndian XXHash.seed0 14 [14]
      [0, 3, 1, 107, 1, 118] [255, 1, 162, 188] [] :=
    { decode := by rfl
      size_eq := by rfl
      length_cks := rfl
      size_lt := by decide
      below := by decide
      checksum := by decide +kernel }
  exact (mmkvClient_request_decoded_iff Kvarint.leb128_inverse Kvarint.leb128_settled
    Kvarint.leb128_compact Kanon.bigEndian_inverse32 Kanon.bigEndian_inverse64 _ _
    (MmkvClient.Api.addStr [107] [118]) hpasses (.inr ⟨[], by decide +kernel⟩)).mpr
      ⟨by decide, by decide⟩

/-- A key of 2^16 bytes: the frame is accepted, but the length field of its key says 0. -/
theorem mmkvClient_longKey_not_decoded :
    ¬ ∀ (api : MmkvClient.Api) (size : BitVec 32) (pre payload cks rest : Bytes),
      MmbpCodec.Passes Kvarint.leb128 Kanon.bigEndian XXHash.seed0 size pre payload cks rest →
      (pre ++ (MmbpCodec.mmbpTag ++ payload ++ cks ++ rest)
          <+: api.frame Kvarint.leb128 Kanon.bigEndian XXHash.seed0 MmkvClient.Unwritten.zero
        ∨ api.frame Kvarint.leb128 Kanon.bigEndian XXHash.seed0 MmkvClient.Unwritten.zero
          <+: pre ++ (MmbpCodec.mmbpTag ++ payload ++ cks ++ rest)) →
      MmkvClient.DecodedAs Kvarint.leb128 Kanon.bigEndian XXHash.seed0 MmkvClient.Unwritten.zero
        (api.request MmkvClient.Unwritten.zero) pre.length size
        (pre ++ (MmbpCodec.mmbpTag ++ payload ++ cks ++ rest)) := by
  intro hdecodes
  specialize hdecodes (.addStr (List.replicate 65536 97) [118])
  have hkey : ((MmkvClient.Api.addStr (List.replicate 65536 97) [118]).request
      MmkvClient.Unwritten.zero).key.length = 65536 := List.length_replicate ..
  have hvalue : ((MmkvClient.Api.addStr (List.replicate 65536 97) [118]).request
      MmkvClient.Unwritten.zero).value.length = 1 := rfl
  generalize MmkvClient.Api.addStr (List.replicate 65536 97) [118] = api at hdecodes hkey hvalue
  have hlen : ((api.request MmkvClient.Unwritten.zero).serializeTo Kvarint.leb128
      Kanon.bigEndian).length ≤ _ := api.length_serializeTo_le Kvarint.leb128_compact _
  generalize hissued : (api.request MmkvClient.Unwritten.zero).serializeTo Kvarint.leb128
    Kanon.bigEndian = issued at hlen
  have hframe : api.frame Kvarint.leb128 Kanon.bigEndian XXHash.seed0 MmkvClient.Unwritten.zero
      = MmbpCodec.serializeTo Kvarint.leb128 Kanon.bigEndian XXHash.seed0 issued := by
    rw [← hissued]
    rfl
  rw [hframe] at hdecodes
  have hheader := Kvarint.leb128_compact (by norm_num) (by norm_num) (BitVec.ofNat 32
    (MmbpCodec.body Kanon.bigEndian XXHash.seed0 issued).length)
  have hbody : (MmbpCodec.body Kanon.bigEndian XXHash.seed0 issued).length
      = 4 + issued.length + 4 := MmbpCodec.length_body Kanon.bigEndian_inverse32 issued
  have hfits : MmbpCodec.Fits Kvarint.leb128 Kanon.bigEndian XXHash.seed0 issued := by
    rw [MmbpCodec.Fits, MmbpCodec.header, hbody, MmbpCodec.maxSize]
    rw [hbody] at hheader
    omega
  have hbelow : (MmbpCodec.serializeTo Kvarint.leb128 Kanon.bigEndian XXHash.seed0 issued
      ++ []).length < MmbpCodec.maxSize := by
    rw [MmbpCodec.Fits] at hfits
    rw [List.append_nil, MmbpCodec.serializeTo_eq, List.length_append]
    omega
  have hpasses := MmbpCodec.passes_serializeTo Kvarint.leb128_inverse Kanon.bigEndian_inverse32
    Kanon.bigEndian_chunksCover XXHash.seed0_streaming hfits hbelow
  have hprefix : MmbpCodec.serializeTo Kvarint.leb128 Kanon.bigEndian XXHash.seed0 issued
      <+: MmbpCodec.header Kvarint.leb128 Kanon.bigEndian XXHash.seed0 issued
        ++ (MmbpCodec.body Kanon.bigEndian XXHash.seed0 issued ++ []) := by
    rw [List.append_nil, MmbpCodec.serializeTo_eq]
  have hbounds := (hdecodes _ _ _ _ _ hpasses (.inr hprefix)).bounds hpasses
  omega

end Mmkvc
