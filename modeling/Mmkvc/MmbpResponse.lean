/-
# Responses (`protocol/mmbp_response.{h,cc}`)

A response is a status code, a byte of has-bits, and the first flagged payload
in the order of an else-if chain.  `mmbp_parseFrom_serializeTo` is the round
trip of both message types.
-/
import Mmkvc.MmbpRequest

namespace Mmkvc

/-- `StatusCode`, an enumeration over `uint8_t`; a code off the wire is cast, so
every byte is a value. -/
abbrev StatusCode := BitVec 8

def S_OK : StatusCode := 0
def S_UNSET : StatusCode := 16

/-- `MmbpResponse`. -/
structure MmbpResponse where
  hasBits : BitVec 8
  statusCode : StatusCode
  count : BitVec 64
  value : Bytes
  values : StrValues
  kvs : StrKvs
  vmembers : WeightValues
  deriving DecidableEq, Repr

namespace MmbpResponse

def hasValue (r : MmbpResponse) : Bool := testBit r.hasBits 0
def hasValues (r : MmbpResponse) : Bool := testBit r.hasBits 1
def hasKvs (r : MmbpResponse) : Bool := testBit r.hasBits 2
def hasCount (r : MmbpResponse) : Bool := testBit r.hasBits 3
def hasVmembers (r : MmbpResponse) : Bool := testBit r.hasBits 4

/-- `MmbpResponse()`; `count` is not initialised. -/
def fresh (count : BitVec 64) : MmbpResponse where
  hasBits := 0
  statusCode := -1
  count := count
  value := []
  values := []
  kvs := []
  vmembers := []

/-- The limits of the length fields. -/
structure Encodable (r : MmbpResponse) : Prop where
  value : r.value.length < 2 ^ 32
  values : r.values.length < 2 ^ 32
  values_value : ∀ v ∈ r.values, v.length < 2 ^ 32
  kvs : r.kvs.length < 2 ^ 32
  kvs_key : ∀ e ∈ r.kvs, e.key.length < 2 ^ 16
  kvs_value : ∀ e ∈ r.kvs, e.value.length < 2 ^ 32
  vmembers : r.vmembers.length < 2 ^ 32
  vmembers_value : ∀ v ∈ r.vmembers, v.value.length < 2 ^ 32

section

variable (kv : Kvarint) (kn : Kanon)

/-! ## SerializeTo -/

/-- The else-if chain of `SerializeTo`. -/
def serializePayload (r : MmbpResponse) : Bytes :=
  if r.hasValue then serializeString kv r.value false
  else if r.hasValues then serializeStrValues kv r.values
  else if r.hasKvs then serializeStrKvs kv r.kvs
  else if r.hasCount then kv.encode 64 r.count
  else if r.hasVmembers then serializeWeightValues kv kn r.vmembers
  else []

/-- `SerializeTo`, the same for a `Buffer` and for a `ChunkList`. -/
def serializeTo (r : MmbpResponse) : Bytes :=
  kv.encode 8 r.statusCode ++ (kv.encode 8 r.hasBits ++ serializePayload kv kn r)

/-! ## ParseFrom -/

/-- The else-if chain of `ParseFrom`. -/
def parsePayload (r : MmbpResponse) : Reader MmbpResponse :=
  if r.hasValue then do
    let value ← parseString kv false
    return { r with value := value }
  else if r.hasValues then do
    let values ← parseStrValues kv r.values
    return { r with values := values }
  else if r.hasKvs then do
    let kvs ← parseStrKvs kv r.kvs
    return { r with kvs := kvs }
  else if r.hasCount then do
    let (_, count) ← parseUnsigned kv 64 r.count
    return { r with count := count }
  else if r.hasVmembers then do
    let vmembers ← parseWeightValues kv kn r.vmembers
    return { r with vmembers := vmembers }
  else return r

/-- `ParseFrom(Buffer &)` into the message `r`. -/
def parseFrom (r : MmbpResponse) : Reader (Bool × MmbpResponse) := do
  let (ok, statusCode) ← parseUnsigned kv 8 r.statusCode
  if ok then do
    let (ok, hasBits) ← parseUnsigned kv 8 r.hasBits
    if ok then do
      let r ← parsePayload kv kn { r with statusCode := statusCode, hasBits := hasBits }
      return (true, r)
    else return (false, { r with statusCode := statusCode })
  else return (false, r)

end

/-! ## The round trip -/

/-- `r₀` with the payload `r` sends. -/
def carryPayload (r₀ r : MmbpResponse) : MmbpResponse :=
  if r.hasValue then { r₀ with value := r.value }
  else if r.hasValues then { r₀ with values := r.values }
  else if r.hasKvs then { r₀ with kvs := r.kvs }
  else if r.hasCount then { r₀ with count := r.count }
  else if r.hasVmembers then { r₀ with vmembers := r.vmembers }
  else r₀

/-- What a receiver that held `r₀` holds after it has parsed `r`. -/
def carry (r₀ r : MmbpResponse) : MmbpResponse :=
  carryPayload { r₀ with statusCode := r.statusCode, hasBits := r.hasBits } r

/-- `r'` is `r` as far as the wire carries it: the same status code and has-bits,
and the same payload for the first flagged kind. -/
structure SameOnWire (r' r : MmbpResponse) : Prop where
  statusCode : r'.statusCode = r.statusCode
  hasBits : r'.hasBits = r.hasBits
  payload :
    if r.hasValue then r'.value = r.value
    else if r.hasValues then r'.values = r.values
    else if r.hasKvs then r'.kvs = r.kvs
    else if r.hasCount then r'.count = r.count
    else if r.hasVmembers then r'.vmembers = r.vmembers
    else True

/-- The fields of the payload do not touch the others. -/
theorem carryPayload_head (r₀ r : MmbpResponse) :
    (carryPayload r₀ r).statusCode = r₀.statusCode
      ∧ (carryPayload r₀ r).hasBits = r₀.hasBits := by
  unfold carryPayload
  split_ifs <;> exact ⟨rfl, rfl⟩

/-- What is carried over is the same on the wire. -/
theorem carry_sameOnWire (r₀ r : MmbpResponse) : (carry r₀ r).SameOnWire r := by
  obtain ⟨hstatus, hbits⟩ :=
    carryPayload_head { r₀ with statusCode := r.statusCode, hasBits := r.hasBits } r
  refine ⟨hstatus, hbits, ?_⟩
  unfold carry carryPayload
  split_ifs <;> rfl

variable {kv : Kvarint} {kn : Kanon}

/-- What the payload `r` sends leaves in a message with the content `r₀`. -/
def carryPayloadInto (r₀ r : MmbpResponse) : MmbpResponse :=
  if r.hasValue then { r₀ with value := r.value }
  else if r.hasValues then { r₀ with values := readInto (· ++ ·) [] r₀.values r.values }
  else if r.hasKvs then
    { r₀ with kvs := readInto StrKeyValue.takeIn { key := [], value := [] } r₀.kvs r.kvs }
  else if r.hasCount then { r₀ with count := r.count }
  else if r.hasVmembers then
    { r₀ with vmembers :=
        readInto WeightValue.takeIn { key := 0, value := [] } r₀.vmembers r.vmembers }
  else r₀

/-- What a receiver that held `r₀` holds after it has parsed `r`, its vectors included. -/
def carryInto (r₀ r : MmbpResponse) : MmbpResponse :=
  carryPayloadInto { r₀ with statusCode := r.statusCode, hasBits := r.hasBits } r

/-- A message without payload takes in what is sent. -/
theorem carryPayloadInto_eq {r₀ : MmbpResponse} (r : MmbpResponse) (hvalues : r₀.values = [])
    (hkvs : r₀.kvs = []) (hvmembers : r₀.vmembers = []) :
    carryPayloadInto r₀ r = carryPayload r₀ r := by
  have h1 := (readInto_strValues_iff [] r.values).mpr (by simp)
  have h2 := (readInto_strKvs_iff [] r.kvs).mpr (by simp)
  have h3 := (readInto_weightValues_iff [] r.vmembers).mpr (by simp)
  rw [carryPayloadInto, carryPayload, hvalues, hkvs, hvmembers, h1, h2, h3]

theorem carryInto_eq {r₀ : MmbpResponse} (r : MmbpResponse) (hvalues : r₀.values = [])
    (hkvs : r₀.kvs = []) (hvmembers : r₀.vmembers = []) : carryInto r₀ r = carry r₀ r :=
  carryPayloadInto_eq r hvalues hkvs hvmembers

/-- The payload is read into what the message holds. -/
theorem reads_parsePayload (hkv : kv.Inverse) (hkn : kn.Inverse64) (r₀ r : MmbpResponse)
    (hr : r.Encodable) (hbits : r₀.hasBits = r.hasBits) :
    Reader.Reads (parsePayload kv kn r₀) (serializePayload kv kn r) (carryPayloadInto r₀ r) := by
  have h : ∀ i, testBit r₀.hasBits i = testBit r.hasBits i := fun i => by rw [hbits]
  have h0 : r₀.hasValue = r.hasValue := h 0
  have h1 : r₀.hasValues = r.hasValues := h 1
  have h2 : r₀.hasKvs = r.hasKvs := h 2
  have h3 : r₀.hasCount = r.hasCount := h 3
  have h4 : r₀.hasVmembers = r.hasVmembers := h 4
  rw [parsePayload, serializePayload, carryPayloadInto, h0, h1, h2, h3, h4]
  split_ifs
  · exact (reads_parseString hkv false r.value hr.value).bind_pure rfl
  · exact (reads_parseStrValues_into hkv r₀.values r.values hr.values hr.values_value).bind_pure rfl
  · exact (reads_parseStrKvs_into hkv r₀.kvs r.kvs hr.kvs hr.kvs_key hr.kvs_value).bind_pure rfl
  · have hcount := reads_parseUnsigned hkv (by norm_num) le_rfl r.count r₀.count
    rw [BitVec.setWidth_eq] at hcount
    exact hcount.bind_pure rfl
  · exact (reads_parseWeightValues_into hkv hkn r₀.vmembers r.vmembers hr.vmembers hr.vmembers_value).bind_pure rfl
  · exact Reader.reads_pure _

/-- **`ParseFrom` on `SerializeTo`, into any message.** -/
theorem reads_parseFrom_into (hkv : kv.Inverse) (hkn : kn.Inverse64) (r₀ r : MmbpResponse)
    (hr : r.Encodable) :
    Reader.Reads (parseFrom kv kn r₀) (serializeTo kv kn r) (true, carryInto r₀ r) := by
  have hstatus := reads_parseUnsigned hkv (by norm_num) le_rfl r.statusCode r₀.statusCode
  have hbits := reads_parseUnsigned hkv (by norm_num) le_rfl r.hasBits r₀.hasBits
  rw [BitVec.setWidth_eq] at hstatus hbits
  have hpayload := reads_parsePayload hkv hkn
    { r₀ with statusCode := r.statusCode, hasBits := r.hasBits } r hr rfl
  rw [parseFrom, serializeTo]
  exact hstatus.bind (hbits.bind (hpayload.bind_pure rfl))

/-- Into a message without payload. -/
theorem reads_parseFrom (hkv : kv.Inverse) (hkn : kn.Inverse64) (r₀ r : MmbpResponse)
    (hr : r.Encodable) (hvalues : r₀.values = []) (hkvs : r₀.kvs = [])
    (hvmembers : r₀.vmembers = []) :
    Reader.Reads (parseFrom kv kn r₀) (serializeTo kv kn r) (true, carry r₀ r) := by
  have h := reads_parseFrom_into hkv hkn r₀ r hr
  rwa [carryInto_eq r hvalues hkvs hvmembers] at h

/-- The fields of the payload are read forwards. -/
theorem forward_parsePayload (r : MmbpResponse) : Reader.Forward (r.parsePayload kv kn) := by
  rw [parsePayload]
  split_ifs
  · exact (forward_parseString false).bind fun _ => Reader.forward_pure _
  · exact (forward_vector forward_parseSized 0 [] r.values).bind fun _ => Reader.forward_pure _
  · exact (forward_vector forward_parseStrKeyValue (0, 0) _ r.kvs).bind
      fun _ => Reader.forward_pure _
  · exact (forward_parseUnsigned 64 r.count).bind fun _ => Reader.forward_pure _
  · exact (forward_vector forward_parseWeightValue 0 _ r.vmembers).bind
      fun _ => Reader.forward_pure _
  · exact Reader.forward_pure r

/-- **`ParseFrom` leaves the end of what it was given.** -/
theorem forward_parseFrom (r : MmbpResponse) : Reader.Forward (r.parseFrom kv kn) := by
  refine (forward_parseUnsigned 8 _).bind ?_
  rintro ⟨ok, statusCode⟩
  cases ok with
  | false => exact Reader.forward_pure _
  | true =>
    refine (forward_parseUnsigned 8 _).bind ?_
    rintro ⟨ok, hasBits⟩
    cases ok with
    | false => exact Reader.forward_pure _
    | true => exact (forward_parsePayload _).bind fun _ => Reader.forward_pure _

end MmbpResponse

/-! ## The payload format round-trips -/

/-- **Payload round trip for the whole format.**  A request or a response within
the length limits is parsed back into a fresh message from its serialization
followed by any bytes: the parse succeeds, leaves exactly those bytes, and
yields every field the wire carries. -/
theorem mmbp_parseFrom_serializeTo {kv : Kvarint} {kn : Kanon} (hkv : kv.Inverse)
    (hkn : kn.Inverse64) :
    (∀ r r₀ : MmbpRequest, r.Encodable → r₀.IsFresh → ∀ t : Bytes,
      ∃ r' : MmbpRequest,
        (r₀.parseFrom kv kn).run (r.serializeTo kv kn ++ t) = .ok ((true, r'), t)
          ∧ r'.SameOnWire r)
    ∧ (∀ r : MmbpResponse, r.Encodable → ∀ (count : BitVec 64) (t : Bytes),
      ∃ r' : MmbpResponse,
        ((MmbpResponse.fresh count).parseFrom kv kn).run (r.serializeTo kv kn ++ t)
          = .ok ((true, r'), t)
          ∧ r'.SameOnWire r) := by
  constructor
  · intro r r₀ hr h₀ t
    exact ⟨_, MmbpRequest.reads_parseFrom hkv hkn r₀ r hr h₀.values h₀.kvs h₀.vmembers t,
      MmbpRequest.carry_sameOnWire r₀ r⟩
  · intro r hr count t
    exact ⟨_, MmbpResponse.reads_parseFrom hkv hkn _ r hr rfl rfl rfl t,
      MmbpResponse.carry_sameOnWire _ r⟩

/-- A message without payload, before a parse. -/
def MmbpRequest.fresh : MmbpRequest where
  hasBits := 0
  command := commandNum
  key := []
  kvs := []
  values := []
  value := []
  vmembers := []
  expireTime := 7
  range := { left := 1, right := 2 }

/-- The request that adds the member `a` of weight 1.0 to the set at `z`. -/
def MmbpRequest.zadd : MmbpRequest :=
  { MmbpRequest.fresh with
    hasBits := setBit (setBit 0 0) 7
    key := [122]
    vmembers := [{ key := 0x3ff0000000000000, value := [97] }] }

/-- The response that carries the value `hi`. -/
def MmbpResponse.hi : MmbpResponse :=
  { MmbpResponse.fresh 0 with statusCode := S_OK, hasBits := setBit 0 0, value := [104, 105] }

theorem mmbp_parseFrom_serializeTo_zadd_hi :
    (∃ r' : MmbpRequest,
      (MmbpRequest.fresh.parseFrom Kvarint.leb128 Kanon.bigEndian).run
          (MmbpRequest.zadd.serializeTo Kvarint.leb128 Kanon.bigEndian ++ [1, 2])
        = .ok ((true, r'), [1, 2]) ∧ r'.SameOnWire MmbpRequest.zadd)
    ∧ (∃ r' : MmbpResponse,
      ((MmbpResponse.fresh 0).parseFrom Kvarint.leb128 Kanon.bigEndian).run
          (MmbpResponse.hi.serializeTo Kvarint.leb128 Kanon.bigEndian ++ [1, 2])
        = .ok ((true, r'), [1, 2]) ∧ r'.SameOnWire MmbpResponse.hi) := by
  have h := mmbp_parseFrom_serializeTo Kvarint.leb128_inverse Kanon.bigEndian_inverse64
  constructor
  · exact h.1 MmbpRequest.zadd MmbpRequest.fresh (by constructor <;> decide)
      (by constructor <;> rfl) [1, 2]
  · exact h.2 MmbpResponse.hi (by constructor <;> decide) 0 [1, 2]

end Mmkvc
