/-
# Requests (`protocol/mmbp_request.{h,cc}`)

A request is a command, a byte of has-bits, and the fields those bits flag: the
key, the first flagged payload in the order of an else-if chain, and the
expiration time.  `reads_parseFrom` is the round trip through
`SerializeTo` and `ParseFrom(Buffer &)`.
-/
import Mmkvc.MmbpUtil

namespace Mmkvc

/-- `Range`, two `int64_t`. -/
structure Range where
  left : BitVec 64
  right : BitVec 64
  deriving DecidableEq, Repr

/-- `Command::COMMAND_NUM`, the number of commands. -/
def commandNum : BitVec 16 := 71

/-- `MmbpRequest`.  The storage of the union of `count` and `range` is the two
words of `range`; `count` is the low half of the first. -/
structure MmbpRequest where
  hasBits : BitVec 8
  command : BitVec 16
  key : Bytes
  kvs : StrKvs
  values : StrValues
  value : Bytes
  vmembers : WeightValues
  expireTime : BitVec 64
  range : Range
  deriving DecidableEq, Repr

namespace MmbpRequest

/-- The member `count` of the union. -/
def count (r : MmbpRequest) : BitVec 32 := r.range.left.setWidth 32

/-- Writing `count` overwrites the low half of `range.left`. -/
def setCount (r : MmbpRequest) (c : BitVec 32) : MmbpRequest :=
  { r with range := { r.range with left := r.range.left.extractLsb' 32 32 ++ c } }

theorem count_setCount (r : MmbpRequest) (c : BitVec 32) : (r.setCount c).count = c := by
  show (r.range.left.extractLsb' 32 32 ++ c).setWidth 32 = c
  rw [BitVec.setWidth_append_eq_right]

def hasKey (r : MmbpRequest) : Bool := testBit r.hasBits 0
def hasValue (r : MmbpRequest) : Bool := testBit r.hasBits 1
def hasExpireTime (r : MmbpRequest) : Bool := testBit r.hasBits 2
def hasValues (r : MmbpRequest) : Bool := testBit r.hasBits 3
def hasKvs (r : MmbpRequest) : Bool := testBit r.hasBits 4
def hasCount (r : MmbpRequest) : Bool := testBit r.hasBits 5
def hasRange (r : MmbpRequest) : Bool := testBit r.hasBits 6
def hasVmembers (r : MmbpRequest) : Bool := testBit r.hasBits 7

/-- `SetKey`. -/
def setKey (r : MmbpRequest) : MmbpRequest := { r with hasBits := setBit r.hasBits 0 }
/-- `SetValue`. -/
def setValue (r : MmbpRequest) : MmbpRequest := { r with hasBits := setBit r.hasBits 1 }

/-- A message as `MmbpRequest()` leaves it; the expiration time and the union
are not initialised. -/
structure IsFresh (r : MmbpRequest) : Prop where
  hasBits : r.hasBits = 0
  command : r.command = commandNum
  key : r.key = []
  kvs : r.kvs = []
  values : r.values = []
  value : r.value = []
  vmembers : r.vmembers = []

/-- The limits of the length fields. -/
structure Encodable (r : MmbpRequest) : Prop where
  key : r.key.length < 2 ^ 16
  kvs : r.kvs.length < 2 ^ 32
  kvs_key : ∀ e ∈ r.kvs, e.key.length < 2 ^ 16
  kvs_value : ∀ e ∈ r.kvs, e.value.length < 2 ^ 32
  values : r.values.length < 2 ^ 32
  values_value : ∀ v ∈ r.values, v.length < 2 ^ 32
  value : r.value.length < 2 ^ 32
  vmembers : r.vmembers.length < 2 ^ 32
  vmembers_value : ∀ v ∈ r.vmembers, v.value.length < 2 ^ 32

section

variable (kv : Kvarint) (kn : Kanon)

/-! ## SerializeTo -/

/-- The else-if chain of `SerializeTo`. -/
def serializePayload (r : MmbpRequest) : Bytes :=
  if r.hasValue then serializeString kv r.value false
  else if r.hasValues then serializeStrValues kv r.values
  else if r.hasKvs then serializeStrKvs kv r.kvs
  else if r.hasCount then kv.encode 32 r.count
  else if r.hasRange then kv.encodeSigned 64 r.range.left ++ kv.encodeSigned 64 r.range.right
  else if r.hasVmembers then serializeWeightValues kv kn r.vmembers
  else []

/-- `SerializeTo`, the same for a `Buffer` and for a `ChunkList`. -/
def serializeTo (r : MmbpRequest) : Bytes :=
  kv.encode 16 r.command ++ (kv.encode 8 r.hasBits
    ++ ((if r.hasKey then serializeString kv r.key true else [])
      ++ (serializePayload kv kn r
        ++ (if r.hasExpireTime then kv.encode 64 r.expireTime else []))))

/-! ## ParseFrom -/

def parseKey (r : MmbpRequest) : Reader MmbpRequest :=
  if r.hasKey then do
    let key ← parseString kv true
    return { r with key := key }
  else return r

/-- The else-if chain of `ParseFrom`; only a range that does not parse fails. -/
def parsePayload (r : MmbpRequest) : Reader (Bool × MmbpRequest) :=
  if r.hasValue then do
    let value ← parseString kv false
    return (true, { r with value := value })
  else if r.hasValues then do
    let values ← parseStrValues kv r.values
    return (true, { r with values := values })
  else if r.hasKvs then do
    let kvs ← parseStrKvs kv r.kvs
    return (true, { r with kvs := kvs })
  else if r.hasCount then do
    let (_, count) ← parseUnsigned kv 32 r.count
    return (true, r.setCount count)
  else if r.hasRange then do
    let (ok, left) ← parseSigned kv 64 r.range.left
    if ok then do
      let (ok, right) ← parseSigned kv 64 r.range.right
      return (ok, { r with range := { left := left, right := right } })
    else return (false, r)
  else if r.hasVmembers then do
    let vmembers ← parseWeightValues kv kn r.vmembers
    return (true, { r with vmembers := vmembers })
  else return (true, r)

def parseExpireTime (r : MmbpRequest) : Reader MmbpRequest :=
  if r.hasExpireTime then do
    let (_, expireTime) ← parseUnsigned kv 64 r.expireTime
    return { r with expireTime := expireTime }
  else return r

/-- `ParseFrom(Buffer &)` into the message `r`. -/
def parseFrom (r : MmbpRequest) : Reader (Bool × MmbpRequest) := do
  let (ok, command) ← parseUnsigned kv 16 r.command
  if ok then do
    let (ok, hasBits) ← parseUnsigned kv 8 r.hasBits
    if ok then do
      let r ← parseKey kv { r with command := command, hasBits := hasBits }
      let (ok, r) ← parsePayload kv kn r
      if ok then do
        let r ← parseExpireTime kv r
        return (true, r)
      else return (false, r)
    else return (false, { r with command := command })
  else return (false, r)

end

/-! ## The round trip -/

/-- `r₀` with the key of `r`, if flagged. -/
def carryKey (r₀ r : MmbpRequest) : MmbpRequest :=
  { r₀ with key := if r.hasKey then r.key else r₀.key }

/-- `r₀` with the payload `r` sends. -/
def carryPayload (r₀ r : MmbpRequest) : MmbpRequest :=
  if r.hasValue then { r₀ with value := r.value }
  else if r.hasValues then { r₀ with values := r.values }
  else if r.hasKvs then { r₀ with kvs := r.kvs }
  else if r.hasCount then r₀.setCount r.count
  else if r.hasRange then { r₀ with range := r.range }
  else if r.hasVmembers then { r₀ with vmembers := r.vmembers }
  else r₀

/-- `r₀` with the expiration time of `r`, if flagged. -/
def carryExpireTime (r₀ r : MmbpRequest) : MmbpRequest :=
  { r₀ with expireTime := if r.hasExpireTime then r.expireTime else r₀.expireTime }

/-- What a receiver that held `r₀` holds after it has parsed `r`. -/
def carry (r₀ r : MmbpRequest) : MmbpRequest :=
  carryExpireTime
    (carryPayload (carryKey { r₀ with command := r.command, hasBits := r.hasBits } r) r) r

/-- `r'` is `r` as far as the wire carries it: the same command and has-bits, the
same key if flagged, the same payload for the first flagged kind, and the same
expiration time if flagged. -/
structure SameOnWire (r' r : MmbpRequest) : Prop where
  command : r'.command = r.command
  hasBits : r'.hasBits = r.hasBits
  key : r.hasKey → r'.key = r.key
  payload :
    if r.hasValue then r'.value = r.value
    else if r.hasValues then r'.values = r.values
    else if r.hasKvs then r'.kvs = r.kvs
    else if r.hasCount then r'.count = r.count
    else if r.hasRange then r'.range = r.range
    else if r.hasVmembers then r'.vmembers = r.vmembers
    else True
  expireTime : r.hasExpireTime → r'.expireTime = r.expireTime

/-- The payload leaves the head of the message alone. -/
theorem carryPayload_head (r₀ r : MmbpRequest) :
    (carryPayload r₀ r).command = r₀.command ∧ (carryPayload r₀ r).hasBits = r₀.hasBits
      ∧ (carryPayload r₀ r).key = r₀.key := by
  unfold carryPayload
  split_ifs <;> exact ⟨rfl, rfl, rfl⟩

/-- What is carried over is the same on the wire. -/
theorem carry_sameOnWire (r₀ r : MmbpRequest) : (carry r₀ r).SameOnWire r := by
  obtain ⟨hcmd, hbits, hkey⟩ :=
    carryPayload_head (carryKey { r₀ with command := r.command, hasBits := r.hasBits } r) r
  refine ⟨hcmd, hbits, fun hk => hkey.trans (if_pos hk), ?_, fun he => if_pos he⟩
  show (if r.hasValue then (carryPayload (carryKey _ r) r).value = r.value
    else if r.hasValues then (carryPayload (carryKey _ r) r).values = r.values
    else if r.hasKvs then (carryPayload (carryKey _ r) r).kvs = r.kvs
    else if r.hasCount then (carryPayload (carryKey _ r) r).count = r.count
    else if r.hasRange then (carryPayload (carryKey _ r) r).range = r.range
    else if r.hasVmembers then (carryPayload (carryKey _ r) r).vmembers = r.vmembers
    else True)
  unfold carryPayload
  split_ifs <;> first | rfl | exact count_setCount _ _

variable {kv : Kvarint} {kn : Kanon}

/-- The key is read back, if it was sent. -/
theorem reads_parseKey (hkv : kv.Inverse) (r₀ r : MmbpRequest) (hr : r.Encodable)
    (hbits : r₀.hasBits = r.hasBits) :
    Reader.Reads (parseKey kv r₀) (if r.hasKey then serializeString kv r.key true else [])
      (carryKey r₀ r) := by
  have hkey : r₀.hasKey = r.hasKey := by rw [hasKey, hasKey, hbits]
  rw [parseKey, carryKey, hkey]
  split_ifs
  · exact (reads_parseString hkv true r.key hr.key).bind_pure rfl
  · exact Reader.reads_pure _

/-- What the payload `r` sends leaves in a message with the content `r₀`. -/
def carryPayloadInto (r₀ r : MmbpRequest) : MmbpRequest :=
  if r.hasValue then { r₀ with value := r.value }
  else if r.hasValues then { r₀ with values := readInto (· ++ ·) [] r₀.values r.values }
  else if r.hasKvs then
    { r₀ with kvs := readInto StrKeyValue.takeIn { key := [], value := [] } r₀.kvs r.kvs }
  else if r.hasCount then r₀.setCount r.count
  else if r.hasRange then { r₀ with range := r.range }
  else if r.hasVmembers then
    { r₀ with vmembers :=
        readInto WeightValue.takeIn { key := 0, value := [] } r₀.vmembers r.vmembers }
  else r₀

/-- What a receiver that held `r₀` holds after it has parsed `r`, its vectors included. -/
def carryInto (r₀ r : MmbpRequest) : MmbpRequest :=
  carryExpireTime
    (carryPayloadInto (carryKey { r₀ with command := r.command, hasBits := r.hasBits } r) r) r

/-- The fields of the payload do not touch the others. -/
theorem carryPayloadInto_head (r₀ r : MmbpRequest) :
    (carryPayloadInto r₀ r).command = r₀.command
      ∧ (carryPayloadInto r₀ r).hasBits = r₀.hasBits
      ∧ (carryPayloadInto r₀ r).key = r₀.key := by
  unfold carryPayloadInto
  split_ifs <;> exact ⟨rfl, rfl, rfl⟩

/-- A message without payload takes in what is sent. -/
theorem carryPayloadInto_eq {r₀ : MmbpRequest} (r : MmbpRequest) (hvalues : r₀.values = [])
    (hkvs : r₀.kvs = []) (hvmembers : r₀.vmembers = []) :
    carryPayloadInto r₀ r = carryPayload r₀ r := by
  have h1 := (readInto_strValues_iff [] r.values).mpr (by simp)
  have h2 := (readInto_strKvs_iff [] r.kvs).mpr (by simp)
  have h3 := (readInto_weightValues_iff [] r.vmembers).mpr (by simp)
  rw [carryPayloadInto, carryPayload, hvalues, hkvs, hvmembers, h1, h2, h3]

theorem carryInto_eq {r₀ : MmbpRequest} (r : MmbpRequest) (hvalues : r₀.values = [])
    (hkvs : r₀.kvs = []) (hvmembers : r₀.vmembers = []) : carryInto r₀ r = carry r₀ r :=
  congrArg (carryExpireTime · r) (carryPayloadInto_eq r hvalues hkvs hvmembers)

/-- The payload is read into what the message holds. -/
theorem reads_parsePayload (hkv : kv.Inverse) (hkn : kn.Inverse64) (r₀ r : MmbpRequest)
    (hr : r.Encodable) (hbits : r₀.hasBits = r.hasBits) :
    Reader.Reads (parsePayload kv kn r₀) (serializePayload kv kn r)
      (true, carryPayloadInto r₀ r) := by
  have h : ∀ i, testBit r₀.hasBits i = testBit r.hasBits i := fun i => by rw [hbits]
  have h1 : r₀.hasValue = r.hasValue := h 1
  have h3 : r₀.hasValues = r.hasValues := h 3
  have h4 : r₀.hasKvs = r.hasKvs := h 4
  have h5 : r₀.hasCount = r.hasCount := h 5
  have h6 : r₀.hasRange = r.hasRange := h 6
  have h7 : r₀.hasVmembers = r.hasVmembers := h 7
  rw [parsePayload, serializePayload, carryPayloadInto, h1, h3, h4, h5, h6, h7]
  split_ifs
  · exact (reads_parseString hkv false r.value hr.value).bind_pure rfl
  · exact (reads_parseStrValues_into hkv r₀.values r.values hr.values hr.values_value).bind_pure rfl
  · exact (reads_parseStrKvs_into hkv r₀.kvs r.kvs hr.kvs hr.kvs_key hr.kvs_value).bind_pure rfl
  · have h := reads_parseUnsigned hkv (by norm_num) le_rfl r.count r₀.count
    rw [BitVec.setWidth_eq] at h
    exact h.bind_pure rfl
  · exact (reads_parseSigned hkv (by norm_num) r.range.left r₀.range.left).bind
      ((reads_parseSigned hkv (by norm_num) r.range.right r₀.range.right).bind_pure rfl)
  · exact (reads_parseWeightValues_into hkv hkn r₀.vmembers r.vmembers hr.vmembers hr.vmembers_value).bind_pure rfl
  · exact Reader.reads_pure _

/-- The expiration time is read back, if it was sent. -/
theorem reads_parseExpireTime (hkv : kv.Inverse) (r₀ r : MmbpRequest)
    (hbits : r₀.hasBits = r.hasBits) :
    Reader.Reads (parseExpireTime kv r₀)
      (if r.hasExpireTime then kv.encode 64 r.expireTime else []) (carryExpireTime r₀ r) := by
  have hexp : r₀.hasExpireTime = r.hasExpireTime := by rw [hasExpireTime, hasExpireTime, hbits]
  rw [parseExpireTime, carryExpireTime, hexp]
  split_ifs
  · have h := reads_parseUnsigned hkv (by norm_num) le_rfl r.expireTime r₀.expireTime
    rw [BitVec.setWidth_eq] at h
    exact h.bind_pure rfl
  · exact Reader.reads_pure _

/-- **`ParseFrom` on `SerializeTo`, into any message.** -/
theorem reads_parseFrom_into (hkv : kv.Inverse) (hkn : kn.Inverse64) (r₀ r : MmbpRequest)
    (hr : r.Encodable) :
    Reader.Reads (parseFrom kv kn r₀) (serializeTo kv kn r) (true, carryInto r₀ r) := by
  have hcmd := reads_parseUnsigned hkv (by norm_num) le_rfl r.command r₀.command
  have hbits := reads_parseUnsigned hkv (by norm_num) le_rfl r.hasBits r₀.hasBits
  rw [BitVec.setWidth_eq] at hcmd hbits
  have hkey := reads_parseKey hkv { r₀ with command := r.command, hasBits := r.hasBits } r hr rfl
  have hpayload := reads_parsePayload hkv hkn
    (carryKey { r₀ with command := r.command, hasBits := r.hasBits } r) r hr rfl
  have hexp := reads_parseExpireTime hkv
    (carryPayloadInto (carryKey { r₀ with command := r.command, hasBits := r.hasBits } r) r) r
    (carryPayloadInto_head _ _).2.1
  rw [parseFrom, serializeTo]
  exact hcmd.bind (hbits.bind (hkey.bind (hpayload.bind (hexp.bind_pure rfl))))

/-- Into a message without payload. -/
theorem reads_parseFrom (hkv : kv.Inverse) (hkn : kn.Inverse64) (r₀ r : MmbpRequest)
    (hr : r.Encodable) (hvalues : r₀.values = []) (hkvs : r₀.kvs = [])
    (hvmembers : r₀.vmembers = []) :
    Reader.Reads (parseFrom kv kn r₀) (serializeTo kv kn r) (true, carry r₀ r) := by
  have h := reads_parseFrom_into hkv hkn r₀ r hr
  rwa [carryInto_eq r hvalues hkvs hvmembers] at h

end MmbpRequest

end Mmkvc
