/-
# The value a client's callback is given (`client/mmkv_value.{h,cc}`)

`MmkvValue` is a union with a tag.  A member of class type may only be assigned
to while it is alive; the constructors of the class never start its life, so such
an assignment is a fault, as is the failing assertion of an accessor.
-/
import Mmkvc.MmbpResponse

namespace Mmkvc

/-- What goes wrong in the client. -/
inductive ClientFault where
  /-- A union member is used that is not alive. -/
  | inactiveMember
  /-- An `ASSERT` fails. -/
  | assertion
  /-- `front()` of an empty queue. -/
  | emptyQueue
  deriving DecidableEq, Repr

/-- `MmkvValue::ValueType`. -/
inductive ValueType where
  | V_INVALID
  | V_COUNT
  | V_STR_VALUE
  | V_STR_VALUES
  | V_STR_KVS
  | V_WEIGHT_VALUES
  | V_WEIGHT
  | V_USR
  deriving DecidableEq, Repr

/-- The union: the member that is alive.  The weight is the bit pattern of the `double`. -/
inductive Payload where
  | none
  | count (count : BitVec 64)
  | value (value : Bytes)
  | values (values : StrValues)
  | kvs (kvs : StrKvs)
  | wvs (wvs : WeightValues)
  | weight (weight : BitVec 64)
  | data (data : BitVec 64)
  deriving DecidableEq, Repr

/-- The member of the union that a tag stands for. -/
def ValueType.Names : ValueType → Payload → Prop
  | .V_INVALID, .none => True
  | .V_COUNT, .count _ => True
  | .V_STR_VALUE, .value _ => True
  | .V_STR_VALUES, .values _ => True
  | .V_STR_KVS, .kvs _ => True
  | .V_WEIGHT_VALUES, .wvs _ => True
  | .V_WEIGHT, .weight _ => True
  | .V_USR, .data _ => True
  | _, _ => False

instance (type : ValueType) (payload : Payload) : Decidable (type.Names payload) := by
  unfold ValueType.Names
  split <;> infer_instance

/-- `MmkvValue`. -/
structure MmkvValue where
  statusCode : StatusCode
  type : ValueType
  payload : Payload
  deriving DecidableEq, Repr

namespace MmkvValue

/-- `MmkvValue()`; the status code is not initialised. -/
def construct (statusCode : StatusCode) : MmkvValue where
  statusCode := statusCode
  type := .V_INVALID
  payload := .none

/-! ## Members of the union -/

/-- `this->value = ...`. -/
def assignValue (v : MmkvValue) (value : Bytes) : Except ClientFault MmkvValue :=
  match v.payload with
  | .value _ => .ok { v with payload := .value value }
  | _ => .error .inactiveMember

/-- `this->values = ...`. -/
def assignValues (v : MmkvValue) (values : StrValues) : Except ClientFault MmkvValue :=
  match v.payload with
  | .values _ => .ok { v with payload := .values values }
  | _ => .error .inactiveMember

/-- `this->kvs = ...`. -/
def assignKvs (v : MmkvValue) (kvs : StrKvs) : Except ClientFault MmkvValue :=
  match v.payload with
  | .kvs _ => .ok { v with payload := .kvs kvs }
  | _ => .error .inactiveMember

/-- `this->wvs = ...`. -/
def assignWvs (v : MmkvValue) (wvs : WeightValues) : Except ClientFault MmkvValue :=
  match v.payload with
  | .wvs _ => .ok { v with payload := .wvs wvs }
  | _ => .error .inactiveMember

/-- `this->value`. -/
def getValue (v : MmkvValue) : Except ClientFault Bytes :=
  match v.payload with
  | .value value => .ok value
  | _ => .error .inactiveMember

/-- `ToStrValue`. -/
def toStrValue (v : MmkvValue) : Except ClientFault Bytes :=
  if v.type = .V_STR_VALUE then v.getValue else .error .assertion

/-! ## Moves -/

/-- The switch of the move constructor, over the tag that the source has by then:
the member is moved from `rhs`, and an assignment to a number starts its life. -/
def moveMember (type : ValueType) (v rhs : MmkvValue) :
    Except ClientFault (MmkvValue × MmkvValue) :=
  match type, rhs.payload with
  | .V_COUNT, .count count => .ok ({ v with payload := .count count }, rhs)
  | .V_COUNT, _ => .error .inactiveMember
  | .V_STR_VALUE, .value value => do
    let v ← v.assignValue value
    return (v, { rhs with payload := .value [] })
  | .V_STR_VALUE, _ => .error .inactiveMember
  | .V_STR_VALUES, .values values => do
    let v ← v.assignValues values
    return (v, { rhs with payload := .values [] })
  | .V_STR_VALUES, _ => .error .inactiveMember
  | .V_STR_KVS, .kvs kvs => do
    let v ← v.assignKvs kvs
    return (v, { rhs with payload := .kvs [] })
  | .V_STR_KVS, _ => .error .inactiveMember
  | .V_WEIGHT, .weight weight => .ok ({ v with payload := .weight weight }, rhs)
  | .V_WEIGHT, _ => .error .inactiveMember
  | .V_WEIGHT_VALUES, .wvs wvs => do
    let v ← v.assignWvs wvs
    return (v, { rhs with payload := .wvs [] })
  | .V_WEIGHT_VALUES, _ => .error .inactiveMember
  | .V_USR, _ => .error .assertion
  | .V_INVALID, _ => .ok (v, rhs)

/-- `MmkvValue(MmkvValue &&rhs)`: the new object, and what is left of `rhs`.  The tag
of `rhs` is reset before the switch over it. -/
def moveConstruct (rhs : MmkvValue) : Except ClientFault (MmkvValue × MmkvValue) :=
  let v : MmkvValue := { statusCode := rhs.statusCode, type := rhs.type, payload := .none }
  let rhs : MmkvValue := { rhs with statusCode := S_UNSET, type := .V_INVALID }
  moveMember rhs.type v rhs

/-- `operator=(MmkvValue &&)` constructs in place of the old object. -/
def moveAssign (_this rhs : MmkvValue) : Except ClientFault (MmkvValue × MmkvValue) :=
  moveConstruct rhs

/-- A move takes the status and the tag, and never the payload. -/
theorem moveConstruct_eq (rhs : MmkvValue) :
    moveConstruct rhs = .ok
      ({ statusCode := rhs.statusCode, type := rhs.type, payload := .none },
        { rhs with statusCode := S_UNSET, type := .V_INVALID }) := rfl

/-! ## Copies -/

/-- The switch of the copy constructor. -/
def copyMember (type : ValueType) (v rhs : MmkvValue) : Except ClientFault MmkvValue :=
  match type, rhs.payload with
  | .V_COUNT, .count count => .ok { v with payload := .count count }
  | .V_COUNT, _ => .error .inactiveMember
  | .V_STR_VALUE, .value value => v.assignValue value
  | .V_STR_VALUE, _ => .error .inactiveMember
  | .V_STR_VALUES, .values values => v.assignValues values
  | .V_STR_VALUES, _ => .error .inactiveMember
  | .V_STR_KVS, .kvs kvs => v.assignKvs kvs
  | .V_STR_KVS, _ => .error .inactiveMember
  | .V_WEIGHT, .weight weight => .ok { v with payload := .weight weight }
  | .V_WEIGHT, _ => .error .inactiveMember
  | .V_WEIGHT_VALUES, .wvs wvs => v.assignWvs wvs
  | .V_WEIGHT_VALUES, _ => .error .inactiveMember
  | .V_USR, _ => .error .assertion
  | .V_INVALID, _ => .ok v

/-- `MmkvValue(MmkvValue const &rhs)`. -/
def copyConstruct (rhs : MmkvValue) : Except ClientFault MmkvValue :=
  copyMember rhs.type { statusCode := rhs.statusCode, type := rhs.type, payload := .none } rhs

/-- `operator=(MmkvValue const &)` constructs in place of the old object. -/
def copyAssign (_this rhs : MmkvValue) : Except ClientFault MmkvValue := copyConstruct rhs

/-! ## Swaps -/

/-- `std::swap` of the members with the tag `type`. -/
def swapPayload (type : ValueType) (v rhs : MmkvValue) :
    Except ClientFault (MmkvValue × MmkvValue) :=
  if type.Names v.payload ∧ type.Names rhs.payload then
    .ok ({ v with payload := rhs.payload }, { rhs with payload := v.payload })
  else .error .inactiveMember

/-- The switch of `swap`. -/
def swapMember (type : ValueType) (v rhs : MmkvValue) :
    Except ClientFault (MmkvValue × MmkvValue) :=
  match type with
  | .V_STR_VALUE => swapPayload .V_STR_VALUE v rhs
  | .V_STR_VALUES => swapPayload .V_STR_VALUES v rhs
  | .V_COUNT => swapPayload .V_COUNT v rhs
  | .V_WEIGHT => swapPayload .V_WEIGHT v rhs
  | .V_WEIGHT_VALUES => swapPayload .V_WEIGHT_VALUES v rhs
  | .V_STR_KVS => swapPayload .V_STR_KVS v rhs
  | .V_USR => .ok (v, rhs)
  | .V_INVALID => .ok (v, rhs)

/-- `swap`: status and tag first; the members only where the tags are equal. -/
def swap (v rhs : MmkvValue) : Except ClientFault (MmkvValue × MmkvValue) :=
  let v' : MmkvValue := { v with statusCode := rhs.statusCode, type := rhs.type }
  let rhs' : MmkvValue := { rhs with statusCode := v.statusCode, type := v.type }
  if v'.type = rhs'.type then swapMember v'.type v' rhs' else .ok (v', rhs')

/-! ## The union as a value -/

/-- The payload that is set is the one the tag names. -/
def Tagged (v : MmkvValue) : Prop := v.type.Names v.payload

instance (v : MmkvValue) : Decidable v.Tagged :=
  inferInstanceAs (Decidable (v.type.Names v.payload))

/-- `v` has status, kind and payload of `x`. -/
def Observes (v x : MmkvValue) : Prop :=
  v.statusCode = x.statusCode ∧ v.type = x.type ∧ v.payload = x.payload ∧ v.Tagged

/-- The operations on `x` and `y`, with `this` for the object assigned to. -/
def MovesFaithfully (this x : MmkvValue) : Prop :=
  (∃ x' rest, moveConstruct x = .ok (x', rest) ∧ x'.Observes x)
    ∧ ∃ x' rest, moveAssign this x = .ok (x', rest) ∧ x'.Observes x

/-- See `MovesFaithfully`. -/
def CopiesFaithfully (this x : MmkvValue) : Prop :=
  (∃ x', copyConstruct x = .ok x' ∧ x'.Observes x)
    ∧ ∃ x', copyAssign this x = .ok x' ∧ x'.Observes x

/-- See `MovesFaithfully`. -/
def SwapsFaithfully (x y : MmkvValue) : Prop :=
  ∃ x' y', swap x y = .ok (x', y') ∧ x'.Observes y ∧ y'.Observes x

/-- `MmkvValue` is a faithful tagged union at `x` and `y`. -/
structure Faithful (this x y : MmkvValue) : Prop where
  moves : MovesFaithfully this x
  copies : CopiesFaithfully this x
  swaps : SwapsFaithfully x y

/-- A member is named by one tag. -/
theorem names_unique {type type' : ValueType} {payload : Payload} (h : type.Names payload)
    (h' : type'.Names payload) : type = type' := by
  cases payload <;> cases type <;> first
    | exact h.elim
    | (cases type' <;> first | rfl | exact h'.elim)

theorem names_invalid {payload : Payload} (h : ValueType.V_INVALID.Names payload) :
    payload = .none := by
  cases payload <;> first | rfl | exact h.elim

/-- Two tagged values are observed alike only if they are equal. -/
theorem observes_iff {v x : MmkvValue} (hx : x.Tagged) : v.Observes x ↔ v = x := by
  constructor
  · rintro ⟨hstatus, htype, hpayload, -⟩
    obtain ⟨s, t, p⟩ := v
    obtain ⟨s', t', p'⟩ := x
    simp only at hstatus htype hpayload
    rw [hstatus, htype, hpayload]
  · rintro rfl
    exact ⟨rfl, rfl, rfl, hx⟩

/-- Only a value without a kind has no payload to lose. -/
theorem movesFaithfully_iff (this : MmkvValue) {x : MmkvValue} (hx : x.Tagged) :
    MovesFaithfully this x ↔ x.type = .V_INVALID := by
  simp only [MovesFaithfully, moveAssign, and_self, observes_iff hx, moveConstruct_eq]
  obtain ⟨s, t, p⟩ := x
  constructor
  · rintro ⟨x', rest, hmove, rfl⟩
    have hp : Payload.none = p :=
      congrArg (fun r : MmkvValue × MmkvValue => r.1.payload) (Except.ok.inj hmove)
    subst hp
    cases t <;> first | rfl | exact hx.elim
  · intro ht
    obtain rfl : t = .V_INVALID := ht
    obtain rfl : p = .none := names_invalid hx
    exact ⟨_, _, rfl, rfl⟩

/-- A member of class type is assigned to before its life has begun. -/
theorem copiesFaithfully_iff (this : MmkvValue) {x : MmkvValue} (hx : x.Tagged) :
    CopiesFaithfully this x
      ↔ x.type = .V_INVALID ∨ x.type = .V_COUNT ∨ x.type = .V_WEIGHT := by
  simp only [CopiesFaithfully, copyAssign, and_self, observes_iff hx, copyConstruct]
  obtain ⟨s, t, p⟩ := x
  cases t <;> cases p <;>
    first
      | exact hx.elim
      | simp [copyMember, assignValue, assignValues, assignKvs, assignWvs]

/-- The payloads are exchanged between values of one kind, opaque pointers excepted. -/
theorem swapsFaithfully_iff {x y : MmkvValue} (hx : x.Tagged) (hy : y.Tagged) :
    SwapsFaithfully x y
      ↔ x.type = y.type ∧ (x.type = .V_USR → x.payload = y.payload) := by
  simp only [SwapsFaithfully, observes_iff hx, observes_iff hy]
  obtain ⟨s, t, p⟩ := x
  obtain ⟨s', t', p'⟩ := y
  by_cases htype : t = t'
  · subst htype
    have hx' : t.Names p := hx
    have hy' : t.Names p' := hy
    have hnone : t = .V_INVALID → p = p' := by
      rintro rfl
      rw [names_invalid hx', names_invalid hy']
    cases t <;> simp [swap, swapMember, swapPayload, hx', hy', eq_comm, hnone]
  · constructor
    · rintro ⟨x', y', hswap, rfl, rfl⟩
      rw [swap, if_neg (fun h => htype h.symm)] at hswap
      have hp : p = p' :=
        congrArg (fun r : MmkvValue × MmkvValue => r.1.payload) (Except.ok.inj hswap)
      subst hp
      exact absurd (names_unique hx hy) htype
    · rintro ⟨h, -⟩
      exact absurd h htype

/-! ## Responses -/

/-- The cast of a count to `double`. -/
def toDouble (count : BitVec 64) : BitVec 64 := (UInt64.ofBitVec count).toFloat.toBits.toBitVec

/-- `FromResponse`. -/
def fromResponse (v : MmkvValue) (r : MmbpResponse) : Except ClientFault MmkvValue :=
  let v := { v with statusCode := r.statusCode }
  match v.type with
  | .V_STR_VALUE => v.assignValue r.value
  | .V_STR_VALUES => v.assignValues r.values
  | .V_COUNT => .ok { v with payload := .count r.count }
  | .V_WEIGHT => .ok { v with payload := .weight (toDouble r.count) }
  | .V_WEIGHT_VALUES => v.assignWvs r.vmembers
  | .V_STR_KVS => v.assignKvs r.kvs
  | .V_USR => .ok v
  | .V_INVALID => .ok v

theorem toStrValue_invalid (v : MmkvValue) (h : v.type = .V_INVALID) :
    v.toStrValue = .error .assertion := by
  rw [toStrValue, h]
  rfl

end MmkvValue

/-- **When the tagged union is faithful.**  Of a move only values without a kind come out as they
were, of a copy also numbers; a swap exchanges the payloads of values of one kind, and opaque
pointers only if they are the same. -/
theorem mmkvValue_faithful_iff (this : MmkvValue) {x y : MmkvValue} (hx : x.Tagged)
    (hy : y.Tagged) :
    (MmkvValue.Faithful this x y ↔ x.type = .V_INVALID ∧ y.type = .V_INVALID)
      ∧ (MmkvValue.MovesFaithfully this x ↔ x.type = .V_INVALID)
      ∧ (MmkvValue.CopiesFaithfully this x
        ↔ x.type = .V_INVALID ∨ x.type = .V_COUNT ∨ x.type = .V_WEIGHT)
      ∧ (MmkvValue.SwapsFaithfully x y
        ↔ x.type = y.type ∧ (x.type = .V_USR → x.payload = y.payload)) := by
  have hmoves := MmkvValue.movesFaithfully_iff this hx
  have hcopies := MmkvValue.copiesFaithfully_iff this hx
  have hswaps := MmkvValue.swapsFaithfully_iff hx hy
  refine ⟨⟨fun h => ?_, fun ⟨hxt, hyt⟩ => ?_⟩, hmoves, hcopies, hswaps⟩
  · have hxt := hmoves.mp h.moves
    exact ⟨hxt, (hswaps.mp h.swaps).1.symm.trans hxt⟩
  · exact ⟨hmoves.mpr hxt, hcopies.mpr (Or.inl hxt),
      hswaps.mpr ⟨hxt.trans hyt.symm, fun husr => by rw [hxt] at husr; cases husr⟩⟩

/-- A count and a string: the count is copied and not moved, and they are not swapped. -/
theorem mmkvValue_faithful_iff_count :
    let x : MmkvValue := { statusCode := S_UNSET, type := .V_COUNT, payload := .count 3 }
    let y : MmkvValue := { statusCode := S_UNSET, type := .V_STR_VALUE, payload := .value [104] }
    ¬ MmkvValue.MovesFaithfully y x ∧ MmkvValue.CopiesFaithfully y x
      ∧ ¬ MmkvValue.SwapsFaithfully x y := by
  intro x y
  obtain ⟨-, hmoves, hcopies, hswaps⟩ :=
    mmkvValue_faithful_iff y (x := x) (y := y) (by decide) (by decide)
  exact ⟨fun h => absurd (hmoves.mp h) (by decide), hcopies.mpr (Or.inr (Or.inl rfl)),
    fun h => absurd (hswaps.mp h).1 (by decide)⟩

/-- A count that is moved is lost. -/
theorem mmkvValue_not_faithful :
    ¬ ∀ this x y : MmkvValue, x.Tagged → y.Tagged → MmkvValue.Faithful this x y := by
  intro h
  let x : MmkvValue := { statusCode := S_UNSET, type := .V_COUNT, payload := .count 3 }
  obtain ⟨⟨x', rest, hmove, -, -, hpayload, -⟩, -⟩ := (h x x x (by decide) (by decide)).moves
  obtain ⟨rfl, -⟩ := Prod.mk.inj (Except.ok.inj hmove)
  cases hpayload

end Mmkvc
