/-
# Parsing into a message that is in use

`ParseFrom` clears the strings it fills, but resizes the vectors and appends to the elements
they had.  `mmbp_parseFrom_replaces_iff` says exactly which messages it replaces.
-/
import Mmkvc.MmbpResponse

namespace Mmkvc

namespace MmbpRequest

/-- The same command, the same has-bits, and the same content of every field that they flag. -/
structure SameFlagged (r' f : MmbpRequest) : Prop where
  command : r'.command = f.command
  hasBits : r'.hasBits = f.hasBits
  key : f.hasKey → r'.key = f.key
  value : f.hasValue → r'.value = f.value
  expireTime : f.hasExpireTime → r'.expireTime = f.expireTime
  values : f.hasValues → r'.values = f.values
  kvs : f.hasKvs → r'.kvs = f.kvs
  count : f.hasCount → r'.count = f.count
  range : f.hasRange → r'.range = f.range
  vmembers : f.hasVmembers → r'.vmembers = f.vmembers

/-- `ParseFrom` on the serialization of `r` leaves in `r₀` what it leaves in a fresh message. -/
def Replaces (kv : Kvarint) (kn : Kanon) (r₀ r : MmbpRequest) : Prop :=
  ∀ r₁ : MmbpRequest, r₁.IsFresh → ∀ t : Bytes, ∃ r' f,
    (r₀.parseFrom kv kn).run (r.serializeTo kv kn ++ t) = .ok ((true, r'), t)
      ∧ (r₁.parseFrom kv kn).run (r.serializeTo kv kn ++ t) = .ok ((true, f), t)
      ∧ r'.SameFlagged f

/-- The vector that `r` sends meets empty elements alone; of the fields that `r` flags and does not
send, a vector is empty in `r₀`, and none is one that a fresh message leaves uninitialised. -/
structure Clear (r₀ r : MmbpRequest) : Prop where
  values : r.hasValues → if r.hasValue then r₀.values = []
    else ∀ v ∈ r₀.values.take r.values.length, v = []
  kvs : r.hasKvs → if r.hasValue ∨ r.hasValues then r₀.kvs = []
    else ∀ e ∈ r₀.kvs.take r.kvs.length, e.key = [] ∧ e.value = []
  count : r.hasCount → ¬ (r.hasValue ∨ r.hasValues ∨ r.hasKvs)
  range : r.hasRange → ¬ (r.hasValue ∨ r.hasValues ∨ r.hasKvs ∨ r.hasCount)
  vmembers : r.hasVmembers →
    if r.hasValue ∨ r.hasValues ∨ r.hasKvs ∨ r.hasCount ∨ r.hasRange then r₀.vmembers = []
    else ∀ v ∈ r₀.vmembers.take r.vmembers.length, v.value = []

/-! ## Field by field -/

section

variable {r₀ r₁ r : MmbpRequest}

theorem carryInto_value (h : r.hasValue) :
    (carryInto r₀ r).value = (carry r₁ r).value := by
  simp only [carryInto, carry, carryExpireTime, carryPayloadInto, carryPayload, h, if_true]

/-- The values are as in a fresh message exactly if the old ones that stay, or that they are read
into, were empty. -/
theorem carryInto_values_iff (hf : r₁.IsFresh) (h : r.hasValues) :
    (carryInto r₀ r).values = (carry r₁ r).values
      ↔ if r.hasValue then r₀.values = []
        else ∀ v ∈ r₀.values.take r.values.length, v = [] := by
  rw [← readInto_strValues_iff]
  simp only [carryInto, carry, carryExpireTime, carryPayloadInto, carryPayload, h, if_true]
  split_ifs
  · rw [carryKey, carryKey, hf.values]
  · rfl

/-- The pairs are as in a fresh message exactly if the old ones that stay, or that they are read
into, were empty. -/
theorem carryInto_kvs_iff (hf : r₁.IsFresh) (h : r.hasKvs) :
    (carryInto r₀ r).kvs = (carry r₁ r).kvs
      ↔ if r.hasValue ∨ r.hasValues then r₀.kvs = []
        else ∀ e ∈ r₀.kvs.take r.kvs.length, e.key = [] ∧ e.value = [] := by
  rw [← readInto_strKvs_iff]
  simp only [carryInto, carry, carryExpireTime, carryPayloadInto, carryPayload, h, if_true]
  by_cases h1 : r.hasValue <;> by_cases h3 : r.hasValues <;>
    simp [h1, h3, carryKey, hf.kvs]

/-- The weights are as in a fresh message exactly if the old ones that stay, or that they are read
into, were empty. -/
theorem carryInto_vmembers_iff (hf : r₁.IsFresh) (h : r.hasVmembers) :
    (carryInto r₀ r).vmembers = (carry r₁ r).vmembers
      ↔ if r.hasValue ∨ r.hasValues ∨ r.hasKvs ∨ r.hasCount ∨ r.hasRange then r₀.vmembers = []
        else ∀ v ∈ r₀.vmembers.take r.vmembers.length, v.value = [] := by
  rw [← readInto_weightValues_iff]
  simp only [carryInto, carry, carryExpireTime, carryPayloadInto, carryPayload, h, if_true]
  by_cases h1 : r.hasValue <;> by_cases h3 : r.hasValues <;> by_cases h4 : r.hasKvs <;>
    by_cases h5 : r.hasCount <;> by_cases h6 : r.hasRange <;>
      simp [h1, h3, h4, h5, h6, carryKey, setCount, hf.vmembers]

/-- A count that is sent is written over. -/
theorem carryInto_count (h : r.hasCount) (hsent : ¬ (r.hasValue ∨ r.hasValues ∨ r.hasKvs)) :
    (carryInto r₀ r).count = (carry r₁ r).count := by
  obtain ⟨h1, hsent⟩ := not_or.mp hsent
  obtain ⟨h3, h4⟩ := not_or.mp hsent
  simp only [carryInto, carry, carryExpireTime, carryPayloadInto, carryPayload, h, h1, h3, h4,
    if_true, if_false, Bool.false_eq_true]
  exact (count_setCount _ _).trans (count_setCount _ _).symm

/-- Otherwise the union is left as it was. -/
theorem carryInto_range_of_unsent (r₀ r₁ : MmbpRequest)
    (hunsent : r.hasValue ∨ r.hasValues ∨ r.hasKvs) :
    (carryInto r₀ r).range = r₀.range ∧ (carry r₁ r).range = r₁.range := by
  simp only [carryInto, carry, carryExpireTime, carryPayloadInto, carryPayload, carryKey]
  by_cases h1 : r.hasValue <;> by_cases h3 : r.hasValues <;> by_cases h4 : r.hasKvs <;>
    simp [h1, h3, h4] at hunsent ⊢

/-- A range that was sent replaces the old one. -/
theorem carryInto_range (h : r.hasRange)
    (hsent : ¬ (r.hasValue ∨ r.hasValues ∨ r.hasKvs ∨ r.hasCount)) :
    (carryInto r₀ r).range = (carry r₁ r).range := by
  obtain ⟨h1, hsent⟩ := not_or.mp hsent
  obtain ⟨h3, hsent⟩ := not_or.mp hsent
  obtain ⟨h4, h5⟩ := not_or.mp hsent
  simp only [carryInto, carry, carryExpireTime, carryPayloadInto, carryPayload, h, h1, h3, h4, h5,
    if_true, if_false, Bool.false_eq_true]

/-- A count does not reach the second word of the union. -/
theorem carryInto_right_of_unsent (r₀ r₁ : MmbpRequest)
    (hunsent : r.hasValue ∨ r.hasValues ∨ r.hasKvs ∨ r.hasCount) :
    (carryInto r₀ r).range.right = r₀.range.right
      ∧ (carry r₁ r).range.right = r₁.range.right := by
  simp only [carryInto, carry, carryExpireTime, carryPayloadInto, carryPayload, carryKey]
  by_cases h1 : r.hasValue <;> by_cases h3 : r.hasValues <;> by_cases h4 : r.hasKvs <;>
    by_cases h5 : r.hasCount <;> simp [h1, h3, h4, h5, setCount] at hunsent ⊢

theorem carryInto_head (r₀ r : MmbpRequest) :
    (carryInto r₀ r).command = r.command ∧ (carryInto r₀ r).hasBits = r.hasBits
      ∧ (carryInto r₀ r).key = (carryKey r₀ r).key :=
  carryPayloadInto_head (carryKey { r₀ with command := r.command, hasBits := r.hasBits } r) r

/-- The head of what is carried over is the one that was sent. -/
theorem carry_head (r₀ r : MmbpRequest) :
    (carry r₀ r).command = r.command ∧ (carry r₀ r).hasBits = r.hasBits
      ∧ (carry r₀ r).key = (carryKey r₀ r).key :=
  carryPayload_head (carryKey { r₀ with command := r.command, hasBits := r.hasBits } r) r

/-- A fresh message whose union differs from that of `r₀` in each half. -/
def freshBut (r₀ : MmbpRequest) : MmbpRequest :=
  { r₀ with hasBits := 0, command := commandNum, key := [], kvs := [], values := [], value := [],
            vmembers := [], range := { left := r₀.range.left + 1, right := r₀.range.right + 1 } }

theorem freshBut_isFresh (r₀ : MmbpRequest) : (freshBut r₀).IsFresh :=
  ⟨rfl, rfl, rfl, rfl, rfl, rfl, rfl⟩

/-- A fresh message can have another count. -/
theorem count_freshBut_ne (r₀ : MmbpRequest) : r₀.count ≠ (freshBut r₀).count := by
  show r₀.range.left.setWidth 32 ≠ (r₀.range.left + 1#64).setWidth 32
  rw [BitVec.setWidth_add _ _ (by norm_num)]
  simp

theorem right_freshBut_ne (r₀ : MmbpRequest) : r₀.range.right ≠ (freshBut r₀).range.right := by
  show r₀.range.right ≠ r₀.range.right + 1#64
  simp

end

/-- **Which requests a parse replaces.** -/
theorem replaces_iff {kv : Kvarint} {kn : Kanon} (hkv : kv.Inverse) (hkn : kn.Inverse64)
    (r₀ : MmbpRequest) {r : MmbpRequest} (hr : r.Encodable) :
    Replaces kv kn r₀ r ↔ Clear r₀ r := by
  have hused := reads_parseFrom_into hkv hkn r₀ r hr
  have hfresh : ∀ r₁ : MmbpRequest, r₁.IsFresh →
      Reader.Reads (r₁.parseFrom kv kn) (r.serializeTo kv kn) (true, carry r₁ r) :=
    fun r₁ hf => reads_parseFrom hkv hkn r₁ r hr hf.values hf.kvs hf.vmembers
  have hflag : ∀ (r₁ : MmbpRequest) (i : ℕ),
      testBit (carry r₁ r).hasBits i = testBit r.hasBits i := by
    intro r₁ i
    rw [(carry_head r₁ r).2.1]
  constructor
  · intro h
    have hf := freshBut_isFresh r₀
    obtain ⟨r', f, hr', hf', hsame⟩ := h (freshBut r₀) hf []
    obtain ⟨⟨-, rfl⟩, -⟩ := Prod.mk.inj (Except.ok.inj ((hused []).symm.trans hr'))
    obtain ⟨⟨-, rfl⟩, -⟩ := Prod.mk.inj (Except.ok.inj ((hfresh _ hf []).symm.trans hf'))
    constructor
    case values =>
      exact fun hv => (carryInto_values_iff hf hv).mp (hsame.values ((hflag _ 3).trans hv))
    case kvs => exact fun hk => (carryInto_kvs_iff hf hk).mp (hsame.kvs ((hflag _ 4).trans hk))
    case count =>
      intro hc hunsent
      obtain ⟨hleft, hright⟩ := carryInto_range_of_unsent r₀ (freshBut r₀) hunsent
      have hcount := hsame.count ((hflag _ 5).trans hc)
      rw [count, hleft, count, hright] at hcount
      exact count_freshBut_ne r₀ hcount
    case range =>
      intro hg hunsent
      obtain ⟨hleft, hright⟩ := carryInto_right_of_unsent r₀ (freshBut r₀) hunsent
      have hrange := congrArg Range.right (hsame.range ((hflag _ 6).trans hg))
      rw [hleft, hright] at hrange
      exact right_freshBut_ne r₀ hrange
    case vmembers =>
      exact fun hv => (carryInto_vmembers_iff hf hv).mp (hsame.vmembers ((hflag _ 7).trans hv))
  · intro h r₁ hf t
    obtain ⟨hcmd, hbits, hkey⟩ := carryInto_head r₀ r
    obtain ⟨hcmd', hbits', hkey'⟩ := carry_head r₁ r
    refine ⟨_, _, hused t, hfresh r₁ hf t, ?_⟩
    constructor
    case command => exact hcmd.trans hcmd'.symm
    case hasBits => exact hbits.trans hbits'.symm
    case key =>
      intro hk
      have hk' : r.hasKey := (hflag r₁ 0).symm.trans hk
      rw [hkey, hkey']
      exact (if_pos hk').trans (if_pos hk').symm
    case value => exact fun hv => carryInto_value ((hflag r₁ 1).symm.trans hv)
    case expireTime =>
      intro he
      have he' : r.hasExpireTime := (hflag r₁ 2).symm.trans he
      exact (if_pos he').trans (if_pos he').symm
    case values =>
      intro hv
      have hv' : r.hasValues := (hflag r₁ 3).symm.trans hv
      exact (carryInto_values_iff hf hv').mpr (h.values hv')
    case kvs =>
      intro hk
      have hk' : r.hasKvs := (hflag r₁ 4).symm.trans hk
      exact (carryInto_kvs_iff hf hk').mpr (h.kvs hk')
    case count =>
      intro hc
      have hc' : r.hasCount := (hflag r₁ 5).symm.trans hc
      exact carryInto_count hc' (h.count hc')
    case range =>
      intro hg
      have hg' : r.hasRange := (hflag r₁ 6).symm.trans hg
      exact carryInto_range hg' (h.range hg')
    case vmembers =>
      intro hv
      have hv' : r.hasVmembers := (hflag r₁ 7).symm.trans hv
      exact (carryInto_vmembers_iff hf hv').mpr (h.vmembers hv')

end MmbpRequest

namespace MmbpResponse

/-- The same status code, the same has-bits, and the same content of every field that they flag. -/
structure SameFlagged (r' f : MmbpResponse) : Prop where
  statusCode : r'.statusCode = f.statusCode
  hasBits : r'.hasBits = f.hasBits
  value : f.hasValue → r'.value = f.value
  values : f.hasValues → r'.values = f.values
  kvs : f.hasKvs → r'.kvs = f.kvs
  count : f.hasCount → r'.count = f.count
  vmembers : f.hasVmembers → r'.vmembers = f.vmembers

/-- `ParseFrom` on the serialization of `r` leaves in `r₀` what it leaves in a fresh message. -/
def Replaces (kv : Kvarint) (kn : Kanon) (r₀ r : MmbpResponse) : Prop :=
  ∀ (count : BitVec 64) (t : Bytes), ∃ r' f,
    (r₀.parseFrom kv kn).run (r.serializeTo kv kn ++ t) = .ok ((true, r'), t)
      ∧ ((fresh count).parseFrom kv kn).run (r.serializeTo kv kn ++ t) = .ok ((true, f), t)
      ∧ r'.SameFlagged f

/-- See `MmbpRequest.Clear`. -/
structure Clear (r₀ r : MmbpResponse) : Prop where
  values : r.hasValues → if r.hasValue then r₀.values = []
    else ∀ v ∈ r₀.values.take r.values.length, v = []
  kvs : r.hasKvs → if r.hasValue ∨ r.hasValues then r₀.kvs = []
    else ∀ e ∈ r₀.kvs.take r.kvs.length, e.key = [] ∧ e.value = []
  count : r.hasCount → ¬ (r.hasValue ∨ r.hasValues ∨ r.hasKvs)
  vmembers : r.hasVmembers →
    if r.hasValue ∨ r.hasValues ∨ r.hasKvs ∨ r.hasCount then r₀.vmembers = []
    else ∀ v ∈ r₀.vmembers.take r.vmembers.length, v.value = []

section

variable {r₀ r : MmbpResponse} {c : BitVec 64}

theorem carryInto_value (h : r.hasValue) :
    (carryInto r₀ r).value = (carry (fresh c) r).value := by
  simp only [carryInto, carry, carryPayloadInto, carryPayload, h, if_true]

/-- The values are as in a fresh message exactly if the old ones that stay, or that they are read
into, were empty. -/
theorem carryInto_values_iff (h : r.hasValues) :
    (carryInto r₀ r).values = (carry (fresh c) r).values
      ↔ if r.hasValue then r₀.values = []
        else ∀ v ∈ r₀.values.take r.values.length, v = [] := by
  rw [← readInto_strValues_iff]
  simp only [carryInto, carry, carryPayloadInto, carryPayload, h, if_true]
  by_cases h0 : r.hasValue <;> simp [h0, fresh]

/-- The pairs are as in a fresh message exactly if the old ones that stay, or that they are read
into, were empty. -/
theorem carryInto_kvs_iff (h : r.hasKvs) :
    (carryInto r₀ r).kvs = (carry (fresh c) r).kvs
      ↔ if r.hasValue ∨ r.hasValues then r₀.kvs = []
        else ∀ e ∈ r₀.kvs.take r.kvs.length, e.key = [] ∧ e.value = [] := by
  rw [← readInto_strKvs_iff]
  simp only [carryInto, carry, carryPayloadInto, carryPayload, h, if_true]
  by_cases h0 : r.hasValue <;> by_cases h1 : r.hasValues <;> simp [h0, h1, fresh]

/-- The count is read, or both messages had it before. -/
theorem carryInto_count_iff (h : r.hasCount) :
    (carryInto r₀ r).count = (carry (fresh c) r).count
      ↔ r.hasValue ∨ r.hasValues ∨ r.hasKvs → r₀.count = c := by
  simp only [carryInto, carry, carryPayloadInto, carryPayload, h, if_true]
  by_cases h0 : r.hasValue <;> by_cases h1 : r.hasValues <;> by_cases h2 : r.hasKvs <;>
    simp [h0, h1, h2, fresh]

/-- The weights are as in a fresh message exactly if the old ones that stay, or that they are read
into, were empty. -/
theorem carryInto_vmembers_iff (h : r.hasVmembers) :
    (carryInto r₀ r).vmembers = (carry (fresh c) r).vmembers
      ↔ if r.hasValue ∨ r.hasValues ∨ r.hasKvs ∨ r.hasCount then r₀.vmembers = []
        else ∀ v ∈ r₀.vmembers.take r.vmembers.length, v.value = [] := by
  rw [← readInto_weightValues_iff]
  simp only [carryInto, carry, carryPayloadInto, carryPayload, h, if_true]
  by_cases h0 : r.hasValue <;> by_cases h1 : r.hasValues <;> by_cases h2 : r.hasKvs <;>
    by_cases h3 : r.hasCount <;> simp [h0, h1, h2, h3, fresh]

end

/-- **Which responses a parse replaces.** -/
theorem replaces_iff {kv : Kvarint} {kn : Kanon} (hkv : kv.Inverse) (hkn : kn.Inverse64)
    (r₀ : MmbpResponse) {r : MmbpResponse} (hr : r.Encodable) :
    Replaces kv kn r₀ r ↔ Clear r₀ r := by
  have hused := reads_parseFrom_into hkv hkn r₀ r hr
  have hfresh : ∀ c : BitVec 64,
      Reader.Reads ((fresh c).parseFrom kv kn) (r.serializeTo kv kn) (true, carry (fresh c) r) :=
    fun c => reads_parseFrom hkv hkn (fresh c) r hr rfl rfl rfl
  have hflag : ∀ (c : BitVec 64) (i : ℕ),
      testBit (carry (fresh c) r).hasBits i = testBit r.hasBits i := by
    intro c i
    rw [(carry_sameOnWire (fresh c) r).hasBits]
  have hbits : (carryInto r₀ r).statusCode = r.statusCode
      ∧ (carryInto r₀ r).hasBits = r.hasBits := by
    unfold carryInto carryPayloadInto
    split_ifs <;> exact ⟨rfl, rfl⟩
  constructor
  · intro h
    obtain ⟨r', f, hr', hf', hsame⟩ := h (r₀.count + 1) []
    obtain ⟨⟨-, rfl⟩, -⟩ := Prod.mk.inj (Except.ok.inj ((hused []).symm.trans hr'))
    obtain ⟨⟨-, rfl⟩, -⟩ := Prod.mk.inj (Except.ok.inj ((hfresh _ []).symm.trans hf'))
    constructor
    case values => exact fun hv => (carryInto_values_iff hv).mp (hsame.values ((hflag _ 1).trans hv))
    case kvs => exact fun hk => (carryInto_kvs_iff hk).mp (hsame.kvs ((hflag _ 2).trans hk))
    case count =>
      intro hc hunsent
      have hcount := (carryInto_count_iff hc).mp (hsame.count ((hflag _ 3).trans hc)) hunsent
      have hne : r₀.count ≠ r₀.count + 1#64 := by simp
      exact hne hcount
    case vmembers =>
      exact fun hv => (carryInto_vmembers_iff hv).mp (hsame.vmembers ((hflag _ 4).trans hv))
  · intro h c t
    refine ⟨_, _, hused t, hfresh c t, ?_⟩
    have hsent := carry_sameOnWire (fresh c) r
    constructor
    case statusCode => exact hbits.1.trans hsent.statusCode.symm
    case hasBits => exact hbits.2.trans hsent.hasBits.symm
    case value => exact fun hv => carryInto_value ((hflag c 0).symm.trans hv)
    case values =>
      intro hv
      have hv' : r.hasValues := (hflag c 1).symm.trans hv
      exact (carryInto_values_iff hv').mpr (h.values hv')
    case kvs =>
      intro hk
      have hk' : r.hasKvs := (hflag c 2).symm.trans hk
      exact (carryInto_kvs_iff hk').mpr (h.kvs hk')
    case count =>
      intro hc
      have hc' : r.hasCount := (hflag c 3).symm.trans hc
      exact (carryInto_count_iff hc').mpr fun hunsent => absurd hunsent (h.count hc')
    case vmembers =>
      intro hv
      have hv' : r.hasVmembers := (hflag c 4).symm.trans hv
      exact (carryInto_vmembers_iff hv').mpr (h.vmembers hv')

end MmbpResponse

/-- **When parsing replaces the message.**  Exactly if the vector that is sent meets no element
with content, and a field flagged behind the one that is sent is an empty vector. -/
theorem mmbp_parseFrom_replaces_iff {kv : Kvarint} {kn : Kanon} (hkv : kv.Inverse)
    (hkn : kn.Inverse64) :
    (∀ r₀ r : MmbpRequest, r.Encodable →
        (MmbpRequest.Replaces kv kn r₀ r ↔ MmbpRequest.Clear r₀ r))
      ∧ ∀ r₀ r : MmbpResponse, r.Encodable →
        (MmbpResponse.Replaces kv kn r₀ r ↔ MmbpResponse.Clear r₀ r) :=
  ⟨fun r₀ _ hr => MmbpRequest.replaces_iff hkv hkn r₀ hr,
    fun r₀ _ hr => MmbpResponse.replaces_iff hkv hkn r₀ hr⟩

/-- The response that carries the values `b` and `c`. -/
def MmbpResponse.twoValues : MmbpResponse :=
  { MmbpResponse.fresh 0 with hasBits := setBit 0 1, values := [[98], [99]] }

theorem MmbpResponse.twoValues_encodable : MmbpResponse.twoValues.Encodable := by
  constructor <;> decide

/-- It replaces a response whose values are empty strings. -/
theorem mmbp_parseFrom_replaces_twoValues :
    MmbpResponse.Replaces Kvarint.leb128 Kanon.bigEndian
      { MmbpResponse.fresh 0 with values := [[], [], [97]] } MmbpResponse.twoValues := by
  refine ((mmbp_parseFrom_replaces_iff Kvarint.leb128_inverse Kanon.bigEndian_inverse64).2 _ _
    MmbpResponse.twoValues_encodable).mpr ?_
  constructor <;> decide

/-- The values of the message before are still in front of the ones that were sent. -/
theorem mmbp_parseFrom_not_replaces :
    ¬ ∀ r₀ r : MmbpResponse, r.Encodable →
      MmbpResponse.Replaces Kvarint.leb128 Kanon.bigEndian r₀ r := by
  intro h
  have hrun := MmbpResponse.reads_parseFrom_into Kvarint.leb128_inverse Kanon.bigEndian_inverse64
    { MmbpResponse.fresh 0 with values := [[97]] } MmbpResponse.twoValues
    MmbpResponse.twoValues_encodable []
  have hfresh := MmbpResponse.reads_parseFrom Kvarint.leb128_inverse Kanon.bigEndian_inverse64
    (MmbpResponse.fresh 0) MmbpResponse.twoValues MmbpResponse.twoValues_encodable rfl rfl rfl []
  obtain ⟨r', f, hr', hf', hsame⟩ := h { MmbpResponse.fresh 0 with values := [[97]] }
    MmbpResponse.twoValues MmbpResponse.twoValues_encodable 0 []
  obtain ⟨⟨-, rfl⟩, -⟩ := Prod.mk.inj (Except.ok.inj (hrun.symm.trans hr'))
  obtain ⟨⟨-, rfl⟩, -⟩ := Prod.mk.inj (Except.ok.inj (hfresh.symm.trans hf'))
  exact absurd (hsame.values (by decide)) (by decide)

end Mmkvc
