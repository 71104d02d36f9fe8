/-
# Components of the MMBP format (`protocol/mmbp_util.h`)

`ParseComponent` and `SerializeComponent` for the field types of requests and
responses.  A parsing overload takes the old content of the object it fills,
because some of them keep it: a vector is resized, and its elements are then
appended to.

The overloads on `void` return tell their caller nothing: a length prefix that
does not decode leaves the variable it was to be written to, which for a string
was never initialised.
-/
import Mmkvc.Externals

namespace Mmkvc

/-! ## Field types (`protocol/type.h`) -/

/-- `KeyValue<K, V>`. -/
structure KeyValue (K V : Type) where
  key : K
  value : V
  deriving DecidableEq, Repr

abbrev StrKeyValue := KeyValue Bytes Bytes
/-- `WeightValue`, the weight as the 64-bit pattern of the `double`. -/
abbrev WeightValue := KeyValue (BitVec 64) Bytes
abbrev StrValues := List Bytes
abbrev StrKvs := List StrKeyValue
abbrev WeightValues := List WeightValue

/-- `SetBit`. -/
def setBit (bits : BitVec 8) (idx : ℕ) : BitVec 8 := bits ||| (1#8 <<< idx)

/-- `TestBit`. -/
def testBit (bits : BitVec 8) (idx : ℕ) : Bool := bits &&& (1#8 <<< idx) != 0#8

/-- `std::vector::resize`. -/
def resize {α : Type} (l : List α) (n : ℕ) (a : α) : List α :=
  l.take n ++ List.replicate (n - l.length) a

theorem resize_nil {α : Type} (n : ℕ) (a : α) : resize [] n a = List.replicate n a := by
  simp [resize]

theorem length_resize {α : Type} (l : List α) (n : ℕ) (a : α) : (resize l n a).length = n := by
  rw [resize, List.length_append, List.length_take, List.length_replicate]
  omega

section

variable (kv : Kvarint) (kn : Kanon)

/-! ## Parse API -/

/-- `MMKV_PARSE_UNSIGNED_`: whether `i` was written, and its value. -/
def parseUnsigned (bits : ℕ) (i : BitVec bits) : Reader (Bool × BitVec bits) := fun b =>
  match kv.decode bits b with
  | .error _ => .ok ((false, i), b)
  | .ok (len, v) => (Reader.advance len >>= fun _ => pure (true, v)).run b

/-- `MMKV_PARSE_SIGNED_`. -/
def parseSigned (bits : ℕ) (i : BitVec bits) : Reader (Bool × BitVec bits) := fun b =>
  match kv.decodeSigned bits b with
  | .error _ => .ok ((false, i), b)
  | .ok (len, v) => (Reader.advance len >>= fun _ => pure (true, v)).run b

/-- `uint##bits##_t out; ParseComponent(out, buffer);` followed by a use of `out`. -/
def parseUninit (bits : ℕ) : Reader (BitVec bits) := do
  let (ok, out) ← parseUnsigned kv bits 0
  if ok then return out else throw Fault.indeterminate

/-- `ParseComponent(std::basic_string &, Buffer &, bool is_16)`; the string is cleared first. -/
def parseString (is16 : Bool) : Reader Bytes :=
  if is16 then do
    let out ← parseUninit kv 16
    Reader.take out.toNat
  else do
    let out ← parseUninit kv 32
    Reader.take out.toNat

/-- `ParseComponent(value_size, buffer)`, then `value_size` bytes appended to `str`
and skipped. -/
def parseSized (valueSize : BitVec 64) (str : Bytes) : Reader (BitVec 64 × Bytes) := do
  let (_, valueSize) ← parseUnsigned kv 64 valueSize
  let s ← Reader.take valueSize.toNat
  return (valueSize, str ++ s)

/-- `ParseComponent(std::vector<std::basic_string> &, Buffer &)`. -/
def parseStrValues (values : StrValues) : Reader StrValues := do
  let (_, count) ← parseUnsigned kv 32 (-1)
  forEach (parseSized kv) 0 (resize values count.toNat [])

/-- `Buffer::Read64`. -/
def read64 : Reader (BitVec 64) := do
  let s ← Reader.take 8
  return kn.read64 s

/-- One element of a `WeightValues`. -/
def parseWeightValue (valueSize : BitVec 64) (wv : WeightValue) :
    Reader (BitVec 64 × WeightValue) := do
  let key ← read64 kn
  let (valueSize, value) ← parseSized kv valueSize wv.value
  return (valueSize, { key := key, value := value })

/-- `ParseComponent(WeightValues &, Buffer &)`. -/
def parseWeightValues (values : WeightValues) : Reader WeightValues := do
  let (_, count) ← parseUnsigned kv 32 (-1)
  forEach (parseWeightValue kv kn) 0 (resize values count.toNat { key := 0, value := [] })

/-- One element of a `StrKvs`. -/
def parseStrKeyValue (sizes : BitVec 64 × BitVec 64) (e : StrKeyValue) :
    Reader ((BitVec 64 × BitVec 64) × StrKeyValue) := do
  let (keySize, key) ← parseSized kv sizes.1 e.key
  let (valueSize, value) ← parseSized kv sizes.2 e.value
  return ((keySize, valueSize), { key := key, value := value })

/-- `ParseComponent(StrKvs &, Buffer &)`. -/
def parseStrKvs (kvs : StrKvs) : Reader StrKvs := do
  let (_, count) ← parseUnsigned kv 32 (-1)
  forEach (parseStrKeyValue kv) (0, 0)
    (resize kvs count.toNat { key := [], value := [] })

/-! ## Serialize API -/

/-- `SerializeComponent(std::basic_string const &, BT &, bool is_16)`. -/
def serializeString (str : Bytes) (is16 : Bool) : Bytes :=
  (if is16 then kv.encode 16 (BitVec.ofNat 16 str.length)
    else kv.encode 32 (BitVec.ofNat 32 str.length)) ++ str

/-- `SerializeComponent(std::vector<std::basic_string> const &, BT &)`. -/
def serializeStrValues (values : StrValues) : Bytes :=
  kv.encode 32 (BitVec.ofNat 32 values.length)
    ++ values.flatMap fun value => kv.encode 32 (BitVec.ofNat 32 value.length) ++ value

/-- `SerializeComponent(StrKvs const &, BT &)`. -/
def serializeStrKvs (values : StrKvs) : Bytes :=
  kv.encode 32 (BitVec.ofNat 32 values.length)
    ++ values.flatMap fun e =>
      (kv.encode 16 (BitVec.ofNat 16 e.key.length) ++ e.key)
        ++ (kv.encode 32 (BitVec.ofNat 32 e.value.length) ++ e.value)

/-- `SerializeComponent(WeightValues const &, BT &)`. -/
def serializeWeightValues (values : WeightValues) : Bytes :=
  kv.encode 32 (BitVec.ofNat 32 values.length)
    ++ values.flatMap fun wv =>
      kn.append64 wv.key ++ (kv.encode 32 (BitVec.ofNat 32 wv.value.length) ++ wv.value)

end

/-! ## Parsing inverts serializing -/

section RoundTrip

variable {kv : Kvarint} {kn : Kanon}

theorem toNat_ofNat_of_lt (bits n : ℕ) (h : n < 2 ^ bits) : (BitVec.ofNat bits n).toNat = n := by
  rw [BitVec.toNat_ofNat, Nat.mod_eq_of_lt h]

/-- Widening keeps a number that fits. -/
theorem setWidth_ofNat {m n k : ℕ} (hmn : m ≤ n) (h : k < 2 ^ m) :
    (BitVec.ofNat m k).setWidth n = BitVec.ofNat n k := by
  have hn : k < 2 ^ n := lt_of_lt_of_le h (Nat.pow_le_pow_right (by norm_num) hmn)
  apply BitVec.eq_of_toNat_eq
  rw [BitVec.toNat_setWidth, toNat_ofNat_of_lt m _ h, toNat_ofNat_of_lt n _ hn,
    Nat.mod_eq_of_lt hn]

/-- A number is read back by a parser at least as wide as its serializer. -/
theorem reads_parseUnsigned (hkv : kv.Inverse) {m n : ℕ} (hm : 0 < m) (h : m ≤ n)
    (i : BitVec m) (i₀ : BitVec n) :
    Reader.Reads (parseUnsigned kv n i₀) (kv.encode m i) (true, i.setWidth n) := by
  intro t
  show parseUnsigned kv n i₀ (kv.encode m i ++ t) = _
  rw [parseUnsigned, hkv.decode_encode hm h]
  simp only [StateT.run_bind, Reader.run_advance, List.length_append, Nat.le_add_right, if_true,
    List.drop_left]
  rfl

/-- A signed varint is read back. -/
theorem reads_parseSigned (hkv : kv.Inverse) {n : ℕ} (hn : 0 < n) (i i₀ : BitVec n) :
    Reader.Reads (parseSigned kv n i₀) (kv.encodeSigned n i) (true, i) := by
  intro t
  show parseSigned kv n i₀ (kv.encodeSigned n i ++ t) = _
  rw [parseSigned, hkv.decodeSigned_encodeSigned hn]
  simp only [StateT.run_bind, Reader.run_advance, List.length_append, Nat.le_add_right, if_true,
    List.drop_left]
  rfl

/-- A varint is read back into an object that was not written. -/
theorem reads_parseUninit (hkv : kv.Inverse) {n : ℕ} (hn : 0 < n) (i : BitVec n) :
    Reader.Reads (parseUninit kv n) (kv.encode n i) i := by
  have h := reads_parseUnsigned hkv hn le_rfl i (0 : BitVec n)
  rw [BitVec.setWidth_eq] at h
  exact h.bind_pure rfl

/-- A string no longer than its length field says is read back. -/
theorem reads_parseString (hkv : kv.Inverse) (is16 : Bool) (str : Bytes)
    (h : str.length < if is16 then 2 ^ 16 else 2 ^ 32) :
    Reader.Reads (parseString kv is16) (serializeString kv str is16) str := by
  cases is16 with
  | true =>
    have hlen := toNat_ofNat_of_lt 16 str.length h
    have hout := reads_parseUninit hkv (by norm_num) (BitVec.ofNat 16 str.length)
    exact hout.bind (Reader.reads_take str _ hlen.symm)
  | false =>
    have hlen := toNat_ofNat_of_lt 32 str.length h
    have hout := reads_parseUninit hkv (by norm_num) (BitVec.ofNat 32 str.length)
    exact hout.bind (Reader.reads_take str _ hlen.symm)

/-- A sized string is read back, its length field being written `m` bits wide. -/
theorem reads_parseSized (hkv : kv.Inverse) {m : ℕ} (hm : 0 < m) (hm' : m ≤ 64)
    (valueSize : BitVec 64) (old str : Bytes) (h : str.length < 2 ^ m) :
    Reader.Reads (parseSized kv valueSize old)
      (kv.encode m (BitVec.ofNat m str.length) ++ str)
      (BitVec.ofNat 64 str.length, old ++ str) := by
  have h64 : str.length < 2 ^ 64 := lt_of_lt_of_le h (Nat.pow_le_pow_right (by norm_num) hm')
  have hsize := reads_parseUnsigned hkv hm hm' (BitVec.ofNat m str.length) valueSize
  have htake := Reader.reads_take str _ (toNat_ofNat_of_lt 64 _ h64).symm
  rw [setWidth_ofNat hm' h] at hsize
  exact hsize.bind (htake.bind_pure rfl)

/-- Eight bytes are read back. -/
theorem reads_read64 (hkn : kn.Inverse64) (i : BitVec 64) :
    Reader.Reads (read64 kn) (kn.append64 i) i := by
  have h := Reader.reads_take (kn.append64 i) 8 (hkn.length_append64 i)
  have h' := h.bind_pure (f := fun s => pure (kn.read64 s)) rfl
  rwa [hkn.read64_append64] at h'

/-- A weight and its value are read back. -/
theorem reads_parseWeightValue (hkv : kv.Inverse) (hkn : kn.Inverse64) (valueSize : BitVec 64)
    (old wv : WeightValue) (h : wv.value.length < 2 ^ 32) :
    Reader.Reads (parseWeightValue kv kn valueSize old)
      (kn.append64 wv.key ++ (kv.encode 32 (BitVec.ofNat 32 wv.value.length) ++ wv.value))
      (BitVec.ofNat 64 wv.value.length, { key := wv.key, value := old.value ++ wv.value }) := by
  have hsized := reads_parseSized hkv (by norm_num) (by norm_num) valueSize old.value wv.value h
  exact (reads_read64 hkn wv.key).bind (hsized.bind_pure rfl)

/-- A key and its value are read back. -/
theorem reads_parseStrKeyValue (hkv : kv.Inverse) (sizes : BitVec 64 × BitVec 64)
    (old e : StrKeyValue) (hkey : e.key.length < 2 ^ 16) (hval : e.value.length < 2 ^ 32) :
    Reader.Reads (parseStrKeyValue kv sizes old)
      ((kv.encode 16 (BitVec.ofNat 16 e.key.length) ++ e.key)
        ++ (kv.encode 32 (BitVec.ofNat 32 e.value.length) ++ e.value))
      ((BitVec.ofNat 64 e.key.length, BitVec.ofNat 64 e.value.length),
        { key := old.key ++ e.key, value := old.value ++ e.value }) := by
  have hk := reads_parseSized hkv (by norm_num) (by norm_num) sizes.1 old.key e.key hkey
  have hv := reads_parseSized hkv (by norm_num) (by norm_num) sizes.2 old.value e.value hval
  exact hk.bind (hv.bind_pure rfl)

/-- What a vector holds after it has been resized to the number of `values` and each of its
elements has taken one of them in, by `g`. -/
def readInto {α β : Type} (g : α → β → α) (d : α) (old : List α) (values : List β) : List α :=
  List.zipWith g (resize old values.length d) values

section ReadInto

variable {α β : Type} {g : α → β → α} {d : α}

theorem readInto_cons_nil (v : β) (values : List β) :
    readInto g d [] (v :: values) = g d v :: readInto g d [] values := by
  rw [readInto, readInto, resize_nil, resize_nil, List.length_cons, List.replicate_succ,
    List.zipWith_cons_cons]

theorem readInto_cons_cons (o : α) (old : List α) (v : β) (values : List β) :
    readInto g d (o :: old) (v :: values) = g o v :: readInto g d old values := by
  simp only [readInto, resize, List.length_cons, List.take_succ_cons, Nat.add_sub_add_right,
    List.cons_append, List.zipWith_cons_cons]

/-- The elements come out as they were sent where the ones they meet are empty. -/
theorem readInto_eq_iff {g : α → α → α} {E : α → Prop} (hg : ∀ o v, g o v = v ↔ E o)
    (hd : E d) (old values : List α) :
    readInto g d old values = values ↔ ∀ o ∈ old.take values.length, E o := by
  induction values generalizing old with
  | nil =>
    simp only [List.length_nil, List.take_zero, List.not_mem_nil, false_implies, implies_true,
      iff_true]
    exact List.zipWith_nil_right
  | cons v values ih =>
    cases old with
    | nil =>
      have hrest := (ih []).mpr (by simp)
      rw [readInto_cons_nil, (hg d v).mpr hd, hrest]
      simp
    | cons o old =>
      rw [readInto_cons_cons, List.cons.injEq, hg, ih, List.length_cons, List.take_succ_cons,
        List.forall_mem_cons]

end ReadInto

/-- Lists of the same length are related if any two of their elements are. -/
theorem forall₂_of_length_eq {α β : Type} {R : α → β → Prop} :
    ∀ {as : List α} {bs : List β}, as.length = bs.length → (∀ a, ∀ b ∈ bs, R a b) →
      List.Forall₂ R as bs
  | [], [], _, _ => List.Forall₂.nil
  | a :: _, b :: _, hlen, h =>
    List.Forall₂.cons (h a b List.mem_cons_self)
      (forall₂_of_length_eq (Nat.succ.inj hlen) fun a' b' hb => h a' b' (List.mem_cons_of_mem b hb))

/-- A vector is read into one with other content, element by element. -/
theorem reads_vector_into {α β σ : Type} (hkv : kv.Inverse) {f : σ → α → Reader (σ × α)}
    {w : β → Bytes} {g : α → β → α} (s : σ) (d : α) (old : List α) (values : List β)
    (hlen : values.length < 2 ^ 32)
    (h : ∀ o, ∀ v ∈ values, ∀ s, ∃ s', Reader.Reads (f s o) (w v) (s', g o v)) :
    Reader.Reads
      (do
        let (_, count) ← parseUnsigned kv 32 (-1)
        forEach f s (resize old count.toNat d))
      (kv.encode 32 (BitVec.ofNat 32 values.length) ++ values.flatMap w)
      (readInto g d old values) := by
  have hcount := reads_parseUnsigned hkv (by norm_num) le_rfl
    (BitVec.ofNat 32 values.length) (-1 : BitVec 32)
  refine hcount.bind ?_
  simp only [BitVec.setWidth_eq, toNat_ofNat_of_lt 32 _ hlen]
  exact Reader.reads_forEach (forall₂_of_length_eq (length_resize old _ d) h) s

/-- The strings that are in a vector are appended to. -/
theorem reads_parseStrValues_into (hkv : kv.Inverse) (old values : StrValues)
    (hlen : values.length < 2 ^ 32) (h : ∀ v ∈ values, v.length < 2 ^ 32) :
    Reader.Reads (parseStrValues kv old) (serializeStrValues kv values)
      (readInto (· ++ ·) [] old values) :=
  reads_vector_into hkv 0 [] old values hlen fun o v hv s =>
    ⟨_, reads_parseSized hkv (by norm_num) (by norm_num) s o v (h v hv)⟩

/-- What is left of an element that a weight and a value are read into. -/
def WeightValue.takeIn (old wv : WeightValue) : WeightValue where
  key := wv.key
  value := old.value ++ wv.value

/-- A vector of weights is read back into the old elements. -/
theorem reads_parseWeightValues_into (hkv : kv.Inverse) (hkn : kn.Inverse64)
    (old values : WeightValues) (hlen : values.length < 2 ^ 32)
    (h : ∀ v ∈ values, v.value.length < 2 ^ 32) :
    Reader.Reads (parseWeightValues kv kn old) (serializeWeightValues kv kn values)
      (readInto WeightValue.takeIn { key := 0, value := [] } old values) :=
  reads_vector_into (f := parseWeightValue kv kn) hkv 0 { key := 0, value := [] } old values hlen
    fun o v hv s => ⟨_, reads_parseWeightValue hkv hkn s o v (h v hv)⟩

/-- What is left of an element that a key and a value are read into. -/
def StrKeyValue.takeIn (old e : StrKeyValue) : StrKeyValue where
  key := old.key ++ e.key
  value := old.value ++ e.value

/-- A vector of pairs is read back into the old elements. -/
theorem reads_parseStrKvs_into (hkv : kv.Inverse) (old values : StrKvs)
    (hlen : values.length < 2 ^ 32) (hkey : ∀ e ∈ values, e.key.length < 2 ^ 16)
    (hval : ∀ e ∈ values, e.value.length < 2 ^ 32) :
    Reader.Reads (parseStrKvs kv old) (serializeStrKvs kv values)
      (readInto StrKeyValue.takeIn { key := [], value := [] } old values) :=
  reads_vector_into (f := parseStrKeyValue kv) hkv (0, 0) { key := [], value := [] } old values hlen
    fun o e he s => ⟨_, reads_parseStrKeyValue hkv s o e (hkey e he) (hval e he)⟩

/-- Nothing is left of the content of elements that are empty. -/
theorem readInto_strValues_iff (old values : StrValues) :
    readInto (· ++ ·) [] old values = values ↔ ∀ v ∈ old.take values.length, v = [] := by
  apply readInto_eq_iff (E := fun v : Bytes => v = [])
  · intro o v
    exact List.append_left_eq_self
  · rfl

/-- The weights that are read are those that were sent exactly if the old values were empty. -/
theorem readInto_weightValues_iff (old values : WeightValues) :
    readInto WeightValue.takeIn { key := 0, value := [] } old values = values
      ↔ ∀ v ∈ old.take values.length, v.value = [] := by
  apply readInto_eq_iff (E := fun v : WeightValue => v.value = [])
  · intro o v
    rw [WeightValue.takeIn]
    obtain ⟨key, value⟩ := v
    rw [KeyValue.mk.injEq, List.append_left_eq_self]
    exact and_iff_right rfl
  · rfl

/-- The pairs that are read are those that were sent exactly if the old strings were empty. -/
theorem readInto_strKvs_iff (old values : StrKvs) :
    readInto StrKeyValue.takeIn { key := [], value := [] } old values = values
      ↔ ∀ e ∈ old.take values.length, e.key = [] ∧ e.value = [] := by
  apply readInto_eq_iff (E := fun e : StrKeyValue => e.key = [] ∧ e.value = [])
  · intro o e
    rw [StrKeyValue.takeIn]
    obtain ⟨key, value⟩ := e
    rw [KeyValue.mk.injEq, List.append_left_eq_self, List.append_left_eq_self]
  · exact ⟨rfl, rfl⟩

end RoundTrip

/-! ## Parsing only goes forward -/

section Forward

open Reader

variable {kv : Kvarint} {kn : Kanon}

/-- A varint is read forwards. -/
theorem forward_parseUnsigned (n : ℕ) (i : BitVec n) : Forward (parseUnsigned kv n i) := by
  intro b a b' h
  change parseUnsigned kv n i b = _ at h
  rw [parseUnsigned] at h
  split at h
  · cases h
    exact List.suffix_rfl
  · exact (forward_advance _).bind (fun _ => forward_pure _) b a b' h

/-- A varint into an object that was not written is read forwards. -/
theorem forward_parseUninit (n : ℕ) : Forward (parseUninit kv n) := by
  refine (forward_parseUnsigned n 0).bind ?_
  rintro ⟨ok, out⟩
  cases ok with
  | false => exact forward_throw _
  | true => exact forward_pure _

theorem forward_parseString (is16 : Bool) : Forward (parseString kv is16) := by
  cases is16 with
  | true => exact (forward_parseUninit 16).bind fun out => forward_take out.toNat
  | false => exact (forward_parseUninit 32).bind fun out => forward_take out.toNat

theorem forward_parseSized (size : BitVec 64) (str : Bytes) :
    Forward (parseSized kv size str) :=
  (forward_parseUnsigned 64 size).bind fun _ => (forward_take _).bind fun _ => forward_pure _

theorem forward_parseWeightValue (size : BitVec 64) (wv : WeightValue) :
    Forward (parseWeightValue kv kn size wv) := by
  have hread : Forward (read64 kn) := (forward_take 8).bind fun _ => forward_pure _
  exact hread.bind fun _ => (forward_parseSized size wv.value).bind fun _ => forward_pure _

/-- A key and its value are read forwards. -/
theorem forward_parseStrKeyValue (sizes : BitVec 64 × BitVec 64) (e : StrKeyValue) :
    Forward (parseStrKeyValue kv sizes e) :=
  (forward_parseSized sizes.1 e.key).bind fun _ =>
    (forward_parseSized sizes.2 e.value).bind fun _ => forward_pure _

/-- A vector is read forwards. -/
theorem forward_vector {α σ : Type} {f : σ → α → Reader (σ × α)} (hf : ∀ s a, Forward (f s a))
    (s : σ) (d : α) (old : List α) :
    Forward (do
      let (_, count) ← parseUnsigned kv 32 (-1)
      forEach f s (resize old count.toNat d)) :=
  (forward_parseUnsigned 32 (-1)).bind fun _ => forward_forEach hf _ s

end Forward

end Mmkvc
