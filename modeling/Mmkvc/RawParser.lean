/-
# The parser over raw memory (`protocol/mmbp_util.h`, `protocol/mmbp_request.cc`)

The second family of `ParseComponent` works on a pointer `*pp_data` into the input and on the
number `*p_size` of bytes that it may still read.  The two are moved one by one, so a parser may
advance the pointer and leave the number as it is.

`RawReads p b n a` says of such a parser that it consumes `b`, subtracts `n` from the number, and
returns `a`.
-/
import Mmkvc.MmbpRequest

namespace Mmkvc

/-- The bytes from `*pp_data` to the end of the input, and `*p_size`. -/
structure Raw where
  rest : Bytes
  size : BitVec 64
  deriving DecidableEq, Inhabited, Repr

/-- `*pp_data + *p_size` is the end of the input. -/
def Raw.AtEnd (s : Raw) : Prop := s.size.toNat = s.rest.length

instance (s : Raw) : Decidable s.AtEnd := inferInstanceAs (Decidable (_ = _))

/-- A computation that moves `*pp_data` and `*p_size`. -/
abbrev RawReader (α : Type) := StateT Raw (Except Fault) α

namespace RawReader

variable {α β : Type}

/-- `append(*pp_data, n)`: the bytes are read, the pointer stays. -/
def peek (n : ℕ) : RawReader Bytes := fun s =>
  if n ≤ s.rest.length then .ok (s.rest.take n, s) else .error .outOfReadable

/-- `*pp_data8 += n`. -/
def advance (n : ℕ) : RawReader Unit := fun s =>
  if n ≤ s.rest.length then .ok ((), { s with rest := s.rest.drop n }) else .error .outOfReadable

/-- `append(*pp_data8, n)`, then `*pp_data8 += n`. -/
def take (n : ℕ) : RawReader Bytes := do
  let s ← peek n
  advance n
  return s

/-- `*p_size -= n`. -/
def shrink (n : BitVec 64) : RawReader Unit := fun s => .ok ((), { s with size := s.size - n })

/-- A decoder that may read `*p_size` bytes.  Where the input ends earlier, it has read behind
the end if it comes to no verdict. -/
def decodeWithin (decode : Bytes → Except DecodeErr (ℕ × α)) :
    RawReader (Except DecodeErr (ℕ × α)) := fun s =>
  if s.size.toNat ≤ s.rest.length then .ok (decode (s.rest.take s.size.toNat), s)
  else match decode s.rest with
    | .error .short => .error .outOfReadable
    | r => .ok (r, s)

/-- A component, and what the two variables are behind it. -/
def behind (p : RawReader α) : RawReader (α × List Raw) := do
  let a ← p
  return (a, [← get])

end RawReader

open RawReader

section

variable (kv : Kvarint)

/-! ## Components -/

/-- `MMKV_PARSE_UNSIGNED_RAW_`. -/
def rawUnsigned (bits : ℕ) (i : BitVec bits) : RawReader (Bool × BitVec bits) := do
  match ← decodeWithin (kv.decode bits) with
  | .error _ => return (false, i)
  | .ok (len, v) =>
    advance len
    shrink (BitVec.ofNat 64 len)
    return (true, v)

/-- `MMKV_PARSE_SIGNED_RAW_`. -/
def rawSigned (bits : ℕ) (i : BitVec bits) : RawReader (Bool × BitVec bits) := do
  match ← decodeWithin (kv.decodeSigned bits) with
  | .error _ => return (false, i)
  | .ok (len, v) =>
    advance len
    shrink (BitVec.ofNat 64 len)
    return (true, v)

/-- `uint##bits##_t out; ParseComponent(out, pp_data, p_size);` followed by a use of `out`. -/
def rawUninit (bits : ℕ) : RawReader (BitVec bits) := do
  let (ok, out) ← rawUnsigned kv bits 0
  if ok then return out else throw Fault.indeterminate

/-- `ParseComponent(std::basic_string &, void const **, size_t *, bool is_16)`; the pointer alone
is moved over the string. -/
def rawString (is16 : Bool) : RawReader Bytes :=
  if is16 then do
    let out ← rawUninit kv 16
    RawReader.take out.toNat
  else do
    let out ← rawUninit kv 32
    RawReader.take out.toNat

/-- `ParseComponent(value_size, pp_data, p_size)`, then `value_size` bytes appended to `str` and
skipped. -/
def rawSized (valueSize : BitVec 64) (str : Bytes) : RawReader (BitVec 64 × Bytes) := do
  let (_, valueSize) ← rawUnsigned kv 64 valueSize
  let s ← RawReader.take valueSize.toNat
  shrink valueSize
  return (valueSize, str ++ s)

/-- `ParseComponent(std::vector<std::basic_string> &, void const **, size_t *)`. -/
def rawStrValues (values : StrValues) : RawReader StrValues := do
  let (_, count) ← rawUnsigned kv 32 (-1)
  forEach (rawSized kv) 0 (resize values count.toNat [])

/-- One element of a `WeightValues`; the variable `weight` is not initialised before the loop. -/
def rawWeightValue (vars : Option (BitVec 64) × BitVec 64) (wv : WeightValue) :
    RawReader ((Option (BitVec 64) × BitVec 64) × WeightValue) := do
  let (ok, w) ← rawUnsigned kv 64 0
  let weight := if ok then some w else vars.1
  match weight with
  | none => throw Fault.indeterminate
  | some key =>
    let (valueSize, value) ← rawSized kv vars.2 wv.value
    return ((weight, valueSize), { key := key, value := value })

/-- `ParseComponent(WeightValues &, void const **, size_t *)`. -/
def rawWeightValues (values : WeightValues) : RawReader WeightValues := do
  let (_, count) ← rawUnsigned kv 32 (-1)
  forEach (rawWeightValue kv) (none, 0)
    (resize values count.toNat { key := 0, value := [] })

/-- One element of a `StrKvs`. -/
def rawStrKeyValue (sizes : BitVec 64 × BitVec 64) (e : StrKeyValue) :
    RawReader ((BitVec 64 × BitVec 64) × StrKeyValue) := do
  let (keySize, key) ← rawSized kv sizes.1 e.key
  let (valueSize, value) ← rawSized kv sizes.2 e.value
  return ((keySize, valueSize), { key := key, value := value })

/-- `ParseComponent(StrKvs &, void const **, size_t *)`. -/
def rawStrKvs (kvs : StrKvs) : RawReader StrKvs := do
  let (_, count) ← rawUnsigned kv 32 (-1)
  forEach (rawStrKeyValue kv) (0, 0) (resize kvs count.toNat { key := [], value := [] })

namespace MmbpRequest

/-! ## ParseFrom -/

/-- The key, and the states behind the components that were parsed. -/
def rawKey (r : MmbpRequest) : RawReader (MmbpRequest × List Raw) :=
  if r.hasKey then do
    let (key, states) ← behind (rawString kv true)
    return ({ r with key := key }, states)
  else return (r, [])

/-- The else-if chain of `ParseFrom`. -/
def rawPayload (r : MmbpRequest) : RawReader (MmbpRequest × List Raw) :=
  if r.hasValue then do
    let (value, states) ← behind (rawString kv false)
    return ({ r with value := value }, states)
  else if r.hasValues then do
    let (values, states) ← behind (rawStrValues kv r.values)
    return ({ r with values := values }, states)
  else if r.hasKvs then do
    let (kvs, states) ← behind (rawStrKvs kv r.kvs)
    return ({ r with kvs := kvs }, states)
  else if r.hasCount then do
    let ((_, count), states) ← behind (rawUnsigned kv 32 r.count)
    return (r.setCount count, states)
  else if r.hasRange then do
    let ((_, left), states) ← behind (rawSigned kv 64 r.range.left)
    let ((_, right), states') ← behind (rawSigned kv 64 r.range.right)
    return ({ r with range := { left := left, right := right } }, states ++ states')
  else if r.hasVmembers then do
    let (vmembers, states) ← behind (rawWeightValues kv r.vmembers)
    return ({ r with vmembers := vmembers }, states)
  else return (r, [])

def rawExpireTime (r : MmbpRequest) : RawReader (MmbpRequest × List Raw) :=
  if r.hasExpireTime then do
    let ((_, expireTime), states) ← behind (rawUnsigned kv 64 r.expireTime)
    return ({ r with expireTime := expireTime }, states)
  else return (r, [])

/-- `ParseFrom(void const **, size_t)` into the message `r`, and the states behind its calls of
`ParseComponent`; the size is that of the function's own variable. -/
def rawParseFrom (r : MmbpRequest) : RawReader (MmbpRequest × List Raw) := do
  let ((_, command), states₁) ← behind (rawUnsigned kv 16 r.command)
  let ((_, hasBits), states₂) ← behind (rawUnsigned kv 8 r.hasBits)
  let (r, states₃) ← rawKey kv { r with command := command, hasBits := hasBits }
  let (r, states₄) ← rawPayload kv r
  let (r, states₅) ← rawExpireTime kv r
  return (r, states₁ ++ states₂ ++ states₃ ++ states₄ ++ states₅)

/-- `MmbpMessage::ParseFrom2` at the address `ppData` of the pointer. -/
def rawParseFrom2 (ppData : BitVec 64) (r : MmbpRequest) : RawReader MmbpRequest := do
  let oldPpData := ppData
  let size := (← get).size
  let (r, _) ← rawParseFrom kv r
  -- the size was passed by value
  modify fun s => { s with size := size - (ppData - oldPpData) }
  return r

end MmbpRequest

end

/-! ## What a raw parser reads -/

namespace RawReader

variable {α β : Type}

/-- `p` consumes exactly `b`, subtracts `n` and returns `a`, wherever the size covers what is
there. -/
structure RawReads (p : RawReader α) (b : Bytes) (n : ℕ) (a : α) : Prop where
  le : n ≤ b.length
  run : ∀ (t : Bytes) (size : BitVec 64), (b ++ t).length ≤ size.toNat →
    p.run ⟨b ++ t, size⟩ = .ok (a, ⟨t, size - BitVec.ofNat 64 n⟩)

/-- The size goes down without wrapping around while there are bytes. -/
theorem toNat_sub_ofNat {size : BitVec 64} {n : ℕ} (h : n ≤ size.toNat) :
    (size - BitVec.ofNat 64 n).toNat = size.toNat - n := by
  have := size.isLt
  rw [BitVec.toNat_sub_of_le (by rw [BitVec.le_def, BitVec.toNat_ofNat]; omega),
    BitVec.toNat_ofNat]
  omega

theorem sub_ofNat_sub (size : BitVec 64) (n m : ℕ) :
    size - BitVec.ofNat 64 n - BitVec.ofNat 64 m = size - BitVec.ofNat 64 (n + m) := by
  rw [BitVec.sub_sub, ← BitVec.ofNat_add]

/-- Nothing is read, and the size stays. -/
theorem rawReads_pure (a : α) : RawReads (pure a) [] 0 a where
  le := le_rfl
  run := by
    intro t size _
    rw [show size - BitVec.ofNat 64 0 = size from BitVec.sub_zero size]
    rfl

/-- Two parsers in sequence. -/
theorem RawReads.bind {p : RawReader α} {f : α → RawReader β} {b₁ b₂ : Bytes} {n₁ n₂ : ℕ} {a : α}
    {c : β} (hp : RawReads p b₁ n₁ a) (hf : RawReads (f a) b₂ n₂ c) :
    RawReads (p >>= f) (b₁ ++ b₂) (n₁ + n₂) c where
  le := by
    rw [List.length_append]
    exact Nat.add_le_add hp.le hf.le
  run := by
    intro t size hsize
    have hle := hp.le
    rw [List.append_assoc] at hsize ⊢
    rw [List.length_append] at hsize
    rw [run_bind_ok (hp.run (b₂ ++ t) size (by rw [List.length_append]; exact hsize)),
      hf.run t _ (by rw [toNat_sub_ofNat (by omega)]; omega), sub_ofNat_sub]

/-- A result that is only repacked. -/
theorem RawReads.bind_pure {p : RawReader α} {f : α → RawReader β} {b : Bytes} {n : ℕ} {a : α}
    {c : β} (hp : RawReads p b n a) (hf : f a = pure c) : RawReads (p >>= f) b n c := by
  have h := hp.bind (hf ▸ rawReads_pure c)
  rwa [List.append_nil] at h

/-- A decoder that finds what it looks for is not kept from it by a size that covers the input. -/
theorem run_decodeWithin {decode : Bytes → Except DecodeErr (ℕ × α)} {b : Bytes} {r : ℕ × α}
    (h : decode b = .ok r) {size : BitVec 64} (hsize : b.length ≤ size.toNat) :
    (decodeWithin decode).run ⟨b, size⟩ = .ok (.ok r, ⟨b, size⟩) := by
  show decodeWithin decode ⟨b, size⟩ = _
  rw [decodeWithin]
  dsimp only
  split_ifs with hle
  · rw [List.take_of_length_le hsize, h]
  · rw [h]

/-- Bytes that are there are skipped; the size stays. -/
theorem run_advance {b : Bytes} {n : ℕ} (h : b.length = n) (t : Bytes) (size : BitVec 64) :
    (advance n).run ⟨b ++ t, size⟩ = .ok ((), ⟨t, size⟩) := by
  show advance n ⟨b ++ t, size⟩ = _
  rw [advance, if_pos (by rw [List.length_append]; omega), ← h, List.drop_left]

/-- Bytes that are there are read; the size stays. -/
theorem run_take {b : Bytes} {n : ℕ} (h : b.length = n) (t : Bytes) (size : BitVec 64) :
    (RawReader.take n).run ⟨b ++ t, size⟩ = .ok (b, ⟨t, size⟩) := by
  have hpeek : (peek n).run ⟨b ++ t, size⟩ = .ok (b, ⟨b ++ t, size⟩) := by
    show peek n ⟨b ++ t, size⟩ = _
    rw [peek, if_pos (by rw [List.length_append]; omega), ← h, List.take_left]
  rw [RawReader.take, run_bind_ok hpeek, run_bind_ok (run_advance h t size)]
  rfl

/-- Bytes that are skipped and taken off the size. -/
theorem rawReads_skip {b : Bytes} {n : ℕ} (h : b.length = n) (a : α) :
    RawReads (do advance n; shrink (BitVec.ofNat 64 n); return a) b n a where
  le := h.ge
  run := by
    intro t size _
    rw [run_bind_ok (run_advance h t size)]
    rfl

/-- Bytes that are read, skipped and taken off the size. -/
theorem rawReads_append {b : Bytes} {n : BitVec 64} (h : n = BitVec.ofNat 64 b.length)
    (hlen : b.length < 2 ^ 64) {f : Bytes → α} :
    RawReads (do let s ← RawReader.take n.toNat; shrink n; return f s) b b.length (f b) where
  le := le_rfl
  run := by
    intro t size _
    have hn : b.length = n.toNat := by rw [h, BitVec.toNat_ofNat, Nat.mod_eq_of_lt hlen]
    rw [run_bind_ok (run_take hn t size), h]
    rfl

/-- Bytes that are read and skipped, and not taken off the size. -/
theorem rawReads_take {b : Bytes} {n : ℕ} (h : b.length = n) :
    RawReads (RawReader.take n) b 0 b where
  le := Nat.zero_le _
  run := by
    intro t size _
    rw [run_take h, show size - BitVec.ofNat 64 0 = size from BitVec.sub_zero size]

/-- Elements that are read one after the other. -/
theorem rawReads_forEach {σ γ : Type} {f : σ → α → RawReader (σ × β)} {w : γ → Bytes}
    {g : α → γ → β} {as : List α} {bs : List γ}
    (h : List.Forall₂ (fun a b => ∀ s, ∃ s', RawReads (f s a) (w b) (w b).length (s', g a b)) as bs) :
    ∀ s, RawReads (forEach f s as) (bs.flatMap w) (bs.flatMap w).length
      (List.zipWith g as bs) := by
  induction h with
  | nil => exact fun s => rawReads_pure []
  | cons hab _ ih =>
    intro s
    obtain ⟨s', hs'⟩ := hab s
    rw [List.flatMap_cons, List.length_append]
    exact hs'.bind ((ih s').bind_pure rfl)

/-- The states that have been recorded are at the end of the input, if the first one was. -/
def Recorded (states : List Raw) : Prop := ∀ s ∈ states, s.AtEnd

/-- Recorded sizes, some and then others. -/
theorem Recorded.append {states states' : List Raw} (h : Recorded states)
    (h' : Recorded states') : Recorded (states ++ states') := by
  intro s hs
  rcases List.mem_append.mp hs with hs | hs
  · exact h s hs
  · exact h' s hs

/-- As `RawReads`, of a parser that also records the states behind its components.  Where nothing
is left in the size and the records before it are right (`G`), its own are. -/
structure RawLeaves (G : Prop) (p : RawReader (α × List Raw)) (b : Bytes) (n : ℕ) (a : α) :
    Prop where
  le : n ≤ b.length
  run : ∀ (t : Bytes) (size : BitVec 64), (b ++ t).length ≤ size.toNat →
    ∃ states, p.run ⟨b ++ t, size⟩ = .ok ((a, states), ⟨t, size - BitVec.ofNat 64 n⟩)
      ∧ (G → n = b.length → (b ++ t).length = size.toNat → Recorded states)

/-- A result with its records, of which nothing is read. -/
theorem rawLeaves_pure {G : Prop} (a : α) {states : List Raw} (h : G → Recorded states) :
    RawLeaves G (pure (a, states)) [] 0 a where
  le := le_rfl
  run := fun t size hsize => ⟨states, (rawReads_pure (a, states)).run t size hsize, fun g _ _ => h g⟩

/-- A component with a record of what the two variables are behind it. -/
theorem RawReads.behind {G : Prop} {p : RawReader α} {b : Bytes} {n : ℕ} {a : α}
    (hp : RawReads p b n a) : RawLeaves G (behind p) b n a where
  le := hp.le
  run := by
    intro t size hsize
    refine ⟨_, run_bind_ok (hp.run t size hsize), fun _ hn hend s hs => ?_⟩
    obtain rfl := List.mem_singleton.mp hs
    rw [List.length_append] at hend
    show (size - BitVec.ofNat 64 n).toNat = t.length
    rw [toNat_sub_ofNat (by omega)]
    omega

/-- Components in sequence, with all their records. -/
theorem RawLeaves.bind {G : Prop} {p : RawReader (α × List Raw)}
    {f : α × List Raw → RawReader (β × List Raw)} {b₁ b₂ : Bytes} {n₁ n₂ : ℕ} {a : α} {c : β}
    (hp : RawLeaves G p b₁ n₁ a)
    (hf : ∀ states, RawLeaves (G ∧ Recorded states) (f (a, states)) b₂ n₂ c) :
    RawLeaves G (p >>= f) (b₁ ++ b₂) (n₁ + n₂) c where
  le := by
    rw [List.length_append]
    exact Nat.add_le_add hp.le (hf []).le
  run := by
    intro t size hsize
    have hle := hp.le
    have hle' := (hf []).le
    rw [List.append_assoc] at hsize ⊢
    obtain ⟨states, hrun, hgood⟩ := hp.run (b₂ ++ t) size hsize
    rw [List.length_append] at hsize
    have hsub : (size - BitVec.ofNat 64 n₁).toNat = size.toNat - n₁ := toNat_sub_ofNat (by omega)
    obtain ⟨states', hrun', hgood'⟩ := (hf states).run t (size - BitVec.ofNat 64 n₁) (by omega)
    refine ⟨states', by rw [run_bind_ok hrun, hrun', sub_ofNat_sub], fun g hn hend => ?_⟩
    rw [List.length_append] at hn
    rw [List.length_append] at hend
    exact hgood' ⟨g, hgood g (by omega) (by rw [List.length_append]; exact hend)⟩ (by omega)
      (by rw [hsub]; omega)

/-- A result that is only repacked with its records. -/
theorem RawLeaves.bind_pure {G : Prop} {p : RawReader (α × List Raw)}
    {f : α × List Raw → RawReader (β × List Raw)} {b : Bytes} {n : ℕ} {a : α} {c : β}
    (hp : RawLeaves G p b n a)
    (hf : ∀ states, ∃ states', f (a, states) = pure (c, states')
      ∧ (G ∧ Recorded states → Recorded states')) : RawLeaves G (p >>= f) b n c := by
  have h : RawLeaves G (p >>= f) (b ++ []) (n + 0) c := hp.bind fun states => by
    obtain ⟨states', hpure, hgood⟩ := hf states
    rw [hpure]
    exact rawLeaves_pure c hgood
  rwa [List.append_nil] at h

end RawReader

section

variable {kv : Kvarint}

/-- A varint is read back, and the size goes down by its length. -/
theorem rawReads_unsigned (hkv : kv.Inverse) {m n : ℕ} (hm : 0 < m) (h : m ≤ n) (i : BitVec m)
    (i₀ : BitVec n) :
    RawReads (rawUnsigned kv n i₀) (kv.encode m i) (kv.encode m i).length
      (true, i.setWidth n) where
  le := le_rfl
  run := by
    intro t size hsize
    rw [rawUnsigned, run_bind_ok (run_decodeWithin (hkv.decode_encode hm h i t) hsize)]
    exact (rawReads_skip rfl (true, i.setWidth n)).run t size hsize

/-- A signed varint is read back, and the size goes down by its length. -/
theorem rawReads_signed (hkv : kv.Inverse) {n : ℕ} (hn : 0 < n) (i i₀ : BitVec n) :
    RawReads (rawSigned kv n i₀) (kv.encodeSigned n i) (kv.encodeSigned n i).length (true, i) where
  le := le_rfl
  run := by
    intro t size hsize
    rw [rawSigned, run_bind_ok (run_decodeWithin (hkv.decodeSigned_encodeSigned hn i t) hsize)]
    exact (rawReads_skip rfl (true, i)).run t size hsize

/-- A varint into an object that was not written is read back. -/
theorem rawReads_uninit (hkv : kv.Inverse) {n : ℕ} (hn : 0 < n) (i : BitVec n) :
    RawReads (rawUninit kv n) (kv.encode n i) (kv.encode n i).length i := by
  have h := rawReads_unsigned hkv hn le_rfl i (0 : BitVec n)
  rw [BitVec.setWidth_eq] at h
  exact h.bind_pure rfl

/-- A string is read back, and its bytes are not taken off the size. -/
theorem rawReads_string (hkv : kv.Inverse) (is16 : Bool) (str : Bytes)
    (h : str.length < if is16 then 2 ^ 16 else 2 ^ 32) :
    RawReads (rawString kv is16) (serializeString kv str is16)
      ((serializeString kv str is16).length - str.length) str := by
  have hlen : (serializeString kv str is16).length - str.length
      = (if is16 then kv.encode 16 (BitVec.ofNat 16 str.length)
          else kv.encode 32 (BitVec.ofNat 32 str.length)).length + 0 := by
    rw [serializeString, List.length_append]
    omega
  rw [hlen]
  cases is16 with
  | true =>
    have hout := rawReads_uninit hkv (by norm_num) (BitVec.ofNat 16 str.length)
    exact hout.bind (rawReads_take (toNat_ofNat_of_lt 16 str.length h).symm)
  | false =>
    have hout := rawReads_uninit hkv (by norm_num) (BitVec.ofNat 32 str.length)
    exact hout.bind (rawReads_take (toNat_ofNat_of_lt 32 str.length h).symm)

/-- A sized string, its bytes taken off the size. -/
theorem rawReads_sized (hkv : kv.Inverse) {m : ℕ} (hm : 0 < m) (hm' : m ≤ 64)
    (valueSize : BitVec 64) (old str : Bytes) (h : str.length < 2 ^ m) :
    RawReads (rawSized kv valueSize old) (kv.encode m (BitVec.ofNat m str.length) ++ str)
      (kv.encode m (BitVec.ofNat m str.length) ++ str).length
      (BitVec.ofNat 64 str.length, old ++ str) := by
  have h64 : str.length < 2 ^ 64 := lt_of_lt_of_le h (Nat.pow_le_pow_right (by norm_num) hm')
  have hsize := rawReads_unsigned hkv hm hm' (BitVec.ofNat m str.length) valueSize
  rw [setWidth_ofNat hm' h] at hsize
  rw [List.length_append]
  exact hsize.bind (rawReads_append rfl h64)

/-- A pair is read back, and the size goes down by less than its bytes. -/
theorem rawReads_strKeyValue (hkv : kv.Inverse) (sizes : BitVec 64 × BitVec 64)
    (old e : StrKeyValue) (hkey : e.key.length < 2 ^ 16) (hval : e.value.length < 2 ^ 32) :
    let b := (kv.encode 16 (BitVec.ofNat 16 e.key.length) ++ e.key)
      ++ (kv.encode 32 (BitVec.ofNat 32 e.value.length) ++ e.value)
    RawReads (rawStrKeyValue kv sizes old) b b.length
      ((BitVec.ofNat 64 e.key.length, BitVec.ofNat 64 e.value.length), StrKeyValue.takeIn old e) := by
  intro b
  have hk := rawReads_sized hkv (by norm_num) (by norm_num) sizes.1 old.key e.key hkey
  have hv := rawReads_sized hkv (by norm_num) (by norm_num) sizes.2 old.value e.value hval
  rw [List.length_append]
  exact hk.bind (hv.bind_pure rfl)

/-- A vector, as `reads_vector_into`. -/
theorem rawReads_vector {α β σ : Type} (hkv : kv.Inverse) {f : σ → α → RawReader (σ × α)}
    {w : β → Bytes} {g : α → β → α} (s : σ) (d : α) (old : List α) (values : List β)
    (hlen : values.length < 2 ^ 32)
    (h : ∀ o, ∀ v ∈ values, ∀ s, ∃ s', RawReads (f s o) (w v) (w v).length (s', g o v)) :
    RawReads
      (do
        let (_, count) ← rawUnsigned kv 32 (-1)
        forEach f s (resize old count.toNat d))
      (kv.encode 32 (BitVec.ofNat 32 values.length) ++ values.flatMap w)
      (kv.encode 32 (BitVec.ofNat 32 values.length) ++ values.flatMap w).length
      (readInto g d old values) := by
  have hcount := rawReads_unsigned hkv (by norm_num) le_rfl
    (BitVec.ofNat 32 values.length) (-1 : BitVec 32)
  rw [List.length_append]
  refine hcount.bind ?_
  simp only [BitVec.setWidth_eq, toNat_ofNat_of_lt 32 _ hlen]
  exact rawReads_forEach (forall₂_of_length_eq (length_resize old _ d) h) s

/-- Values are read back, and the size goes down by the lengths alone. -/
theorem rawReads_strValues (hkv : kv.Inverse) (old values : StrValues)
    (hlen : values.length < 2 ^ 32) (h : ∀ v ∈ values, v.length < 2 ^ 32) :
    RawReads (rawStrValues kv old) (serializeStrValues kv values)
      (serializeStrValues kv values).length (readInto (· ++ ·) [] old values) :=
  rawReads_vector hkv 0 [] old values hlen fun o v hv s =>
    ⟨_, rawReads_sized hkv (by norm_num) (by norm_num) s o v (h v hv)⟩

/-- Pairs are read back, and the size goes down by the lengths alone. -/
theorem rawReads_strKvs (hkv : kv.Inverse) (old values : StrKvs)
    (hlen : values.length < 2 ^ 32) (hkey : ∀ e ∈ values, e.key.length < 2 ^ 16)
    (hval : ∀ e ∈ values, e.value.length < 2 ^ 32) :
    RawReads (rawStrKvs kv old) (serializeStrKvs kv values) (serializeStrKvs kv values).length
      (readInto StrKeyValue.takeIn { key := [], value := [] } old values) :=
  rawReads_vector (f := rawStrKeyValue kv) hkv (0, 0) { key := [], value := [] } old values hlen
    fun o e he s => ⟨_, rawReads_strKeyValue hkv s o e (hkey e he) (hval e he)⟩

/-- No elements of any kind are read from an empty vector. -/
theorem rawReads_weightValues_nil (hkv : kv.Inverse) (kn : Kanon) (old : WeightValues) :
    RawReads (rawWeightValues kv old) (serializeWeightValues kv kn [])
      (serializeWeightValues kv kn []).length [] := by
  have h := rawReads_vector (f := rawWeightValue kv) (w := fun _ : WeightValue => [])
    (g := WeightValue.takeIn) hkv (none, 0) { key := 0, value := [] } old [] (by norm_num)
    fun _ _ h => absurd h List.not_mem_nil
  rwa [readInto, List.zipWith_nil_right] at h

end

namespace MmbpRequest

variable {kv : Kvarint} {G : Prop}

/-! ### Requests -/

/-- The bytes of the key that is sent. -/
def sentKey (r : MmbpRequest) : ℕ := if r.hasKey then r.key.length else 0

/-- The bytes of the value that is sent. -/
def sentValue (r : MmbpRequest) : ℕ := if r.hasValue then r.value.length else 0

/-- Weights are sent. -/
def SendsWeights (r : MmbpRequest) : Prop :=
  (r.hasValue || r.hasValues || r.hasKvs || r.hasCount || r.hasRange) = false
    ∧ r.hasVmembers = true ∧ r.vmembers ≠ []

/-- The key is part of what is written of it. -/
theorem sentKey_le (kv : Kvarint) (r : MmbpRequest) :
    sentKey r ≤ (if r.hasKey then serializeString kv r.key true else []).length := by
  rw [sentKey]
  split_ifs
  · rw [serializeString, List.length_append]
    exact Nat.le_add_left _ _
  · exact le_rfl

/-- The value is part of the payload. -/
theorem sentValue_le (kv : Kvarint) (kn : Kanon) (r : MmbpRequest) :
    sentValue r ≤ (serializePayload kv kn r).length := by
  rw [sentValue, serializePayload]
  split_ifs with hv
  · rw [serializeString, List.length_append]
    exact Nat.le_add_left _ _
  all_goals exact Nat.zero_le _

/-- The key is read back with its records. -/
theorem rawLeaves_key (hkv : kv.Inverse) (r₀ r : MmbpRequest) (hr : r.Encodable)
    (hbits : r₀.hasBits = r.hasBits) :
    RawLeaves G (rawKey kv r₀) (if r.hasKey then serializeString kv r.key true else [])
      ((if r.hasKey then serializeString kv r.key true else []).length - sentKey r)
      (carryKey r₀ r) := by
  have hkey : r₀.hasKey = r.hasKey := by rw [hasKey, hasKey, hbits]
  rw [rawKey, carryKey, sentKey, hkey]
  split_ifs
  · exact (rawReads_string hkv true r.key hr.key).behind.bind_pure fun _ => ⟨_, rfl, And.right⟩
  · exact rawLeaves_pure _ fun _ _ h => absurd h List.not_mem_nil

/-- A payload without weights is read back with its records. -/
theorem rawLeaves_payload (hkv : kv.Inverse) (kn : Kanon) (r₀ r : MmbpRequest) (hr : r.Encodable)
    (hbits : r₀.hasBits = r.hasBits) (hweights : ¬ r.SendsWeights) :
    RawLeaves G (rawPayload kv r₀) (serializePayload kv kn r)
      ((serializePayload kv kn r).length - sentValue r) (carryPayloadInto r₀ r) := by
  have h : ∀ i, testBit r₀.hasBits i = testBit r.hasBits i := fun i => by rw [hbits]
  have h1 : r₀.hasValue = r.hasValue := h 1
  have h3 : r₀.hasValues = r.hasValues := h 3
  have h4 : r₀.hasKvs = r.hasKvs := h 4
  have h5 : r₀.hasCount = r.hasCount := h 5
  have h6 : r₀.hasRange = r.hasRange := h 6
  have h7 : r₀.hasVmembers = r.hasVmembers := h 7
  rw [rawPayload, serializePayload, carryPayloadInto, sentValue, h1, h3, h4, h5, h6, h7]
  split_ifs with hv hvs hk hc hg hw
  · exact (rawReads_string hkv false r.value hr.value).behind.bind_pure fun _ => ⟨_, rfl, And.right⟩
  · exact (rawReads_strValues hkv r₀.values r.values hr.values hr.values_value).behind.bind_pure
      fun _ => ⟨_, rfl, And.right⟩
  · exact (rawReads_strKvs hkv r₀.kvs r.kvs hr.kvs hr.kvs_key hr.kvs_value).behind.bind_pure
      fun _ => ⟨_, rfl, And.right⟩
  · have h := rawReads_unsigned hkv (by norm_num) le_rfl r.count r₀.count
    rw [BitVec.setWidth_eq] at h
    exact h.behind.bind_pure fun _ => ⟨_, rfl, And.right⟩
  · rw [List.length_append]
    exact (rawReads_signed hkv (by norm_num) r.range.left r₀.range.left).behind.bind fun _ =>
      (rawReads_signed hkv (by norm_num) r.range.right r₀.range.right).behind.bind_pure
        fun _ => ⟨_, rfl, fun h => h.1.2.append h.2⟩
  · have hnil : r.vmembers = [] := by
      by_contra hne
      exact hweights ⟨by simp [hv, hvs, hk, hc, hg], hw, hne⟩
    have h := rawReads_weightValues_nil hkv kn r₀.vmembers
    rw [hnil, readInto, List.zipWith_nil_right]
    exact h.behind.bind_pure fun _ => ⟨_, rfl, And.right⟩
  · exact rawLeaves_pure _ fun _ _ h => absurd h List.not_mem_nil

/-- The expiration time is read back with its records. -/
theorem rawLeaves_expireTime (hkv : kv.Inverse) (r₀ r : MmbpRequest)
    (hbits : r₀.hasBits = r.hasBits) :
    RawLeaves G (rawExpireTime kv r₀) (if r.hasExpireTime then kv.encode 64 r.expireTime else [])
      (if r.hasExpireTime then kv.encode 64 r.expireTime else []).length
      (carryExpireTime r₀ r) := by
  have hexp : r₀.hasExpireTime = r.hasExpireTime := by rw [hasExpireTime, hasExpireTime, hbits]
  rw [rawExpireTime, carryExpireTime, hexp]
  split_ifs
  · have h := rawReads_unsigned hkv (by norm_num) le_rfl r.expireTime r₀.expireTime
    rw [BitVec.setWidth_eq] at h
    exact h.behind.bind_pure fun _ => ⟨_, rfl, And.right⟩
  · exact rawLeaves_pure _ fun _ _ h => absurd h List.not_mem_nil

/-- **The raw `ParseFrom` on `SerializeTo`.**  It reads what is sent and moves the pointer behind
it, but leaves the bytes of the key and of the value in the size. -/
theorem rawLeaves_parseFrom (hkv : kv.Inverse) (kn : Kanon) (r₀ r : MmbpRequest) (hr : r.Encodable)
    (hweights : ¬ r.SendsWeights) :
    RawLeaves G (rawParseFrom kv r₀) (serializeTo kv kn r)
      ((serializeTo kv kn r).length - (sentKey r + sentValue r)) (carryInto r₀ r) := by
  have hcmd := rawReads_unsigned hkv (by norm_num) le_rfl r.command r₀.command
  have hbits := rawReads_unsigned hkv (by norm_num) le_rfl r.hasBits r₀.hasBits
  rw [BitVec.setWidth_eq] at hcmd hbits
  have hkeyle := sentKey_le kv r
  have hvaluele := sentValue_le kv kn r
  have hn : (serializeTo kv kn r).length - (sentKey r + sentValue r)
      = (kv.encode 16 r.command).length + ((kv.encode 8 r.hasBits).length
        + ((if r.hasKey then serializeString kv r.key true else []).length - sentKey r
          + ((serializePayload kv kn r).length - sentValue r
            + (if r.hasExpireTime then kv.encode 64 r.expireTime else []).length))) := by
    simp only [serializeTo, List.length_append]
    omega
  rw [hn, rawParseFrom, serializeTo]
  refine hcmd.behind.bind fun states₁ => hbits.behind.bind fun states₂ => ?_
  refine (rawLeaves_key hkv { r₀ with command := r.command, hasBits := r.hasBits } r hr rfl).bind
    fun states₃ => ?_
  refine (rawLeaves_payload hkv kn
    (carryKey { r₀ with command := r.command, hasBits := r.hasBits } r) r hr rfl hweights).bind
    fun states₄ => ?_
  refine (rawLeaves_expireTime hkv
    (carryPayloadInto (carryKey { r₀ with command := r.command, hasBits := r.hasBits } r) r) r
    (carryPayloadInto_head _ _).2.1).bind_pure fun states₅ => ⟨_, rfl, ?_⟩
  rintro ⟨⟨⟨⟨⟨-, h₁⟩, h₂⟩, h₃⟩, h₄⟩, h₅⟩
  exact (((h₁.append h₂).append h₃).append h₄).append h₅

end MmbpRequest

end Mmkvc
