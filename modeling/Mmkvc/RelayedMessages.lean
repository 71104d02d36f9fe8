/-
# Messages that are sent on (`protocol/mmbp_util.h`, `mmbp_request.cc`, `mmbp_response.cc`)

What `ParseFrom` accepts need not be what `SerializeTo` can write.  The parser takes the sizes
of the strings of a vector or a map with 64 bits, and the serializer writes the sizes of the keys
of `StrKvs` with 16.  `mmbp_accepted_relays_iff` says which accepted messages come through when
they are written again: those without a longer key.  `MmbpResponse.accepts_ofKvs` says that there
are others.
-/
import Mmkvc.MmbpResponse

namespace Mmkvc

open Reader

/-! ## What the components return -/

section

variable {kv : Kvarint} {kn : Kanon} {N : ℕ}

/-- A string that was read is as short as its size can say. -/
theorem ensures_parseString (is16 : Bool) : Ensures N (parseString kv is16)
    fun str => str.length < if is16 then 2 ^ 16 else 2 ^ 32 := by
  cases is16 with
  | true =>
    refine (forward_parseUninit 16).ensures.bind fun out _ => ?_
    exact (ensures_take out.toNat).post fun str hstr => hstr.1.trans_lt out.isLt
  | false =>
    refine (forward_parseUninit 32).ensures.bind fun out _ => ?_
    exact (ensures_take out.toNat).post fun str hstr => hstr.1.trans_lt out.isLt

/-- A string that is read into an empty one is no longer than the buffer. -/
theorem ensures_parseSized (size : BitVec 64) :
    Ensures N (parseSized kv size []) fun r => r.2.length < N := by
  refine (forward_parseUnsigned 64 size).ensures.bind fun _ _ => ?_
  exact (ensures_take _).bind fun str hstr => ensures_pure hstr.2

/-- A vector of new elements. -/
theorem ensures_vector {α σ : Type} {f : σ → α → Reader (σ × α)} {d : α} {R : α → Prop}
    {old : List α} (hold : old = []) (hf : ∀ s, Ensures N (f s d) fun r => R r.2) (s : σ) :
    Ensures N (do
      let (_, count) ← parseUnsigned kv 32 (-1)
      forEach f s (resize old count.toNat d))
      fun values => values.length < 2 ^ 32 ∧ ∀ v ∈ values, R v := by
  refine (forward_parseUnsigned 32 (-1)).ensures.bind ?_
  rintro ⟨ok, count⟩ -
  show Ensures N (forEach f s (resize old count.toNat d)) _
  rw [hold, resize_nil]
  refine (ensures_forEach (fun s a ha => ?_) s).post fun values hvalues => ⟨?_, hvalues.2⟩
  · rw [List.eq_of_mem_replicate ha]
    exact hf s
  · rw [hvalues.1, List.length_replicate]
    exact count.isLt

theorem ensures_parseStrValues {old : StrValues} (hold : old = []) :
    Ensures N (parseStrValues kv old) fun values => values.length < 2 ^ 32 ∧ ∀ v ∈ values, v.length < N :=
  ensures_vector (R := fun v => v.length < N) hold ensures_parseSized 0

/-- A pair that was read has no more bytes than there were. -/
theorem ensures_parseStrKeyValue (sizes : BitVec 64 × BitVec 64) :
    Ensures N (parseStrKeyValue kv sizes { key := [], value := [] })
      fun r => r.2.key.length < N ∧ r.2.value.length < N := by
  refine (ensures_parseSized sizes.1).bind fun k hk => ?_
  exact (ensures_parseSized sizes.2).bind fun v hv => ensures_pure ⟨hk, hv⟩

/-- Pairs that were read are within the limits, but for their keys. -/
theorem ensures_parseStrKvs {old : StrKvs} (hold : old = []) :
    Ensures N (parseStrKvs kv old) fun kvs =>
      kvs.length < 2 ^ 32 ∧ ∀ e ∈ kvs, e.key.length < N ∧ e.value.length < N :=
  ensures_vector (R := fun e : StrKeyValue => e.key.length < N ∧ e.value.length < N) hold
    ensures_parseStrKeyValue (0, 0)

/-- A weight that was read has no more bytes than there were. -/
theorem ensures_parseWeightValue (size : BitVec 64) (key : BitVec 64) :
    Ensures N (parseWeightValue kv kn size { key := key, value := [] })
      fun r => r.2.value.length < N := by
  have hread : Forward (read64 kn) := (forward_take 8).bind fun _ => forward_pure _
  refine hread.ensures.bind fun _ _ => ?_
  exact (ensures_parseSized size).bind fun v hv => ensures_pure hv

/-- Weights that were read are within the limits. -/
theorem ensures_parseWeightValues {old : WeightValues} (hold : old = []) :
    Ensures N (parseWeightValues kv kn old) fun values =>
      values.length < 2 ^ 32 ∧ ∀ v ∈ values, v.value.length < N :=
  ensures_vector (R := fun v : WeightValue => v.value.length < N) hold
    (fun s => ensures_parseWeightValue s 0) 0

/-- A signed varint is read forwards. -/
theorem forward_parseSigned (n : ℕ) (i : BitVec n) : Forward (parseSigned kv n i) := by
  intro b a b' h
  change parseSigned kv n i b = _ at h
  rw [parseSigned] at h
  split at h
  · cases h
    exact List.suffix_rfl
  · exact (forward_advance _).bind (fun _ => forward_pure _) b a b' h

end

/-! ## Keys that come through -/

section

variable {kv : Kvarint} {kn : Kanon}

/-- A string whose size is written with too few bits comes back shorter. -/
theorem length_of_parseSized (hkv : kv.Inverse) {size size' : BitVec 64} {str str' t t' : Bytes}
    (h : (parseSized kv size []).run (kv.encode 16 (BitVec.ofNat 16 str.length) ++ (str ++ t))
      = .ok ((size', str'), t')) : str'.length = str.length % 2 ^ 16 := by
  have hsize := reads_parseUnsigned hkv (by norm_num) (by norm_num) (BitVec.ofNat 16 str.length) size
  obtain ⟨s, b, htake, hrest⟩ := run_bind_eq_ok.mp (hsize.rest h)
  cases hrest
  -- The parser takes as many bytes as the 16 bits say, whatever the string was.
  have hlength := (ensures_take _ _ s t' (Nat.lt_succ_self _) htake).2.1
  rw [List.nil_append, hlength, BitVec.toNat_setWidth, BitVec.toNat_ofNat,
    Nat.mod_eq_of_lt ((Nat.mod_lt _ (by norm_num)).trans (by norm_num))]

/-- What `SerializeComponent` writes of an element. -/
def StrKeyValue.bytes (kv : Kvarint) (e : StrKeyValue) : Bytes :=
  (kv.encode 16 (BitVec.ofNat 16 e.key.length) ++ e.key)
    ++ (kv.encode 32 (BitVec.ofNat 32 e.value.length) ++ e.value)

/-- A key that comes back is not too long. -/
theorem key_of_parseStrKeyValue (hkv : kv.Inverse) {sizes sizes' : BitVec 64 × BitVec 64}
    {e : StrKeyValue} {t t' : Bytes}
    (h : (parseStrKeyValue kv sizes { key := [], value := [] }).run (StrKeyValue.bytes kv e ++ t)
      = .ok ((sizes', e), t')) : e.key.length < 2 ^ 16 := by
  unfold StrKeyValue.bytes at h
  rw [List.append_assoc, List.append_assoc] at h
  obtain ⟨k, b, hkey, hrest⟩ := run_bind_eq_ok.mp h
  obtain ⟨v, b', -, hdone⟩ := run_bind_eq_ok.mp hrest
  cases hdone
  have hlength := length_of_parseSized hkv hkey
  have hlt : k.2.length % 2 ^ 16 < 2 ^ 16 := Nat.mod_lt _ (by norm_num)
  exact hlength.trans_lt hlt

/-- Pairs that are read back have keys that can be sent. -/
theorem keys_of_forEach (hkv : kv.Inverse) {kvs : StrKvs} {sizes : BitVec 64 × BitVec 64}
    {t t' : Bytes} (hvalue : ∀ e ∈ kvs, e.value.length < 2 ^ 32)
    (h : (forEach (parseStrKeyValue kv) sizes
      (List.replicate kvs.length { key := [], value := [] })).run
        (kvs.flatMap (StrKeyValue.bytes kv) ++ t) = .ok (kvs, t')) :
    ∀ e ∈ kvs, e.key.length < 2 ^ 16 := by
  induction kvs generalizing sizes with
  | nil => simp
  | cons e kvs ih =>
    rw [List.length_cons, List.replicate_succ, List.flatMap_cons, List.append_assoc] at h
    obtain ⟨⟨sizes', e'⟩, b, helem, hrest⟩ := run_bind_eq_ok.mp h
    obtain ⟨kvs', b', hrest, hdone⟩ := run_bind_eq_ok.mp hrest
    cases hdone
    have hkey := key_of_parseStrKeyValue hkv helem
    -- The first key is short, so its entry is read whole and the others are read behind it.
    have hreads := reads_parseStrKeyValue hkv sizes { key := [], value := [] } e hkey
      (hvalue e List.mem_cons_self) (kvs.flatMap (StrKeyValue.bytes kv) ++ t)
    obtain ⟨-, rfl⟩ := Prod.mk.inj (Except.ok.inj (helem.symm.trans hreads))
    exact List.forall_mem_cons.mpr
      ⟨hkey, ih (fun e he => hvalue e (List.mem_cons_of_mem _ he)) hrest⟩

/-- A map that comes back has no key that is too long. -/
theorem keys_of_parseStrKvs (hkv : kv.Inverse) {kvs : StrKvs} {t t' : Bytes}
    (hlength : kvs.length < 2 ^ 32) (hvalue : ∀ e ∈ kvs, e.value.length < 2 ^ 32)
    (h : (parseStrKvs kv []).run (serializeStrKvs kv kvs ++ t) = .ok (kvs, t')) :
    ∀ e ∈ kvs, e.key.length < 2 ^ 16 := by
  have hcount := reads_parseUnsigned hkv (by norm_num) le_rfl (BitVec.ofNat 32 kvs.length)
    (-1 : BitVec 32)
  unfold serializeStrKvs at h
  rw [List.append_assoc] at h
  have hrest := hcount.rest h
  rw [BitVec.setWidth_eq] at hrest
  change (forEach (parseStrKeyValue kv) _
    (resize [] (BitVec.ofNat 32 kvs.length).toNat _)).run _ = _ at hrest
  rw [toNat_ofNat_of_lt 32 _ hlength, resize_nil] at hrest
  exact keys_of_forEach hkv hvalue hrest

end

/-! ## Requests -/

namespace MmbpRequest

variable {kv : Kvarint} {kn : Kanon} {r r₀ r' : MmbpRequest} {N : ℕ}

/-- A request without payload. -/
structure Unfilled (r : MmbpRequest) : Prop where
  key : r.key.length < 2 ^ 16
  kvs : r.kvs = []
  values : r.values = []
  value : r.value = []
  vmembers : r.vmembers = []

/-- What is parsed into one: it is within the limits, but for the keys of `kvs`, and has
entries only where they were carried. -/
structure Received (r : MmbpRequest) : Prop where
  key : r.key.length < 2 ^ 16
  kvs : r.kvs.length < 2 ^ 32
  kvs_value : ∀ e ∈ r.kvs, e.value.length < 2 ^ 32
  kvs_carried : r.kvs ≠ [] → ¬ r.hasValue ∧ ¬ r.hasValues ∧ r.hasKvs
  values : r.values.length < 2 ^ 32
  values_value : ∀ v ∈ r.values, v.length < 2 ^ 32
  value : r.value.length < 2 ^ 32
  vmembers : r.vmembers.length < 2 ^ 32
  vmembers_value : ∀ v ∈ r.vmembers, v.value.length < 2 ^ 32

/-- Only the keys of `kvs` may be too long. -/
theorem Received.bare (h : r.Received) : Encodable { r with kvs := [] } where
  key := h.key
  kvs := by simp
  kvs_key := by simp
  kvs_value := by simp
  values := h.values
  values_value := h.values_value
  value := h.value
  vmembers := h.vmembers
  vmembers_value := h.vmembers_value

theorem Received.encodable (h : r.Received) (hkeys : ∀ e ∈ r.kvs, e.key.length < 2 ^ 16) :
    r.Encodable :=
  { h.bare with kvs := h.kvs, kvs_key := hkeys, kvs_value := h.kvs_value }

/-- A request without payload is received. -/
theorem Unfilled.received (h : r.Unfilled) : r.Received where
  key := h.key
  kvs := by simp [h.kvs]
  kvs_value := by simp [h.kvs]
  kvs_carried hne := absurd h.kvs hne
  values := by simp [h.values]
  values_value := by simp [h.values]
  value := by simp [h.value]
  vmembers := by simp [h.vmembers]
  vmembers_value := by simp [h.vmembers]

/-- A key that was read is within the limits. -/
theorem ensures_parseKey (h : r.Unfilled) : Ensures N (parseKey kv r) Unfilled := by
  unfold parseKey
  split_ifs
  · refine (ensures_parseString true).bind fun key hkey => ensures_pure ?_
    exact { h with key := hkey }
  · exact ensures_pure h

/-- A payload that was read is within the limits, but for the keys. -/
theorem ensures_parsePayload (h : r.Unfilled) :
    Ensures (2 ^ 32) (parsePayload kv kn r) fun p => p.2.Received := by
  have hr := h.received
  unfold parsePayload
  split_ifs with hvalue hvalues hkvs hcount hrange hvmembers
  · refine (ensures_parseString false).bind fun value hlength => ensures_pure ?_
    exact { hr with value := hlength }
  · refine (ensures_parseStrValues h.values).bind fun values hvals => ensures_pure ?_
    exact { hr with values := hvals.1, values_value := hvals.2 }
  · -- Only here does `kvs` get entries: the kinds before it are not flagged.
    refine (ensures_parseStrKvs h.kvs).bind fun kvs hvals => ensures_pure ?_
    exact { hr with
      kvs := hvals.1
      kvs_value := fun e he => (hvals.2 e he).2
      kvs_carried := fun _ => ⟨hvalue, hvalues, hkvs⟩ }
  · refine (forward_parseUnsigned 32 _).ensures.bind fun _ _ => ensures_pure ?_
    exact { hr with }
  · refine (forward_parseSigned 64 _).ensures.bind ?_
    rintro ⟨ok, left⟩ -
    cases ok with
    | false => exact ensures_pure hr
    | true =>
      refine (forward_parseSigned 64 _).ensures.bind fun _ _ => ensures_pure ?_
      exact { hr with }
  · refine (ensures_parseWeightValues h.vmembers).bind fun vmembers hvals => ensures_pure ?_
    exact { hr with vmembers := hvals.1, vmembers_value := hvals.2 }
  · exact ensures_pure hr

/-- The expiration time needs no limit. -/
theorem ensures_parseExpireTime (h : r.Received) : Ensures N (parseExpireTime kv r) Received := by
  unfold parseExpireTime
  split_ifs
  · refine (forward_parseUnsigned 64 _).ensures.bind fun _ _ => ensures_pure ?_
    exact { h with }
  · exact ensures_pure h

/-- **What `ParseFrom` returns.** -/
theorem ensures_parseFrom (h : r₀.IsFresh) :
    Ensures (2 ^ 32) (parseFrom kv kn r₀) fun p => p.2.Received := by
  have hunfilled (command : BitVec 16) (hasBits : BitVec 8) :
      Unfilled { r₀ with command := command, hasBits := hasBits } :=
    ⟨by simp [h.key], h.kvs, h.values, h.value, h.vmembers⟩
  refine (forward_parseUnsigned 16 _).ensures.bind ?_
  rintro ⟨ok, command⟩ -
  cases ok with
  | false => exact ensures_pure (hunfilled r₀.command r₀.hasBits).received
  | true =>
    refine (forward_parseUnsigned 8 _).ensures.bind ?_
    rintro ⟨ok, hasBits⟩ -
    cases ok with
    | false => exact ensures_pure (hunfilled command r₀.hasBits).received
    | true =>
      refine (ensures_parseKey (hunfilled command hasBits)).bind fun r hr => ?_
      refine (ensures_parsePayload hr).bind ?_
      rintro ⟨ok, r⟩ hr
      cases ok with
      | false => exact ensures_pure hr
      | true => exact (ensures_parseExpireTime hr).bind fun r hr => ensures_pure hr

/-- The expiration time does not touch the pairs. -/
theorem ensures_parseExpireTime_kvs : Ensures N (parseExpireTime kv r) fun r' => r'.kvs = r.kvs := by
  unfold parseExpireTime
  split_ifs
  · exact (forward_parseUnsigned 64 _).ensures.bind fun _ _ => ensures_pure rfl
  · exact ensures_pure rfl

/-- A payload that is read as a map. -/
theorem kvs_of_parsePayload {p : Bool × MmbpRequest} {b b' : Bytes}
    (h : (parsePayload kv kn r).run b = .ok (p, b')) (hvalue : ¬ r.hasValue)
    (hvalues : ¬ r.hasValues) (hkvs : r.hasKvs) :
    ∃ kvs, (parseStrKvs kv r.kvs).run b = .ok (kvs, b') ∧ p = (true, { r with kvs := kvs }) := by
  rw [parsePayload, if_neg hvalue, if_neg hvalues, if_pos hkvs] at h
  obtain ⟨kvs, b₁, hparse, hdone⟩ := run_bind_eq_ok.mp h
  cases hdone
  exact ⟨kvs, hparse, rfl⟩

/-- What is written of the request is read as the request. -/
def Relays (kv : Kvarint) (kn : Kanon) (r : MmbpRequest) : Prop :=
  ∀ r₁ : MmbpRequest, r₁.IsFresh →
    ∃ r', Reads (r₁.parseFrom kv kn) (r.serializeTo kv kn) (true, r') ∧ r'.SameOnWire r

/-- A received request is relayed if its keys can be sent. -/
theorem Received.relays (hkv : kv.Inverse) (hkn : kn.Inverse64) (h : r.Received)
    (hkeys : ∀ e ∈ r.kvs, e.key.length < 2 ^ 16) : r.Relays kv kn := fun r₁ h₁ =>
  ⟨_, reads_parseFrom hkv hkn r₁ r (h.encodable hkeys) h₁.values h₁.kvs h₁.vmembers,
    carry_sameOnWire r₁ r⟩

/-- Keys that are read back can be sent. -/
theorem Received.keys_of_reads (hkv : kv.Inverse) (h : r.Received) (h₀ : r₀.IsFresh)
    (hreads : Reads (r₀.parseFrom kv kn) (r.serializeTo kv kn) (true, r'))
    (hsame : r'.SameOnWire r) : ∀ e ∈ r.kvs, e.key.length < 2 ^ 16 := by
  by_cases hkvs : r.kvs = []
  · simp [hkvs]
  obtain ⟨hvalue, hvalues, hflag⟩ := h.kvs_carried hkvs
  have hcmd := reads_parseUnsigned hkv (by norm_num) le_rfl r.command r₀.command
  have hbits := reads_parseUnsigned hkv (by norm_num) le_rfl r.hasBits r₀.hasBits
  rw [BitVec.setWidth_eq] at hcmd hbits
  -- The fields before the payload are read as they were written.
  have hkey := reads_parseKey hkv { r₀ with command := r.command, hasBits := r.hasBits }
    { r with kvs := [] } h.bare rfl
  have hrun := hreads []
  rw [List.append_nil, serializeTo] at hrun
  obtain ⟨⟨ok, r₂⟩, b, hpayload, hexpire⟩ :=
    run_bind_eq_ok.mp (hkey.rest (hbits.rest (hcmd.rest hrun)))
  rw [serializePayload, if_neg hvalue, if_neg hvalues, if_pos hflag] at hpayload
  obtain ⟨kvs, hparse, hdone⟩ := kvs_of_parsePayload hpayload hvalue hvalues hflag
  cases hdone
  obtain ⟨r₃, b₃, hexp, hdone⟩ := run_bind_eq_ok.mp hexpire
  cases hdone
  have hkeeps : r'.kvs = kvs := (ensures_parseExpireTime_kvs b r' [] (Nat.lt_succ_self _) hexp).2
  have hsent := hsame.payload
  rw [if_neg hvalue, if_neg hvalues, if_pos hflag, hkeeps] at hsent
  change (parseStrKvs kv r₀.kvs).run _ = _ at hparse
  rw [h₀.kvs, hsent] at hparse
  exact keys_of_parseStrKvs hkv h.kvs h.kvs_value hparse

end MmbpRequest

/-! ## Responses -/

namespace MmbpResponse

variable {kv : Kvarint} {kn : Kanon} {r r₀ r' : MmbpResponse}

/-- What is parsed into a response without payload. -/
structure Received (r : MmbpResponse) : Prop where
  value : r.value.length < 2 ^ 32
  values : r.values.length < 2 ^ 32
  values_value : ∀ v ∈ r.values, v.length < 2 ^ 32
  kvs : r.kvs.length < 2 ^ 32
  kvs_value : ∀ e ∈ r.kvs, e.value.length < 2 ^ 32
  kvs_carried : r.kvs ≠ [] → ¬ r.hasValue ∧ ¬ r.hasValues ∧ r.hasKvs
  vmembers : r.vmembers.length < 2 ^ 32
  vmembers_value : ∀ v ∈ r.vmembers, v.value.length < 2 ^ 32

/-- A received response is within the limits if its keys are. -/
theorem Received.encodable (h : r.Received) (hkeys : ∀ e ∈ r.kvs, e.key.length < 2 ^ 16) :
    r.Encodable where
  value := h.value
  values := h.values
  values_value := h.values_value
  kvs := h.kvs
  kvs_key := hkeys
  kvs_value := h.kvs_value
  vmembers := h.vmembers
  vmembers_value := h.vmembers_value

/-- A response without payload is received. -/
theorem received_fresh (statusCode hasBits : BitVec 8) (count : BitVec 64) :
    Received { fresh count with statusCode := statusCode, hasBits := hasBits } where
  value := by simp [fresh]
  values := by simp [fresh]
  values_value := by simp [fresh]
  kvs := by simp [fresh]
  kvs_value := by simp [fresh]
  kvs_carried h := absurd rfl h
  vmembers := by simp [fresh]
  vmembers_value := by simp [fresh]

/-- A payload that was read is within the limits, but for the keys. -/
theorem ensures_parsePayload (statusCode hasBits : BitVec 8) (count : BitVec 64) :
    Ensures (2 ^ 32)
      (parsePayload kv kn { fresh count with statusCode := statusCode, hasBits := hasBits })
      Received := by
  have hr := received_fresh statusCode hasBits count
  unfold parsePayload
  split_ifs with hvalue hvalues hkvs hcount hvmembers
  · refine (ensures_parseString false).bind fun value hlength => ensures_pure ?_
    exact { hr with value := hlength }
  · refine (ensures_parseStrValues rfl).bind fun values hvals => ensures_pure ?_
    exact { hr with values := hvals.1, values_value := hvals.2 }
  · refine (ensures_parseStrKvs rfl).bind fun kvs hvals => ensures_pure ?_
    exact { hr with
      kvs := hvals.1
      kvs_value := fun e he => (hvals.2 e he).2
      kvs_carried := fun _ => ⟨hvalue, hvalues, hkvs⟩ }
  · refine (forward_parseUnsigned 64 _).ensures.bind fun _ _ => ensures_pure ?_
    exact { hr with }
  · refine (ensures_parseWeightValues rfl).bind fun vmembers hvals => ensures_pure ?_
    exact { hr with vmembers := hvals.1, vmembers_value := hvals.2 }
  · exact ensures_pure hr

/-- **What `ParseFrom` returns.** -/
theorem ensures_parseFrom (count : BitVec 64) :
    Ensures (2 ^ 32) (parseFrom kv kn (fresh count)) fun p => p.2.Received := by
  refine (forward_parseUnsigned 8 _).ensures.bind ?_
  rintro ⟨ok, statusCode⟩ -
  cases ok with
  | false => exact ensures_pure (received_fresh _ _ count)
  | true =>
    refine (forward_parseUnsigned 8 _).ensures.bind ?_
    rintro ⟨ok, hasBits⟩ -
    cases ok with
    | false => exact ensures_pure (received_fresh statusCode _ count)
    | true =>
      refine (ensures_parsePayload statusCode hasBits count).bind fun r hr => ?_
      exact ensures_pure hr

/-- A payload that is read as a map. -/
theorem kvs_of_parsePayload {b b' : Bytes}
    (h : (parsePayload kv kn r).run b = .ok (r', b')) (hvalue : ¬ r.hasValue)
    (hvalues : ¬ r.hasValues) (hkvs : r.hasKvs) :
    (parseStrKvs kv r.kvs).run b = .ok (r'.kvs, b') := by
  rw [parsePayload, if_neg hvalue, if_neg hvalues, if_pos hkvs] at h
  obtain ⟨kvs, b₁, hparse, hdone⟩ := run_bind_eq_ok.mp h
  cases hdone
  exact hparse

/-- What is written of the response is read as the response. -/
def Relays (kv : Kvarint) (kn : Kanon) (r : MmbpResponse) : Prop :=
  ∀ count : BitVec 64, ∃ r',
    Reads ((fresh count).parseFrom kv kn) (r.serializeTo kv kn) (true, r') ∧ r'.SameOnWire r

/-- A received response is relayed if its keys can be sent. -/
theorem Received.relays (hkv : kv.Inverse) (hkn : kn.Inverse64) (h : r.Received)
    (hkeys : ∀ e ∈ r.kvs, e.key.length < 2 ^ 16) : r.Relays kv kn := fun count =>
  ⟨_, reads_parseFrom hkv hkn (fresh count) r (h.encodable hkeys) rfl rfl rfl,
    carry_sameOnWire (fresh count) r⟩

/-- Keys that are read back can be sent. -/
theorem Received.keys_of_reads (hkv : kv.Inverse) (h : r.Received) {count : BitVec 64}
    (hreads : Reads ((fresh count).parseFrom kv kn) (r.serializeTo kv kn) (true, r'))
    (hsame : r'.SameOnWire r) : ∀ e ∈ r.kvs, e.key.length < 2 ^ 16 := by
  by_cases hkvs : r.kvs = []
  · simp [hkvs]
  obtain ⟨hvalue, hvalues, hflag⟩ := h.kvs_carried hkvs
  have hstatus := reads_parseUnsigned hkv (by norm_num) le_rfl r.statusCode (fresh count).statusCode
  have hbits := reads_parseUnsigned hkv (by norm_num) le_rfl r.hasBits (fresh count).hasBits
  rw [BitVec.setWidth_eq] at hstatus hbits
  have hrun := hreads []
  rw [List.append_nil, serializeTo, serializePayload, if_neg hvalue, if_neg hvalues,
    if_pos hflag] at hrun
  have hrest := hbits.rest (hstatus.rest hrun)
  rw [← List.append_nil (serializeStrKvs kv r.kvs)] at hrest
  obtain ⟨r₂, b, hpayload, hdone⟩ := run_bind_eq_ok.mp hrest
  cases hdone
  have hparse := kvs_of_parsePayload hpayload hvalue hvalues hflag
  have hsent := hsame.payload
  rw [if_neg hvalue, if_neg hvalues, if_pos hflag] at hsent
  rw [hsent] at hparse
  exact keys_of_parseStrKvs hkv h.kvs h.kvs_value hparse

/-- The response that carries `kvs` and nothing else. -/
def ofKvs (count : BitVec 64) (kvs : StrKvs) : MmbpResponse :=
  { fresh count with statusCode := S_OK, hasBits := setBit 0 2, kvs := kvs }

/-- A map whose keys have their sizes written with 32 bits. -/
def wideKvs (kv : Kvarint) (kvs : StrKvs) : Bytes :=
  kv.encode 32 (BitVec.ofNat 32 kvs.length) ++ kvs.flatMap fun e =>
    (kv.encode 32 (BitVec.ofNat 32 e.key.length) ++ e.key)
      ++ (kv.encode 32 (BitVec.ofNat 32 e.value.length) ++ e.value)

/-- Pairs with wide sizes are read back. -/
theorem reads_wideKvs (hkv : kv.Inverse) {kvs : StrKvs} (hlength : kvs.length < 2 ^ 32)
    (hkey : ∀ e ∈ kvs, e.key.length < 2 ^ 32) (hvalue : ∀ e ∈ kvs, e.value.length < 2 ^ 32) :
    Reads (parseStrKvs kv []) (wideKvs kv kvs) kvs := by
  have h := reads_vector_into (f := parseStrKeyValue kv) (g := StrKeyValue.takeIn) hkv (0, 0)
    { key := [], value := [] } [] kvs hlength fun o e he s =>
      have hk := reads_parseSized hkv (by norm_num) (by norm_num) s.1 o.key e.key (hkey e he)
      have hv := reads_parseSized hkv (by norm_num) (by norm_num) s.2 o.value e.value (hvalue e he)
      ⟨_, hk.bind (hv.bind_pure rfl)⟩
  rwa [(readInto_strKvs_iff [] kvs).mpr (by simp)] at h

/-- **Longer keys are accepted**: of any map within the limits of 32 bits, some buffer makes a
response. -/
theorem accepts_ofKvs (hkv : kv.Inverse) {kvs : StrKvs} (hlength : kvs.length < 2 ^ 32)
    (hkey : ∀ e ∈ kvs, e.key.length < 2 ^ 32) (hval : ∀ e ∈ kvs, e.value.length < 2 ^ 32)
    (count : BitVec 64) :
    Reads (parseFrom kv kn (fresh count))
      (kv.encode 8 S_OK ++ (kv.encode 8 (setBit 0 2) ++ wideKvs kv kvs))
      (true, ofKvs count kvs) := by
  have hstatus := reads_parseUnsigned hkv (by norm_num) le_rfl S_OK (fresh count).statusCode
  have hbits := reads_parseUnsigned hkv (by norm_num) le_rfl (setBit 0 2) (fresh count).hasBits
  rw [BitVec.setWidth_eq] at hstatus hbits
  have hkvs : Reads (parsePayload kv kn (ofKvs count [])) (wideKvs kv kvs) (ofKvs count kvs) := by
    have hvalue : ¬ (ofKvs count []).hasValue := (by decide : ¬ testBit (setBit 0 2) 0)
    have hvalues : ¬ (ofKvs count []).hasValues := (by decide : ¬ testBit (setBit 0 2) 1)
    have hflag : (ofKvs count []).hasKvs := (by decide : testBit (setBit 0 2) 2)
    rw [parsePayload, if_neg hvalue, if_neg hvalues, if_pos hflag]
    exact (reads_wideKvs hkv hlength hkey hval).bind_pure rfl
  exact hstatus.bind (hbits.bind (hkvs.bind_pure rfl))

end MmbpResponse

/-! ## Sending on -/

/-- **Accepted messages are sent on as they are if and only if the length of each key in `kvs`
fits into 16 bits.**  A message is what `ParseFrom` made of a buffer of less than `2 ^ 32` bytes,
and other receivers parse what `SerializeTo` makes of it. -/
theorem mmbp_accepted_relays_iff {kv : Kvarint} {kn : Kanon} (hkv : kv.Inverse)
    (hkn : kn.Inverse64) {b b' : Bytes} (hb : b.length < 2 ^ 32) :
    (∀ r₀ r : MmbpRequest, r₀.IsFresh →
      (r₀.parseFrom kv kn).run b = .ok ((true, r), b') →
        (r.Relays kv kn ↔ ∀ e ∈ r.kvs, e.key.length < 2 ^ 16))
    ∧ ∀ (r : MmbpResponse) (count : BitVec 64),
      ((MmbpResponse.fresh count).parseFrom kv kn).run b = .ok ((true, r), b') →
        (r.Relays kv kn ↔ ∀ e ∈ r.kvs, e.key.length < 2 ^ 16) := by
  constructor
  · intro r₀ r h₀ hparse
    have hr : r.Received := (MmbpRequest.ensures_parseFrom h₀ b _ b' hb hparse).2
    refine ⟨fun hrelays => ?_, hr.relays hkv hkn⟩
    obtain ⟨r', hreads, hsame⟩ := hrelays r₀ h₀
    exact hr.keys_of_reads hkv h₀ hreads hsame
  · intro r count hparse
    have hr : r.Received := (MmbpResponse.ensures_parseFrom count b _ b' hb hparse).2
    refine ⟨fun hrelays => ?_, hr.relays hkv hkn⟩
    obtain ⟨r', hreads, hsame⟩ := hrelays count
    exact hr.keys_of_reads hkv hreads hsame

/-- The request that carries the map from `k` to `v`. -/
def MmbpRequest.pair : MmbpRequest :=
  { MmbpRequest.fresh with
    hasBits := setBit 0 4
    kvs := [{ key := [107], value := [118] }] }

theorem mmbp_accepted_relays_iff_pair_hi :
    (MmbpRequest.pair.Relays Kvarint.leb128 Kanon.bigEndian
      ↔ ∀ e ∈ MmbpRequest.pair.kvs, e.key.length < 2 ^ 16)
    ∧ (MmbpResponse.hi.Relays Kvarint.leb128 Kanon.bigEndian
      ↔ ∀ e ∈ MmbpResponse.hi.kvs, e.key.length < 2 ^ 16) := by
  have hkv := Kvarint.leb128_inverse
  have hkn := Kanon.bigEndian_inverse64
  constructor
  · exact (mmbp_accepted_relays_iff hkv hkn (by decide)).1 MmbpRequest.fresh MmbpRequest.pair
      (by constructor <;> rfl)
      (MmbpRequest.reads_parseFrom hkv hkn MmbpRequest.fresh MmbpRequest.pair
        (by constructor <;> decide) rfl rfl rfl [])
  · exact (mmbp_accepted_relays_iff hkv hkn (by decide)).2 MmbpResponse.hi 0
      (MmbpResponse.reads_parseFrom hkv hkn (MmbpResponse.fresh 0) MmbpResponse.hi
        (by constructor <;> decide) rfl rfl rfl [])

end Mmkvc
