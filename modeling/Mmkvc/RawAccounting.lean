/-
# What the raw parsers leave of the size

A raw parser is given a pointer into the input and the number of bytes behind it.  The strings of a
key and of a value move the pointer alone, and `ParseFrom2` subtracts the difference of two copies of
the address of the pointer, which is zero.  So the messages of a concatenation are decoded one after
the other, and the size never shows it.
-/
import Mmkvc.RawAgreement

namespace Mmkvc

namespace MmbpRequest

variable (kv : Kvarint) (kn : Kanon)

/-- The messages one behind the other. -/
def serializeAll (ms : List MmbpRequest) : Bytes := ms.flatMap (serializeTo kv kn)

/-- `ParseFrom2` again and again, each time into the next of the messages. -/
def rawParseAll (ppData : BitVec 64) : List MmbpRequest → RawReader (List MmbpRequest)
  | [] => return []
  | r :: rs => do
    let m ← rawParseFrom2 kv ppData r
    let ms ← rawParseAll ppData rs
    return m :: ms

/-! ## What is asked -/

/-- The pointer and the size lead to the end of the input behind every component of `ParseFrom`,
whatever messages of the concatenation are still to come. -/
def AtEndThroughout (ms : List MmbpRequest) : Prop :=
  ∀ m after, m :: after <:+ ms → ∀ (r₀ : MmbpRequest) (len : BitVec 64), r₀.IsFresh →
    len.toNat = (serializeAll kv kn (m :: after)).length →
    ∃ f states s', (r₀.rawParseFrom kv).run ⟨serializeAll kv kn (m :: after), len⟩
        = .ok ((f, states), s') ∧ ∀ s ∈ s' :: states, s.AtEnd

/-- `ParseFrom2` decodes the messages one after the other, and nothing is left of the size. -/
def DecodesAll (ms : List MmbpRequest) : Prop :=
  ∀ (ppData len : BitVec 64) (fs : List MmbpRequest), fs.length = ms.length →
    (∀ f ∈ fs, f.IsFresh) → len.toNat = (serializeAll kv kn ms).length →
    ∃ out s', (rawParseAll kv ppData fs).run ⟨serializeAll kv kn ms, len⟩ = .ok (out, s')
      ∧ List.Forall₂ SameOnWire out ms ∧ s'.size = 0

/-- The raw parsers account for the bytes of a concatenation. -/
def RawAccounts (ms : List MmbpRequest) : Prop :=
  AtEndThroughout kv kn ms ∧ DecodesAll kv kn ms

/-! ## What is so -/

variable {kv kn} {r₀ m : MmbpRequest} {ms fs out : List MmbpRequest} {ppData len : BitVec 64}

theorem serializeAll_cons :
    serializeAll kv kn (m :: ms) = serializeTo kv kn m ++ serializeAll kv kn ms :=
  List.flatMap_cons

/-- A message has at least one byte. -/
theorem serializeTo_ne_nil (hkv : kv.Inverse) : serializeTo kv kn m ≠ [] := by
  intro h
  rw [serializeTo, List.append_eq_nil_iff] at h
  exact hkv.encode_ne_nil (by norm_num) _ h.1

/-- Only no message at all has no bytes. -/
theorem serializeAll_eq_nil (hkv : kv.Inverse) : serializeAll kv kn ms = [] ↔ ms = [] := by
  cases ms with
  | nil => exact iff_of_true rfl rfl
  | cons m ms =>
    refine iff_of_false (fun h => ?_) (List.cons_ne_nil m ms)
    rw [serializeAll_cons, List.append_eq_nil_iff] at h
    exact serializeTo_ne_nil hkv h.1

/-- `ParseFrom2` leaves the size as it was. -/
theorem rawParseFrom2_run (s : Raw) :
    (rawParseFrom2 kv ppData r₀).run s
      = (rawParseFrom kv r₀).run s >>= fun p => .ok (p.1.1, { p.2 with size := s.size }) := by
  change (rawParseFrom kv r₀).run s >>= _ = _
  refine bind_congr fun p => ?_
  change Except.ok (p.1.1, { p.2 with size := s.size - (ppData - ppData) }) = _
  rw [BitVec.sub_self, BitVec.sub_zero]

/-- However many messages are parsed, the size is what it was. -/
theorem size_rawParseAll {s s' : Raw} (h : (rawParseAll kv ppData fs).run s = .ok (out, s')) :
    s'.size = s.size := by
  induction fs generalizing s out with
  | nil =>
    obtain ⟨-, rfl⟩ := Prod.mk.inj (Except.ok.inj h)
    rfl
  | cons r rs ih =>
    rw [rawParseAll, StateT.run_bind, rawParseFrom2_run] at h
    cases hp : (rawParseFrom kv r).run s with
    | error e =>
      rw [hp] at h
      cases h
    | ok p =>
      rw [hp] at h
      change ((rawParseAll kv ppData rs >>= fun ms => pure (p.1.1 :: ms)).run
        { p.2 with size := s.size }) = _ at h
      rw [StateT.run_bind] at h
      cases hq : (rawParseAll kv ppData rs).run { p.2 with size := s.size } with
      | error e =>
        rw [hq] at h
        cases h
      | ok q =>
        rw [hq] at h
        obtain ⟨-, rfl⟩ := Prod.mk.inj (Except.ok.inj h)
        have hrest := ih hq
        exact hrest

/-- One message, the size as it was behind it. -/
theorem rawParseFrom2_serializeTo (hkv : kv.Inverse) (hr : m.Encodable)
    (hweights : ¬ m.SendsWeights) (t : Bytes)
    (hlen : (serializeTo kv kn m ++ t).length ≤ len.toNat) :
    (rawParseFrom2 kv ppData r₀).run ⟨serializeTo kv kn m ++ t, len⟩
      = .ok (carryInto r₀ m, ⟨t, len⟩) := by
  obtain ⟨states, hrun, -⟩ :=
    (rawLeaves_parseFrom (G := True) hkv kn r₀ m hr hweights).run t len hlen
  rw [rawParseFrom2_run, hrun]
  rfl

/-- **The messages are decoded one after the other**, for all that the size says. -/
theorem rawParseAll_serializeAll (hkv : kv.Inverse) (hms : ∀ m ∈ ms, m.Encodable)
    (hweights : ∀ m ∈ ms, ¬ m.SendsWeights) (hfs : fs.length = ms.length)
    (hfresh : ∀ f ∈ fs, f.IsFresh) (hlen : (serializeAll kv kn ms).length ≤ len.toNat) :
    ∃ out, (rawParseAll kv ppData fs).run ⟨serializeAll kv kn ms, len⟩ = .ok (out, ⟨[], len⟩)
      ∧ List.Forall₂ SameOnWire out ms := by
  induction ms generalizing fs with
  | nil =>
    obtain rfl := List.length_eq_zero_iff.mp hfs
    exact ⟨[], rfl, .nil⟩
  | cons m ms ih =>
    obtain ⟨f, fs, rfl⟩ := List.exists_cons_of_length_eq_add_one hfs
    have hf := hfresh f List.mem_cons_self
    rw [serializeAll_cons] at hlen
    obtain ⟨out, hrun, hout⟩ := ih (fun x hx => hms x (List.mem_cons_of_mem m hx))
      (fun x hx => hweights x (List.mem_cons_of_mem m hx)) (Nat.succ.inj hfs)
      (fun x hx => hfresh x (List.mem_cons_of_mem f hx))
      (by rw [List.length_append] at hlen; omega)
    have hfirst : (rawParseFrom2 kv ppData f).run ⟨serializeTo kv kn m ++ serializeAll kv kn ms, len⟩
        = .ok (carryInto f m, ⟨serializeAll kv kn ms, len⟩) :=
      rawParseFrom2_serializeTo hkv (hms m List.mem_cons_self) (hweights m List.mem_cons_self) _ hlen
    refine ⟨carryInto f m :: out, ?_, .cons ?_ hout⟩
    · rw [serializeAll_cons, rawParseAll, run_bind_ok hfirst, run_bind_ok hrun]
      rfl
    · rw [carryInto_eq m hf.values hf.kvs hf.vmembers]
      exact carry_sameOnWire f m

/-- What is sent of the key and the value is part of the message. -/
theorem sent_le (kv : Kvarint) (kn : Kanon) (m : MmbpRequest) :
    m.sentKey + m.sentValue ≤ (serializeTo kv kn m).length := by
  have hkey := sentKey_le kv m
  have hvalue := sentValue_le kv kn m
  simp only [serializeTo, List.length_append]
  omega

/-- **Behind a message.**  The size is right exactly if no byte of a key or a value was sent. -/
theorem atEndThroughout_iff (hkv : kv.Inverse) (hms : ∀ m ∈ ms, m.Encodable)
    (hweights : ∀ m ∈ ms, ¬ m.SendsWeights) (hlen : (serializeAll kv kn ms).length < 2 ^ 64) :
    AtEndThroughout kv kn ms ↔ ∀ m ∈ ms, m.sentKey + m.sentValue = 0 := by
  have hsuffix : ∀ l, l <:+ ms → (serializeAll kv kn l).length < 2 ^ 64 := by
    rintro l ⟨before, rfl⟩
    rw [serializeAll, List.flatMap_append, List.length_append] at hlen
    exact (Nat.le_add_left _ _).trans_lt hlen
  constructor
  · intro h m hm
    obtain ⟨before, after, rfl⟩ := List.append_of_mem hm
    have hafter : m :: after <:+ before ++ m :: after := List.suffix_append _ _
    have hfits := hsuffix _ hafter
    have hnat : (BitVec.ofNat 64 (serializeAll kv kn (m :: after)).length).toNat
        = (serializeAll kv kn (m :: after)).length := by
      rw [BitVec.toNat_ofNat, Nat.mod_eq_of_lt hfits]
    obtain ⟨f, states, s', hrun, hend⟩ := h m after hafter fresh _
      ⟨rfl, rfl, rfl, rfl, rfl, rfl, rfl⟩ hnat
    rw [serializeAll_cons] at hrun hnat
    have hleaves := rawLeaves_parseFrom (G := True) hkv kn fresh m (hms m hm) (hweights m hm)
    obtain ⟨states', hrun', -⟩ := hleaves.run _ _ hnat.ge
    obtain ⟨-, rfl⟩ := Prod.mk.inj (Except.ok.inj (hrun'.symm.trans hrun))
    have hat : BitVec.toNat _ = (serializeAll kv kn after).length := hend _ List.mem_cons_self
    have hsent := sent_le kv kn m
    rw [RawReader.toNat_sub_ofNat (by rw [hnat, List.length_append]; omega), hnat,
      List.length_append] at hat
    omega
  · intro h m after hafter r₀ len _ hlen'
    have hm : m ∈ ms := hafter.subset List.mem_cons_self
    rw [serializeAll_cons] at hlen' ⊢
    obtain ⟨states, hrun, hrecorded⟩ :=
      (rawLeaves_parseFrom (G := True) hkv kn r₀ m (hms m hm) (hweights m hm)).run _ _ hlen'.ge
    refine ⟨_, states, _, hrun, fun s hs => ?_⟩
    rw [h m hm, Nat.sub_zero] at hs hrecorded
    rcases List.mem_cons.mp hs with rfl | hs
    · rw [List.length_append] at hlen'
      rw [Raw.AtEnd, RawReader.toNat_sub_ofNat (by omega), hlen', Nat.add_sub_cancel_left]
    · exact hrecorded trivial rfl hlen'.symm s hs

/-- Nothing is accounted for unless there is nothing. -/
theorem rawAccounts_iff (hkv : kv.Inverse) (hlen : (serializeAll kv kn ms).length < 2 ^ 64) :
    RawAccounts kv kn ms ↔ ms = [] := by
  constructor
  · rintro ⟨-, hall⟩
    obtain ⟨out, s', hrun, -, hsize⟩ := hall 0 (BitVec.ofNat 64 (serializeAll kv kn ms).length)
      (List.replicate ms.length fresh) List.length_replicate
      (fun f hf => by rw [List.eq_of_mem_replicate hf]; exact ⟨rfl, rfl, rfl, rfl, rfl, rfl, rfl⟩)
      (by rw [BitVec.toNat_ofNat, Nat.mod_eq_of_lt hlen])
    have hzero := congrArg BitVec.toNat ((size_rawParseAll hrun).symm.trans hsize)
    rw [BitVec.toNat_ofNat, Nat.mod_eq_of_lt hlen] at hzero
    exact (serializeAll_eq_nil hkv).mp (List.length_eq_zero_iff.mp hzero)
  · rintro rfl
    refine ⟨fun m after hafter => ?_, fun ppData len fs hfs _ hlen' => ?_⟩
    · cases List.suffix_nil.mp hafter
    · obtain rfl := List.length_eq_zero_iff.mp hfs
      exact ⟨[], ⟨[], len⟩, rfl, .nil, BitVec.eq_of_toNat_eq hlen'⟩

end MmbpRequest

/-- **What the raw parsers account for.**  Nothing but the empty concatenation; behind the
components of messages without weights the size is right exactly if no byte of a key or a value is
sent. -/
theorem mmbpRequest_raw_accounts {kv : Kvarint} {kn : Kanon} (hkv : kv.Inverse)
    {ms : List MmbpRequest} (hms : ∀ m ∈ ms, m.Encodable)
    (hlen : (MmbpRequest.serializeAll kv kn ms).length < 2 ^ 64) :
    (MmbpRequest.RawAccounts kv kn ms ↔ ms = [])
      ∧ ((∀ m ∈ ms, ¬ m.SendsWeights) →
        (MmbpRequest.AtEndThroughout kv kn ms ↔ ∀ m ∈ ms, m.sentKey + m.sentValue = 0)) :=
  ⟨MmbpRequest.rawAccounts_iff hkv hlen, fun hweights =>
    MmbpRequest.atEndThroughout_iff hkv hms hweights hlen⟩

/-- Of a request with a key and a value, neither the one nor the other is accounted for. -/
theorem mmbpRequest_raw_accounts_strset :
    ¬ MmbpRequest.RawAccounts Kvarint.leb128 Kanon.bigEndian [MmbpRequest.strset]
      ∧ ¬ MmbpRequest.AtEndThroughout Kvarint.leb128 Kanon.bigEndian [MmbpRequest.strset] := by
  have hstrset : MmbpRequest.strset.Encodable := by constructor <;> decide
  have hms : ∀ m ∈ [MmbpRequest.strset], m.Encodable := fun m hm => by
    rwa [List.mem_singleton.mp hm]
  have hlen : (MmbpRequest.serializeAll Kvarint.leb128 Kanon.bigEndian
    [MmbpRequest.strset]).length < 2 ^ 64 := by decide
  obtain ⟨hall, hend⟩ := mmbpRequest_raw_accounts Kvarint.leb128_inverse hms hlen
  refine ⟨fun h => absurd (hall.mp h) (List.cons_ne_nil _ _), fun h => ?_⟩
  have hweights : ∀ m ∈ [MmbpRequest.strset], ¬ m.SendsWeights := by
    rintro m hm ⟨-, hsends, -⟩
    rw [List.mem_singleton.mp hm] at hsends
    exact absurd hsends (by decide)
  exact absurd ((hend hweights).mp h _ (List.mem_singleton.mpr rfl)) (by decide)

/-- The size is as large after the message as before it. -/
theorem mmbpRequest_not_raw_accounts :
    ¬ ∀ ms : List MmbpRequest, (∀ m ∈ ms, m.Encodable) →
      (MmbpRequest.serializeAll Kvarint.leb128 Kanon.bigEndian ms).length < 2 ^ 64 →
      MmbpRequest.RawAccounts Kvarint.leb128 Kanon.bigEndian ms := by
  intro h
  have hstrset : MmbpRequest.strset.Encodable := by constructor <;> decide
  have hlen : (MmbpRequest.serializeAll Kvarint.leb128 Kanon.bigEndian
    [MmbpRequest.strset]).length < 2 ^ 64 := by decide
  have hall := h [MmbpRequest.strset] (fun m hm => by rwa [List.mem_singleton.mp hm]) hlen
  exact absurd ((MmbpRequest.rawAccounts_iff Kvarint.leb128_inverse hlen).mp hall)
    (List.cons_ne_nil _ _)

end Mmkvc
