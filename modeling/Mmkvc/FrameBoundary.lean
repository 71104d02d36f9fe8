/-
# Where the receive loop goes on behind a frame

The loop leaves the read cursor where `ParseFrom` leaves it and skips four bytes.
`mmbpCodec_continues_behind_frame` says that it goes on behind the checksum where the
payload is one whole response, and for no other payload where the readable bytes hold all
that the response announces.
-/
import Mmkvc.MmbpLayout
import Mmkvc.RejectedFrames

namespace Mmkvc

/-! ## What a scan depends on -/

namespace Scan

section

variable {α β : Type} {kv : Kvarint}

/-- The scan depends on the bytes that it takes alone: it takes them where they stand by
themselves, and in front of any others. -/
def Local (s : Scan α) : Prop :=
  ∀ b v rest, s.run b = .ok (v, rest) ↔ ∃ p, b = p ++ rest ∧ s.run p = .ok (v, [])

/-- Where nothing is read, nothing behind it matters. -/
theorem local_pure (v : α) : Local (pure v) := by
  intro b w rest
  constructor
  · intro h
    cases h
    exact ⟨[], rfl, rfl⟩
  · rintro ⟨p, rfl, h⟩
    cases h
    rfl

/-- Two scans in sequence take the bytes of both. -/
theorem Local.bind {s : Scan α} {g : α → Scan β} (hs : s.Local) (hg : ∀ v, (g v).Local) :
    (s >>= g).Local := by
  intro b w rest
  constructor
  · intro h
    obtain ⟨v, mid, hv, hw⟩ := run_bind_eq_ok.mp h
    obtain ⟨p, rfl, hp⟩ := (hs b v mid).mp hv
    obtain ⟨q, rfl, hq⟩ := (hg v mid w rest).mp hw
    have hpq : s.run (p ++ q) = .ok (v, q) := (hs _ v q).mpr ⟨p, rfl, hp⟩
    exact ⟨p ++ q, (List.append_assoc p q rest).symm, run_bind_eq_ok.mpr ⟨v, q, hpq, hq⟩⟩
  · rintro ⟨p, rfl, h⟩
    obtain ⟨v, mid, hv, hw⟩ := run_bind_eq_ok.mp h
    obtain ⟨q, rfl, hq⟩ := (hs p v mid).mp hv
    have hmid : s.run (q ++ mid ++ rest) = .ok (v, mid ++ rest) :=
      (hs _ v _).mpr ⟨q, List.append_assoc q mid rest, hq⟩
    exact run_bind_eq_ok.mpr ⟨v, _, hmid, (hg v _ w rest).mpr ⟨mid, rfl, hw⟩⟩

/-- A number, by what the decoder does with its bytes. -/
theorem local_varint (hb : kv.Bounded) (hs : kv.Settled) (hc : kv.Confined) (e : Missing) (n : ℕ) :
    (varint kv e n).Local := by
  intro b v rest
  constructor
  · intro h
    cases hd : kv.decode n b with
    | error d =>
      rw [run_varint_error hd] at h
      cases h
    | ok r =>
      obtain ⟨len, i⟩ := r
      rw [run_varint_ok hd] at h
      cases h
      refine ⟨b.take len, (List.take_append_drop len b).symm, ?_⟩
      rw [run_varint_ok (hc hd), List.drop_eq_nil_of_le (List.length_take_le len b)]
  · rintro ⟨p, rfl, h⟩
    cases hd : kv.decode n p with
    | error d =>
      rw [run_varint_error hd] at h
      cases h
    | ok r =>
      obtain ⟨len, i⟩ := r
      rw [run_varint_ok hd, Except.ok.injEq, Prod.mk.injEq] at h
      obtain ⟨rfl, hdrop⟩ := h
      rw [run_varint_ok ((hs.decode_append p rest (by rw [hd]; nofun)).trans hd),
        List.drop_append_of_le_length (hb.decode_le hd), hdrop, List.nil_append]

/-- Bytes are found if there are enough of them. -/
theorem run_bytes_eq_ok {n : ℕ} {b rest : Bytes} {v : Unit} :
    (bytes n).run b = .ok (v, rest) ↔ n ≤ b.length ∧ b.drop n = rest := by
  show (if n ≤ b.length then Except.ok ((), b.drop n) else .error Missing.untested) = _ ↔ _
  split_ifs with hn
  · simp [hn]
  · simp [hn]

/-- Bytes that are found do not depend on what is behind them. -/
theorem local_bytes (n : ℕ) : (bytes n).Local := by
  intro b v rest
  rw [run_bytes_eq_ok]
  constructor
  · rintro ⟨hn, rfl⟩
    refine ⟨b.take n, (List.take_append_drop n b).symm, run_bytes_eq_ok.mpr ⟨?_, ?_⟩⟩
    · rw [List.length_take_of_le hn]
    · exact List.drop_eq_nil_of_le (List.length_take_le n b)
  · rintro ⟨p, rfl, h⟩
    obtain ⟨hn, hdrop⟩ := run_bytes_eq_ok.mp h
    rw [List.length_append, List.drop_append_of_le_length hn, hdrop]
    exact ⟨hn.trans (Nat.le_add_right _ _), rfl⟩

theorem local_times {s : Scan Unit} (hs : s.Local) (n : ℕ) : (times s n).Local := by
  induction n with
  | zero => exact local_pure ()
  | succ n ih => exact hs.bind fun _ => ih

/-- The components of a response. -/
theorem local_response (hb : kv.Bounded) (hs : kv.Settled) (hc : kv.Confined) :
    (response kv).Local := by
  have hsized : ∀ n, (sized kv n).Local := fun n =>
    (local_varint hb hs hc _ n).bind fun _ => local_bytes _
  have hvector : ∀ {s : Scan Unit}, s.Local → (vector kv s).Local := fun h =>
    (local_varint hb hs hc _ 32).bind fun _ => local_times h _
  refine (local_varint hb hs hc _ 8).bind fun _ =>
    (local_varint hb hs hc _ 8).bind fun hasBits => ?_
  unfold responsePayload
  split_ifs
  · exact hsized 32
  · exact hvector (hsized 64)
  · exact hvector ((hsized 64).bind fun _ => hsized 64)
  · exact (local_varint hb hs hc _ 64).bind fun _ => local_pure ()
  · exact hvector ((local_bytes 8).bind fun _ => hsized 64)
  · exact local_pure ()

end

end Scan

namespace MmbpCodec

/-- A frame that passes the tests of the loop: its length prefix, payload and
checksum, and what has arrived behind it. -/
structure Passes (kv : Kvarint) (kn : Kanon) (xx : XXHash) (size : BitVec 32)
    (pre payload cks rest : Bytes) : Prop where
  decode : kv.decode 32 (pre ++ (mmbpTag ++ payload ++ cks ++ rest)) = .ok (pre.length, size)
  size_eq : size.toNat = (mmbpTag ++ payload ++ cks).length
  length_cks : cks.length = checksumLength
  size_lt : pre.length + size.toNat < maxSize
  below : (pre ++ (mmbpTag ++ payload ++ cks ++ rest)).length < maxSize
  checksum : xx.xxh32 (mmbpTag ++ payload) = kn.read32 cks

/-- The loop hands the message over and goes on at `rest`. -/
def ContinuesAt (kn : Kanon) (xx : XXHash) {μ : Type} (messageCb : BitVec 32 → Reader μ)
    (sizeHeaderLen : ℕ) (sizeHeader : BitVec 32) (b rest : Bytes) : Prop :=
  ∃ m, (receiveFrame kn xx messageCb sizeHeaderLen sizeHeader).run b
    = .ok ((true, [.message m]), rest)

section

variable {kv : Kvarint} {kn : Kanon} {xx : XXHash} {size : BitVec 32}
  {pre payload cks rest : Bytes}

/-- The payload is one whole response and nothing else: the components that its has-bits
select begin with it and end with it. -/
def OneResponse (kv : Kvarint) (payload : Bytes) : Prop :=
  (Scan.response kv).run payload = .ok ((), [])

/-- Two ends of a byte string that are equally long. -/
theorem suffix_eq {b c d : Bytes} (hb : b <:+ d) (hc : c <:+ d) (h : b.length = c.length) :
    b = c :=
  (List.suffix_of_suffix_length_le hb hc h.le).eq_of_length h

/-- The loop skips four bytes from where `ParseFrom` stops, so this has to be the checksum. -/
theorem Passes.continuesAt_iff_parse (h : Passes kv kn xx size pre payload cks rest)
    (count : BitVec 64) :
    ContinuesAt kn xx (parseResponse kv kn count) pre.length size
        (pre ++ (mmbpTag ++ payload ++ cks ++ rest)) rest
      ↔ ∃ m, ((MmbpResponse.fresh count).parseFrom kv kn).run (payload ++ (cks ++ rest))
        = .ok (m, cks ++ rest) := by
  rw [ContinuesAt, run_receiveFrame_passing h.size_eq h.length_cks h.size_lt h.below h.checksum]
  constructor
  · rintro ⟨m, hrun⟩
    obtain ⟨a, b₁, hcb, hrun⟩ := run_bind_eq_ok.mp hrun
    obtain ⟨_, b₂, hadv, hrun⟩ := run_bind_eq_ok.mp hrun
    obtain ⟨hlen, rfl⟩ := run_advance_eq_ok hadv
    cases hrun
    have hb₁ : b₁ = cks ++ b₁.drop checksumLength := by
      refine suffix_eq (forward_parseResponse count _ _ _ _ hcb) (List.suffix_append payload _) ?_
      rw [List.length_append, h.length_cks, List.length_drop]
      omega
    refine ⟨m, hcb.trans ?_⟩
    rw [← hb₁]
  · rintro ⟨m, hparse⟩
    refine ⟨m, (run_bind_ok hparse).trans ?_⟩
    exact (run_bind_ok (Reader.reads_advance cks _ h.length_cks rest)).trans rfl

/-- Where all components of the response are there, `ParseFrom` stops behind them. -/
theorem Passes.continuesAt_iff_of_scan (hb : kv.Bounded)
    (h : Passes kv kn xx size pre payload cks rest) (count : BitVec 64) {t : Bytes}
    (ht : (Scan.response kv).run (payload ++ (cks ++ rest)) = .ok ((), t)) :
    ContinuesAt kn xx (parseResponse kv kn count) pre.length size
        (pre ++ (mmbpTag ++ payload ++ cks ++ rest)) rest ↔ t = cks ++ rest := by
  have hagrees : Agrees ((MmbpResponse.fresh count).parseFrom kv kn) (Scan.response kv)
      fun _ _ => True := MmbpResponse.agrees_parseFrom hb _
  obtain ⟨a, ha, -⟩ := hagrees.present _ _ _ ht
  rw [h.continuesAt_iff_parse]
  constructor
  · rintro ⟨m, hm⟩
    exact (Prod.mk.inj (Except.ok.inj (ha.symm.trans hm))).2
  · rintro rfl
    exact ⟨_, ha⟩

/-- The components of a response are found in front of other bytes exactly if they are the
payload. -/
theorem oneResponse_iff (hb : kv.Bounded) (hs : kv.Settled) (hc : kv.Confined) (t : Bytes) :
    OneResponse kv payload ↔ (Scan.response kv).run (payload ++ t) = .ok ((), t) := by
  rw [Scan.local_response hb hs hc _ () t]
  constructor
  · intro h
    exact ⟨payload, rfl, h⟩
  · rintro ⟨p, hp, h⟩
    rwa [← List.append_cancel_right hp] at h

end

end MmbpCodec

/-- **Where the loop goes on.**  Behind a frame that passes its tests and whose payload is one
whole response the loop goes on at the first byte behind the checksum, and does there what it
would have done had the frame not been before it.  Where the readable bytes hold all that a
response has which begins with the payload, it goes on there for no other payload. -/
theorem mmbpCodec_continues_behind_frame {kv : Kvarint} {kn : Kanon} {xx : XXHash}
    (hb : kv.Bounded) (hs : kv.Settled) (hc : kv.Confined) (count : BitVec 64) {size : BitVec 32}
    {pre payload cks rest : Bytes} (h : MmbpCodec.Passes kv kn xx size pre payload cks rest) :
    (MmbpCodec.OneResponse kv payload →
      MmbpCodec.ContinuesAt kn xx (MmbpCodec.parseResponse kv kn count) pre.length size
          (pre ++ (MmbpCodec.mmbpTag ++ payload ++ cks ++ rest)) rest
        ∧ ∃ m, ∀ fuel es b,
          (MmbpCodec.receiveLoop kv kn xx (MmbpCodec.parseResponse kv kn count) fuel).run rest
              = .ok (es, b) →
            (MmbpCodec.receiveLoop kv kn xx (MmbpCodec.parseResponse kv kn count) (fuel + 1)).run
                (pre ++ (MmbpCodec.mmbpTag ++ payload ++ cks ++ rest)) = .ok (.message m :: es, b))
    ∧ ((Scan.response kv).Present (payload ++ (cks ++ rest)) →
      (MmbpCodec.ContinuesAt kn xx (MmbpCodec.parseResponse kv kn count) pre.length size
          (pre ++ (MmbpCodec.mmbpTag ++ payload ++ cks ++ rest)) rest
        ↔ MmbpCodec.OneResponse kv payload)) := by
  constructor
  · intro hone
    have hscan := (MmbpCodec.oneResponse_iff hb hs hc (cks ++ rest)).mp hone
    have hcontinues := (h.continuesAt_iff_of_scan hb count hscan).mpr rfl
    obtain ⟨m, hframe⟩ := hcontinues
    exact ⟨⟨m, hframe⟩, m, fun fuel es b hloop =>
      MmbpCodec.run_receiveLoop_frame h.decode hframe hloop⟩
  · rintro ⟨t, ht⟩
    rw [h.continuesAt_iff_of_scan hb count ht, MmbpCodec.oneResponse_iff hb hs hc (cks ++ rest), ht]
    constructor
    · rintro rfl
      rfl
    · intro heq
      exact (Prod.mk.inj (Except.ok.inj heq)).2

/-- A response without components, with two bytes behind it. -/
theorem mmbpCodec_continues_behind_frame_empty :
    MmbpCodec.ContinuesAt Kanon.bigEndian XXHash.seed0
      (MmbpCodec.parseResponse Kvarint.leb128 Kanon.bigEndian 0) 1 10
      ([10] ++ (MmbpCodec.mmbpTag ++ [0, 0] ++ [209, 30, 149, 81] ++ [8, 77])) [8, 77] := by
  have hpasses : MmbpCodec.Passes Kvarint.leb128 Kanon.bigEndian XXHash.seed0 10 [10] [0, 0]
      [209, 30, 149, 81] [8, 77] :=
    { decode := by rfl
      size_eq := by rfl
      length_cks := rfl
      size_lt := by decide
      below := by decide
      checksum := by decide +kernel }
  exact ((mmbpCodec_continues_behind_frame Kvarint.leb128_bounded Kvarint.leb128_settled
    Kvarint.leb128_confined 0 hpasses).1 rfl).1

/-- A byte too many in the payload: it is skipped for the first of the checksum, and the
loop goes on at the last. -/
theorem mmbpCodec_continues_inside_checksum :
    ¬ ∀ (size : BitVec 32) (pre payload cks rest : Bytes),
      MmbpCodec.Passes Kvarint.leb128 Kanon.bigEndian XXHash.seed0 size pre payload cks rest →
        MmbpCodec.ContinuesAt Kanon.bigEndian XXHash.seed0
          (MmbpCodec.parseResponse Kvarint.leb128 Kanon.bigEndian 0) pre.length size
          (pre ++ (MmbpCodec.mmbpTag ++ payload ++ cks ++ rest)) rest := by
  intro h
  have hpasses : MmbpCodec.Passes Kvarint.leb128 Kanon.bigEndian XXHash.seed0 11 [11] [0, 0, 7]
      [52, 178, 15, 156] [] :=
    { decode := by rfl
      size_eq := by rfl
      length_cks := rfl
      size_lt := by decide
      below := by decide
      checksum := by decide +kernel }
  obtain ⟨m, hm⟩ := h _ _ _ _ _ hpasses
  have hrun : ∃ m', (MmbpCodec.receiveFrame Kanon.bigEndian XXHash.seed0
      (MmbpCodec.parseResponse Kvarint.leb128 Kanon.bigEndian 0) 1 11).run
        ([11] ++ (MmbpCodec.mmbpTag ++ [0, 0, 7] ++ [52, 178, 15, 156] ++ []))
      = .ok ((true, [.message m']), [156]) := ⟨_, by rfl⟩
  obtain ⟨m', hm'⟩ := hrun
  cases hm.symm.trans hm'

end Mmkvc
