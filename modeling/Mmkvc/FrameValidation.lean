/-
# The receiver with checked arithmetic

`checkedReceive` is the receive callback with each unsigned subtraction checked: it stops where
one wraps, as it stops where a byte outside the readable region is read.
`mmbpCodec_receive_safe` says that it never stops, and so agrees with the callback, whatever
bytes the peer sends and however they are cut.
-/
import Mmkvc.MmbpCodec
import Mmkvc.Transition

namespace Mmkvc

/-! ## Checked readers -/

/-- What stops a checked reader. -/
inductive Violation where
  | fault (f : Fault)
  /-- A subtraction of unsigned numbers wraps. -/
  | wraps
  deriving DecidableEq, Repr

/-- A reader with checked subtractions. -/
abbrev CheckedReader (α : Type) := StateT Bytes (Except Violation) α

namespace CheckedReader

variable {α β : Type} {w : ℕ}

/-- A reader without subtractions. -/
def ofReader (p : Reader α) : CheckedReader α := fun b =>
  match p.run b with
  | .ok r => .ok r
  | .error f => .error (.fault f)

/-- `x - y`. -/
def sub (x y : BitVec w) : CheckedReader (BitVec w) :=
  if y ≤ x then return x - y else throw Violation.wraps

/-- A reader without subtractions is run as it is. -/
theorem run_ofReader {p : Reader α} {b b' : Bytes} {a : α} (h : p.run b = .ok (a, b')) :
    (ofReader p).run b = .ok (a, b') := by
  have h' : p b = .ok (a, b') := h
  show ofReader p b = _
  rw [ofReader, StateT.run, h']

theorem run_sub {x y : BitVec w} (h : y ≤ x) (b : Bytes) : (sub x y).run b = .ok (x - y, b) := by
  rw [sub, if_pos h]
  rfl

/-- Where the checked reader does not stop, the unchecked one does the same. -/
def Erases (p : CheckedReader α) (q : Reader α) : Prop := ∀ b r, p.run b = .ok r → q.run b = .ok r

theorem erases_pure (a : α) : Erases (pure a) (pure a) := by
  intro b r h
  cases h
  rfl

/-- A reader without subtractions is the same unchecked. -/
theorem erases_ofReader (q : Reader α) : Erases (ofReader q) q := by
  intro b r h
  replace h : ofReader q b = .ok r := h
  rw [ofReader] at h
  cases hq : q.run b with
  | ok r' =>
    rw [hq] at h
    cases h
    rfl
  | error f =>
    rw [hq] at h
    cases h

/-- Checked readers in sequence are the unchecked ones in sequence. -/
theorem Erases.bind {p : CheckedReader α} {q : Reader α} {f : α → CheckedReader β} {g : α → Reader β}
    (hp : Erases p q) (hf : ∀ a, Erases (f a) (g a)) : Erases (p >>= f) (q >>= g) := by
  intro b r h
  rw [StateT.run_bind] at h ⊢
  cases hb : p.run b with
  | error v =>
    rw [hb] at h
    cases h
  | ok r' =>
    rw [hb] at h
    rw [hp b r' hb]
    exact hf r'.1 r'.2 r h

/-- A subtraction that is only checked. -/
theorem erases_sub {x y : BitVec w} {f : BitVec w → CheckedReader β} {q : Reader β}
    (hf : Erases (f (x - y)) q) : Erases (sub x y >>= f) q := by
  intro b r h
  rw [StateT.run_bind, sub] at h
  split_ifs at h with hle
  · exact hf b r h
  · cases h

end CheckedReader

namespace MmbpCodec

open CheckedReader

/-! ## The checked callback -/

section

variable (kv : Kvarint) (kn : Kanon) (xx : XXHash) {μ : Type}

/-- `VerifyCheckSum`. -/
def checkedVerifyCheckSum (sizeHeader : BitVec 32) : CheckedReader Bool := do
  let regionSize ← sub sizeHeader (BitVec.ofNat 32 checksumLength)
  let region ← ofReader (Reader.peek regionSize.toNat)
  let whole ← ofReader (Reader.peek sizeHeader.toNat)
  return xx.xxh32 region == kn.read32 (whole.drop (sizeHeader.toNat - checksumLength))

/-- One round of the loop; the second test of the length is not made if the first one fails. -/
def checkedReceiveFrame (messageCb : BitVec 32 → Reader μ) (sizeHeaderLen : ℕ)
    (sizeHeader : BitVec 32) : CheckedReader (Bool × List (Event μ)) := do
  let readableSize := BitVec.ofNat 64 (← ofReader get).length
  if sizeHeader < BitVec.ofNat 32 minSize then
    return (false, [.error .E_INVALID_SIZE_HEADER])
  else
    let limit ← sub (BitVec.ofNat 64 maxSize) (BitVec.ofNat 64 sizeHeaderLen)
    if limit ≤ sizeHeader.setWidth 64 then
      return (false, [.error .E_INVALID_SIZE_HEADER])
    else
      let behind ← sub readableSize (BitVec.ofNat 64 sizeHeaderLen)
      if behind < sizeHeader.setWidth 64 then
        return (false, [])
      else
        ofReader (Reader.advance sizeHeaderLen)
        if ← checkedVerifyCheckSum kn xx sizeHeader then
          if (← ofReader (Reader.peek mmbpTagSize)) = mmbpTag then
            ofReader (Reader.advance mmbpTagSize)
            let bodySize ← sub sizeHeader (BitVec.ofNat 32 mmbpTagSize)
            let payloadSize ← sub bodySize (BitVec.ofNat 32 checksumLength)
            let m ← ofReader (messageCb payloadSize)
            ofReader (Reader.advance checksumLength)
            return (true, [.message m])
          else return (false, [.error .E_INVALID_MESSAGE])
        else return (false, [.error .E_INVALID_CHECKSUM])

/-- The loop of the callback. -/
def checkedReceiveLoop (messageCb : BitVec 32 → Reader μ) : ℕ → CheckedReader (List (Event μ))
  | 0 => throw (.fault .outOfFuel)
  | fuel + 1 => do
    match kv.decode 32 (← ofReader get) with
    | .error .invalid => return [.error .E_INVALID_MESSAGE]
    | .error .short => return []
    | .ok (sizeHeaderLen, sizeHeader) =>
      let (continues, es) ← checkedReceiveFrame kn xx messageCb sizeHeaderLen sizeHeader
      if continues then
        let es' ← checkedReceiveLoop messageCb fuel
        return es ++ es'
      else return es

/-- The callback that `SetUpConnection` installs. -/
def checkedReceive (messageCb : BitVec 32 → Reader μ) : CheckedReader (List (Event μ)) := do
  let readableSize := (← ofReader get).length
  if maxSize ≤ readableSize then
    ofReader (Reader.advance readableSize)
    return [.error .E_INVALID_SIZE_HEADER]
  else checkedReceiveLoop kv kn xx messageCb (readableSize + 1)

/-- A data event, unless the checked callback stops at it. -/
def checkedEvent (messageCb : BitVec 32 → Reader μ) (unread chunk : Bytes) :
    Option (List (Event μ) × Bytes) :=
  ((checkedReceive kv kn xx messageCb).run (unread ++ chunk)).toOption

end

section

variable {kv : Kvarint} {kn : Kanon} {xx : XXHash} {μ : Type} {messageCb : BitVec 32 → Reader μ}

/-! ### The checks change nothing else -/

theorem erases_verifyCheckSum (size : BitVec 32) :
    Erases (checkedVerifyCheckSum kn xx size) (verifyCheckSum kn xx size) :=
  erases_sub ((erases_ofReader _).bind fun _ => (erases_ofReader _).bind fun _ => erases_pure _)

/-- The checked reception of a frame is the one of the source. -/
theorem erases_receiveFrame (len : ℕ) (size : BitVec 32) :
    Erases (checkedReceiveFrame kn xx messageCb len size) (receiveFrame kn xx messageCb len size) := by
  refine (erases_ofReader get).bind fun b => ?_
  by_cases hmin : size < BitVec.ofNat 32 minSize
  · rw [if_pos hmin, if_pos (Or.inl hmin)]
    exact erases_pure _
  rw [if_neg hmin]
  refine erases_sub ?_
  by_cases hmax : BitVec.ofNat 64 maxSize - BitVec.ofNat 64 len ≤ size.setWidth 64
  · rw [if_pos hmax, if_pos (Or.inr hmax)]
    exact erases_pure _
  rw [if_neg hmax, if_neg (not_or.mpr ⟨hmin, hmax⟩)]
  refine erases_sub ?_
  split_ifs with hwait
  · exact erases_pure _
  refine (erases_ofReader _).bind fun _ => (erases_verifyCheckSum size).bind fun verified => ?_
  split_ifs with hverified
  · refine (erases_ofReader _).bind fun tag => ?_
    split_ifs with htag
    · exact (erases_ofReader _).bind fun _ => erases_sub (erases_sub ((erases_ofReader _).bind
        fun m => (erases_ofReader _).bind fun _ => erases_pure _))
    · exact erases_pure _
  · exact erases_pure _

/-- The checked loop is the one of the source. -/
theorem erases_receiveLoop (fuel : ℕ) :
    Erases (checkedReceiveLoop kv kn xx messageCb fuel) (receiveLoop kv kn xx messageCb fuel) := by
  induction fuel with
  | zero =>
    intro b r h
    cases h
  | succ fuel ih =>
    refine (erases_ofReader get).bind fun b => ?_
    cases kv.decode 32 b with
    | error e => cases e <;> exact erases_pure _
    | ok r =>
      refine (erases_receiveFrame r.1 r.2).bind fun r => ?_
      obtain ⟨continues, es⟩ := r
      cases continues with
      | true => exact ih.bind fun es' => erases_pure _
      | false => exact erases_pure _

/-- The checked reception is the one of the source. -/
theorem erases_receive :
    Erases (checkedReceive kv kn xx messageCb) (receive kv kn xx messageCb) := by
  refine (erases_ofReader get).bind fun b => ?_
  dsimp only
  split_ifs with hmax
  · exact (erases_ofReader _).bind fun _ => erases_pure _
  · exact erases_receiveLoop _

/-! ### No check fails -/

/-- A message callback that consumes the payload of the size it is given. -/
def ConsumesPayload (messageCb : BitVec 32 → Reader μ) : Prop :=
  ∀ (size : BitVec 32) (b : Bytes), size.toNat ≤ b.length →
    ∃ m, (messageCb size).run b = .ok (m, b.drop size.toNat)

/-- Verification does not stop on a frame that is wholly there. -/
theorem run_checkedVerifyCheckSum (kn : Kanon) (xx : XXHash) (size : BitVec 32) (b : Bytes) (h4 : 4 ≤ size.toNat)
    (hlen : size.toNat ≤ b.length) :
    ∃ verified, (checkedVerifyCheckSum kn xx size).run b = .ok (verified, b) := by
  have hle : BitVec.ofNat 32 checksumLength ≤ size := by
    rw [BitVec.le_def]
    exact h4
  have hregion : (size - BitVec.ofNat 32 checksumLength).toNat ≤ b.length := by
    rw [BitVec.toNat_sub_of_le hle]
    omega
  rw [checkedVerifyCheckSum, run_bind_ok (run_sub hle b),
    run_bind_ok (run_ofReader ((Reader.run_peek _ b).trans (if_pos hregion))),
    run_bind_ok (run_ofReader ((Reader.run_peek _ b).trans (if_pos hlen)))]
  exact ⟨_, rfl⟩

/-- **One round of the loop.**  It comes to its end, and where the loop goes on behind it, a
whole frame has been consumed. -/
theorem run_checkedReceiveFrame (kn : Kanon) (xx : XXHash) (hcb : ConsumesPayload messageCb)
    {len : ℕ} (size : BitVec 32) {b : Bytes} (hlen : len ≤ 5) (hreadable : len ≤ b.length) (hb : b.length < maxSize) :
    ∃ continues es b', (checkedReceiveFrame kn xx messageCb len size).run b
        = .ok ((continues, es), b')
      ∧ (continues = true → minSize ≤ size.toNat ∧ len + size.toNat ≤ b.length
          ∧ b' = b.drop (len + size.toNat)) := by
  have hstart : ∀ {β : Type} (f : Bytes → CheckedReader β),
      (ofReader get >>= f).run b = (f b).run b :=
    fun f => run_bind_ok (run_ofReader (Reader.run_get b))
  rw [checkedReceiveFrame, hstart]
  dsimp only
  by_cases hmin : size < BitVec.ofNat 32 minSize
  · rw [if_pos hmin]
    exact ⟨false, _, b, rfl, fun h => Bool.noConfusion h⟩
  rw [if_neg hmin]
  have hlimit : BitVec.ofNat 64 len ≤ BitVec.ofNat 64 maxSize := by
    rw [BitVec.le_def, BitVec.toNat_ofNat, BitVec.toNat_ofNat, maxSize]
    omega
  rw [run_bind_ok (run_sub hlimit b)]
  by_cases hmax : BitVec.ofNat 64 maxSize - BitVec.ofNat 64 len ≤ size.setWidth 64
  · rw [if_pos hmax]
    exact ⟨false, _, b, rfl, fun h => Bool.noConfusion h⟩
  rw [if_neg hmax]
  have hbehind : BitVec.ofNat 64 len ≤ BitVec.ofNat 64 b.length := by
    rw [maxSize] at hb
    rw [BitVec.le_def, BitVec.toNat_ofNat, BitVec.toNat_ofNat]
    omega
  rw [run_bind_ok (run_sub hbehind b)]
  by_cases hwait : BitVec.ofNat 64 b.length - BitVec.ofNat 64 len < size.setWidth 64
  · rw [if_pos hwait]
    exact ⟨false, _, b, rfl, fun h => Bool.noConfusion h⟩
  rw [if_neg hwait]
  -- the tests have been passed: the frame is whole
  have hmin' : minSize ≤ size.toNat := by
    rw [BitVec.lt_def, BitVec.toNat_ofNat] at hmin
    simp only [minSize, mmbpTagSize, checksumLength] at hmin ⊢
    omega
  have hwhole : len + size.toNat ≤ b.length := by
    rw [readable_lt_iff hreadable hb] at hwait
    exact Nat.le_of_not_lt hwait
  have h8 : 8 ≤ size.toNat := hmin'
  have hdrop : (b.drop len).length = b.length - len := List.length_drop
  rw [run_bind_ok (run_ofReader ((Reader.run_advance len b).trans (if_pos hreadable)))]
  obtain ⟨verified, hverified⟩ := run_checkedVerifyCheckSum kn xx size (b.drop len) (by omega)
    (by omega)
  rw [run_bind_ok hverified]
  cases verified with
  | false => exact ⟨false, _, _, rfl, fun h => Bool.noConfusion h⟩
  | true =>
    rw [if_pos rfl, run_bind_ok (run_ofReader ((Reader.run_peek mmbpTagSize (b.drop len)).trans
      (if_pos (by rw [mmbpTagSize]; omega))))]
    by_cases htag : (b.drop len).take mmbpTagSize = mmbpTag
    · rw [if_pos htag, run_bind_ok (run_ofReader ((Reader.run_advance mmbpTagSize
        (b.drop len)).trans (if_pos (by rw [mmbpTagSize]; omega))))]
      have hbody : BitVec.ofNat 32 mmbpTagSize ≤ size := by
        rw [BitVec.le_def, BitVec.toNat_ofNat, mmbpTagSize]
        omega
      have hbody' : (size - BitVec.ofNat 32 mmbpTagSize).toNat = size.toNat - 4 :=
        BitVec.toNat_sub_of_le hbody
      have hpayload : BitVec.ofNat 32 checksumLength ≤ size - BitVec.ofNat 32 mmbpTagSize := by
        rw [BitVec.le_def, hbody', BitVec.toNat_ofNat, checksumLength]
        omega
      have hpayload' : (size - BitVec.ofNat 32 mmbpTagSize - BitVec.ofNat 32 checksumLength).toNat
          = size.toNat - 8 := by
        rw [BitVec.toNat_sub_of_le hpayload, hbody', BitVec.toNat_ofNat, checksumLength]
        omega
      rw [run_bind_ok (run_sub hbody _), run_bind_ok (run_sub hpayload _)]
      obtain ⟨m, hm⟩ := hcb (size - BitVec.ofNat 32 mmbpTagSize - BitVec.ofNat 32 checksumLength)
        ((b.drop len).drop mmbpTagSize) (by rw [hpayload', List.length_drop, mmbpTagSize]; omega)
      rw [run_bind_ok (run_ofReader hm), hpayload', mmbpTagSize, List.drop_drop, List.drop_drop]
      rw [run_bind_ok (run_ofReader ((Reader.run_advance checksumLength _).trans
        (if_pos (by rw [List.length_drop, checksumLength]; omega))))]
      refine ⟨true, _, _, rfl, fun _ => ⟨hmin', hwhole, ?_⟩⟩
      rw [List.drop_drop, checksumLength]
      congr 1
      omega
    · rw [if_neg htag]
      exact ⟨false, _, _, rfl, fun h => Bool.noConfusion h⟩

/-- Every round that goes on consumes a byte, so more rounds than bytes are enough. -/
theorem run_checkedReceiveLoop (hkv : kv.SizeHeader) (hcb : ConsumesPayload messageCb)
    (fuel : ℕ) : ∀ b : Bytes, b.length < fuel → b.length < maxSize →
      ∃ r, (checkedReceiveLoop kv kn xx messageCb fuel).run b = .ok r := by
  induction fuel with
  | zero =>
    intro b hfuel
    omega
  | succ fuel ih =>
    intro b hfuel hb
    rw [checkedReceiveLoop, run_bind_ok (run_ofReader (Reader.run_get b))]
    cases hdecode : kv.decode 32 b with
    | error e => cases e <;> exact ⟨_, rfl⟩
    | ok r =>
      obtain ⟨len, size⟩ := r
      obtain ⟨hpos, hlen, hreadable⟩ := hkv hdecode
      obtain ⟨continues, es, b', hframe, hwhole⟩ :=
        run_checkedReceiveFrame kn xx hcb size hlen hreadable hb
      dsimp only
      rw [run_bind_ok hframe]
      cases continues with
      | false => exact ⟨_, rfl⟩
      | true =>
        obtain ⟨-, hle, rfl⟩ := hwhole rfl
        have hrest : (b.drop (len + size.toNat)).length = b.length - (len + size.toNat) :=
          List.length_drop
        obtain ⟨⟨es', b''⟩, hloop⟩ := ih (b.drop (len + size.toNat)) (by omega) (by omega)
        refine ⟨(es ++ es', b''), ?_⟩
        rw [if_pos rfl, run_bind_ok hloop]
        rfl

/-- A reception does not stop, whatever the bytes are. -/
theorem run_checkedReceive (kn : Kanon) (xx : XXHash) (hkv : kv.SizeHeader) (hcb : ConsumesPayload messageCb) (b : Bytes) :
    ∃ r, (checkedReceive kv kn xx messageCb).run b = .ok r := by
  rw [checkedReceive, run_bind_ok (run_ofReader (Reader.run_get b))]
  dsimp only
  split_ifs with hmax
  · refine ⟨([.error .E_INVALID_SIZE_HEADER], b.drop b.length), ?_⟩
    rw [run_bind_ok (run_ofReader ((Reader.run_advance b.length b).trans (if_pos le_rfl)))]
    rfl
  · exact run_checkedReceiveLoop hkv hcb _ b (Nat.lt_succ_self _) (Nat.lt_of_not_le hmax)

/-- Neither check nor fault at any data event. -/
theorem outputs_checkedEvent (hkv : kv.SizeHeader) (hcb : ConsumesPayload messageCb)
    (chunks : List Bytes) : ∀ unread : Bytes,
      ∃ ess b, Transition.outputs (checkedEvent kv kn xx messageCb) unread chunks = some (ess, b)
        ∧ Framing.feed (receive kv kn xx messageCb).run unread chunks = .ok (ess, b) := by
  induction chunks with
  | nil =>
    intro unread
    exact ⟨[], unread, rfl, rfl⟩
  | cons chunk chunks ih =>
    intro unread
    obtain ⟨⟨es, b⟩, hrun⟩ := run_checkedReceive kn xx hkv hcb (unread ++ chunk)
    obtain ⟨ess, b', houtputs, hfeed⟩ := ih b
    refine ⟨es :: ess, b', Transition.outputs_cons.mpr ⟨es, b, ess, ?_, houtputs, rfl⟩, ?_⟩
    · rw [checkedEvent, hrun]
      rfl
    · rw [Framing.feed, erases_receive _ _ hrun]
      show Except.bind (Framing.feed _ b chunks) _ = _
      rw [hfeed]
      rfl

end

end MmbpCodec

/-- **Frame validation is safe on adversarial streams.**  Whatever bytes arrive, and however they
are cut into chunks, the callback comes to its end at each of them with no read or skip past the
readable bytes and no subtraction that wraps; and a round of its loop either leaves the loop or
consumes a whole frame. -/
theorem mmbpCodec_receive_safe {kv : Kvarint} {kn : Kanon} {xx : XXHash} {μ : Type}
    {messageCb : BitVec 32 → Reader μ} (hkv : kv.SizeHeader)
    (hcb : MmbpCodec.ConsumesPayload messageCb) :
    (∀ chunks : List Bytes, ∃ ess b,
      Transition.outputs (MmbpCodec.checkedEvent kv kn xx messageCb) [] chunks = some (ess, b)
        ∧ Framing.feed (MmbpCodec.receive kv kn xx messageCb).run [] chunks = .ok (ess, b))
    ∧ ∀ (b : Bytes) (len : ℕ) (size : BitVec 32), b.length < MmbpCodec.maxSize →
      kv.decode 32 b = .ok (len, size) →
      ∃ continues es b', (MmbpCodec.checkedReceiveFrame kn xx messageCb len size).run b
          = .ok ((continues, es), b')
        ∧ (continues = true → MmbpCodec.minSize ≤ size.toNat ∧ len + size.toNat ≤ b.length
            ∧ b' = b.drop (len + size.toNat)) := by
  refine ⟨fun chunks => MmbpCodec.outputs_checkedEvent hkv hcb chunks [], ?_⟩
  intro b len size hb hdecode
  obtain ⟨-, hlen, hreadable⟩ := hkv hdecode
  exact MmbpCodec.run_checkedReceiveFrame kn xx hcb size hlen hreadable hb

/-- A frame with a wrong checksum, in two chunks. -/
theorem mmbpCodec_receive_safe_corrupt :
    let messageCb : BitVec 32 → Reader Bytes := fun size => Reader.take size.toNat
    ∃ ess b, Transition.outputs
        (MmbpCodec.checkedEvent Kvarint.leb128 Kanon.bigEndian XXHash.seed0 messageCb) []
        [[9, 77, 77], [66, 80, 1, 0, 0, 0, 0, 5]] = some (ess, b)
      ∧ Framing.feed (MmbpCodec.receive Kvarint.leb128 Kanon.bigEndian XXHash.seed0 messageCb).run
        [] [[9, 77, 77], [66, 80, 1, 0, 0, 0, 0, 5]] = .ok (ess, b) := by
  intro messageCb
  have hcb : MmbpCodec.ConsumesPayload messageCb := fun size b h =>
    ⟨b.take size.toNat, (Reader.run_take size.toNat b).trans (if_pos h)⟩
  exact (mmbpCodec_receive_safe Kvarint.leb128_sizeHeader hcb).1
    [[9, 77, 77], [66, 80, 1, 0, 0, 0, 0, 5]]

end Mmkvc
