/-
# What a buffer holds of a message

`Scan.request` and `Scan.response` scan a byte string for the
components that its has-bits select, and stop at the first one that is not wholly
present.  Whether the parser tells its caller depends on the component: the
overloads of `ParseComponent` on integers return a `bool`, the others are
`void`, and only for the command or status code, the has-bits and the two ends
of a range does `ParseFrom` test it.

`mmbp_parseFrom_safe_iff` says on which inputs `ParseFrom` stays inside the
buffer and returns true for whole messages only.
-/
import Mmkvc.MmbpResponse

namespace Mmkvc

/-! ## Scanning -/

/-- Whether the parser tests the component that is missing. -/
inductive Missing where
  | tested
  | untested
  deriving DecidableEq, Repr

/-- A scan of the components at the front of a byte string. -/
abbrev Scan (α : Type) := StateT Bytes (Except Missing) α

namespace Scan

section

variable (kv : Kvarint)

/-- A varint, and its value. -/
def varint (e : Missing) (bits : ℕ) : Scan (BitVec bits) := fun b =>
  match kv.decode bits b with
  | .error _ => .error e
  | .ok (len, i) => .ok (i, b.drop len)

/-- A signed varint. -/
def signed (e : Missing) (bits : ℕ) : Scan Unit := fun b =>
  match kv.decodeSigned bits b with
  | .error _ => .error e
  | .ok (len, _) => .ok ((), b.drop len)

/-- `n` bytes. -/
def bytes (n : ℕ) : Scan Unit := fun b =>
  if n ≤ b.length then .ok ((), b.drop n) else .error .untested

/-- A length prefix and a body of that length. -/
def sized (bits : ℕ) : Scan Unit := do
  let n ← varint kv .untested bits
  bytes n.toNat

/-- A scan made `n` times. -/
def times (s : Scan Unit) : ℕ → Scan Unit
  | 0 => pure ()
  | n + 1 => do
    s
    times s n

/-- A count and as many elements. -/
def vector (s : Scan Unit) : Scan Unit := do
  let n ← varint kv .untested 32
  times s n.toNat

/-- The key of a request, if flagged. -/
def requestKey (hasBits : BitVec 8) : Scan Unit :=
  if testBit hasBits 0 then sized kv 16 else pure ()

/-- The payload of a request: the first flagged kind. -/
def requestPayload (hasBits : BitVec 8) : Scan Unit :=
  if testBit hasBits 1 then sized kv 32
  else if testBit hasBits 3 then vector kv (sized kv 64)
  else if testBit hasBits 4 then vector kv (do sized kv 64; sized kv 64)
  else if testBit hasBits 5 then do let _ ← varint kv .untested 32
  else if testBit hasBits 6 then do signed kv .tested 64; signed kv .tested 64
  else if testBit hasBits 7 then vector kv (do bytes 8; sized kv 64)
  else pure ()

/-- The expiration time of a request, if flagged. -/
def requestExpireTime (hasBits : BitVec 8) : Scan Unit :=
  if testBit hasBits 2 then do let _ ← varint kv .untested 64 else pure ()

/-- The components of a request. -/
def request : Scan Unit := do
  let _ ← varint kv .tested 16
  let hasBits ← varint kv .tested 8
  requestKey kv hasBits
  requestPayload kv hasBits
  requestExpireTime kv hasBits

/-- The payload of a response: the first flagged kind. -/
def responsePayload (hasBits : BitVec 8) : Scan Unit :=
  if testBit hasBits 0 then sized kv 32
  else if testBit hasBits 1 then vector kv (sized kv 64)
  else if testBit hasBits 2 then vector kv (do sized kv 64; sized kv 64)
  else if testBit hasBits 3 then do let _ ← varint kv .untested 64
  else if testBit hasBits 4 then vector kv (do bytes 8; sized kv 64)
  else pure ()

/-- The components of a response. -/
def response : Scan Unit := do
  let _ ← varint kv .tested 8
  let hasBits ← varint kv .tested 8
  responsePayload kv hasBits

end

/-- Every component is wholly present at the front of `b`. -/
def Present (s : Scan Unit) (b : Bytes) : Prop := ∃ rest, s.run b = .ok ((), rest)

/-- Every component is wholly present, or the parser tests the first that is not. -/
def MissingTested (s : Scan Unit) (b : Bytes) : Prop := s.run b ≠ .error .untested

end Scan

/-! ## Parsers that follow a scan -/

section Follows

variable {α β γ δ : Type}

/-- Where the scan finds its components, `p` reads them. -/
def Follows (p : Reader α) (s : Scan β) (R : α → β → Prop) : Prop :=
  ∀ b v rest, s.run b = .ok (v, rest) → ∃ a, p.run b = .ok (a, rest) ∧ R a v

/-- What is missing for the scan is not tested. -/
def Untested (s : Scan β) : Prop := ∀ b, s.run b ≠ .error .tested

/-- `p` never returns false. -/
def NeverFalse (p : Reader (Bool × α)) : Prop := ∀ b a rest, p.run b ≠ .ok ((false, a), rest)

/-- `p` returns true where the scan finds its components and false where it misses
one that is tested; it does not return false where the one missing is not tested. -/
structure Agrees (p : Reader (Bool × α)) (s : Scan β) (R : α → β → Prop) : Prop where
  present : ∀ b v rest, s.run b = .ok (v, rest) → ∃ a, p.run b = .ok ((true, a), rest) ∧ R a v
  tested : ∀ b, s.run b = .error .tested → ∃ a rest, p.run b = .ok ((false, a), rest)
  untested : ∀ b, s.run b = .error .untested → ∀ a rest, p.run b ≠ .ok ((false, a), rest)

theorem untested_pure (v : β) : Untested (pure v) := by
  intro b h
  cases h

/-- A scan of two parts misses something that is tested only if one of them does. -/
theorem Untested.bind {s : Scan α} {g : α → Scan β} (hs : Untested s)
    (hg : ∀ v, Untested (g v)) : Untested (s >>= g) := by
  intro b h
  rcases run_bind_eq_error.mp h with h | ⟨v, b', -, h⟩
  · exact hs b h
  · exact hg v b' h

/-- Parsers that follow their scans, one after the other. -/
theorem Follows.bind {p : Reader α} {f : α → Reader γ} {s : Scan β} {g : β → Scan δ}
    {R : α → β → Prop} {R' : γ → δ → Prop} (hp : Follows p s R)
    (hf : ∀ a v, R a v → Follows (f a) (g v) R') : Follows (p >>= f) (s >>= g) R' := by
  intro b w rest h
  obtain ⟨v, b', hs, hg⟩ := run_bind_eq_ok.mp h
  obtain ⟨a, ha, hR⟩ := hp b v b' hs
  obtain ⟨c, hc, hR'⟩ := hf a v hR b' w rest hg
  exact ⟨c, (run_bind_ok ha).trans hc, hR'⟩

/-- A parser that reads nothing follows a scan that looks for nothing. -/
theorem follows_pure {a : α} {v : β} {R : α → β → Prop} (h : R a v) :
    Follows (pure a) (pure v) R := by
  intro b w rest hw
  cases hw
  exact ⟨a, rfl, h⟩

/-- A last reader whose result is only repacked. -/
theorem Follows.bind_pure {p : Reader α} {f : α → Reader γ} {s : Scan β} {R : α → β → Prop}
    {Q : γ → Prop} (hp : Follows p s R) (hf : ∀ a, ∃ c, f a = pure c ∧ Q c) :
    Follows (p >>= f) s fun c _ => Q c := by
  intro b v rest h
  obtain ⟨a, ha, -⟩ := hp b v rest h
  obtain ⟨c, hc, hQ⟩ := hf a
  exact ⟨c, (run_bind_ok ha).trans (by rw [hc]; rfl), hQ⟩

/-- A last component whose value is not kept. -/
theorem Follows.bind_scan_pure {p : Reader α} {s : Scan β} {R : α → β → Prop}
    (hp : Follows p s R) : Follows p (s >>= fun _ => pure ()) fun _ _ => True := by
  intro b v rest h
  obtain ⟨w, b', hs, hw⟩ := run_bind_eq_ok.mp h
  obtain ⟨a, ha, -⟩ := hp b w b' hs
  cases hw
  exact ⟨a, ha, trivial⟩

/-- A reader that always repacks to true agrees with an untested scan. -/
theorem Follows.agrees {p : Reader α} {f : α → Reader (Bool × γ)} {s : Scan β}
    {R : α → β → Prop} {Q : γ → Prop} (hp : Follows p s R) (hs : Untested s)
    (hf : ∀ a, ∃ c, f a = pure (true, c) ∧ Q c) : Agrees (p >>= f) s fun c _ => Q c where
  present := by
    intro b v rest h
    obtain ⟨a, ha, -⟩ := hp b v rest h
    obtain ⟨c, hc, hQ⟩ := hf a
    exact ⟨c, (run_bind_ok ha).trans (by rw [hc]; rfl), hQ⟩
  tested := fun b h => absurd h (hs b)
  untested := by
    intro b _ c rest h
    cases hp : p.run b with
    | error e => rw [run_bind_error hp] at h; cases h
    | ok r =>
      obtain ⟨a, b'⟩ := r
      obtain ⟨c', hc, -⟩ := hf a
      rw [run_bind_ok hp, hc] at h
      cases h

/-- The same for a reader that never fails to find its components. -/
theorem agrees_pure {a : α} {v : β} {R : α → β → Prop} (h : R a v) :
    Agrees (pure (true, a)) (pure v) R where
  present := by
    intro b w rest hw
    cases hw
    exact ⟨a, rfl, h⟩
  tested := by
    intro b h
    cases h
  untested := by
    intro b h
    cases h

/-- A last component whose flag is handed on. -/
theorem Agrees.map {p : Reader (Bool × α)} {f : Bool × α → Reader (Bool × γ)} {s : Scan β}
    {R : α → β → Prop} {Q : γ → Prop} (hp : Agrees p s R)
    (hf : ∀ ok a, ∃ c, f (ok, a) = pure (ok, c) ∧ Q c) :
    Agrees (p >>= f) s fun c _ => Q c where
  present := by
    intro b v rest h
    obtain ⟨a, ha, -⟩ := hp.present b v rest h
    obtain ⟨c, hc, hQ⟩ := hf true a
    exact ⟨c, (run_bind_ok ha).trans (by rw [hc]; rfl), hQ⟩
  tested := by
    intro b h
    obtain ⟨a, rest, ha⟩ := hp.tested b h
    obtain ⟨c, hc, -⟩ := hf false a
    exact ⟨c, rest, (run_bind_ok ha).trans (by rw [hc]; rfl)⟩
  untested := by
    intro b h c rest hrun
    cases hpb : p.run b with
    | error e => rw [run_bind_error hpb] at hrun; cases hrun
    | ok r =>
      obtain ⟨⟨ok, a⟩, b'⟩ := r
      obtain ⟨c', hc, -⟩ := hf ok a
      rw [run_bind_ok hpb, hc] at hrun
      cases hrun
      exact hp.untested b h a rest hpb

/-- A component and what follows it: where the caller is told that the component is
missing, it returns false at once. -/
theorem Agrees.bind {p : Reader (Bool × α)} {f : Bool × α → Reader (Bool × γ)} {s : Scan β}
    {g : β → Scan δ} {R : α → β → Prop} {R' : γ → δ → Prop} (hp : Agrees p s R)
    (hf : ∀ a v, R a v → Agrees (f (true, a)) (g v) R')
    (hfalse : ∀ a, ∃ c, f (false, a) = pure (false, c))
    (hnever : ∀ b, s.run b = .error .untested → ∀ a, NeverFalse (f (true, a))) :
    Agrees (p >>= f) (s >>= g) R' where
  present := by
    intro b w rest h
    obtain ⟨v, b', hs, hg⟩ := run_bind_eq_ok.mp h
    obtain ⟨a, ha, hR⟩ := hp.present b v b' hs
    obtain ⟨c, hc, hR'⟩ := (hf a v hR).present b' w rest hg
    exact ⟨c, (run_bind_ok ha).trans hc, hR'⟩
  tested := by
    intro b h
    rcases run_bind_eq_error.mp h with hs | ⟨v, b', hs, hg⟩
    · obtain ⟨a, rest, ha⟩ := hp.tested b hs
      obtain ⟨c, hc⟩ := hfalse a
      exact ⟨c, rest, (run_bind_ok ha).trans (by rw [hc]; rfl)⟩
    · obtain ⟨a, ha, hR⟩ := hp.present b v b' hs
      obtain ⟨c, rest, hc⟩ := (hf a v hR).tested b' hg
      exact ⟨c, rest, (run_bind_ok ha).trans hc⟩
  untested := by
    intro b h c rest hrun
    rcases run_bind_eq_error.mp h with hs | ⟨v, b', hs, hg⟩
    · cases hpb : p.run b with
      | error e => rw [run_bind_error hpb] at hrun; cases hrun
      | ok r =>
        obtain ⟨⟨ok, a⟩, b'⟩ := r
        rw [run_bind_ok hpb] at hrun
        cases ok with
        | false => exact hp.untested b hs a b' hpb
        | true => exact hnever b hs a b' c rest hrun
    · obtain ⟨a, ha, hR⟩ := hp.present b v b' hs
      rw [run_bind_ok ha] at hrun
      exact (hf a v hR).untested b' hg c rest hrun

/-- The same for a component that nothing is told about, if the parser does not
survive its absence. -/
theorem Follows.bind_agrees {p : Reader α} {f : α → Reader (Bool × γ)} {s : Scan β}
    {g : β → Scan δ} {R : α → β → Prop} {R' : γ → δ → Prop} (hp : Follows p s R)
    (hs : Untested s) (hfault : ∀ b, s.run b = .error .untested → ∃ e, p.run b = .error e)
    (hf : ∀ a v, R a v → Agrees (f a) (g v) R') : Agrees (p >>= f) (s >>= g) R' where
  present := by
    intro b w rest h
    obtain ⟨v, b', hs, hg⟩ := run_bind_eq_ok.mp h
    obtain ⟨a, ha, hR⟩ := hp b v b' hs
    obtain ⟨c, hc, hR'⟩ := (hf a v hR).present b' w rest hg
    exact ⟨c, (run_bind_ok ha).trans hc, hR'⟩
  tested := by
    intro b h
    rcases run_bind_eq_error.mp h with h | ⟨v, b', h, hg⟩
    · exact absurd h (hs b)
    · obtain ⟨a, ha, hR⟩ := hp b v b' h
      obtain ⟨c, rest, hc⟩ := (hf a v hR).tested b' hg
      exact ⟨c, rest, (run_bind_ok ha).trans hc⟩
  untested := by
    intro b h c rest hrun
    rcases run_bind_eq_error.mp h with h | ⟨v, b', h, hg⟩
    · obtain ⟨e, he⟩ := hfault b h
      rw [run_bind_error he] at hrun
      cases hrun
    · obtain ⟨a, ha, hR⟩ := hp b v b' h
      rw [run_bind_ok ha] at hrun
      exact (hf a v hR).untested b' hg c rest hrun

end Follows

/-! ## The parsing overloads follow their scans -/

section Components

variable {kv : Kvarint} {kn : Kanon}

/-- A varint that is there is read. -/
theorem run_parseUnsigned_ok (hkv : kv.Bounded) {n len : ℕ} {i₀ v : BitVec n} {b : Bytes}
    (h : kv.decode n b = .ok (len, v)) :
    (parseUnsigned kv n i₀).run b = .ok ((true, v), b.drop len) := by
  show parseUnsigned kv n i₀ b = _
  rw [parseUnsigned, h]
  exact (run_bind_ok ((Reader.run_advance len b).trans (if_pos (hkv.decode_le h)))).trans rfl

theorem run_parseUnsigned_error {n : ℕ} {i₀ : BitVec n} {b : Bytes} {e : DecodeErr}
    (h : kv.decode n b = .error e) : (parseUnsigned kv n i₀).run b = .ok ((false, i₀), b) := by
  show parseUnsigned kv n i₀ b = _
  rw [parseUnsigned, h]

/-- A signed varint that is there is read. -/
theorem run_parseSigned_ok (hkv : kv.Bounded) {n len : ℕ} {i₀ v : BitVec n} {b : Bytes}
    (h : kv.decodeSigned n b = .ok (len, v)) :
    (parseSigned kv n i₀).run b = .ok ((true, v), b.drop len) := by
  show parseSigned kv n i₀ b = _
  rw [parseSigned, h]
  exact (run_bind_ok
    ((Reader.run_advance len b).trans (if_pos (hkv.decodeSigned_le h)))).trans rfl

theorem run_parseSigned_error {n : ℕ} {i₀ : BitVec n} {b : Bytes} {e : DecodeErr}
    (h : kv.decodeSigned n b = .error e) : (parseSigned kv n i₀).run b = .ok ((false, i₀), b) := by
  show parseSigned kv n i₀ b = _
  rw [parseSigned, h]

theorem run_varint_ok {n len : ℕ} {v : BitVec n} {b : Bytes} {e : Missing}
    (h : kv.decode n b = .ok (len, v)) : (Scan.varint kv e n).run b = .ok (v, b.drop len) := by
  show Scan.varint kv e n b = _
  rw [Scan.varint, h]

theorem run_varint_error {n : ℕ} {b : Bytes} {e : Missing} {d : DecodeErr}
    (h : kv.decode n b = .error d) : (Scan.varint kv e n).run b = .error e := by
  show Scan.varint kv e n b = _
  rw [Scan.varint, h]

/-- The scan finds a signed varint that is there. -/
theorem run_signed_ok {n len : ℕ} {v : BitVec n} {b : Bytes} {e : Missing}
    (h : kv.decodeSigned n b = .ok (len, v)) :
    (Scan.signed kv e n).run b = .ok ((), b.drop len) := by
  show Scan.signed kv e n b = _
  rw [Scan.signed, h]

theorem run_signed_error {n : ℕ} {b : Bytes} {e : Missing} {d : DecodeErr}
    (h : kv.decodeSigned n b = .error d) : (Scan.signed kv e n).run b = .error e := by
  show Scan.signed kv e n b = _
  rw [Scan.signed, h]

theorem untested_varint (n : ℕ) : Untested (Scan.varint kv .untested n) := by
  intro b h
  cases hd : kv.decode n b with
  | error d => rw [run_varint_error hd] at h; cases h
  | ok r => rw [run_varint_ok hd] at h; cases h

/-- Plain bytes are not tested. -/
theorem untested_bytes (n : ℕ) : Untested (Scan.bytes n) := by
  intro b h
  by_cases hn : n ≤ b.length
  · rw [show (Scan.bytes n).run b = _ from if_pos hn] at h; cases h
  · rw [show (Scan.bytes n).run b = _ from if_neg hn] at h; cases h

theorem untested_sized (n : ℕ) : Untested (Scan.sized kv n) :=
  (untested_varint n).bind fun _ => untested_bytes _

theorem untested_times {s : Scan Unit} (hs : Untested s) : ∀ n, Untested (Scan.times s n)
  | 0 => untested_pure ()
  | n + 1 => hs.bind fun _ => untested_times hs n

theorem untested_vector {s : Scan Unit} (hs : Untested s) : Untested (Scan.vector kv s) :=
  (untested_varint 32).bind fun _ => untested_times hs _

/-- A varint whose presence is tested. -/
theorem agrees_parseUnsigned (hkv : kv.Bounded) {n : ℕ} (i₀ : BitVec n) :
    Agrees (parseUnsigned kv n i₀) (Scan.varint kv .tested n) Eq where
  present := by
    intro b v rest h
    cases hd : kv.decode n b with
    | error d => rw [run_varint_error hd] at h; cases h
    | ok r =>
      rw [run_varint_ok hd] at h
      cases h
      exact ⟨_, run_parseUnsigned_ok hkv hd, rfl⟩
  tested := by
    intro b h
    cases hd : kv.decode n b with
    | error d => exact ⟨_, _, run_parseUnsigned_error hd⟩
    | ok r => rw [run_varint_ok hd] at h; cases h
  untested := by
    intro b h
    cases hd : kv.decode n b with
    | error d => rw [run_varint_error hd] at h; cases h
    | ok r => rw [run_varint_ok hd] at h; cases h

/-- A signed varint that is missing is one that is tested. -/
theorem signed_ne_untested {n : ℕ} (b : Bytes) :
    (Scan.signed kv .tested n).run b ≠ .error .untested := by
  intro h
  cases hd : kv.decodeSigned n b with
  | error d => rw [run_signed_error hd] at h; cases h
  | ok r => rw [run_signed_ok hd] at h; cases h

/-- A varint that is missing is one that is tested, where the scan says so. -/
theorem varint_ne_untested {n : ℕ} (b : Bytes) :
    (Scan.varint kv .tested n).run b ≠ .error .untested := by
  intro h
  cases hd : kv.decode n b with
  | error d => rw [run_varint_error hd] at h; cases h
  | ok r => rw [run_varint_ok hd] at h; cases h

/-- A signed varint whose presence is tested. -/
theorem agrees_parseSigned (hkv : kv.Bounded) {n : ℕ} (i₀ : BitVec n) :
    Agrees (parseSigned kv n i₀) (Scan.signed kv .tested n) fun _ _ => True where
  present := by
    intro b v rest h
    cases hd : kv.decodeSigned n b with
    | error d => rw [run_signed_error hd] at h; cases h
    | ok r =>
      rw [run_signed_ok hd] at h
      cases h
      exact ⟨_, run_parseSigned_ok hkv hd, trivial⟩
  tested := by
    intro b h
    cases hd : kv.decodeSigned n b with
    | error d => exact ⟨_, _, run_parseSigned_error hd⟩
    | ok r => rw [run_signed_ok hd] at h; cases h
  untested := by
    intro b h
    cases hd : kv.decodeSigned n b with
    | error d => rw [run_signed_error hd] at h; cases h
    | ok r => rw [run_signed_ok hd] at h; cases h

/-- A varint whose presence is not tested is read where it is there. -/
theorem follows_parseUnsigned (hkv : kv.Bounded) {n : ℕ} (i₀ : BitVec n) :
    Follows (parseUnsigned kv n i₀) (Scan.varint kv .untested n) fun a v => a = (true, v) := by
  intro b v rest h
  cases hd : kv.decode n b with
  | error d => rw [run_varint_error hd] at h; cases h
  | ok r =>
    rw [run_varint_ok hd] at h
    cases h
    exact ⟨_, run_parseUnsigned_ok hkv hd, rfl⟩

/-- Bytes are read where they are there. -/
theorem follows_take (n : ℕ) : Follows (Reader.take n) (Scan.bytes n) fun _ _ => True := by
  intro b v rest h
  by_cases hn : n ≤ b.length
  · rw [show (Scan.bytes n).run b = _ from if_pos hn] at h
    cases h
    exact ⟨_, (Reader.run_take n b).trans (if_pos hn), trivial⟩
  · rw [show (Scan.bytes n).run b = _ from if_neg hn] at h
    cases h

/-- A varint into an object that may not be written is read where it is there. -/
theorem follows_parseUninit (hkv : kv.Bounded) (n : ℕ) :
    Follows (parseUninit kv n) (Scan.varint kv .untested n) Eq := by
  intro b v rest h
  obtain ⟨a, ha, rfl⟩ := follows_parseUnsigned hkv 0 b v rest h
  exact ⟨v, (run_bind_ok ha).trans rfl, rfl⟩

/-- The width of the length prefix of a string. -/
theorem follows_parseString (hkv : kv.Bounded) (is16 : Bool) :
    Follows (parseString kv is16) (Scan.sized kv (if is16 then 16 else 32)) fun _ _ => True := by
  cases is16 with
  | true =>
    exact (follows_parseUninit hkv 16).bind fun a v hav => by subst hav; exact follows_take _
  | false =>
    exact (follows_parseUninit hkv 32).bind fun a v hav => by subst hav; exact follows_take _

/-- A string of which a part is missing is read past the end, or its length is
indeterminate. -/
theorem parseString_faults (hkv : kv.Bounded) (is16 : Bool) (b : Bytes)
    (h : (Scan.sized kv (if is16 then 16 else 32)).run b = .error .untested) :
    ∃ e, (parseString kv is16).run b = .error e := by
  have hsized : ∀ n : ℕ, (Scan.sized kv n).run b = .error .untested →
      ∃ e, ((parseUninit kv n) >>= fun out => Reader.take out.toNat).run b = .error e := by
    intro n hn
    cases hd : kv.decode n b with
    | error d =>
      have huninit : (parseUninit kv n).run b = .error Fault.indeterminate :=
        (run_bind_ok (run_parseUnsigned_error hd)).trans rfl
      exact ⟨_, run_bind_error huninit⟩
    | ok r =>
      obtain ⟨len, v⟩ := r
      have huninit : (parseUninit kv n).run b = .ok (v, b.drop len) :=
        (run_bind_ok (run_parseUnsigned_ok hkv hd)).trans rfl
      have hbytes : (Scan.bytes v.toNat).run (b.drop len) = .error .untested :=
        (run_bind_ok (run_varint_ok hd)).symm.trans hn
      have hle : ¬ v.toNat ≤ (b.drop len).length := by
        intro hle
        rw [show (Scan.bytes v.toNat).run (b.drop len) = _ from if_pos hle] at hbytes
        cases hbytes
      exact ⟨_, (run_bind_ok huninit).trans ((Reader.run_take _ _).trans (if_neg hle))⟩
  cases is16 with
  | true => exact hsized 16 h
  | false => exact hsized 32 h

/-- A sized string is read where it is there. -/
theorem follows_parseSized (hkv : kv.Bounded) (valueSize : BitVec 64) (str : Bytes) :
    Follows (parseSized kv valueSize str) (Scan.sized kv 64) fun _ _ => True := by
  refine (follows_parseUnsigned hkv valueSize).bind ?_
  rintro _ v rfl
  exact (follows_take _).bind_pure fun _ => ⟨_, rfl, trivial⟩

/-- A pair of sized strings is read where both are there. -/
theorem follows_parseStrKeyValue (hkv : kv.Bounded) (sizes : BitVec 64 × BitVec 64)
    (e : StrKeyValue) :
    Follows (parseStrKeyValue kv sizes e) (do Scan.sized kv 64; Scan.sized kv 64)
      fun _ _ => True := by
  refine (follows_parseSized hkv sizes.1 e.key).bind ?_
  rintro a v -
  exact (follows_parseSized hkv sizes.2 e.value).bind_pure fun _ => ⟨_, rfl, trivial⟩

/-- A weight and its value are read where both are there. -/
theorem follows_parseWeightValue (hkv : kv.Bounded) (valueSize : BitVec 64) (wv : WeightValue) :
    Follows (parseWeightValue kv kn valueSize wv) (do Scan.bytes 8; Scan.sized kv 64)
      fun _ _ => True := by
  have hread : Follows (read64 kn) (Scan.bytes 8) fun _ _ => True :=
    (follows_take 8).bind_pure fun _ => ⟨_, rfl, trivial⟩
  refine hread.bind ?_
  rintro a v -
  exact (follows_parseSized hkv valueSize wv.value).bind_pure fun _ => ⟨_, rfl, trivial⟩

/-- A loop over the elements of a vector follows as many scans. -/
theorem follows_forEach {α σ : Type} {f : σ → α → Reader (σ × α)} {s : Scan Unit}
    (hf : ∀ σ a, Follows (f σ a) s fun _ _ => True) (as : List α) (i : σ) :
    Follows (forEach f i as) (Scan.times s as.length) fun _ _ => True := by
  induction as generalizing i with
  | nil => exact follows_pure trivial
  | cons a as ih =>
    refine (hf i a).bind ?_
    rintro ⟨i', a'⟩ v -
    exact (ih i').bind_pure fun _ => ⟨_, rfl, trivial⟩

/-- A vector is read where its count and all its elements are there. -/
theorem follows_vector {α σ : Type} (hkv : kv.Bounded) {f : σ → α → Reader (σ × α)}
    {s : Scan Unit} (hf : ∀ σ a, Follows (f σ a) s fun _ _ => True) (i : σ) (d : α)
    (old : List α) :
    Follows
      (do
        let (_, count) ← parseUnsigned kv 32 (-1)
        forEach f i (resize old count.toNat d))
      (Scan.vector kv s) fun _ _ => True := by
  refine (follows_parseUnsigned hkv (-1)).bind ?_
  rintro _ v rfl
  have h := follows_forEach hf (resize old v.toNat d) i
  rwa [length_resize] at h

end Components

/-! ## The messages -/

section Messages

variable {kv : Kvarint} {kn : Kanon}

/-- A parser that ends by returning true does not return false. -/
theorem neverFalse_of_pure {α β : Type} {p : Reader α} {f : α → Reader (Bool × β)}
    (hf : ∀ a, ∃ c, f a = pure (true, c)) : NeverFalse (p >>= f) := by
  intro b c rest h
  cases hp : p.run b with
  | error e => rw [run_bind_error hp] at h; cases h
  | ok r =>
    obtain ⟨a, b'⟩ := r
    obtain ⟨c', hc⟩ := hf a
    rw [run_bind_ok hp, hc] at h
    cases h

namespace MmbpRequest

/-- The key of a request is not tested. -/
theorem untested_requestKey (hasBits : BitVec 8) : Untested (Scan.requestKey kv hasBits) := by
  rw [Scan.requestKey]
  split_ifs
  · exact untested_sized 16
  · exact untested_pure ()

/-- The key of a request is read where it is there, and the bits stay as they are. -/
theorem follows_parseKey (hkv : kv.Bounded) (r : MmbpRequest) :
    Follows (parseKey kv r) (Scan.requestKey kv r.hasBits) fun r' _ => r'.hasBits = r.hasBits := by
  rw [parseKey, show Scan.requestKey kv r.hasBits
    = if r.hasKey then Scan.sized kv 16 else pure () from rfl]
  split_ifs
  · exact (follows_parseString hkv true).bind_pure fun _ => ⟨_, rfl, rfl⟩
  · exact follows_pure rfl

/-- A key of which a part is missing stops the parser. -/
theorem parseKey_faults (hkv : kv.Bounded) (r : MmbpRequest) (b : Bytes)
    (h : (Scan.requestKey kv r.hasBits).run b = .error .untested) :
    ∃ e, (parseKey kv r).run b = .error e := by
  rw [show Scan.requestKey kv r.hasBits
    = if r.hasKey then Scan.sized kv 16 else pure () from rfl] at h
  rw [parseKey]
  split_ifs at h ⊢
  · obtain ⟨e, he⟩ := parseString_faults hkv true b h
    exact ⟨e, run_bind_error he⟩
  · cases h

/-- The expiration time is the last component, and nothing is told about it. -/
theorem agrees_parseExpireTime (hkv : kv.Bounded) (r : MmbpRequest) :
    Agrees (parseExpireTime kv r >>= fun r => pure (true, r))
      (Scan.requestExpireTime kv r.hasBits) fun _ _ => True := by
  have hs : Untested (Scan.requestExpireTime kv r.hasBits) := by
    rw [Scan.requestExpireTime]
    split_ifs
    · exact (untested_varint 64).bind fun _ => untested_pure ()
    · exact untested_pure ()
  have hp : Follows (parseExpireTime kv r) (Scan.requestExpireTime kv r.hasBits)
      fun _ _ => True := by
    rw [parseExpireTime, show Scan.requestExpireTime kv r.hasBits
      = if r.hasExpireTime then do let _ ← Scan.varint kv .untested 64 else pure () from rfl]
    split_ifs
    · refine (follows_parseUnsigned hkv r.expireTime).bind ?_
      rintro _ v rfl
      exact follows_pure trivial
    · exact follows_pure trivial
  exact hp.agrees (Q := fun _ => True) hs fun _ => ⟨_, rfl, trivial⟩

/-- The fields of a request are read as far as the scan finds them. -/
theorem agrees_parsePayload (hkv : kv.Bounded) (r : MmbpRequest) :
    Agrees (parsePayload kv kn r) (Scan.requestPayload kv r.hasBits)
      fun r' _ => r'.hasBits = r.hasBits := by
  rw [parsePayload, show Scan.requestPayload kv r.hasBits
    = if r.hasValue then Scan.sized kv 32
      else if r.hasValues then Scan.vector kv (Scan.sized kv 64)
      else if r.hasKvs then Scan.vector kv (do Scan.sized kv 64; Scan.sized kv 64)
      else if r.hasCount then do let _ ← Scan.varint kv .untested 32
      else if r.hasRange then do Scan.signed kv .tested 64; Scan.signed kv .tested 64
      else if r.hasVmembers then Scan.vector kv (do Scan.bytes 8; Scan.sized kv 64)
      else pure () from rfl]
  split_ifs
  · exact (follows_parseString hkv false).agrees (untested_sized 32) fun _ => ⟨_, rfl, rfl⟩
  · exact (follows_vector hkv (follows_parseSized hkv) 0 [] r.values).agrees
      (untested_vector (untested_sized 64)) fun _ => ⟨_, rfl, rfl⟩
  · exact (follows_vector hkv (follows_parseStrKeyValue hkv) (0, 0) _ r.kvs).agrees
      (untested_vector ((untested_sized 64).bind fun _ => untested_sized 64))
      fun _ => ⟨_, rfl, rfl⟩
  · have hcount : Follows (parseUnsigned kv 32 r.count)
        (do let _ ← Scan.varint kv .untested 32) fun _ _ => True :=
      (follows_parseUnsigned hkv r.count).bind_scan_pure
    exact hcount.agrees ((untested_varint 32).bind fun _ => untested_pure ())
      fun _ => ⟨_, rfl, rfl⟩
  · refine (agrees_parseSigned hkv r.range.left).bind ?_ (fun _ => ⟨_, rfl⟩) ?_
    · rintro left v -
      exact (agrees_parseSigned hkv r.range.right).map fun ok right =>
        ⟨{ r with range := { left := left, right := right } }, rfl, rfl⟩
    · exact fun b h => absurd h (signed_ne_untested b)
  · exact (follows_vector hkv (follows_parseWeightValue hkv) 0 _ r.vmembers).agrees
      (untested_vector ((untested_bytes 8).bind fun _ => untested_sized 64))
      fun _ => ⟨_, rfl, rfl⟩
  · exact agrees_pure rfl

/-- `ParseFrom` of a request agrees with the format. -/
theorem agrees_parseFrom (hkv : kv.Bounded) (r : MmbpRequest) :
    Agrees (parseFrom kv kn r) (Scan.request kv) fun _ _ => True := by
  rw [parseFrom, Scan.request]
  refine (agrees_parseUnsigned hkv r.command).bind ?_ (fun _ => ⟨_, rfl⟩)
    (fun b h => absurd h (varint_ne_untested b))
  rintro command _ rfl
  refine (agrees_parseUnsigned hkv r.hasBits).bind ?_ (fun _ => ⟨_, rfl⟩)
    (fun b h => absurd h (varint_ne_untested b))
  rintro hasBits _ rfl
  have htail : ∀ r' : MmbpRequest, NeverFalse (parseExpireTime kv r' >>= fun r => pure (true, r)) :=
    fun r' => neverFalse_of_pure fun _ => ⟨_, rfl⟩
  -- the key: a part that is missing is a fault
  refine (follows_parseKey hkv { r with command := command, hasBits := hasBits }).bind_agrees
    (untested_requestKey hasBits) (parseKey_faults hkv _) ?_
  rintro r' _ hbits
  -- the payload, of which only a range tells the caller
  obtain rfl : hasBits = r'.hasBits := hbits.symm
  refine (agrees_parsePayload hkv r').bind ?_ (fun _ => ⟨_, rfl⟩) (fun _ _ r'' => htail r'')
  rintro r'' _ hbits'
  rw [← hbits']
  exact agrees_parseExpireTime hkv r''

end MmbpRequest

namespace MmbpResponse

/-- The fields of a response are read as far as the scan finds them. -/
theorem agrees_parsePayload (hkv : kv.Bounded) (r : MmbpResponse) :
    Agrees (parsePayload kv kn r >>= fun r => pure (true, r)) (Scan.responsePayload kv r.hasBits)
      fun _ _ => True := by
  have hs : Untested (Scan.responsePayload kv r.hasBits) := by
    rw [Scan.responsePayload]
    split_ifs
    · exact untested_sized 32
    · exact untested_vector (untested_sized 64)
    · exact untested_vector ((untested_sized 64).bind fun _ => untested_sized 64)
    · exact (untested_varint 64).bind fun _ => untested_pure ()
    · exact untested_vector ((untested_bytes 8).bind fun _ => untested_sized 64)
    · exact untested_pure ()
  have hp : Follows (parsePayload kv kn r) (Scan.responsePayload kv r.hasBits)
      fun _ _ => True := by
    rw [parsePayload, show Scan.responsePayload kv r.hasBits
      = if r.hasValue then Scan.sized kv 32
        else if r.hasValues then Scan.vector kv (Scan.sized kv 64)
        else if r.hasKvs then Scan.vector kv (do Scan.sized kv 64; Scan.sized kv 64)
        else if r.hasCount then do let _ ← Scan.varint kv .untested 64
        else if r.hasVmembers then Scan.vector kv (do Scan.bytes 8; Scan.sized kv 64)
        else pure () from rfl]
    split_ifs
    · exact (follows_parseString hkv false).bind_pure fun _ => ⟨_, rfl, trivial⟩
    · exact (follows_vector hkv (follows_parseSized hkv) 0 [] r.values).bind_pure
        fun _ => ⟨_, rfl, trivial⟩
    · exact (follows_vector hkv (follows_parseStrKeyValue hkv) (0, 0) _ r.kvs).bind_pure
        fun _ => ⟨_, rfl, trivial⟩
    · refine (follows_parseUnsigned hkv r.count).bind ?_
      rintro _ v rfl
      exact follows_pure trivial
    · exact (follows_vector hkv (follows_parseWeightValue hkv) 0 _ r.vmembers).bind_pure
        fun _ => ⟨_, rfl, trivial⟩
    · exact follows_pure trivial
  exact hp.agrees (Q := fun _ => True) hs fun _ => ⟨_, rfl, trivial⟩

/-- `ParseFrom` of a response agrees with the format. -/
theorem agrees_parseFrom (hkv : kv.Bounded) (r : MmbpResponse) :
    Agrees (parseFrom kv kn r) (Scan.response kv) fun _ _ => True := by
  rw [parseFrom, Scan.response]
  refine (agrees_parseUnsigned hkv r.statusCode).bind ?_ (fun _ => ⟨_, rfl⟩)
    (fun b h => absurd h (varint_ne_untested b))
  rintro statusCode _ rfl
  refine (agrees_parseUnsigned hkv r.hasBits).bind ?_ (fun _ => ⟨_, rfl⟩)
    (fun b h => absurd h (varint_ne_untested b))
  rintro hasBits _ rfl
  exact agrees_parsePayload hkv { r with statusCode := statusCode, hasBits := hasBits }

end MmbpResponse

end Messages

/-! ## Safe parsing -/

/-- The parser stays inside the readable bytes, and returns true only if every
component that the scan looks for is wholly present. -/
def ParsesSafely {α : Type} (p : Reader (Bool × α)) (s : Scan Unit) (b : Bytes) : Prop :=
  ∃ ok a rest, p.run b = .ok ((ok, a), rest) ∧ (ok = true → s.Present b)

/-- Parsing is safe exactly where the parser tests what is missing. -/
theorem Agrees.parsesSafely_iff {α : Type} {p : Reader (Bool × α)} {s : Scan Unit}
    {R : α → Unit → Prop} (h : Agrees p s R) (b : Bytes) :
    ParsesSafely p s b ↔ s.MissingTested b := by
  constructor
  · rintro ⟨ok, a, rest, hrun, hpresent⟩ hmissing
    cases ok with
    | false => exact h.untested b hmissing a rest hrun
    | true =>
      obtain ⟨rest', hs⟩ := hpresent rfl
      rw [hmissing] at hs
      cases hs
  · intro hne
    cases hs : s.run b with
    | ok r =>
      obtain ⟨v, rest⟩ := r
      obtain ⟨a, ha, -⟩ := h.present b v rest hs
      exact ⟨true, a, rest, ha, fun _ => ⟨rest, hs⟩⟩
    | error e =>
      cases e with
      | tested =>
        obtain ⟨a, rest, ha⟩ := h.tested b hs
        exact ⟨false, a, rest, ha, fun h => by cases h⟩
      | untested => exact absurd hs hne

/-- **When `ParseFrom` is safe.**  A buffer is parsed inside its bounds, and true
returned for whole messages only, exactly when no component is missing or the
first one missing is the command or status code, the has-bits, or an end of a
range. -/
theorem mmbp_parseFrom_safe_iff {kv : Kvarint} {kn : Kanon} (hkv : kv.Bounded) :
    (∀ (r : MmbpRequest) (b : Bytes),
      ParsesSafely (r.parseFrom kv kn) (Scan.request kv) b ↔ (Scan.request kv).MissingTested b)
    ∧ (∀ (r : MmbpResponse) (b : Bytes),
      ParsesSafely (r.parseFrom kv kn) (Scan.response kv) b
        ↔ (Scan.response kv).MissingTested b) :=
  ⟨fun r b => (MmbpRequest.agrees_parseFrom hkv r).parsesSafely_iff b,
    fun r b => (MmbpResponse.agrees_parseFrom hkv r).parsesSafely_iff b⟩

/-- A response that announces a value of five bytes and ends. -/
theorem mmbp_parseFrom_safe_iff_cut :
    ParsesSafely ((MmbpResponse.fresh 0).parseFrom Kvarint.leb128 Kanon.bigEndian)
        (Scan.response Kvarint.leb128) [0, 1, 5]
      ↔ (Scan.response Kvarint.leb128).MissingTested [0, 1, 5] :=
  (mmbp_parseFrom_safe_iff Kvarint.leb128_bounded).2 (MmbpResponse.fresh 0) [0, 1, 5]

/-- A response cut behind the length of its value is read past its end. -/
theorem mmbpResponse_parseFrom_reads_past_end :
    ¬ ∀ b : Bytes,
      ParsesSafely ((MmbpResponse.fresh 0).parseFrom Kvarint.leb128 Kanon.bigEndian)
        (Scan.response Kvarint.leb128) b := by
  intro h
  obtain ⟨ok, a, rest, hrun, -⟩ := h [0, 1, 5]
  have hfault : ((MmbpResponse.fresh 0).parseFrom Kvarint.leb128 Kanon.bigEndian).run [0, 1, 5]
      = .error Fault.outOfReadable := by rfl
  rw [hfault] at hrun
  cases hrun

end Mmkvc
