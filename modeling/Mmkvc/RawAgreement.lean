/-
# The two parsers of a request

The parser over raw memory reads a weight as a varint, where eight bytes have been written.
`mmbpRequest_raw_agrees` says that it agrees with the parser over a buffer on every request that
sends no weights; with base-128 varints and big-endian weights it disagrees on the others, but
for a first weight whose 64 bits are all set.
-/
import Mmkvc.MmbpResponse
import Mmkvc.RawParser

namespace Mmkvc

/-! ## Numbers that are their own varints -/

namespace Leb128

/-- A number of `7 * (j + 1) + 1` bits is decoded from a byte with its highest bit set and what
follows. -/
theorem decodeNat_cons_of_le {j k len n : ℕ} {x : UInt8} {b : Bytes}
    (h : decodeNat (k + 1) (x :: b) = .ok (len, n)) (hlo : 2 ^ (7 * (j + 1)) ≤ n)
    (hhi : n < 2 ^ (7 * (j + 1) + 1)) :
    ∃ c len' n', x.toNat = 128 + c ∧ decodeNat k b = .ok (len', n') ∧ n = c + 128 * n'
      ∧ 2 ^ (7 * j) ≤ n' ∧ n' < 2 ^ (7 * j + 1) := by
  have hpow : 2 ^ (7 * (j + 1)) = 128 * 2 ^ (7 * j) := by ring
  have hpow' : 2 ^ (7 * (j + 1) + 1) = 128 * 2 ^ (7 * j + 1) := by ring
  have hone : 1 ≤ 2 ^ (7 * j) := Nat.one_le_two_pow
  have hx256 := x.toNat_lt
  rw [hpow] at hlo
  rw [hpow'] at hhi
  clear hpow hpow'
  rw [decodeNat] at h
  split_ifs at h with hx
  · obtain ⟨-, rfl⟩ := Prod.mk.inj (Except.ok.inj h)
    omega
  · split at h
    · cases h
    · rename_i len' n' hrest
      obtain ⟨-, rfl⟩ := Prod.mk.inj (Except.ok.inj h)
      exact ⟨x.toNat - 128, len', n', by omega, hrest, rfl, by omega, by omega⟩

/-- Seven bits at the low end of a number `q * a' + s` whose bytes, those of `a'`, have their
highest bit set. -/
theorem sevenBits {q u a a' x s c r r' : ℕ} (hu : q * u = 128) (hs : s < q) (hc : c < 128)
    (hx : x < 128) (ha : a' = 256 * a + (128 + x)) (hr : r' = c + 128 * r)
    (h : r' = q * a' + s) :
    c = q * (x % u) + s ∧ r = 2 * q * a + (q + x / u) ∧ q + x / u < 2 * q := by
  have hu' : 0 < u := Nat.pos_of_ne_zero (by rintro rfl; simp at hu)
  have hq : q ≤ 128 := hu ▸ Nat.le_mul_of_pos_right q hu'
  have hx' : q * x = 128 * (x / u) + q * (x % u) := by
    conv_lhs => rw [← Nat.div_add_mod x u, Nat.mul_add, ← Nat.mul_assoc, hu]
  have hlt : q * (x % u) ≤ 128 - q := by
    have hle := Nat.mul_le_mul_left q (Nat.le_sub_one_of_lt (Nat.mod_lt x hu'))
    rwa [Nat.mul_sub, hu, Nat.mul_one] at hle
  have hdiv : x / u < q := Nat.div_lt_of_lt_mul (by rwa [Nat.mul_comm, hu])
  have h' : 128 * (2 * (q * a) + q + x / u) + (q * (x % u) + s) = c + 128 * r := by
    rw [← hr, h, ha, Nat.mul_add q, Nat.mul_add q 128, hx']
    ring
  rw [Nat.mul_assoc 2 q a]
  clear h hx' ha hr
  generalize q * (x % u) = y at *
  generalize q * a = z at *
  generalize x / u = v at *
  omega

/-- The groups that each say what another one is are all ones. -/
theorem allOnes {c1 c2 c3 c4 c5 c6 c7 c8 : ℕ} (h3 : c3 < 128) (h4 : c4 < 128) (h5 : c5 < 128)
    (h6 : c6 < 128) (h7 : c7 < 128) (h8 : c8 < 128) (e1 : c1 = 1 * (c8 % 128) + 0)
    (e2 : c2 = 2 * (c7 % 64) + (1 + c8 / 128)) (e3 : c3 = 4 * (c6 % 32) + (2 + c7 / 64))
    (e4 : c4 = 8 * (c5 % 16) + (4 + c6 / 32)) (e5 : c5 = 16 * (c4 % 8) + (8 + c5 / 16))
    (e6 : c6 = 32 * (c3 % 4) + (16 + c4 / 8)) (e7 : c7 = 64 * (c2 % 2) + (32 + c3 / 4))
    (e8 : c8 = 64 + c2 / 2) :
    (c1 = 127 ∧ c2 = 127 ∧ c3 = 127 ∧ c4 = 127) ∧ c5 = 127 ∧ c6 = 127 ∧ c7 = 127 ∧ c8 = 127 := by
  have k7 : 96 ≤ c7 := by clear e1 e3 e4 e5 e6 e8; omega
  have k3 : c3 % 4 = 3 := by clear e1 e2 e4 e5 e6 e7 e8; omega
  have k6 : 112 ≤ c6 := by clear e1 e2 e3 e4 e5 e7 e8; omega
  have k4 : c4 % 8 = 7 := by clear e1 e2 e3 e5 e6 e7 e8; omega
  have g5 : c5 = 127 := by clear e1 e2 e3 e4 e6 e7 e8; omega
  have g4 : c4 = 127 := by clear e1 e2 e3 e5 e6 e7 e8; omega
  have g6 : c6 = 127 := by clear e1 e2 e3 e4 e5 e7 e8; omega
  have g3 : c3 = 127 := by clear e1 e2 e4 e5 e6 e7 e8; omega
  have g7 : c7 = 127 := by clear e1 e3 e4 e5 e6 e8; omega
  have g2 : c2 = 127 := by clear e1 e3 e4 e5 e6 e7 e8; omega
  have g8 : c8 = 127 := by clear e1 e2 e3 e4 e5 e6 e7; omega
  have g1 : c1 = 127 := by clear e2 e3 e4 e5 e6 e7 e8; omega
  exact ⟨⟨g1, g2, g3, g4⟩, g5, g6, g7, g8⟩

/-- Eight bytes with their highest bits set, most significant first, are as a number the varint
that they begin only if all their bits are set. -/
theorem eq_allOnes {c1 c2 c3 c4 c5 c6 c7 c8 d a1 a2 a3 a4 a5 a6 a7 r1 r2 r3 r4 r5 r6 r7 : ℕ}
    (h1 : c1 < 128) (h2 : c2 < 128) (h3 : c3 < 128) (h4 : c4 < 128) (h5 : c5 < 128)
    (h6 : c6 < 128) (h7 : c7 < 128) (h8 : c8 < 128) (ha1 : a1 = 128 + c1)
    (ha2 : a2 = 256 * a1 + (128 + c2)) (ha3 : a3 = 256 * a2 + (128 + c3))
    (ha4 : a4 = 256 * a3 + (128 + c4)) (ha5 : a5 = 256 * a4 + (128 + c5))
    (ha6 : a6 = 256 * a5 + (128 + c6)) (ha7 : a7 = 256 * a6 + (128 + c7))
    (hr7 : r7 = c8 + 128 * (d + 128)) (hr6 : r6 = c7 + 128 * r7) (hr5 : r5 = c6 + 128 * r6)
    (hr4 : r4 = c5 + 128 * r5) (hr3 : r3 = c4 + 128 * r4) (hr2 : r2 = c3 + 128 * r3)
    (hr1 : r1 = c2 + 128 * r2) (h : c1 + 128 * r1 = 256 * a7 + (128 + c8)) :
    256 * a7 + (128 + c8) = 2 ^ 64 - 1 ∧ d = 127 := by
  obtain ⟨e1, f1, g1⟩ := sevenBits (q := 1) (u := 128) (s := 0) rfl
    (by norm_num) h1 h8 rfl rfl (by rw [Nat.one_mul, Nat.add_zero]; exact h)
  obtain ⟨e2, f2, g2⟩ := sevenBits (q := 2) (u := 64) rfl g1 h2 h7 ha7 hr1 f1
  obtain ⟨e3, f3, g3⟩ := sevenBits (q := 4) (u := 32) rfl g2 h3 h6 ha6 hr2 f2
  obtain ⟨e4, f4, g4⟩ := sevenBits (q := 8) (u := 16) rfl g3 h4 h5 ha5 hr3 f3
  obtain ⟨e5, f5, g5⟩ := sevenBits (q := 16) (u := 8) rfl g4 h5 h4 ha4 hr4 f4
  obtain ⟨e6, f6, g6⟩ := sevenBits (q := 32) (u := 4) rfl g5 h6 h3 ha3 hr5 f5
  obtain ⟨e7, f7, g7⟩ := sevenBits (q := 64) (u := 2) rfl g6 h7 h2 ha2 hr6 f6
  obtain ⟨e8, hd⟩ : c8 = 64 + c2 / 2 ∧ d = c1 := by
    clear ha2 ha3 ha4 ha5 ha6 ha7 hr1 hr2 hr3 hr4 hr5 hr6 f1 f2 f3 f4 f5 f6 h e1 e2 e3 e4 e5 e6 e7
    omega
  obtain ⟨⟨rfl, rfl, rfl, rfl⟩, rfl, rfl, rfl, rfl⟩ :=
    allOnes h3 h4 h5 h6 h7 h8 e1 e2 e3 e4 e5 e6 e7 e8
  refine ⟨?_, hd⟩
  clear hr1 hr2 hr3 hr4 hr5 hr6 hr7 h f1 f2 f3 f4 f5 f6 f7 g1 g2 g3 g4 g5 g6 g7
  subst ha1
  subst ha2
  subst ha3
  subst ha4
  subst ha5
  subst ha6
  subst ha7
  norm_num

/-- A length that begins with 2 groups. -/
theorem decodeNat_length {len l n : ℕ} {t : Bytes}
    (h : decodeNat 2 (encodeNat 4 len ++ t) = .ok (l, n)) (hlo : 2 ^ (7 * (0 + 1)) ≤ n)
    (hhi : n < 2 ^ (7 * (0 + 1) + 1)) : n = len % 128 + 128 ∧ len / 128 = 1 := by
  rw [encodeNat] at h
  split_ifs at h with hlen
  · obtain ⟨c, -, -, hc, -⟩ := decodeNat_cons_of_le h hlo hhi
    rw [UInt8.toNat_ofNat_of_lt' (by show _ < 256; omega)] at hc
    omega
  · obtain ⟨c, l', n', hc, h, hn, hlo', hhi'⟩ := decodeNat_cons_of_le h hlo hhi
    rw [UInt8.toNat_ofNat_of_lt' (by show _ < 256; omega)] at hc
    replace h : decodeNat 1 (encodeNat 3 (len / 128) ++ t) = .ok (l', n') := h
    obtain rfl : n' = 1 := by
      rw [Nat.mul_zero, Nat.pow_zero] at hlo'
      rw [Nat.mul_zero, Nat.zero_add, Nat.pow_one] at hhi'
      omega
    rw [encodeNat] at h
    split_ifs at h with hq
    · rw [List.singleton_append, decodeNat, UInt8.toNat_ofNat_of_lt' (by show _ < 256; omega), if_pos hq] at h
      have hq1 : len / 128 = 1 := congrArg Prod.snd (Except.ok.inj h)
      exact ⟨by omega, hq1⟩
    · rw [List.cons_append, decodeNat, UInt8.toNat_ofNat_of_lt' (by show _ < 256; omega), if_neg (by omega)] at h
      cases h

/-- **A number that is its own varint.**  Eight bytes, most significant first, begin a varint of
the number they are only if it is 0 or all its bits are set; then a length follows that is 255. -/
theorem own_varint {x1 x2 x3 x4 x5 x6 x7 x8 : UInt8} {a2 a3 a4 a5 a6 a7 w len k : ℕ} {t : Bytes}
    (ha2 : a2 = 256 * x1.toNat + x2.toNat) (ha3 : a3 = 256 * a2 + x3.toNat)
    (ha4 : a4 = 256 * a3 + x4.toNat) (ha5 : a5 = 256 * a4 + x5.toNat)
    (ha6 : a6 = 256 * a5 + x6.toNat) (ha7 : a7 = 256 * a6 + x7.toNat)
    (hw : w = 256 * a7 + x8.toNat)
    (h : decodeNat 10 (x1 :: x2 :: x3 :: x4 :: x5 :: x6 :: x7 :: x8 :: (encodeNat 4 len ++ t))
      = .ok (k, w)) :
    w = 0 ∨ (w = 2 ^ 64 - 1 ∧ len = 255) := by
  -- a first byte below 128 is the whole number; otherwise all eight bytes continue it
  by_cases hx1 : x1.toNat < 128
  · left
    rw [decodeNat, if_pos hx1] at h
    have hw' : x1.toNat = w := congrArg Prod.snd (Except.ok.inj h)
    omega
  · right
    have hlt : w < 2 ^ (7 * (8 + 1) + 1) := by
      have := x1.toNat_lt; have := x2.toNat_lt; have := x3.toNat_lt; have := x4.toNat_lt
      have := x5.toNat_lt; have := x6.toNat_lt; have := x7.toNat_lt; have := x8.toNat_lt
      norm_num
      omega
    have hge : 2 ^ (7 * (8 + 1)) ≤ w := by
      norm_num
      omega
    obtain ⟨c1, l1, n1, hc1, h, e1, hlo, hhi⟩ := decodeNat_cons_of_le h hge hlt
    obtain ⟨c2, l2, n2, hc2, h, e2, hlo, hhi⟩ := decodeNat_cons_of_le h hlo hhi
    obtain ⟨c3, l3, n3, hc3, h, e3, hlo, hhi⟩ := decodeNat_cons_of_le h hlo hhi
    obtain ⟨c4, l4, n4, hc4, h, e4, hlo, hhi⟩ := decodeNat_cons_of_le h hlo hhi
    obtain ⟨c5, l5, n5, hc5, h, e5, hlo, hhi⟩ := decodeNat_cons_of_le h hlo hhi
    obtain ⟨c6, l6, n6, hc6, h, e6, hlo, hhi⟩ := decodeNat_cons_of_le h hlo hhi
    obtain ⟨c7, l7, n7, hc7, h, e7, hlo, hhi⟩ := decodeNat_cons_of_le h hlo hhi
    obtain ⟨c8, l8, n8, hc8, h, e8, hlo, hhi⟩ := decodeNat_cons_of_le h hlo hhi
    -- the ninth and tenth byte are those of the length
    obtain ⟨hn8, hq⟩ := decodeNat_length h hlo hhi
    have hc : ∀ {x : UInt8} {c : ℕ}, x.toNat = 128 + c → c < 128 := by
      intro x c hx
      have := x.toNat_lt
      omega
    have hr7 : n7 = c8 + 128 * (len % 128 + 128) := by rw [e8, hn8]
    have hw' : c1 + 128 * n1 = 256 * a7 + (128 + c8) := by rw [← e1, hw, hc8]
    rw [hc2] at ha2
    rw [hc3] at ha3
    rw [hc4] at ha4
    rw [hc5] at ha5
    rw [hc6] at ha6
    rw [hc7] at ha7
    obtain ⟨hall, hd⟩ := eq_allOnes (hc hc1) (hc hc2) (hc hc3) (hc hc4) (hc hc5) (hc hc6) (hc hc7)
      (hc hc8) hc1 ha2 ha3 ha4 ha5 ha6 ha7 hr7 e7 e6 e5 e4 e3 e2 hw'
    rw [hc8, hall] at hw
    refine ⟨hw, ?_⟩
    clear * - hd hq
    omega

end Leb128

/-! ## Inverting a run -/

namespace RawReader

variable {α β : Type}

/-- A run goes on behind a component that is known. -/
theorem RawLeaves.rest_of_run {p : RawReader (α × List Raw)} {f : α × List Raw → RawReader β}
    {b t : Bytes} {n : ℕ} {a : α} {size : BitVec 64} {c : β} {s' : Raw}
    (hp : RawLeaves True p b n a) (hsize : (b ++ t).length ≤ size.toNat) (h : (p >>= f).run ⟨b ++ t, size⟩ = .ok (c, s')) :
    ∃ states size', t.length ≤ size'.toNat ∧ (f (a, states)).run ⟨t, size'⟩ = .ok (c, s') := by
  have hle := hp.le
  obtain ⟨states, hrun, -⟩ := hp.run t size hsize
  rw [run_bind_ok hrun] at h
  rw [List.length_append] at hsize
  exact ⟨states, _, by rw [toNat_sub_ofNat (by omega)]; omega, h⟩

/-- A decoder that comes back has seen the whole input. -/
theorem decodeWithin_of_run {decode : Bytes → Except DecodeErr (ℕ × α)} {b : Bytes}
    {size : BitVec 64} {r : Except DecodeErr (ℕ × α)} {s' : Raw} (hsize : b.length ≤ size.toNat)
    (h : (decodeWithin decode).run ⟨b, size⟩ = .ok (r, s')) : r = decode b := by
  replace h : decodeWithin decode ⟨b, size⟩ = .ok (r, s') := h
  rw [decodeWithin] at h
  dsimp only at h
  split_ifs at h with hle
  · rw [List.take_of_length_le hsize] at h
    exact (congrArg Prod.fst (Except.ok.inj h)).symm
  · split at h
    · cases h
    · exact (congrArg Prod.fst (Except.ok.inj h)).symm

end RawReader

open RawReader

section

variable {kv : Kvarint}

/-- What was read as a number is what the decoder gives. -/
theorem decode_of_rawUnsigned {bits : ℕ} {i v : BitVec bits} {b : Bytes} {size : BitVec 64}
    {s' : Raw} (hsize : b.length ≤ size.toNat)
    (h : (rawUnsigned kv bits i).run ⟨b, size⟩ = .ok ((true, v), s')) :
    ∃ len, kv.decode bits b = .ok (len, v) := by
  rw [rawUnsigned] at h
  obtain ⟨r, s₁, hdecode, h⟩ := run_bind_eq_ok.mp h
  obtain rfl := decodeWithin_of_run hsize hdecode
  cases hd : kv.decode bits b with
  | error e =>
    rw [hd] at h
    cases h
  | ok r =>
    rw [hd] at h
    obtain ⟨-, s₂, -, h⟩ := run_bind_eq_ok.mp h
    obtain ⟨-, s₃, -, h⟩ := run_bind_eq_ok.mp h
    have hv : r.2 = v := congrArg (fun x : (Bool × BitVec bits) × Raw => x.1.2) (Except.ok.inj h)
    exact ⟨r.1, by rw [← hv]⟩

/-- The first weight is a varint at the front. -/
theorem decode_of_rawWeightValue {size valueSize : BitVec 64} {b : Bytes} {old e : WeightValue}
    {vars : Option (BitVec 64) × BitVec 64} {s' : Raw} (hsize : b.length ≤ size.toNat)
    (h : (rawWeightValue kv (none, valueSize) old).run ⟨b, size⟩ = .ok ((vars, e), s')) :
    ∃ len, kv.decode 64 b = .ok (len, e.key) := by
  rw [rawWeightValue] at h
  obtain ⟨⟨ok, w⟩, s₁, hweight, h⟩ := run_bind_eq_ok.mp h
  cases ok with
  | false => cases h
  | true =>
    obtain ⟨⟨valueSize', value⟩, s₂, -, h⟩ := run_bind_eq_ok.mp h
    have he : (⟨w, value⟩ : WeightValue) = e :=
      congrArg (fun x : ((Option (BitVec 64) × BitVec 64) × WeightValue) × Raw => x.1.2)
        (Except.ok.inj h)
    rw [← he]
    exact decode_of_rawUnsigned hsize hweight

/-- What the raw parser takes for an element. -/
theorem rawReads_weightValue (hkv : kv.Inverse) (vars : Option (BitVec 64) × BitVec 64)
    (old : WeightValue) (w : BitVec 64) (value : Bytes) (h : value.length < 2 ^ 32) :
    let b := kv.encode 64 w ++ (kv.encode 32 (BitVec.ofNat 32 value.length) ++ value)
    RawReads (rawWeightValue kv vars old) b b.length
      ((some w, BitVec.ofNat 64 value.length), { key := w, value := old.value ++ value }) := by
  intro b
  have hw := rawReads_unsigned hkv (by norm_num) le_rfl w (0 : BitVec 64)
  have hv := rawReads_sized hkv (by norm_num) (by norm_num) vars.2 old.value value h
  rw [BitVec.setWidth_eq] at hw
  rw [List.length_append]
  exact hw.bind (hv.bind_pure rfl)

end

/-! ## Elements of weight 0 -/

section Zeros

/-- The element a vector is resized with. -/
def WeightValue.default : WeightValue := { key := 0, value := [] }

/-- The bytes of an element. -/
def WeightValue.bytes (wv : WeightValue) : Bytes :=
  Kanon.bigEndian.append64 wv.key
    ++ (Kvarint.leb128.encode 32 (BitVec.ofNat 32 wv.value.length) ++ wv.value)

theorem bytes_default : WeightValue.default.bytes = List.replicate 9 0 := by decide

/-- Default weights are zeros. -/
theorem flatMap_bytes_replicate (j : ℕ) :
    (List.replicate j WeightValue.default).flatMap WeightValue.bytes = List.replicate (9 * j) 0 := by
  induction j with
  | zero => rfl
  | succ j ih =>
    rw [List.replicate_succ, List.flatMap_cons, ih, bytes_default, Nat.mul_succ, Nat.add_comm,
      List.replicate_add]

/-- Two zeros are an element with weight 0 and no value. -/
theorem run_forEach_zeros {b : Bytes} {s' : Raw} (a : ℕ) :
    ∀ {n : ℕ} {vars : Option (BitVec 64) × BitVec 64} {size : BitVec 64} {out : WeightValues},
      a ≤ n → (List.replicate (2 * a) 0 ++ b).length ≤ size.toNat →
      (forEach (rawWeightValue Kvarint.leb128) vars
        (List.replicate n WeightValue.default)).run ⟨List.replicate (2 * a) 0 ++ b, size⟩
          = .ok (out, s') →
      ∃ vars' size' out', out = List.replicate a WeightValue.default ++ out'
        ∧ (forEach (rawWeightValue Kvarint.leb128) vars'
          (List.replicate (n - a) WeightValue.default)).run ⟨b, size'⟩ = .ok (out', s')
        ∧ b.length ≤ size'.toNat := by
  induction a with
  | zero =>
    intro n vars size out _ hsize h
    exact ⟨vars, size, out, rfl, h, hsize⟩
  | succ a ih =>
    intro n vars size out hn hsize h
    obtain ⟨n, rfl⟩ : ∃ n', n = n' + 1 := ⟨n - 1, by omega⟩
    have hzeros : List.replicate (2 * (a + 1)) 0 ++ b = [0, 0] ++ (List.replicate (2 * a) 0 ++ b) := by
      rw [Nat.mul_succ, Nat.add_comm, List.replicate_add, List.append_assoc]
      rfl
    rw [hzeros] at hsize h
    rw [List.replicate_succ, forEach] at h
    have helem : RawReads (rawWeightValue Kvarint.leb128 vars WeightValue.default) [0, 0] 2
        ((some 0, 0), WeightValue.default) :=
      rawReads_weightValue Kvarint.leb128_inverse vars WeightValue.default 0 [] (by norm_num)
    rw [run_bind_ok (helem.run _ size hsize)] at h
    obtain ⟨out₁, s₁, hrun, h⟩ := run_bind_eq_ok.mp h
    obtain ⟨rfl, rfl⟩ := Prod.mk.inj (Except.ok.inj h)
    rw [List.length_append] at hsize
    obtain ⟨vars', size', out', rfl, hrest, hle⟩ := ih (Nat.le_of_succ_le_succ hn)
      (by rw [toNat_sub_ofNat (by simp at hsize; omega)]; simp at hsize ⊢; omega) hrun
    exact ⟨vars', size', out', rfl, by rwa [Nat.add_sub_add_right], hle⟩

/-- A weight that is decoded from its own bytes is one of two. -/
theorem toNat_key_of_decode {wv : WeightValue} {len : ℕ} {t : Bytes}
    (hvalue : wv.value.length < 2 ^ 32)
    (h : Kvarint.leb128.decode 64 (wv.bytes ++ t) = .ok (len, wv.key)) :
    wv.key = 0 ∨ (wv.key = BitVec.allOnes 64 ∧ wv.value.length = 255) := by
  have hdecode : Leb128.decodeNat 10 (wv.bytes ++ t) = .ok (len, wv.key.toNat) := by
    replace h : Leb128.decode 64 (wv.bytes ++ t) = .ok (len, wv.key) := h
    rw [Leb128.decode] at h
    split at h
    · cases h
    · rename_i len' n hn
      split_ifs at h with hlt
      obtain ⟨rfl, hkey⟩ := Prod.mk.inj (Except.ok.inj h)
      rw [← hkey, toNat_ofNat_of_lt 64 n hlt]
      exact hn
  have hnat := ofBeBytes_beBytes 8 wv.key.toNat (by have := wv.key.isLt; norm_num; omega)
  have hlength : (BitVec.ofNat 32 wv.value.length).toNat = wv.value.length :=
    toNat_ofNat_of_lt 32 _ hvalue
  have hbytes : wv.bytes ++ t = beBytes 8 wv.key.toNat
      ++ (Leb128.encodeNat 4 wv.value.length ++ (wv.value ++ t)) := by
    rw [WeightValue.bytes, List.append_assoc, List.append_assoc]
    show beBytes 8 wv.key.toNat
      ++ (Leb128.encodeNat 4 (BitVec.ofNat 32 wv.value.length).toNat ++ (wv.value ++ t)) = _
    rw [hlength]
  rw [hbytes] at hdecode
  simp only [beBytes, List.cons_append, List.nil_append] at hdecode hnat
  rw [ofBeBytes] at hnat
  simp only [List.foldl_cons, List.foldl_nil] at hnat
  rcases Leb128.own_varint rfl rfl rfl rfl rfl rfl (hnat.symm.trans (by ring)) hdecode with
    h0 | ⟨h1, h255⟩
  · left
    exact BitVec.eq_of_toNat_eq h0
  · right
    refine ⟨BitVec.eq_of_toNat_eq ?_, h255⟩
    rw [h1, BitVec.toNat_allOnes]

/-- A list has a first element that is not the default one, if it has any. -/
theorem eq_replicate_or_exists_ne {α : Type} [DecidableEq α] (d : α) (l : List α) :
    l = List.replicate l.length d ∨ ∃ j e tl, l = List.replicate j d ++ e :: tl ∧ e ≠ d := by
  induction l with
  | nil => exact Or.inl rfl
  | cons x l ih =>
    by_cases hx : x = d
    · subst hx
      rcases ih with hl | ⟨j, e, tl, hl, he⟩
      · left
        rw [List.length_cons, List.replicate_succ, ← hl]
      · right
        exact ⟨j + 1, e, tl, by rw [hl]; rfl, he⟩
    · exact Or.inr ⟨0, x, l, rfl, hx⟩

/-- **A vector that is read back from its own bytes.**  Its first weight has all bits set, or it
consists of zeros, of which the parser has left most. -/
theorem weights_of_run {l : WeightValues} {x : Bytes} {size : BitVec 64} {s' : Raw} (hne : l ≠ [])
    (hvalue : ∀ e ∈ l, e.value.length < 2 ^ 32)
    (hsize : (l.flatMap WeightValue.bytes ++ x).length ≤ size.toNat)
    (h : (forEach (rawWeightValue Kvarint.leb128) (none, 0)
      (List.replicate l.length WeightValue.default)).run ⟨l.flatMap WeightValue.bytes ++ x, size⟩
        = .ok (l, s')) :
    (∃ e tl, l = e :: tl ∧ e.key = BitVec.allOnes 64 ∧ e.value.length = 255)
      ∨ (s'.rest = List.replicate (7 * l.length) 0 ++ x ∧ s'.rest.length ≤ s'.size.toNat) := by
  obtain ⟨e, tl, rfl⟩ := List.exists_cons_of_ne_nil hne
  -- the first weight is decoded from its own bytes, since the parser forgets to skip them
  have hfirst : e.key = 0 ∨ (e.key = BitVec.allOnes 64 ∧ e.value.length = 255) := by
    rw [List.length_cons, List.replicate_succ, forEach] at h
    obtain ⟨⟨vars, e'⟩, s₁, helem, h⟩ := run_bind_eq_ok.mp h
    obtain ⟨out, s₂, -, h⟩ := run_bind_eq_ok.mp h
    obtain ⟨hout, -⟩ := Prod.mk.inj (Except.ok.inj h)
    obtain ⟨rfl, -⟩ := List.cons.inj hout
    obtain ⟨len, hdecode⟩ := decode_of_rawWeightValue hsize helem
    rw [List.flatMap_cons, List.append_assoc] at hdecode
    exact toNat_key_of_decode (hvalue _ List.mem_cons_self) hdecode
  rcases hfirst with hzero | hones
  · right
    rcases eq_replicate_or_exists_ne WeightValue.default (e :: tl) with hall | ⟨j, e', tl', hl, he'⟩
    · have hbytes : (e :: tl).flatMap WeightValue.bytes ++ x
          = List.replicate (2 * (e :: tl).length) 0
            ++ (List.replicate (7 * (e :: tl).length) 0 ++ x) := by
        conv_lhs => rw [hall]
        rw [flatMap_bytes_replicate, ← List.append_assoc, ← List.replicate_add]
        congr 2
        omega
      rw [hbytes] at h hsize
      obtain ⟨vars', size', out', -, hrest, hle⟩ := run_forEach_zeros _ le_rfl hsize h
      rw [Nat.sub_self] at hrest
      obtain ⟨-, rfl⟩ := Prod.mk.inj (Except.ok.inj hrest)
      exact ⟨rfl, hle⟩
    · -- the zeros before `e'` are enough for the parser to take `e'` for zeros
      obtain ⟨m, b, hm, hbytes⟩ : ∃ m b, 2 * (j + 1) ≤ m
          ∧ (e :: tl).flatMap WeightValue.bytes ++ x = List.replicate m 0 ++ b := by
        cases j with
        | zero =>
          have hweight : Kanon.bigEndian.append64 0 = List.replicate 8 0 := by decide
          refine ⟨8, Kvarint.leb128.encode 32 (BitVec.ofNat 32 e.value.length) ++ e.value
            ++ (tl.flatMap WeightValue.bytes ++ x), by norm_num, ?_⟩
          rw [List.flatMap_cons, WeightValue.bytes, hzero, hweight, List.append_assoc,
            List.append_assoc]
        | succ j =>
          refine ⟨9 * (j + 1), (e' :: tl').flatMap WeightValue.bytes ++ x, by omega, ?_⟩
          rw [hl, List.flatMap_append, flatMap_bytes_replicate, List.append_assoc]
      have hsplit : List.replicate m 0 ++ b
          = List.replicate (2 * (j + 1)) 0 ++ (List.replicate (m - 2 * (j + 1)) 0 ++ b) := by
        rw [← List.append_assoc, ← List.replicate_add, Nat.add_sub_cancel' hm]
      rw [hbytes, hsplit] at h hsize
      have hlen : j + 1 ≤ (e :: tl).length := by
        rw [hl, List.length_append, List.length_replicate, List.length_cons]
        omega
      obtain ⟨vars', size', out', hout, -⟩ := run_forEach_zeros (j + 1) hlen hsize h
      rw [hl, List.replicate_succ', List.append_assoc] at hout
      exact absurd (List.cons.inj (List.append_cancel_left hout)).1 he'
  · exact Or.inl ⟨e, tl, rfl, hones⟩

end Zeros

namespace MmbpRequest

/-! ## Agreement -/

/-- Both parsers on the serialization of `r`: the same message, and as many bytes consumed. -/
def RawAgrees (kv : Kvarint) (kn : Kanon) (r₀ r : MmbpRequest) : Prop :=
  ∀ len : BitVec 64, len.toNat = (r.serializeTo kv kn).length → ∃ f rest states s',
    (r₀.parseFrom kv kn).run (r.serializeTo kv kn) = .ok ((true, f), rest)
      ∧ (r₀.rawParseFrom kv).run ⟨r.serializeTo kv kn, len⟩ = .ok ((f, states), s')
      ∧ s'.rest = rest

/-- The first weight that is sent has all bits set, and a value of 255 bytes. -/
def FirstWeightAllOnes (r : MmbpRequest) : Prop :=
  ∃ e tl, r.vmembers = e :: tl ∧ e.key = BitVec.allOnes 64 ∧ e.value.length = 255

/-- The two parsers agree if no weights are sent. -/
theorem rawAgrees_of_not_sendsWeights {kv : Kvarint} {kn : Kanon} (hkv : kv.Inverse)
    (hkn : kn.Inverse64) (r₀ : MmbpRequest) {r : MmbpRequest} (hr : r.Encodable)
    (hweights : ¬ r.SendsWeights) : RawAgrees kv kn r₀ r := by
  intro len hlen
  have hbuffer := reads_parseFrom_into hkv hkn r₀ r hr []
  rw [List.append_nil] at hbuffer
  obtain ⟨states, hraw, -⟩ := (rawLeaves_parseFrom (G := True) hkv kn r₀ r hr hweights).run [] len
    (by rw [List.append_nil, hlen])
  rw [List.append_nil] at hraw
  exact ⟨_, [], states, _, hbuffer, hraw, rfl⟩

/-- A payload of weights is their number and their bytes. -/
theorem serializePayload_of_weights {r : MmbpRequest} (hweights : r.SendsWeights) :
    serializePayload Kvarint.leb128 Kanon.bigEndian r
      = Kvarint.leb128.encode 32 (BitVec.ofNat 32 r.vmembers.length)
        ++ r.vmembers.flatMap WeightValue.bytes := by
  obtain ⟨hflags, h7, -⟩ := hweights
  simp only [Bool.or_eq_false_iff] at hflags
  obtain ⟨⟨⟨⟨h1, h3⟩, h4⟩, h5⟩, h6⟩ := hflags
  rw [serializePayload, h1, h3, h4, h5, h6, h7]
  rfl

/-- The parser of raw memory reads the weights and nothing else of the payload. -/
theorem rawPayload_of_weights {kv : Kvarint} {r₀ r : MmbpRequest} (hbits : r₀.hasBits = r.hasBits)
    (hweights : r.SendsWeights) :
    rawPayload kv r₀ = do
      let (vmembers, states) ← behind (rawWeightValues kv r₀.vmembers)
      return ({ r₀ with vmembers := vmembers }, states) := by
  have h : ∀ i, testBit r₀.hasBits i = testBit r.hasBits i := fun i => by rw [hbits]
  obtain ⟨hflags, h7, -⟩ := hweights
  simp only [Bool.or_eq_false_iff] at hflags
  obtain ⟨⟨⟨⟨h1, h3⟩, h4⟩, h5⟩, h6⟩ := hflags
  have h1' : r₀.hasValue = false := (h 1).trans h1
  have h3' : r₀.hasValues = false := (h 3).trans h3
  have h4' : r₀.hasKvs = false := (h 4).trans h4
  have h5' : r₀.hasCount = false := (h 5).trans h5
  have h6' : r₀.hasRange = false := (h 6).trans h6
  have h7' : r₀.hasVmembers = true := (h 7).trans h7
  rw [rawPayload, h1', h3', h4', h5', h6', h7']
  rfl

/-- The expiration time does not touch the weights. -/
theorem vmembers_of_rawExpireTime {kv : Kvarint} {r f : MmbpRequest} {states : List Raw}
    {s s' : Raw} (h : (rawExpireTime kv r).run s = .ok ((f, states), s')) :
    f.vmembers = r.vmembers := by
  rw [rawExpireTime] at h
  split_ifs at h with hexp
  · obtain ⟨x, s₁, -, h⟩ := run_bind_eq_ok.mp h
    obtain ⟨hf, -⟩ := Prod.mk.inj (Except.ok.inj h)
    rw [← (Prod.mk.inj hf).1]
  · obtain ⟨hf, -⟩ := Prod.mk.inj (Except.ok.inj h)
    rw [← (Prod.mk.inj hf).1]

/-- The weights are carried over. -/
theorem vmembers_carry {r₀ r : MmbpRequest} (hweights : r.SendsWeights) :
    (carry r₀ r).vmembers = r.vmembers := by
  obtain ⟨hflags, h7, -⟩ := hweights
  simp only [Bool.or_eq_false_iff] at hflags
  obtain ⟨⟨⟨⟨h1, h3⟩, h4⟩, h5⟩, h6⟩ := hflags
  simp only [carry, carryExpireTime, carryPayload, h1, h3, h4, h5, h6, h7, if_true, if_false,
    Bool.false_eq_true]

/-- A run of the raw parser over the weights that are sent. -/
theorem run_weights {r₀ r : MmbpRequest} (hr : r.Encodable) (hfresh : r₀.vmembers = [])
    (hweights : r.SendsWeights) {size : BitVec 64} {f : MmbpRequest} {states : List Raw} {s' : Raw}
    (hsize : (r.serializeTo Kvarint.leb128 Kanon.bigEndian).length ≤ size.toNat)
    (h : (r₀.rawParseFrom Kvarint.leb128).run
      ⟨r.serializeTo Kvarint.leb128 Kanon.bigEndian, size⟩ = .ok ((f, states), s')) :
    ∃ x size' s₁ r₁ states', (r.vmembers.flatMap WeightValue.bytes ++ x).length ≤ size'.toNat
      ∧ (forEach (rawWeightValue Kvarint.leb128) (none, 0)
          (List.replicate r.vmembers.length WeightValue.default)).run
            ⟨r.vmembers.flatMap WeightValue.bytes ++ x, size'⟩ = .ok (f.vmembers, s₁)
      ∧ (rawExpireTime Kvarint.leb128 r₁).run s₁ = .ok ((f, states'), s') := by
  have hkv := Kvarint.leb128_inverse
  have hcmd := rawReads_unsigned hkv (by norm_num) le_rfl r.command r₀.command
  have hbits := rawReads_unsigned hkv (by norm_num) le_rfl r.hasBits r₀.hasBits
  rw [BitVec.setWidth_eq] at hcmd hbits
  have hkey := rawLeaves_key (G := True) hkv { r₀ with command := r.command, hasBits := r.hasBits } r hr rfl
  rw [serializeTo] at h hsize
  rw [rawParseFrom] at h
  obtain ⟨st, size₁, hsize, h⟩ := hcmd.behind.rest_of_run hsize h
  obtain ⟨st', size₂, hsize, h⟩ := hbits.behind.rest_of_run hsize h
  obtain ⟨st'', size₃, hsize, h⟩ := hkey.rest_of_run hsize h
  rw [serializePayload_of_weights hweights, List.append_assoc] at h hsize
  obtain ⟨⟨r₁, states₁⟩, s₁, hpayload, h⟩ := run_bind_eq_ok.mp h
  have hhead : (carryKey { r₀ with command := r.command, hasBits := r.hasBits } r).hasBits
      = r.hasBits := rfl
  rw [rawPayload_of_weights hhead hweights] at hpayload
  obtain ⟨⟨vmembers, s₂⟩, s₃, hbehind, hr₁⟩ := run_bind_eq_ok.mp hpayload
  obtain ⟨vmembers', s₄, hvector, hlast⟩ := run_bind_eq_ok.mp hbehind
  -- the payload phase ends in the state behind the vector
  obtain ⟨rfl, rfl⟩ : vmembers' = vmembers ∧ s₄ = s₃ := by
    have hpair := Except.ok.inj hlast
    exact ⟨congrArg (·.1.1) hpair, congrArg (·.2) hpair⟩
  obtain ⟨hr₁', rfl⟩ := Prod.mk.inj (Except.ok.inj hr₁)
  obtain ⟨⟨f', states'⟩, s₅, hexp, hf⟩ := run_bind_eq_ok.mp h
  obtain ⟨hf', rfl⟩ := Prod.mk.inj (Except.ok.inj hf)
  obtain ⟨rfl, -⟩ := Prod.mk.inj hf'
  obtain ⟨hr₁', -⟩ := Prod.mk.inj hr₁'
  have hvmembers : f'.vmembers = vmembers' := by
    rw [vmembers_of_rawExpireTime hexp, ← hr₁']
  have hcount := rawReads_unsigned hkv (by norm_num) le_rfl
    (BitVec.ofNat 32 r.vmembers.length) (-1 : BitVec 32)
  rw [rawWeightValues, run_bind_ok (hcount.run _ size₃ hsize)] at hvector
  simp only [BitVec.setWidth_eq, toNat_ofNat_of_lt 32 _ hr.vmembers] at hvector
  have hold : resize (carryKey { r₀ with command := r.command, hasBits := r.hasBits } r).vmembers
      r.vmembers.length { key := 0, value := [] }
        = List.replicate r.vmembers.length WeightValue.default := by
    rw [← resize_nil, ← hfresh]
    rfl
  rw [hold, ← hvmembers] at hvector
  have hle := hcount.le
  rw [List.length_append] at hsize
  exact ⟨_, _, _, r₁, states', by rw [toNat_sub_ofNat (by omega)]; omega, hvector, hexp⟩

/-- **Weights are misread.** -/
theorem not_rawAgrees {r₀ r : MmbpRequest} (hr : r.Encodable) (hfresh : r₀.IsFresh)
    (hlen : (r.serializeTo Kvarint.leb128 Kanon.bigEndian).length < 2 ^ 64)
    (hweights : r.SendsWeights) (hfirst : ¬ r.FirstWeightAllOnes) :
    ¬ RawAgrees Kvarint.leb128 Kanon.bigEndian r₀ r := by
  intro h
  have hsize := toNat_ofNat_of_lt 64 _ hlen
  obtain ⟨f, rest, states, s', hbuffer, hraw, hrest⟩ := h _ hsize
  have hread := reads_parseFrom Kvarint.leb128_inverse Kanon.bigEndian_inverse64 r₀ r hr
    hfresh.values hfresh.kvs hfresh.vmembers []
  rw [List.append_nil] at hread
  obtain ⟨⟨-, rfl⟩, rfl⟩ := Prod.mk.inj (Except.ok.inj (hread.symm.trans hbuffer))
  obtain ⟨x, size', s₁, r₁, states', hle, hvector, hexp⟩ :=
    run_weights hr hfresh.vmembers hweights hsize.ge hraw
  have hcarry : (carry r₀ r).vmembers = r.vmembers := vmembers_carry hweights
  rw [hcarry] at hvector
  rcases weights_of_run hweights.2.2 hr.vmembers_value hle hvector with hones | ⟨hzeros, hsize₁⟩
  · exact hfirst hones
  · -- at most one of the zeros is read for the expiration time
    have hpos : 1 ≤ r.vmembers.length := List.length_pos_of_ne_nil hweights.2.2
    obtain ⟨k, hk⟩ : ∃ k, 7 * r.vmembers.length = 1 + (k + 1) :=
      ⟨7 * r.vmembers.length - 2, by omega⟩
    rw [hk, List.replicate_add, List.append_assoc] at hzeros
    obtain ⟨b, size₁⟩ := s₁
    obtain rfl : b = _ := hzeros
    rw [rawExpireTime] at hexp
    split_ifs at hexp with hflag
    · have hzero : RawReads (rawUnsigned Kvarint.leb128 64 r₁.expireTime) (List.replicate 1 0) 1
          (true, 0) :=
        rawReads_unsigned Kvarint.leb128_inverse (by norm_num) le_rfl (0 : BitVec 64) _
      rw [run_bind_ok (run_bind_ok (hzero.run _ size₁ hsize₁))] at hexp
      obtain ⟨-, rfl⟩ := Prod.mk.inj (Except.ok.inj hexp)
      exact absurd hrest (by rw [List.replicate_succ]; exact List.cons_ne_nil _ _)
    · obtain ⟨-, rfl⟩ := Prod.mk.inj (Except.ok.inj hexp)
      exact absurd hrest (by rw [List.replicate_one]; exact List.cons_ne_nil _ _)

end MmbpRequest

/-- **When the two parsers agree.**  On every request that sends no weights they do; on the
others they do not, if varints are base-128 and weights big-endian and the first weight is not the
one whose bits are all set, with a value of 255 bytes. -/
theorem mmbpRequest_raw_agrees {kv : Kvarint} {kn : Kanon} (hkv : kv.Inverse) (hkn : kn.Inverse64)
    {r₀ r : MmbpRequest} (hfresh : r₀.IsFresh) (hr : r.Encodable) :
    (¬ r.SendsWeights → MmbpRequest.RawAgrees kv kn r₀ r)
      ∧ ((r.serializeTo Kvarint.leb128 Kanon.bigEndian).length < 2 ^ 64 →
        ¬ r.FirstWeightAllOnes →
          (MmbpRequest.RawAgrees Kvarint.leb128 Kanon.bigEndian r₀ r ↔ ¬ r.SendsWeights)) := by
  refine ⟨MmbpRequest.rawAgrees_of_not_sendsWeights hkv hkn r₀ hr, fun hlen hfirst => ⟨?_, ?_⟩⟩
  · exact fun h hweights => MmbpRequest.not_rawAgrees hr hfresh hlen hweights hfirst h
  · exact MmbpRequest.rawAgrees_of_not_sendsWeights Kvarint.leb128_inverse
      Kanon.bigEndian_inverse64 r₀ hr

/-- The request with the key `k` and the value `hi`. -/
def MmbpRequest.strset : MmbpRequest :=
  { MmbpRequest.fresh with hasBits := setBit (setBit 0 0) 1, key := [107], value := [104, 105] }

/-- The two parsers agree on it, and not on a request that adds a member of weight 1.0. -/
theorem mmbpRequest_raw_agrees_strset :
    MmbpRequest.RawAgrees Kvarint.leb128 Kanon.bigEndian MmbpRequest.fresh MmbpRequest.strset
      ∧ ¬ MmbpRequest.RawAgrees Kvarint.leb128 Kanon.bigEndian MmbpRequest.fresh
        MmbpRequest.zadd := by
  have hfresh : MmbpRequest.fresh.IsFresh := ⟨rfl, rfl, rfl, rfl, rfl, rfl, rfl⟩
  have hstrset : MmbpRequest.strset.Encodable := by constructor <;> decide
  have hzadd : MmbpRequest.zadd.Encodable := by constructor <;> decide
  have hfirst : ¬ MmbpRequest.zadd.FirstWeightAllOnes := by
    rintro ⟨e, tl, hcons, -, hlen⟩
    obtain ⟨rfl, -⟩ := List.cons.inj hcons
    exact absurd hlen (by decide)
  refine ⟨(mmbpRequest_raw_agrees Kvarint.leb128_inverse Kanon.bigEndian_inverse64 hfresh
    hstrset).1 fun h => absurd h.2.1 (by decide), fun h => ?_⟩
  exact (((mmbpRequest_raw_agrees Kvarint.leb128_inverse Kanon.bigEndian_inverse64 hfresh
    hzadd).2 (by decide) hfirst).mp h) ⟨by decide, by decide, by decide⟩

/-- A weight of 1.0 is read as a varint. -/
theorem mmbpRequest_not_raw_agrees :
    ¬ ∀ r₀ r : MmbpRequest, r₀.IsFresh → r.Encodable →
      MmbpRequest.RawAgrees Kvarint.leb128 Kanon.bigEndian r₀ r := by
  intro h
  have hfresh : MmbpRequest.fresh.IsFresh := ⟨rfl, rfl, rfl, rfl, rfl, rfl, rfl⟩
  have hzadd : MmbpRequest.zadd.Encodable := by constructor <;> decide
  refine MmbpRequest.not_rawAgrees hzadd hfresh (by decide) ⟨by decide, by decide, by decide⟩ ?_
    (h MmbpRequest.fresh MmbpRequest.zadd hfresh hzadd)
  rintro ⟨e, tl, hcons, -, hlen⟩
  obtain ⟨rfl, -⟩ := List.cons.inj hcons
  exact absurd hlen (by decide)

end Mmkvc
