/-
# Base-128 variable-length integers

An unsigned number is written seven bits at a time, least significant group
first; every byte but the last carries the continuation bit 128.  A number of
`bits` bits needs at most `groups bits` bytes, and a decoder of that width
gives up after so many.  Signed numbers go through the zigzag map.

* `decode_encode`: a decoder at least as wide inverts the encoder and leaves
  what follows unread;
* `decode_prefix`: a proper prefix of an encoding is reported as too short;
* `decode_bounded`: the reported length lies inside the buffer, and is that of at
  most `groups bits` bytes.
-/
import Mmkvc.Reader

namespace Mmkvc

/-- Why a variable-length integer was not decoded. -/
inductive DecodeErr where
  /-- The bytes are no encoding of a number of this width. -/
  | invalid
  /-- The buffer ends before the encoding does. -/
  | short
  deriving DecidableEq, Repr

namespace Leb128

/-- The number of seven-bit groups of a `bits`-bit number. -/
def groups (bits : ℕ) : ℕ := (bits + 6) / 7

/-- The groups of `n`, with `k` bytes allowed after the first. -/
def encodeNat : ℕ → ℕ → Bytes
  | 0, n => [UInt8.ofNat n]
  | k + 1, n =>
    if n < 128 then [UInt8.ofNat n]
    else UInt8.ofNat (n % 128 + 128) :: encodeNat k (n / 128)

/-- Length and value of the number at the front, of at most `k` bytes. -/
def decodeNat : ℕ → Bytes → Except DecodeErr (ℕ × ℕ)
  | 0, _ => .error .invalid
  | _ + 1, [] => .error .short
  | k + 1, b :: bs =>
    if b.toNat < 128 then .ok (1, b.toNat)
    else match decodeNat k bs with
      | .error e => .error e
      | .ok (len, n) => .ok (len + 1, b.toNat - 128 + 128 * n)

/-- The encoding of a `bits`-bit number. -/
def encode (bits : ℕ) (i : BitVec bits) : Bytes := encodeNat (groups bits - 1) i.toNat

/-- The `bits`-bit number at the front of `b`, with the length of its encoding. -/
def decode (bits : ℕ) (b : Bytes) : Except DecodeErr (ℕ × BitVec bits) :=
  match decodeNat (groups bits) b with
  | .error e => .error e
  | .ok (len, n) => if n < 2 ^ bits then .ok (len, BitVec.ofNat bits n) else .error .invalid

/-- The zigzag map: numbers of small magnitude to small numbers. -/
def zigzag {bits : ℕ} (i : BitVec bits) : BitVec bits :=
  if i.msb then ~~~(i <<< 1) else i <<< 1

/-- The inverse of the zigzag map. -/
def unzigzag {bits : ℕ} (i : BitVec bits) : BitVec bits :=
  if i.getLsbD 0 then ~~~(i >>> 1) else i >>> 1

/-! ## The unsigned encoding -/

/-- An encoding is decoded to its number, whatever follows.  The induction is on the number of
groups behind the first. -/
theorem decodeNat_encodeNat (k : ℕ) :
    ∀ (m n : ℕ) (t : Bytes), k < m → n < 128 ^ (k + 1) →
      decodeNat m (encodeNat k n ++ t) = .ok ((encodeNat k n).length, n) := by
  induction k with
  | zero =>
    intro m n t hm hn
    obtain ⟨m, rfl⟩ : ∃ m', m = m' + 1 := ⟨m - 1, by omega⟩
    have hn' : n < 128 := by simpa using hn
    simp [encodeNat, decodeNat, UInt8.toNat_ofNat_of_lt' (show n < 256 by omega), hn']
  | succ k ih =>
    intro m n t hm hn
    obtain ⟨m, rfl⟩ : ∃ m', m = m' + 1 := ⟨m - 1, by omega⟩
    by_cases hlt : n < 128
    · simp [encodeNat, decodeNat, UInt8.toNat_ofNat_of_lt' (show n < 256 by omega), hlt]
    · have hdiv : n / 128 < 128 ^ (k + 1) := by
        rw [Nat.div_lt_iff_lt_mul (by norm_num)]
        rwa [pow_succ] at hn
      have hb : (UInt8.ofNat (n % 128 + 128)).toNat = n % 128 + 128 :=
        UInt8.toNat_ofNat_of_lt' (by show _ < 256; omega)
      rw [encodeNat, if_neg hlt, List.cons_append, decodeNat, hb, if_neg (by omega),
        ih m (n / 128) t (by omega) hdiv]
      simp only [List.length_cons]
      congr 2
      omega

/-- A proper beginning of an encoding is too short. -/
theorem decodeNat_prefix (k : ℕ) :
    ∀ (m n : ℕ) (p : Bytes), k < m → p <+: encodeNat k n → p ≠ encodeNat k n →
      decodeNat m p = .error .short := by
  induction k with
  | zero =>
    intro m n p hm hp hne
    obtain ⟨m, rfl⟩ : ∃ m', m = m' + 1 := ⟨m - 1, by omega⟩
    cases p with
    | nil => rfl
    | cons b p =>
      obtain ⟨rfl, hp'⟩ := List.cons_prefix_cons.mp hp
      exact absurd (by rw [List.prefix_nil.mp hp']; rfl) hne
  | succ k ih =>
    intro m n p hm hp hne
    obtain ⟨m, rfl⟩ : ∃ m', m = m' + 1 := ⟨m - 1, by omega⟩
    cases p with
    | nil => rfl
    | cons b p =>
      by_cases hlt : n < 128
      · rw [encodeNat, if_pos hlt] at hp hne
        obtain ⟨rfl, hp'⟩ := List.cons_prefix_cons.mp hp
        exact absurd (by rw [List.prefix_nil.mp hp']) hne
      · rw [encodeNat, if_neg hlt] at hp hne
        obtain ⟨rfl, hp'⟩ := List.cons_prefix_cons.mp hp
        have hb : (UInt8.ofNat (n % 128 + 128)).toNat = n % 128 + 128 :=
          UInt8.toNat_ofNat_of_lt' (by show _ < 256; omega)
        rw [decodeNat, hb, if_neg (by omega),
          ih m (n / 128) p (by omega) hp' (fun h => hne (by rw [h]))]

/-- Decoding takes a byte at least, and no more than the limit or than there are. -/
theorem decodeNat_bounded (m : ℕ) :
    ∀ (b : Bytes) (len n : ℕ), decodeNat m b = .ok (len, n) →
      0 < len ∧ len ≤ m ∧ len ≤ b.length := by
  induction m with
  | zero => intro b len n h; simp [decodeNat] at h
  | succ m ih =>
    intro b len n h
    cases b with
    | nil => simp [decodeNat] at h
    | cons c b =>
      rw [decodeNat] at h
      split_ifs at h with hc
      · simp only [Except.ok.injEq, Prod.mk.injEq] at h
        simp only [List.length_cons]
        omega
      · split at h
        · simp at h
        · rename_i len' n' hrec
          simp only [Except.ok.injEq, Prod.mk.injEq] at h
          have := ih b len' n' hrec
          simp only [List.length_cons]
          omega

/-! ## The typed encoding -/

/-- A number of so many bits fits into its groups. -/
theorem lt_groups (bits n : ℕ) (hbits : 0 < bits) (h : n < 2 ^ bits) :
    n < 128 ^ (groups bits - 1 + 1) := by
  refine lt_of_lt_of_le h ?_
  rw [show (128 : ℕ) = 2 ^ 7 by norm_num, ← pow_mul]
  apply Nat.pow_le_pow_right (by norm_num)
  unfold groups
  omega

/-- **A decoder at least as wide inverts the encoder.** -/
theorem decode_encode {m n : ℕ} (hm : 0 < m) (h : m ≤ n) (i : BitVec m) (t : Bytes) :
    decode n (encode m i ++ t) = .ok ((encode m i).length, i.setWidth n) := by
  have hlt : i.toNat < 2 ^ n := lt_of_lt_of_le i.isLt (Nat.pow_le_pow_right (by norm_num) h)
  have hg : groups m - 1 < groups n := by
    unfold groups
    omega
  rw [decode, encode,
    decodeNat_encodeNat _ (groups n) i.toNat t hg (lt_groups m _ hm i.isLt)]
  simp only [if_pos hlt]
  rw [BitVec.ofNat_toNat]

/-- **A proper prefix of an encoding is too short.** -/
theorem decode_prefix {m : ℕ} (hm : 0 < m) (i : BitVec m) (p : Bytes) (hp : p <+: encode m i)
    (hne : p ≠ encode m i) : decode m p = .error .short := by
  have hg : groups m - 1 < groups m := by
    unfold groups
    omega
  rw [decode, decodeNat_prefix _ (groups m) i.toNat p hg hp hne]

/-- **The reported length lies inside the buffer.** -/
theorem decode_bounded {bits len : ℕ} {i : BitVec bits} {b : Bytes}
    (h : decode bits b = .ok (len, i)) : 0 < len ∧ len ≤ groups bits ∧ len ≤ b.length := by
  rw [decode] at h
  split at h
  · simp at h
  · rename_i len' n hdec
    split_ifs at h
    simp only [Except.ok.injEq, Prod.mk.injEq] at h
    rw [← h.1]
    exact decodeNat_bounded _ b len' n hdec

/-- **Bytes that follow change nothing** once the decoder has come to a verdict. -/
theorem decodeNat_append (m : ℕ) :
    ∀ b c : Bytes, decodeNat m b ≠ .error .short → decodeNat m (b ++ c) = decodeNat m b := by
  induction m with
  | zero => intro b c _; rfl
  | succ m ih =>
    intro b c h
    cases b with
    | nil => exact absurd rfl h
    | cons x b =>
      rw [List.cons_append, decodeNat, decodeNat]
      split_ifs with hx
      · rfl
      · have hb : decodeNat m b ≠ .error .short := by
          intro hshort
          rw [decodeNat, if_neg hx, hshort] at h
          exact h rfl
        rw [ih b c hb]

/-- What has been decided does not depend on what follows. -/
theorem decode_append {bits : ℕ} (b c : Bytes) (h : decode bits b ≠ .error .short) :
    decode bits (b ++ c) = decode bits b := by
  have hnat : decodeNat (groups bits) b ≠ .error .short := by
    intro hshort
    rw [decode, hshort] at h
    exact h rfl
  rw [decode, decode, decodeNat_append _ b c hnat]

/-- **The bytes of a number suffice** to decode it. -/
theorem decodeNat_take (m : ℕ) : ∀ (b : Bytes) (len n : ℕ), decodeNat m b = .ok (len, n) →
    decodeNat m (b.take len) = .ok (len, n) := by
  induction m with
  | zero => intro b len n h; simp [decodeNat] at h
  | succ m ih =>
    intro b len n h
    cases b with
    | nil => simp [decodeNat] at h
    | cons c b =>
      rw [decodeNat] at h
      split_ifs at h with hc
      · simp only [Except.ok.injEq, Prod.mk.injEq] at h
        obtain ⟨rfl, rfl⟩ := h
        rw [List.take_succ_cons, decodeNat, if_pos hc]
      · split at h
        · simp at h
        · rename_i len' n' hrec
          simp only [Except.ok.injEq, Prod.mk.injEq] at h
          obtain ⟨rfl, rfl⟩ := h
          rw [List.take_succ_cons, decodeNat, if_neg hc, ih b len' n' hrec]

/-- The bytes of the encoding are enough. -/
theorem decode_take {bits len : ℕ} {i : BitVec bits} {b : Bytes}
    (h : decode bits b = .ok (len, i)) : decode bits (b.take len) = .ok (len, i) := by
  rw [decode] at h
  split at h
  · simp at h
  · rename_i len' n hdec
    split_ifs at h with hn
    simp only [Except.ok.injEq, Prod.mk.injEq] at h
    obtain ⟨rfl, rfl⟩ := h
    rw [decode, decodeNat_take _ b len' n hdec]
    simp only [if_pos hn]

/-- An encoding has no more bytes than groups. -/
theorem length_encodeNat_le (k : ℕ) : ∀ n : ℕ, (encodeNat k n).length ≤ k + 1 := by
  induction k with
  | zero => intro n; exact le_rfl
  | succ k ih =>
    intro n
    rw [encodeNat]
    split_ifs
    · simp
    · have := ih (n / 128)
      rw [List.length_cons]
      omega

/-- **An encoding has a byte for each group at most.** -/
theorem length_encode_le {bits : ℕ} (hbits : 0 < bits) (i : BitVec bits) :
    (encode bits i).length ≤ groups bits := by
  have hpos : 1 ≤ groups bits := by
    unfold groups
    omega
  have := length_encodeNat_le (groups bits - 1) i.toNat
  rw [encode]
  omega

/-! ## The zigzag map -/

/-- The zigzag map loses nothing. -/
theorem unzigzag_zigzag {bits : ℕ} (hbits : 0 < bits) (i : BitVec bits) :
    unzigzag (zigzag i) = i := by
  apply BitVec.eq_of_getLsbD_eq
  intro j hj
  unfold zigzag unzigzag
  have hlt : ∀ k, 1 + k < bits ↔ k < bits - 1 := fun k => by omega
  cases hmsb : i.msb with
  | false =>
    rw [BitVec.msb_eq_getLsbD_last] at hmsb
    by_cases hlast : j = bits - 1
    · subst hlast
      rw [BitVec.getLsbD_eq_getElem hj] at hmsb
      simp [hmsb, hbits, hlt]
    · have hj' : 1 + j < bits := by omega
      simp [hj, hj', BitVec.getLsbD_eq_getElem]
  | true =>
    rw [BitVec.msb_eq_getLsbD_last] at hmsb
    by_cases hlast : j = bits - 1
    · subst hlast
      simp [hmsb, hbits, hlt]
    · have hj' : 1 + j < bits := by omega
      simp [hbits, hj, hj', BitVec.getLsbD_eq_getElem]

end Leb128

end Mmkvc
