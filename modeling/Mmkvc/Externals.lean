/-
# The libraries outside the repository

The protocol code calls three libraries that are submodules of the repository:
kvarint (variable-length integers), kanon (network buffers) and xxHash.  Their
functions are parameters here, and each thing the code relies on is a named
hypothesis of its own, so that a result says which ones it needs.

The last section gives concrete instances: base-128 varints with zigzag,
big-endian fixed-width integers, and XXH32 with seed 0.
-/
import Mmkvc.Leb128

namespace Mmkvc

/-! ## kvarint -/

/-- `kvarint_encode##bits`, `kvarint_decode##bits` and their signed variants.
A decoder that succeeds gives the length of the encoding and the number.

Assumed, by the type of the results: a decoder that fails writes neither of its
out-parameters, so that a variable it was to fill keeps its value. -/
structure Kvarint where
  encode : (bits : ℕ) → BitVec bits → Bytes
  decode : (bits : ℕ) → Bytes → Except DecodeErr (ℕ × BitVec bits)
  encodeSigned : (bits : ℕ) → BitVec bits → Bytes
  decodeSigned : (bits : ℕ) → Bytes → Except DecodeErr (ℕ × BitVec bits)

namespace Kvarint

/-- A decoder at least as wide as the encoder inverts it on any suffix, and the
signed variants are inverse. -/
structure Inverse (kv : Kvarint) : Prop where
  decode_encode : ∀ {m n : ℕ}, 0 < m → m ≤ n → ∀ (i : BitVec m) (t : Bytes),
    kv.decode n (kv.encode m i ++ t) = .ok ((kv.encode m i).length, i.setWidth n)
  decodeSigned_encodeSigned : ∀ {n : ℕ}, 0 < n → ∀ (i : BitVec n) (t : Bytes),
    kv.decodeSigned n (kv.encodeSigned n i ++ t) = .ok ((kv.encodeSigned n i).length, i)

/-- A decoder that gives every number back does not take the empty string for one. -/
theorem Inverse.encode_ne_nil {kv : Kvarint} (h : kv.Inverse) {n : ℕ} (hn : 0 < n)
    (i : BitVec n) : kv.encode n i ≠ [] := by
  intro hi
  have hdecode : ∀ j : BitVec n, j = i := by
    intro j
    have hj := h.decode_encode hn le_rfl j []
    have hi' := h.decode_encode hn le_rfl i (kv.encode n j ++ [])
    rw [hi, List.nil_append, hj, BitVec.setWidth_eq, BitVec.setWidth_eq] at hi'
    exact congrArg Prod.snd (Except.ok.inj hi')
  have hzero : (0#n).toNat = (1#n).toNat :=
    congrArg BitVec.toNat ((hdecode 0#n).trans (hdecode 1#n).symm)
  rw [BitVec.toNat_ofNat, BitVec.toNat_ofNat, Nat.zero_mod,
    Nat.mod_eq_of_lt (Nat.one_lt_two_pow hn.ne')] at hzero
  exact absurd hzero (by norm_num)

/-- A strict prefix of an encoding is reported as `KVARINT_DECODE_BUF_SHORT`. -/
def ShortPrefix (kv : Kvarint) : Prop :=
  ∀ {m : ℕ}, 0 < m → ∀ (i : BitVec m) (p : Bytes), p <+: kv.encode m i → p ≠ kv.encode m i →
    kv.decode m p = .error .short

/-- A reported length lies inside the buffer. -/
structure Bounded (kv : Kvarint) : Prop where
  decode_le : ∀ {n len : ℕ} {i : BitVec n} {b : Bytes},
    kv.decode n b = .ok (len, i) → len ≤ b.length
  decodeSigned_le : ∀ {n len : ℕ} {i : BitVec n} {b : Bytes},
    kv.decodeSigned n b = .ok (len, i) → len ≤ b.length

/-- A 32-bit number takes from one to five of the readable bytes. -/
def SizeHeader (kv : Kvarint) : Prop :=
  ∀ {len : ℕ} {i : BitVec 32} {b : Bytes}, kv.decode 32 b = .ok (len, i) →
    1 ≤ len ∧ len ≤ 5 ∧ len ≤ b.length

/-- A decoder that has come to a verdict does not change it for bytes that follow,
and every number takes a byte at least. -/
structure Settled (kv : Kvarint) : Prop where
  decode_append : ∀ {n : ℕ} (b c : Bytes), kv.decode n b ≠ .error .short →
    kv.decode n (b ++ c) = kv.decode n b
  decode_pos : ∀ {n len : ℕ} {i : BitVec n} {b : Bytes}, kv.decode n b = .ok (len, i) → 0 < len

/-- A number is decoded from its own bytes, whatever stands behind them. -/
def Confined (kv : Kvarint) : Prop :=
  ∀ {n len : ℕ} {i : BitVec n} {b : Bytes}, kv.decode n b = .ok (len, i) →
    kv.decode n (b.take len) = .ok (len, i)

/-- A number of at most 64 bits takes at most ten bytes. -/
def Compact (kv : Kvarint) : Prop :=
  ∀ {n : ℕ}, 0 < n → n ≤ 64 → ∀ i : BitVec n, (kv.encode n i).length ≤ 10

end Kvarint

/-! ## kanon -/

/-- The fixed-width integers of kanon's buffers, and how an output buffer is
divided into chunks.  The readers take the four or eight bytes they read. -/
structure Kanon where
  append32 : BitVec 32 → Bytes
  read32 : Bytes → BitVec 32
  append64 : BitVec 64 → Bytes
  read64 : Bytes → BitVec 64
  chunks : Bytes → List Bytes

namespace Kanon

/-- `Append32` writes four bytes, and reading them gives the number back. -/
structure Inverse32 (kn : Kanon) : Prop where
  length_append32 : ∀ i, (kn.append32 i).length = 4
  read32_append32 : ∀ i, kn.read32 (kn.append32 i) = i

/-- `Append64` writes eight bytes, and reading them gives the number back. -/
structure Inverse64 (kn : Kanon) : Prop where
  length_append64 : ∀ i, (kn.append64 i).length = 8
  read64_append64 : ∀ i, kn.read64 (kn.append64 i) = i

/-- The chunks of an output buffer hold its bytes in order. -/
def ChunksCover (kn : Kanon) : Prop := ∀ b, (kn.chunks b).flatten = b

end Kanon

/-! ## xxHash -/

/-- One-shot and streaming XXH32 with seed 0. -/
structure XXHash where
  xxh32 : Bytes → BitVec 32
  State : Type
  reset : State
  update : State → Bytes → State
  digest : State → BitVec 32

/-- Streaming over any division into chunks equals the one-shot hash. -/
def XXHash.Streaming (xx : XXHash) : Prop :=
  ∀ chunks : List Bytes, xx.digest (chunks.foldl xx.update xx.reset) = xx.xxh32 chunks.flatten

/-! ## Concrete instances -/

/-- Base-128 varints, signed ones through the zigzag map. -/
def Kvarint.leb128 : Kvarint where
  encode := Leb128.encode
  decode := Leb128.decode
  encodeSigned := fun bits i => Leb128.encode bits (Leb128.zigzag i)
  decodeSigned := fun bits b =>
    (Leb128.decode bits b).map fun (len, i) => (len, Leb128.unzigzag i)

/-- LEB128 reads back what it has written, in any width. -/
theorem Kvarint.leb128_inverse : Kvarint.leb128.Inverse where
  decode_encode := fun hm h i t => Leb128.decode_encode hm h i t
  decodeSigned_encodeSigned := by
    intro n hn i t
    show (Leb128.decode n (Leb128.encode n (Leb128.zigzag i) ++ t)).map _ = _
    rw [Leb128.decode_encode hn le_rfl, BitVec.setWidth_eq]
    simp only [Except.map, Leb128.unzigzag_zigzag hn]
    rfl

theorem Kvarint.leb128_shortPrefix : Kvarint.leb128.ShortPrefix :=
  fun hm i p hp hne => Leb128.decode_prefix hm i p hp hne

/-- A LEB128 encoding has a byte at least, and no more than there are. -/
theorem Kvarint.leb128_bounded : Kvarint.leb128.Bounded where
  decode_le := fun h => (Leb128.decode_bounded h).2.2
  decodeSigned_le := by
    intro n len i b h
    change (Leb128.decode n b).map _ = _ at h
    cases hd : Leb128.decode n b with
    | error e => rw [hd] at h; simp [Except.map] at h
    | ok p =>
      obtain ⟨len', i'⟩ := p
      rw [hd] at h
      simp only [Except.map, Except.ok.injEq, Prod.mk.injEq] at h
      rw [← h.1]
      exact (Leb128.decode_bounded hd).2.2

theorem Kvarint.leb128_sizeHeader : Kvarint.leb128.SizeHeader :=
  fun h => Leb128.decode_bounded h

/-- What LEB128 has decoded does not depend on what follows. -/
theorem Kvarint.leb128_settled : Kvarint.leb128.Settled where
  decode_append := fun b c h => Leb128.decode_append b c h
  decode_pos := fun h => (Leb128.decode_bounded h).1

theorem Kvarint.leb128_confined : Kvarint.leb128.Confined :=
  fun h => Leb128.decode_take h

/-- LEB128 writes short encodings. -/
theorem Kvarint.leb128_compact : Kvarint.leb128.Compact := by
  intro n hn h64 i
  refine (Leb128.length_encode_le hn i).trans ?_
  unfold Leb128.groups
  omega

/-- The `k` bytes of a number, most significant first. -/
def beBytes : ℕ → ℕ → Bytes
  | 0, _ => []
  | k + 1, n => UInt8.ofNat (n / 256 ^ k % 256) :: beBytes k n

/-- The number with the given bytes, most significant first. -/
def ofBeBytes (b : Bytes) : ℕ := b.foldl (fun n c => n * 256 + c.toNat) 0

/-- As many bytes as asked for. -/
theorem length_beBytes (k n : ℕ) : (beBytes k n).length = k := by
  induction k with
  | zero => rfl
  | succ k ih => rw [beBytes, List.length_cons, ih]

/-- Reading the bytes of a number, behind others. -/
theorem foldl_beBytes (k : ℕ) : ∀ acc n : ℕ,
    (beBytes k n).foldl (fun n c => n * 256 + c.toNat) acc = acc * 256 ^ k + n % 256 ^ k := by
  induction k with
  | zero => intro acc n; simp [beBytes, Nat.mod_one]
  | succ k ih =>
    intro acc n
    rw [beBytes, List.foldl_cons, ih, UInt8.toNat_ofNat_of_lt' (Nat.mod_lt _ (by norm_num)),
      pow_succ, Nat.mod_mul]
    ring

theorem ofBeBytes_beBytes (k n : ℕ) (h : n < 256 ^ k) : ofBeBytes (beBytes k n) = n := by
  rw [ofBeBytes, foldl_beBytes, Nat.mod_eq_of_lt h, Nat.zero_mul, Nat.zero_add]

/-- Big-endian integers, and an output buffer of one chunk. -/
def Kanon.bigEndian : Kanon where
  append32 := fun i => beBytes 4 i.toNat
  read32 := fun b => BitVec.ofNat 32 (ofBeBytes b)
  append64 := fun i => beBytes 8 i.toNat
  read64 := fun b => BitVec.ofNat 64 (ofBeBytes b)
  chunks := fun b => [b]

/-- Big-endian numbers of 32 bits are read back. -/
theorem Kanon.bigEndian_inverse32 : Kanon.bigEndian.Inverse32 where
  length_append32 := fun _ => length_beBytes 4 _
  read32_append32 := fun i => by
    show BitVec.ofNat 32 (ofBeBytes (beBytes 4 i.toNat)) = i
    rw [ofBeBytes_beBytes 4 _ (by have := i.isLt; norm_num; omega), BitVec.ofNat_toNat,
      BitVec.setWidth_eq]

/-- Big-endian numbers of 64 bits are read back. -/
theorem Kanon.bigEndian_inverse64 : Kanon.bigEndian.Inverse64 where
  length_append64 := fun _ => length_beBytes 8 _
  read64_append64 := fun i => by
    show BitVec.ofNat 64 (ofBeBytes (beBytes 8 i.toNat)) = i
    rw [ofBeBytes_beBytes 8 _ (by have := i.isLt; norm_num; omega), BitVec.ofNat_toNat,
      BitVec.setWidth_eq]

/-- The chunks of a buffer make up its bytes. -/
theorem Kanon.bigEndian_chunksCover : Kanon.bigEndian.ChunksCover :=
  fun _ => List.flatten_singleton

namespace XXH32

/-- A four-byte lane, little-endian. -/
def lane (b : Bytes) : BitVec 32 := BitVec.ofNat 32 (ofBeBytes b.reverse)

/-- One lane into one accumulator of the main loop. -/
def round (acc input : BitVec 32) : BitVec 32 :=
  (acc + input * 2246822519#32).rotateLeft 13 * 2654435761#32

/-- The main loop, over stripes of sixteen bytes. -/
def stripes : ℕ → Bytes → (BitVec 32 × BitVec 32) × (BitVec 32 × BitVec 32) → BitVec 32 × Bytes
  | 0, b, ((v1, v2), (v3, v4)) =>
    (v1.rotateLeft 1 + v2.rotateLeft 7 + v3.rotateLeft 12 + v4.rotateLeft 18, b)
  | n + 1, b, ((v1, v2), (v3, v4)) =>
    stripes n (b.drop 16)
      ((round v1 (lane (b.take 4)), round v2 (lane ((b.drop 4).take 4))),
        (round v3 (lane ((b.drop 8).take 4)), round v4 (lane ((b.drop 12).take 4))))

/-- The bytes after the last stripe: whole lanes first, then single bytes. -/
def tail (h : BitVec 32) : Bytes → BitVec 32
  | b0 :: b1 :: b2 :: b3 :: rest =>
    tail ((h + lane [b0, b1, b2, b3] * 3266489917#32).rotateLeft 17 * 668265263#32) rest
  | rest => rest.foldl
      (fun h b => (h + BitVec.ofNat 32 b.toNat * 374761393#32).rotateLeft 11 * 2654435761#32) h

/-- The final mix. -/
def avalanche (h : BitVec 32) : BitVec 32 :=
  let h := (h ^^^ (h >>> 15)) * 2246822519#32
  let h := (h ^^^ (h >>> 13)) * 3266489917#32
  h ^^^ (h >>> 16)

/-- XXH32 with seed 0. -/
def hash (b : Bytes) : BitVec 32 :=
  let start : BitVec 32 × Bytes :=
    if b.length < 16 then (374761393#32, b)
    else stripes (b.length / 16) b
      ((2654435761#32 + 2246822519#32, 2246822519#32), (0#32, 0#32 - 2654435761#32))
  avalanche (tail (start.1 + BitVec.ofNat 32 b.length) start.2)

end XXH32

/-- XXH32, the streaming interface keeping the bytes it was given. -/
def XXHash.seed0 : XXHash where
  xxh32 := XXH32.hash
  State := Bytes
  reset := []
  update := fun s b => s ++ b
  digest := XXH32.hash

/-- Hashing chunk by chunk is hashing the whole. -/
theorem XXHash.seed0_streaming : XXHash.seed0.Streaming := by
  intro chunks
  have h : ∀ s : Bytes, chunks.foldl (fun (s b : Bytes) => s ++ b) s = s ++ chunks.flatten := by
    induction chunks with
    | nil => simp
    | cons c cs ih => intro s; rw [List.foldl_cons, ih, List.flatten_cons, List.append_assoc]
  exact congrArg XXH32.hash (h [])

end Mmkvc
