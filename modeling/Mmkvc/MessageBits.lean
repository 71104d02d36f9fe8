/-
# Bit-set headers (`protocol/mmbp.h`)

`SerializeBits` writes the length of a bit set in two bytes and `ParseBits` reads four; the
minimum of the two lengths goes through `MMKV_MIN`, which returns a `bool`, so that no
more than one byte is copied.  `messageBits_roundTrips_iff` says which bit sets get through.
-/
import Mmkvc.Externals
import Mmkvc.Reader

namespace Mmkvc

/-- `MMKV_MIN`. -/
def mmkvMin (x y : ℕ) : Bool := (if x < y then x else y) != 0

/-- `MmbpMessageBits<N>`. -/
structure MessageBits (N : ℕ) where
  hasBits : Bytes
  length_hasBits : hasBits.length = N

namespace MessageBits

variable {N M : ℕ}

/-! ## The source -/

/-- A bit set by the constructor. -/
def fresh (N : ℕ) : MessageBits N := ⟨List.replicate N 0, List.length_replicate⟩

/-- `memcpy` into the bit set. -/
def copyFrom (m : MessageBits N) (src : Bytes) : MessageBits N where
  hasBits := (src ++ m.hasBits.drop src.length).take N
  length_hasBits := by
    rw [List.length_take, List.length_append, List.length_drop, m.length_hasBits]
    omega

variable (append16 : BitVec 16 → Bytes) (read32 : Bytes → BitVec 32)

/-- `SerializeBits`. -/
def serializeBits (b : MessageBits M) : Bytes := append16 (BitVec.ofNat 16 M) ++ b.hasBits

/-- `ParseBits`. -/
def parseBits (m : MessageBits N) : Reader (MessageBits N) := do
  let size := read32 (← Reader.take 4)
  let bitsN := (mmkvMin N size.toNat).toNat
  let src ← Reader.peek bitsN
  Reader.advance bitsN
  return m.copyFrom src

/-! ## What gets through -/

/-- What is written of a bit set is read back, followed by any bytes: the first bytes are those of
the sender, the others are zero, and the bytes that follow stay unread where the
receiver is no longer than the sender. -/
def RoundTrips (N : ℕ) (b : MessageBits M) (t : Bytes) : Prop :=
  ∃ m rest, ((fresh N).parseBits read32).run (b.serializeBits append16 ++ t) = .ok (m, rest)
    ∧ (∀ i, i < min N M → m.hasBits[i]? = b.hasBits[i]?)
    ∧ (∀ i, M ≤ i → i < N → m.hasBits[i]? = some 0)
    ∧ (N ≤ M → rest = t)

/-- The third byte behind the length is the first of the bit set, the other bytes of the bit set
that the receiver has are zero, and a receiver that is no longer than the sender has a sender of
three bytes. -/
def GetsThrough (N : ℕ) (b : MessageBits M) (t : Bytes) : Prop :=
  (b.hasBits ++ t)[2]? = b.hasBits[0]?
    ∧ (∀ i, 0 < i → i < min N M → b.hasBits[i]? = some 0)
    ∧ (N ≤ M → M = 3)

/-- What is used of kanon's integers of fixed width: the number of bytes, and that only zero is
written as zero bytes. -/
structure FixedWidth : Prop where
  length_append16 : ∀ i, (append16 i).length = 2
  append16_eq_zero : ∀ i, append16 i = [0, 0] → i = 0
  read32_eq_zero : ∀ b, b.length = 4 → (read32 b = 0 ↔ b = [0, 0, 0, 0])

variable {append16 read32}

/-- The macro returns a truth value, which is false only for a zero that is the minimum. -/
theorem mmkvMin_eq_false_iff {x y : ℕ} (hx : 0 < x) : mmkvMin x y = false ↔ y = 0 := by
  rw [mmkvMin, bne_eq_false_iff_eq]
  split_ifs with h
  · omega
  · rfl

/-- The bytes are copied if there are enough of them. -/
theorem copy_run {m : MessageBits N} {n : ℕ} {b : Bytes} :
    (do
      let src ← Reader.peek n
      Reader.advance n
      return m.copyFrom src : Reader (MessageBits N)).run b
      = if n ≤ b.length then .ok (m.copyFrom (b.take n), b.drop n) else .error .outOfReadable := by
  rw [StateT.run_bind, Reader.run_peek]
  split_ifs with hle
  · change (Reader.advance n >>= fun _ => pure (m.copyFrom (b.take n))).run b = _
    rw [StateT.run_bind, Reader.run_advance, if_pos hle]
    rfl
  · rfl

/-- Two bytes behind the length are read as a part of it, and one more is copied if the number is
not zero. -/
theorem parseBits_run {m : MessageBits N} {h u : Bytes} (hN : 0 < N) (hh : h.length = 2) :
    (m.parseBits read32).run (h ++ u)
      = if u.length < 2 then .error .outOfReadable
        else if read32 (h ++ u.take 2) = 0 then .ok (m.copyFrom [], u.drop 2)
        else if u.length < 3 then .error .outOfReadable
        else .ok (m.copyFrom ((u.drop 2).take 1), u.drop 3) := by
  have htake : (h ++ u).take 4 = h ++ u.take 2 := by
    rw [List.take_append, hh, List.take_of_length_le (by omega)]
  have hdrop : (h ++ u).drop 4 = u.drop 2 := by
    rw [List.drop_append, hh, List.drop_of_length_le (by omega)]
    rfl
  have hlen : (h ++ u).length = u.length + 2 := by rw [List.length_append, hh, add_comm]
  unfold parseBits
  rw [StateT.run_bind, Reader.run_take, hlen, htake, hdrop]
  by_cases h2 : u.length < 2
  · rw [if_neg (by omega), if_pos h2]
    rfl
  rw [if_pos (by omega), if_neg h2]
  refine (copy_run (n := (mmkvMin N (read32 (h ++ u.take 2)).toNat).toNat)).trans ?_
  by_cases hzero : read32 (h ++ u.take 2) = 0
  · have hmin : mmkvMin N (read32 (h ++ u.take 2)).toNat = false :=
      (mmkvMin_eq_false_iff hN).mpr (by rw [hzero]; rfl)
    rw [if_pos hzero, hmin, Bool.toNat_false, if_pos (Nat.zero_le _)]
    rfl
  · have hmin : mmkvMin N (read32 (h ++ u.take 2)).toNat = true := by
      rw [← Bool.not_eq_false, mmkvMin_eq_false_iff hN]
      exact fun hval => hzero (BitVec.eq_of_toNat_eq hval)
    rw [if_neg hzero, hmin, Bool.toNat_true, List.length_drop, List.drop_drop]
    by_cases h3 : u.length < 3
    · rw [if_neg (by omega), if_pos h3]
    · rw [if_pos (by omega), if_neg h3]

/-- The bytes that are copied, and those that stay. -/
theorem getElem?_copyFrom {m : MessageBits N} {src : Bytes} {i : ℕ} (hi : i < N) :
    (m.copyFrom src).hasBits[i]? = if i < src.length then src[i]? else m.hasBits[i]? := by
  change ((src ++ m.hasBits.drop src.length).take N)[i]? = _
  rw [List.getElem?_take_of_lt hi, List.getElem?_append]
  split_ifs with hlt
  · rfl
  · rw [List.getElem?_drop, Nat.add_sub_cancel' (Nat.not_lt.mp hlt)]

theorem getElem?_fresh {i : ℕ} (hi : i < N) : (fresh N).hasBits[i]? = some 0 :=
  List.getElem?_replicate_of_lt hi

variable {b : MessageBits M} {t : Bytes}

theorem getElem?_append_of_lt {i : ℕ} (hi : i < M) :
    (b.hasBits ++ t)[i]? = b.hasBits[i]? :=
  List.getElem?_append_left (by rwa [b.length_hasBits])

theorem exists_first (hM : 0 < M) : ∃ x, b.hasBits[0]? = some x :=
  ⟨_, List.getElem?_eq_getElem (by rwa [b.length_hasBits])⟩

/-- Where one byte is copied, it is the third behind the length. -/
theorem copied_iff (hN : 0 < N) (hM : 0 < M) (h3 : ¬ (b.hasBits ++ t).length < 3) :
    ((∀ i, i < min N M → ((fresh N).copyFrom (((b.hasBits ++ t).drop 2).take 1)).hasBits[i]?
          = b.hasBits[i]?)
        ∧ (∀ i, M ≤ i → i < N →
          ((fresh N).copyFrom (((b.hasBits ++ t).drop 2).take 1)).hasBits[i]? = some 0)
        ∧ (N ≤ M → (b.hasBits ++ t).drop 3 = t))
      ↔ GetsThrough N b t := by
  have hone : (((b.hasBits ++ t).drop 2).take 1).length = 1 := by
    rw [List.length_take, List.length_drop]
    omega
  have hzero : ((fresh N).copyFrom (((b.hasBits ++ t).drop 2).take 1)).hasBits[0]?
      = (b.hasBits ++ t)[2]? := by
    rw [getElem?_copyFrom hN, hone, if_pos Nat.one_pos, List.getElem?_take_of_lt Nat.one_pos,
      List.getElem?_drop]
  have hrest : ∀ i, 0 < i → i < N →
      ((fresh N).copyFrom (((b.hasBits ++ t).drop 2).take 1)).hasBits[i]? = some 0 := by
    intro i hi hiN
    rw [getElem?_copyFrom hiN, hone, if_neg (Nat.not_lt.mpr hi), getElem?_fresh hiN]
  have hunread : (b.hasBits ++ t).drop 3 = t ↔ M = 3 := by
    constructor
    · intro heq
      have hlen := congrArg List.length heq
      rw [List.length_drop, List.length_append, b.length_hasBits] at hlen
      rw [List.length_append, b.length_hasBits] at h3
      omega
    · intro hM3
      rw [List.drop_left' (by rw [b.length_hasBits, hM3])]
  rw [hunread]
  constructor
  · rintro ⟨hsent, -, hlast⟩
    refine ⟨?_, fun i hi hiM => ?_, hlast⟩
    · rw [← hzero, hsent 0 (lt_min hN hM)]
    · rw [← hsent i hiM, hrest i hi (lt_of_lt_of_le hiM (min_le_left _ _))]
  · rintro ⟨hthird, hsent, hlast⟩
    refine ⟨fun i hi => ?_, fun i hiM hiN => ?_, hlast⟩
    · rcases Nat.eq_zero_or_pos i with rfl | hpos
      · rw [hzero, hthird]
      · rw [hrest i hpos (lt_of_lt_of_le hi (min_le_left _ _)), hsent i hpos hi]
    · exact hrest i (lt_of_lt_of_le hM hiM) hiN

/-- Where no byte is copied, the length is zero in two bytes, and only zeros get through. -/
theorem notCopied_iff (hN : 0 < N) (hM : 65536 ≤ M) (hfirst : b.hasBits[0]? = some 0) :
    ((∀ i, i < min N M → ((fresh N).copyFrom []).hasBits[i]? = b.hasBits[i]?)
        ∧ (∀ i, M ≤ i → i < N → ((fresh N).copyFrom []).hasBits[i]? = some 0)
        ∧ (N ≤ M → (b.hasBits ++ t).drop 2 = t))
      ↔ GetsThrough N b t := by
  have hnone : ∀ i, i < N → ((fresh N).copyFrom []).hasBits[i]? = some 0 := by
    intro i hi
    rw [getElem?_copyFrom hi, List.length_nil, if_neg (Nat.not_lt_zero i), getElem?_fresh hi]
  have hunread : (b.hasBits ++ t).drop 2 ≠ t := by
    intro heq
    have hlen := congrArg List.length heq
    rw [List.length_drop, List.length_append, b.length_hasBits] at hlen
    omega
  constructor
  · rintro ⟨hsent, -, hlast⟩
    have hMN : M < N := Nat.lt_of_not_le fun hle => hunread (hlast hle)
    refine ⟨?_, fun i _ hi => ?_, fun hle => absurd hle (Nat.not_le.mpr hMN)⟩
    · rw [getElem?_append_of_lt (by omega), hfirst, ← hsent 2 (by omega), hnone 2 (by omega)]
    · rw [← hsent i hi, hnone i (lt_of_lt_of_le hi (min_le_left _ _))]
  · rintro ⟨-, hsent, hlast⟩
    have hMN : M < N := Nat.lt_of_not_le fun hle => by
      have hthree := hlast hle
      omega
    refine ⟨fun i hi => ?_, fun i _ hi => hnone i hi, fun hle => absurd hle (Nat.not_le.mpr hMN)⟩
    rw [hnone i (lt_of_lt_of_le hi (min_le_left _ _))]
    rcases Nat.eq_zero_or_pos i with rfl | hpos
    · exact hfirst.symm
    · exact (hsent i hpos hi).symm

/-- The round trip, read off the result of parsing. -/
theorem roundTrips_iff_of_run {m : MessageBits N} {rest : Bytes}
    (hrun : ((fresh N).parseBits read32).run (b.serializeBits append16 ++ t) = .ok (m, rest)) :
    RoundTrips append16 read32 N b t ↔ (∀ i, i < min N M → m.hasBits[i]? = b.hasBits[i]?)
      ∧ (∀ i, M ≤ i → i < N → m.hasBits[i]? = some 0) ∧ (N ≤ M → rest = t) := by
  constructor
  · rintro ⟨m', rest', hrun', h⟩
    obtain ⟨rfl, rfl⟩ := Prod.mk.inj (Except.ok.inj (hrun.symm.trans hrun'))
    exact h
  · exact fun h => ⟨m, rest, hrun, h⟩

/-- Parsing that fails is no round trip. -/
theorem not_roundTrips_of_run {f : Fault}
    (hrun : ((fresh N).parseBits read32).run (b.serializeBits append16 ++ t) = .error f) :
    ¬ RoundTrips append16 read32 N b t := by
  rintro ⟨m', rest', hrun', -⟩
  rw [hrun] at hrun'
  cases hrun'

/-- The length and the first two bytes are zero where four zero bytes are read. -/
theorem zeros_of_read32 (hw : FixedWidth append16 read32) (hM : 0 < M)
    (h2 : ¬ (b.hasBits ++ t).length < 2)
    (hzero : read32 (append16 (BitVec.ofNat 16 M) ++ (b.hasBits ++ t).take 2) = 0) :
    65536 ≤ M ∧ b.hasBits[0]? = some 0 := by
  have hlen : (append16 (BitVec.ofNat 16 M)).length = 2 := hw.length_append16 _
  have htake : ((b.hasBits ++ t).take 2).length = 2 := by
    rw [List.length_take]
    omega
  have hbytes : append16 (BitVec.ofNat 16 M) ++ (b.hasBits ++ t).take 2 = [0, 0] ++ [0, 0] :=
    (hw.read32_eq_zero _ (by rw [List.length_append, hlen, htake])).mp hzero
  obtain ⟨hsize, hfirst⟩ := List.append_inj hbytes hlen
  have hdvd : M % 2 ^ 16 = 0 := congrArg BitVec.toNat (hw.append16_eq_zero _ hsize)
  refine ⟨by omega, ?_⟩
  rw [← getElem?_append_of_lt (t := t) hM, ← List.getElem?_take_of_lt (j := 2) (by omega), hfirst]
  rfl

/-- **Which bit sets get through.** -/
theorem messageBits_roundTrips_iff (hw : FixedWidth append16 read32) (hN : 0 < N) (hM : 0 < M)
    (b : MessageBits M) (t : Bytes) :
    RoundTrips append16 read32 N b t ↔ GetsThrough N b t := by
  have hrun : ((fresh N).parseBits read32).run
      (append16 (BitVec.ofNat 16 M) ++ (b.hasBits ++ t)) = _ :=
    parseBits_run hN (hw.length_append16 (BitVec.ofNat 16 M))
  rw [← List.append_assoc] at hrun
  have hthird : (b.hasBits ++ t).length < 3 → ¬ GetsThrough N b t := by
    rintro hlt ⟨hthird, -⟩
    obtain ⟨x, hx⟩ := exists_first (b := b) hM
    rw [List.getElem?_eq_none (by omega), hx] at hthird
    cases hthird
  by_cases h2 : (b.hasBits ++ t).length < 2
  · rw [if_pos h2] at hrun
    exact iff_of_false (not_roundTrips_of_run hrun) (hthird (by omega))
  rw [if_neg h2] at hrun
  by_cases hzero : read32 (append16 (BitVec.ofNat 16 M) ++ (b.hasBits ++ t).take 2) = 0
  · obtain ⟨hlarge, hfirst⟩ := zeros_of_read32 hw hM h2 hzero
    rw [if_pos hzero] at hrun
    exact (roundTrips_iff_of_run hrun).trans (notCopied_iff hN hlarge hfirst)
  rw [if_neg hzero] at hrun
  by_cases h3 : (b.hasBits ++ t).length < 3
  · rw [if_pos h3] at hrun
    exact iff_of_false (not_roundTrips_of_run hrun) (hthird h3)
  · rw [if_neg h3] at hrun
    exact (roundTrips_iff_of_run hrun).trans (copied_iff hN hM h3)

/-- Big-endian integers of two bytes. -/
def bigEndian16 (i : BitVec 16) : Bytes := beBytes 2 i.toNat

theorem fixedWidth_bigEndian : FixedWidth bigEndian16 Kanon.bigEndian.read32 where
  length_append16 _ := length_beBytes 2 _
  append16_eq_zero i h := by
    have hval := ofBeBytes_beBytes 2 i.toNat (by have := i.isLt; norm_num; omega)
    refine BitVec.eq_of_toNat_eq ?_
    rw [← hval, show beBytes 2 i.toNat = [0, 0] from h]
    rfl
  read32_eq_zero b hb := by
    match b, hb with
    | [w, x, y, z], _ =>
      have hw := w.toNat_lt
      have hx := x.toNat_lt
      have hy := y.toNat_lt
      have hz := z.toNat_lt
      have hval : (Kanon.bigEndian.read32 [w, x, y, z]).toNat
          = ((w.toNat * 256 + x.toNat) * 256 + y.toNat) * 256 + z.toNat := by
        change (BitVec.ofNat 32 ((((0 * 256 + w.toNat) * 256 + x.toNat) * 256 + y.toNat) * 256
          + z.toNat)).toNat = _
        rw [BitVec.toNat_ofNat, Nat.mod_eq_of_lt (by omega)]
        omega
      constructor
      · intro hzero
        rw [hzero] at hval
        change 0 = _ at hval
        have hbyte : ∀ c : UInt8, c.toNat = 0 → c = 0 := fun c hc => UInt8.toNat_inj.mp hc
        rw [hbyte w (by omega), hbyte x (by omega), hbyte y (by omega), hbyte z (by omega)]
      · intro hbytes
        rw [hbytes]
        rfl

/-- A bit set of three equal ends gets through to a receiver of one byte; to a receiver of its own
length a bit set of one byte does not. -/
theorem messageBits_roundTrips_iff_three :
    RoundTrips bigEndian16 Kanon.bigEndian.read32 1 (M := 3) ⟨[5, 7, 5], rfl⟩ [9]
      ∧ ¬ RoundTrips bigEndian16 Kanon.bigEndian.read32 1 (M := 1) ⟨[5], rfl⟩ [9, 5] := by
  refine ⟨(messageBits_roundTrips_iff fixedWidth_bigEndian (by decide) (by decide) _ _).mpr ?_,
    fun h => ?_⟩
  · exact ⟨rfl, fun i hi hlt => by omega, fun _ => rfl⟩
  · exact absurd (((messageBits_roundTrips_iff fixedWidth_bigEndian (by decide) (by decide) _ _).mp
      h).2.2 le_rfl) (by decide)

/-- A bit set of one byte is not read back. -/
theorem messageBits_not_roundTrips : ¬ ∀ (N M : ℕ) (b : MessageBits M) (t : Bytes), 0 < N → 0 < M →
    RoundTrips bigEndian16 Kanon.bigEndian.read32 N b t := by
  intro h
  obtain ⟨m, rest, hrun, -, -, hrest⟩ := h 1 1 ⟨[5], rfl⟩ [9, 5, 2] (by decide) (by decide)
  obtain rfl := hrest le_rfl
  have hread : ((fresh 1).parseBits Kanon.bigEndian.read32).run
      ((MessageBits.mk (N := 1) [5] rfl).serializeBits bigEndian16 ++ [9, 5, 2])
      = .ok (⟨[5], rfl⟩, [2]) := rfl
  rw [hread] at hrun
  cases hrun

end MessageBits

end Mmkvc
