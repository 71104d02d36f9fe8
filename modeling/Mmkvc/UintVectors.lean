/-
# Vectors and maps as components (`protocol/mmbp_util.h`)

The vectors of `uint16_t` and `uint32_t` are written by one macro and read by another:
the writer appends the elements with a fixed width, the reader decodes varints.  Only a
vector without elements is read back, and a vector of vectors only if all of these are
empty; bytes and maps are read back always.
-/
import Mmkvc.MmbpUtil
import Mmkvc.SevenBitGroups

namespace Mmkvc

open SevenBits

/-! ## Vectors of integers -/

section

variable (kv : Kvarint)

/-- One element of a vector, or its size: `ParseComponent(u, buffer)`, and whatever `u` was
if that fails. -/
def parseUint {bc : ℕ} (u : BitVec bc) : Reader (BitVec bc) := do
  let (_, u) ← parseUnsigned kv bc u
  return u

/-- `SET_FILED_UVEC(bc)`, the vector. -/
def parseUvec {bc : ℕ} (us : List (BitVec bc)) : Reader (List (BitVec bc)) := do
  let size ← parseUint kv (-1 : BitVec bc)
  forEach (fun _ u => do return ((), ← parseUint kv u)) () (resize us size.toNat 0)

/-- `SET_FILED_UVEC(bc)`, the vector of vectors. -/
def parseUvec2d {bc : ℕ} (uss : List (List (BitVec bc))) : Reader (List (List (BitVec bc))) := do
  let size ← parseUint kv (-1 : BitVec bc)
  forEach (fun _ us => do return ((), ← parseUvec kv us)) () (resize uss size.toNat [])

/-- `SERIALIZED_FIELD_UVEC(bc)`, the vector; `append` is `ChunkList::Append##bc`. -/
def serializeUvec {bc : ℕ} (append : BitVec bc → Bytes) (us : List (BitVec bc)) : Bytes :=
  kv.encode 64 (BitVec.ofNat 64 us.length) ++ us.flatMap append

/-- `SERIALIZED_FIELD_UVEC(bc)`, the vector of vectors. -/
def serializeUvec2d {bc : ℕ} (append : BitVec bc → Bytes) (uss : List (List (BitVec bc))) : Bytes :=
  kv.encode 64 (BitVec.ofNat 64 uss.length) ++ uss.flatMap (serializeUvec kv append)

/-! ## Bytes -/

/-- `ParseComponent(std::vector<char> &, Buffer &)`. -/
def parseChars : Reader Bytes := do
  let len ← parseUint kv (-1 : BitVec 32)
  Reader.take len.toNat

/-- `SerializeComponent(std::vector<char> const &, ChunkList &)`. -/
def serializeChars (buf : Bytes) : Bytes :=
  kv.encode 64 (BitVec.ofNat 64 buf.length) ++ buf

end

/-! ## Maps -/

/-- `ParseComponent` into an object that was just constructed, and `SerializeComponent`, of
one type. -/
structure Component (α : Type) where
  parse : Reader α
  serialize : α → Bytes

/-- The object is read back. -/
def Component.RoundTrips {α : Type} (c : Component α) (a : α) : Prop :=
  Reader.Reads c.parse (c.serialize a) a

/-- `std::unordered_map<K, V>`, its entries in the order of an iteration. -/
structure UnorderedMap (K V : Type) where
  entries : List (K × V)
  nodup : (entries.map Prod.fst).Nodup

/-- Putting an element somewhere into a list. -/
theorem perm_place {α : Type} (l : List α) (a : α) (i : ℕ) :
    (l.take i ++ a :: l.drop i).Perm (a :: l) := by
  have hmiddle : (l.take i ++ a :: l.drop i).Perm (a :: (l.take i ++ l.drop i)) :=
    List.perm_middle
  rwa [List.take_append_drop] at hmiddle

section

variable {K V : Type} [DecidableEq K]

/-- Where the library puts a new entry in the order of the old ones. -/
abbrev Placing (K V : Type) := List (K × V) → K × V → ℕ

/-- `emplace`: nothing happens if there is an entry with the key. -/
def UnorderedMap.emplace (slot : Placing K V) (m : UnorderedMap K V) (e : K × V) :
    UnorderedMap K V :=
  if h : e.1 ∈ m.entries.map Prod.fst then m
  else
    { entries := m.entries.take (slot m.entries e) ++ e :: m.entries.drop (slot m.entries e)
      nodup := ((perm_place m.entries e (slot m.entries e)).map Prod.fst).nodup_iff.mpr
        (List.nodup_cons.mpr ⟨h, m.nodup⟩) }

variable (kv : Kvarint) (key : Component K) (value : Component V) (slot : Placing K V)

/-- The loop of `ParseComponent(std::unordered_map<K, V> &, Buffer &)`, `n` rounds of it. -/
def parseEntries : ℕ → UnorderedMap K V → Reader (UnorderedMap K V)
  | 0, m => pure m
  | n + 1, m => do
    let k ← key.parse
    let v ← value.parse
    parseEntries n (m.emplace slot (k, v))

/-- `ParseComponent(std::unordered_map<K, V> &, Buffer &)`. -/
def parseMap (m : UnorderedMap K V) : Reader (UnorderedMap K V) := do
  let n ← parseUint kv (-1 : BitVec 32)
  parseEntries key value slot n.toNat m

omit [DecidableEq K] in
/-- `SerializeComponent(std::unordered_map<K, V> const &, ChunkList &)`. -/
def serializeMap (m : UnorderedMap K V) : Bytes :=
  kv.encode 32 (BitVec.ofNat 32 m.entries.length)
    ++ m.entries.flatMap fun e => key.serialize e.1 ++ value.serialize e.2

end

/-- The map without entries. -/
def UnorderedMap.empty (K V : Type) : UnorderedMap K V := ⟨[], List.nodup_nil⟩

/-! ## What is known of the libraries -/

/-- kvarint's numbers are in groups of seven bits: what decodes is in groups, a number that
fits decodes to itself, and it is encoded in as few groups as can be. -/
structure Kvarint.Base128 (kv : Kvarint) : Prop where
  decode_groups : ∀ {n len : ℕ} {i : BitVec n} {b : Bytes}, kv.decode n b = .ok (len, i) →
    ∃ r u, b = r ++ u ∧ r.length = len ∧ IsGroups r i.toNat
  decode_encode : ∀ {m n : ℕ}, 0 < m → 0 < n → ∀ (i : BitVec m) (t : Bytes), i.toNat < 2 ^ n →
    kv.decode n (kv.encode m i ++ t) = .ok ((kv.encode m i).length, i.setWidth n)
  encode_shortest : ∀ i : BitVec 64,
    (kv.encode 64 i).length = 1 ∨ 128 ^ ((kv.encode 64 i).length - 1) ≤ i.toNat

/-- The elements are appended with their most significant byte first. -/
def BigEndian {bc : ℕ} (width : ℕ) (append : BitVec bc → Bytes) : Prop :=
  ∀ u, append u = beBytes width u.toNat

namespace Leb128

/-- What was decoded stands in groups of seven bits at the front. -/
theorem isGroups_decodeNat (m : ℕ) {b : Bytes} {len n : ℕ} (h : decodeNat m b = .ok (len, n)) :
    ∃ r u, b = r ++ u ∧ r.length = len ∧ IsGroups r n := by
  induction m generalizing b len n with
  | zero => cases h
  | succ m ih =>
    cases b with
    | nil => cases h
    | cons c b =>
      rw [decodeNat] at h
      split_ifs at h with hc
      · cases h
        exact ⟨[c], b, rfl, rfl, .last hc⟩
      · cases hrest : decodeNat m b with
        | error e =>
          rw [hrest] at h
          cases h
        | ok rest =>
          rw [hrest] at h
          cases h
          obtain ⟨r, u, rfl, hlen, hr⟩ := ih hrest
          exact ⟨c :: r, u, rfl, by rw [List.length_cons, hlen], .more (Nat.not_lt.mp hc) hr⟩

/-- More groups may be allowed than are needed. -/
theorem encodeNat_eq (j : ℕ) {k n : ℕ} (hjk : j ≤ k) (h : n < 128 ^ (j + 1)) :
    encodeNat k n = encodeNat j n := by
  induction j generalizing k n with
  | zero =>
    cases k with
    | zero => rfl
    | succ k => exact if_pos (by simpa using h)
  | succ j ih =>
    obtain ⟨k, rfl⟩ : ∃ k', k = k' + 1 := ⟨k - 1, by omega⟩
    rw [encodeNat, encodeNat]
    split_ifs with hn
    · rfl
    · rw [ih (by omega)]
      rw [Nat.div_lt_iff_lt_mul (by norm_num), ← pow_succ]
      exact h

/-- An encoding has no more groups than the number needs. -/
theorem encodeNat_shortest (k n : ℕ) :
    (encodeNat k n).length = 1 ∨ 128 ^ ((encodeNat k n).length - 1) ≤ n := by
  induction k generalizing n with
  | zero => exact Or.inl rfl
  | succ k ih =>
    rw [encodeNat]
    split_ifs with hn
    · exact Or.inl rfl
    · right
      rw [List.length_cons, Nat.add_sub_cancel]
      rcases ih (n / 128) with hone | hmany
      · rw [hone, pow_one]
        omega
      · have hpos : (encodeNat k (n / 128)).length = (encodeNat k (n / 128)).length - 1 + 1 := by
          have hne : 0 < (encodeNat k (n / 128)).length := by
            cases k <;> rw [encodeNat] <;> [skip; split_ifs] <;> exact Nat.succ_pos _
          omega
        rw [hpos, pow_succ]
        exact (Nat.mul_le_mul_right _ hmany).trans (Nat.div_mul_le_self n 128)

end Leb128

/-- LEB128 stores numbers in groups of seven bits. -/
theorem Kvarint.leb128_base128 : Kvarint.leb128.Base128 where
  decode_groups := by
    intro n len i b h
    change Leb128.decode n b = _ at h
    rw [Leb128.decode] at h
    cases hdecode : Leb128.decodeNat (Leb128.groups n) b with
    | error e =>
      rw [hdecode] at h
      cases h
    | ok found =>
      rw [hdecode] at h
      dsimp only at h
      split_ifs at h with hn
      cases h
      rw [BitVec.toNat_ofNat, Nat.mod_eq_of_lt hn]
      exact Leb128.isGroups_decodeNat _ hdecode
  decode_encode := by
    intro m n hm hn i t hi
    rcases Nat.le_total m n with hle | hle
    · exact Leb128.decode_encode hm hle i t
    · have hgroups : Leb128.groups n - 1 ≤ Leb128.groups m - 1 :=
        Nat.sub_le_sub_right (Nat.div_le_div_right (Nat.add_le_add_right hle 6)) 1
      have hsmall := Leb128.lt_groups n i.toNat hn hi
      have hpos : Leb128.groups n - 1 < Leb128.groups n := by
        unfold Leb128.groups
        omega
      show Leb128.decode n (Leb128.encode m i ++ t) = .ok ((Leb128.encode m i).length, _)
      rw [Leb128.decode, Leb128.encode, Leb128.encodeNat_eq _ hgroups hsmall,
        Leb128.decodeNat_encodeNat _ _ _ t hpos hsmall]
      simp only [if_pos hi]
      rw [BitVec.ofNat_toNat]
  encode_shortest := fun i => Leb128.encodeNat_shortest _ i.toNat

/-! ## One number -/

section

variable {kv : Kvarint} {bc : ℕ}

/-- A size is in groups, and in no more than it needs. -/
theorem Kvarint.Base128.isGroups_encode (h128 : kv.Base128) (i : BitVec 64) :
    IsGroups (kv.encode 64 i) i.toNat := by
  have hdecode := h128.decode_encode (by norm_num) (by norm_num) i [] i.isLt
  obtain ⟨r, u, heq, hlen, hr⟩ := h128.decode_groups hdecode
  rw [List.append_nil] at heq
  obtain ⟨rfl, -⟩ : r = kv.encode 64 i ∧ u = [] := by
    have hu : u = [] := by
      rw [heq, List.length_append] at hlen
      exact List.length_eq_zero_iff.mp (by omega)
    rw [hu, List.append_nil] at heq
    exact ⟨heq.symm, hu⟩
  rwa [BitVec.setWidth_eq] at hr

/-- A number that is not there leaves the variable and the bytes alone. -/
theorem run_parseUint_error {b : Bytes} {e : DecodeErr} (h : kv.decode bc b = .error e)
    (u : BitVec bc) : (parseUint kv u).run b = .ok (u, b) := by
  have hrun : (parseUnsigned kv bc u).run b = .ok ((false, u), b) := by
    show parseUnsigned kv bc u b = _
    rw [parseUnsigned, h]
  exact run_bind_ok hrun

/-- A number that is there is read off from its groups. -/
theorem run_parseUint_ok (h128 : kv.Base128) {b : Bytes} {len : ℕ} {i : BitVec bc}
    (h : kv.decode bc b = .ok (len, i)) (u : BitVec bc) :
    ∃ r left, b = r ++ left ∧ IsGroups r i.toNat ∧ (parseUint kv u).run b = .ok (i, left) := by
  obtain ⟨r, left, rfl, hlen, hr⟩ := h128.decode_groups h
  refine ⟨r, left, rfl, hr, ?_⟩
  have hrun : (parseUnsigned kv bc u).run (r ++ left) = .ok ((true, i), left) := by
    show parseUnsigned kv bc u (r ++ left) = _
    rw [parseUnsigned, h]
    exact run_bind_ok (Reader.reads_advance r len hlen left)
  exact run_bind_ok hrun

/-- A size that fits a reader is read back, whatever the two widths are. -/
theorem reads_size (h128 : kv.Base128) (hbc : 0 < bc) {m n : ℕ} (hm : 0 < m) (hn : n < 2 ^ m)
    (hfits : n < 2 ^ bc) (u : BitVec bc) :
    Reader.Reads (parseUint kv u) (kv.encode m (BitVec.ofNat m n)) (BitVec.ofNat bc n) := by
  intro t
  have hvalue : (BitVec.ofNat m n).toNat = n := toNat_ofNat_of_lt m n hn
  have hdecode := h128.decode_encode hm hbc (BitVec.ofNat m n) t (by rwa [hvalue])
  have hwidth : (BitVec.ofNat m n).setWidth bc = BitVec.ofNat bc n := by
    apply BitVec.eq_of_toNat_eq
    rw [BitVec.toNat_setWidth, hvalue, BitVec.toNat_ofNat]
  have hrun : (parseUnsigned kv bc u).run (kv.encode m (BitVec.ofNat m n) ++ t)
      = .ok ((true, BitVec.ofNat bc n), t) := by
    show parseUnsigned kv bc u _ = _
    rw [parseUnsigned, hdecode, ← hwidth]
    exact run_bind_ok (Reader.reads_advance _ _ rfl t)
  exact run_bind_ok hrun

/-! ## What was read -/

/-- The parser reads nothing of the bytes. -/
def Stuck {α : Type} (p : Reader α) (b : Bytes) : Prop := ∃ a, p.run b = .ok (a, b)

/-- Element by element nothing is read. -/
theorem Stuck.forEach {α β σ : Type} {f : σ → α → Reader (σ × β)} {b : Bytes}
    (h : ∀ s a, Stuck (f s a) b) (s : σ) (as : List α) : Stuck (forEach f s as) b := by
  induction as generalizing s with
  | nil => exact ⟨[], rfl⟩
  | cons a as ih =>
    obtain ⟨⟨s', c⟩, hrun⟩ := h s a
    obtain ⟨cs, hruns⟩ := ih s'
    exact ⟨c :: cs, (run_bind_ok hrun).trans ((run_bind_ok hruns).trans rfl)⟩

theorem stuck_parseUint {b : Bytes} {e : DecodeErr} (h : kv.decode bc b = .error e)
    (u : BitVec bc) : Stuck (parseUint kv u) b := ⟨u, run_parseUint_error h u⟩

/-- Nothing is read where only the result is repacked. -/
theorem Stuck.return {α β : Type} {p : Reader α} {b : Bytes} (h : Stuck p b) (g : α → β) :
    Stuck (do return g (← p)) b := by
  obtain ⟨a, hrun⟩ := h
  exact ⟨g a, run_bind_ok hrun⟩

/-- Nothing is read of a vector whose size is not there. -/
theorem stuck_parseUvec {b : Bytes} {e : DecodeErr} (h : kv.decode bc b = .error e)
    (us : List (BitVec bc)) : Stuck (parseUvec kv us) b := by
  obtain ⟨out, hrun⟩ := Stuck.forEach (fun (_ : Unit) u => (stuck_parseUint h u).return (Prod.mk ()))
    () (resize us (-1 : BitVec bc).toNat 0)
  exact ⟨out, (run_bind_ok (run_parseUint_error h _)).trans hrun⟩

/-- Behind what a number can be read from, no reader was stuck: a first number was read if
the rest would have been stuck. -/
theorem readsGroups_parseUint (h128 : kv.Base128) {α : Type} {f : BitVec bc → Reader α}
    {b left : Bytes} {a : α} {u : BitVec bc} (hleft : ∀ e, kv.decode bc left ≠ .error e)
    (hstuck : ∀ e, kv.decode bc b = .error e → ∀ u, Stuck (f u) b)
    (h : (parseUint kv u >>= f).run b = .ok (a, left)) :
    ∃ r between i, b = r ++ between ∧ IsGroups r i.toNat
      ∧ (f i).run between = .ok (a, left) := by
  cases hdecode : kv.decode bc b with
  | error e =>
    rw [run_bind_ok (run_parseUint_error hdecode u)] at h
    obtain ⟨a', hrun⟩ := hstuck e hdecode u
    obtain ⟨-, rfl⟩ := Prod.mk.inj (Except.ok.inj (hrun.symm.trans h))
    exact absurd hdecode (hleft e)
  | ok found =>
    obtain ⟨r, between, rfl, hr, hrun⟩ := run_parseUint_ok h128 hdecode u
    rw [run_bind_ok hrun] at h
    exact ⟨r, between, found.2, rfl, hr, h⟩

/-- The elements of a vector were read one after the other. -/
theorem readsGroups_elements (h128 : kv.Base128) {left : Bytes}
    (hleft : ∀ e, kv.decode bc left ≠ .error e) {us out : List (BitVec bc)} {b : Bytes}
    (h : (forEach (fun (_ : Unit) u => do return ((), ← parseUint kv u)) () us).run b
      = .ok (out, left)) :
    ReadsGroups (out.map BitVec.toNat) b left ∧ out.length = us.length := by
  induction us generalizing out b with
  | nil =>
    cases h
    exact ⟨.nil _, rfl⟩
  | cons u us ih =>
    simp only [forEach, bind_assoc, pure_bind] at h
    obtain ⟨r, between, i, rfl, hr, h⟩ := readsGroups_parseUint h128 hleft (fun e he u => by
      obtain ⟨rest, hrest⟩ := Stuck.forEach
        (fun (_ : Unit) u => (stuck_parseUint he u).return (Prod.mk ())) () us
      exact ⟨u :: rest, (run_bind_ok hrest).trans rfl⟩) h
    obtain ⟨rest, b', hrest, h⟩ := run_bind_eq_ok.mp h
    cases h
    obtain ⟨hreads, hlen⟩ := ih hrest
    exact ⟨.cons hr hreads, by rw [List.length_cons, List.length_cons, hlen]⟩

/-- What a vector is read from: its size and its elements. -/
def uvecItems (us : List (BitVec bc)) : List Item :=
  .size us.length :: us.map fun u => .element u.toNat

/-- A vector that is read to the end is read off from the groups of its numbers. -/
theorem readsGroups_parseUvec (h128 : kv.Base128) {left : Bytes}
    (hleft : ∀ e, kv.decode bc left ≠ .error e) {us : List (BitVec bc)} {b : Bytes}
    (h : (parseUvec kv []).run b = .ok (us, left)) :
    ReadsGroups ((uvecItems us).map Item.value) b left := by
  obtain ⟨r, between, size, rfl, hr, h⟩ := readsGroups_parseUint h128 hleft (fun e he u =>
    Stuck.forEach (fun (_ : Unit) u => (stuck_parseUint he u).return (Prod.mk ())) () _) h
  obtain ⟨hreads, hlen⟩ := readsGroups_elements h128 hleft h
  rw [length_resize] at hlen
  rw [uvecItems, List.map_cons, List.map_map]
  refine .cons ?_ hreads
  rw [Item.value, hlen]
  exact hr

/-- What a vector of vectors is read from. -/
def uvec2dItems (uss : List (List (BitVec bc))) : List Item :=
  .size uss.length :: uss.flatMap uvecItems

/-- Vectors that are read to the end are read off from the groups of their numbers. -/
theorem readsGroups_vectors (h128 : kv.Base128) {left : Bytes}
    (hleft : ∀ e, kv.decode bc left ≠ .error e) {n : ℕ} {out : List (List (BitVec bc))} {b : Bytes}
    (h : (forEach (fun (_ : Unit) us => do return ((), ← parseUvec kv us)) ()
      (List.replicate n [])).run b = .ok (out, left)) :
    ReadsGroups ((out.flatMap uvecItems).map Item.value) b left ∧ out.length = n := by
  induction n generalizing out b with
  | zero =>
    cases h
    exact ⟨.nil _, rfl⟩
  | succ n ih =>
    simp only [List.replicate_succ, forEach, bind_assoc, pure_bind] at h
    obtain ⟨us, between, hus, h⟩ := run_bind_eq_ok.mp h
    obtain ⟨rest, b', hrest, h⟩ := run_bind_eq_ok.mp h
    cases h
    -- what is between two vectors decodes: else the later ones would have been stuck there
    have hbetween : ∀ e, kv.decode bc between ≠ .error e := by
      intro e he
      obtain ⟨stay, hstay⟩ := Stuck.forEach
        (fun (_ : Unit) us => (stuck_parseUvec he us).return (Prod.mk ())) () (List.replicate n [])
      obtain ⟨-, rfl⟩ := Prod.mk.inj (Except.ok.inj (hstay.symm.trans hrest))
      exact hleft e he
    obtain ⟨hreads, hlen⟩ := ih hrest
    rw [List.flatMap_cons, List.map_append, List.length_cons, hlen]
    exact ⟨(readsGroups_parseUvec h128 hbetween hus).append hreads, rfl⟩

/-- A vector of vectors that is read to the end is read off from the groups of its numbers. -/
theorem readsGroups_parseUvec2d (h128 : kv.Base128) {left : Bytes}
    (hleft : ∀ e, kv.decode bc left ≠ .error e) {uss : List (List (BitVec bc))} {b : Bytes}
    (h : (parseUvec2d kv []).run b = .ok (uss, left)) :
    ReadsGroups ((uvec2dItems uss).map Item.value) b left := by
  obtain ⟨r, between, size, rfl, hr, h⟩ := readsGroups_parseUint h128 hleft (fun e he u =>
    Stuck.forEach (fun (_ : Unit) us => (stuck_parseUvec he us).return (Prod.mk ())) () _) h
  rw [resize_nil] at h
  obtain ⟨hreads, hlen⟩ := readsGroups_vectors h128 hleft h
  rw [uvec2dItems, List.map_cons]
  refine .cons ?_ hreads
  rw [Item.value, hlen]
  exact hr

/-! ## What was written -/

/-- The bytes of a size. -/
def sizeBytes (kv : Kvarint) (n : ℕ) : Bytes := kv.encode 64 (BitVec.ofNat 64 n)

/-- A size is a component whatever the width is. -/
theorem fits_size (h128 : kv.Base128) {n width : ℕ} (hn : n < 2 ^ 64) :
    (Item.size n).Fits (sizeBytes kv) width := by
  have hgroups := h128.isGroups_encode (BitVec.ofNat 64 n)
  have hshort := h128.encode_shortest (BitVec.ofNat 64 n)
  rw [toNat_ofNat_of_lt 64 n hn] at hgroups hshort
  exact ⟨hgroups, hshort⟩

/-- The components of a vector are its size and its elements. -/
theorem fits_uvecItems (h128 : kv.Base128) {width : ℕ} (hbc : bc = 8 * width)
    {us : List (BitVec bc)} (hus : us.length < 2 ^ 64) :
    ∀ i ∈ uvecItems us, i.Fits (sizeBytes kv) width := by
  intro i hi
  rcases List.mem_cons.mp hi with rfl | hi
  · exact fits_size h128 hus
  · obtain ⟨u, -, rfl⟩ := List.mem_map.mp hi
    have hpow : 2 ^ bc = 256 ^ width := by
      rw [hbc, pow_mul]
      norm_num
    exact u.isLt.trans_eq hpow

/-- The bytes of a vector are those of its components. -/
theorem bytes_uvecItems {width : ℕ} {append : BitVec bc → Bytes} (happend : BigEndian width append)
    (us : List (BitVec bc)) :
    (uvecItems us).flatMap (Item.bytes (sizeBytes kv) width) = serializeUvec kv append us := by
  rw [uvecItems, List.flatMap_cons, List.flatMap_map, serializeUvec]
  congr 1
  exact List.flatMap_congr fun u _ => (happend u).symm

/-- The bytes of a vector of vectors are those of its components. -/
theorem bytes_uvec2dItems {width : ℕ} {append : BitVec bc → Bytes}
    (happend : BigEndian width append) (uss : List (List (BitVec bc))) :
    (uvec2dItems uss).flatMap (Item.bytes (sizeBytes kv) width) = serializeUvec2d kv append uss := by
  rw [uvec2dItems, List.flatMap_cons, List.flatMap_assoc, serializeUvec2d]
  congr 1
  exact List.flatMap_congr fun us _ => bytes_uvecItems happend us

/-- The number one can be decoded. -/
theorem decode_one (h128 : kv.Base128) (hbc : 0 < bc) (e : DecodeErr) :
    kv.decode bc (kv.encode 64 1#64) ≠ .error e := by
  have hone : (1#64).toNat < 2 ^ bc := Nat.one_lt_two_pow hbc.ne'
  have hdecode := h128.decode_encode (by norm_num) hbc 1#64 [] hone
  rw [List.append_nil] at hdecode
  rw [hdecode]
  exact nofun

/-- A vector without elements is read back, whatever there was. -/
theorem reads_parseUvec_nil (h128 : kv.Base128) (hbc : 0 < bc) (append : BitVec bc → Bytes)
    (old : List (BitVec bc)) : Reader.Reads (parseUvec kv old) (serializeUvec kv append []) [] := by
  have hsize := reads_size h128 hbc (show 0 < 64 by norm_num) (by norm_num) (Nat.two_pow_pos bc)
    (-1 : BitVec bc)
  refine hsize.bind ?_
  rw [toNat_ofNat_of_lt bc 0 (Nat.two_pow_pos bc), resize, List.take_zero, Nat.zero_sub]
  exact Reader.reads_pure []

/-- **A vector of integers is read back only if it is empty.** -/
theorem reads_parseUvec_iff (h128 : kv.Base128) {width : ℕ} (hwidth : 2 ≤ width)
    (hbc : bc = 8 * width) {append : BitVec bc → Bytes} (happend : BigEndian width append)
    {us : List (BitVec bc)} (hus : us.length < 2 ^ bc) (h64 : us.length < 2 ^ 64) :
    Reader.Reads (parseUvec kv []) (serializeUvec kv append us) us ↔ us = [] := by
  have hpos : 0 < bc := by omega
  constructor
  · intro h
    by_contra hne
    have hrun := h (kv.encode 64 1#64)
    have hread := readsGroups_parseUvec h128 (decode_one h128 hpos) hrun
    rw [← bytes_uvecItems happend] at hread
    obtain ⟨u, us, rfl⟩ := List.exists_cons_of_ne_nil hne
    exact not_inStep hwidth (fits_uvecItems h128 hbc h64)
      ⟨.element u.toNat, List.mem_cons_of_mem _ List.mem_cons_self, trivial⟩ hread rfl
  · rintro rfl
    exact reads_parseUvec_nil h128 hpos append []

/-- **A vector of vectors is read back only if these are empty.** -/
theorem reads_parseUvec2d_iff (h128 : kv.Base128) {width : ℕ} (hwidth : 2 ≤ width)
    (hbc : bc = 8 * width) {append : BitVec bc → Bytes} (happend : BigEndian width append)
    {uss : List (List (BitVec bc))} (huss : uss.length < 2 ^ bc) (h64 : uss.length < 2 ^ 64)
    (hus64 : ∀ us ∈ uss, us.length < 2 ^ 64) :
    Reader.Reads (parseUvec2d kv []) (serializeUvec2d kv append uss) uss ↔ ∀ us ∈ uss, us = [] := by
  have hpos : 0 < bc := by omega
  constructor
  · intro h us hus
    by_contra hne
    have hrun := h (kv.encode 64 1#64)
    have hread := readsGroups_parseUvec2d h128 (decode_one h128 hpos) hrun
    rw [← bytes_uvec2dItems happend] at hread
    have hfits : ∀ i ∈ uvec2dItems uss, i.Fits (sizeBytes kv) width := by
      intro i hi
      rcases List.mem_cons.mp hi with rfl | hi
      · exact fits_size h128 h64
      · obtain ⟨vs, hvs, hi⟩ := List.mem_flatMap.mp hi
        exact fits_uvecItems h128 hbc (hus64 vs hvs) i hi
    obtain ⟨u, vs, rfl⟩ := List.exists_cons_of_ne_nil hne
    have helement : Item.element u.toNat ∈ uvec2dItems uss :=
      List.mem_cons_of_mem _ (List.mem_flatMap.mpr
        ⟨u :: vs, hus, List.mem_cons_of_mem _ List.mem_cons_self⟩)
    exact not_inStep hwidth hfits ⟨_, helement, trivial⟩ hread rfl
  · intro h
    have hsize := reads_size h128 hpos (show 0 < 64 by norm_num) h64 huss (-1 : BitVec bc)
    refine hsize.bind ?_
    rw [toNat_ofNat_of_lt bc _ huss]
    have hinner : ∀ old : List (BitVec bc), ∀ us ∈ uss, ∀ s : Unit, ∃ s' : Unit,
        Reader.Reads (do return (s, ← parseUvec kv old)) (serializeUvec kv append us) (s', us) := by
      intro old us hus s
      obtain rfl := h us hus
      exact ⟨s, (reads_parseUvec_nil h128 hpos append old).bind_pure rfl⟩
    have hall := Reader.reads_forEach
      (forall₂_of_length_eq (length_resize [] uss.length []) hinner) ()
    rw [← List.map_uncurry_zip_eq_zipWith] at hall
    have hsnd := List.map_snd_zip (length_resize [] uss.length ([] : List (BitVec bc))).ge
    rw [show Function.uncurry (fun (_ us : List (BitVec bc)) => us) = Prod.snd from rfl, hsnd] at hall
    exact hall

/-! ## Bytes and maps -/

/-- Characters are read back. -/
theorem reads_parseChars (h128 : kv.Base128) {buf : Bytes} (hbuf : buf.length < 2 ^ 32) :
    Reader.Reads (parseChars kv) (serializeChars kv buf) buf := by
  have hsize := reads_size h128 (show 0 < 32 by norm_num) (show 0 < 64 by norm_num)
    (hbuf.trans (by norm_num)) hbuf (-1 : BitVec 32)
  exact hsize.bind (Reader.reads_take buf _ (toNat_ofNat_of_lt 32 _ hbuf).symm)

variable {K V : Type} [DecidableEq K] {key : Component K} {value : Component V}
  {slot : Placing K V}

/-- The entries that are read come to those that are there. -/
theorem reads_parseEntries {es : List (K × V)} (hkeys : ∀ e ∈ es, key.RoundTrips e.1)
    (hvalues : ∀ e ∈ es, value.RoundTrips e.2) (m : UnorderedMap K V)
    (hnodup : (es.map Prod.fst ++ m.entries.map Prod.fst).Nodup) :
    ∃ m', Reader.Reads (parseEntries key value slot es.length m)
        (es.flatMap fun e => key.serialize e.1 ++ value.serialize e.2) m'
      ∧ m'.entries.Perm (es ++ m.entries) := by
  induction es generalizing m with
  | nil => exact ⟨m, Reader.reads_pure m, List.Perm.refl _⟩
  | cons e es ih =>
    rw [List.map_cons, List.cons_append, List.nodup_cons, List.mem_append, not_or] at hnodup
    obtain ⟨⟨hes, hm⟩, hrest⟩ := hnodup
    have hplace : (m.emplace slot e).entries.Perm (e :: m.entries) := by
      rw [UnorderedMap.emplace, dif_neg hm]
      exact perm_place _ _ _
    have hnodup' : (es.map Prod.fst ++ (m.emplace slot e).entries.map Prod.fst).Nodup := by
      refine ((hplace.map Prod.fst).append_left _).nodup_iff.mpr ?_
      rw [List.map_cons, List.nodup_middle, List.nodup_cons, List.mem_append, not_or]
      exact ⟨⟨hes, hm⟩, hrest⟩
    obtain ⟨m', hreads, hperm⟩ := ih (fun x hx => hkeys x (List.mem_cons_of_mem e hx))
      (fun x hx => hvalues x (List.mem_cons_of_mem e hx)) _ hnodup'
    refine ⟨m', ?_, ?_⟩
    · rw [List.flatMap_cons, List.append_assoc]
      exact (hkeys e List.mem_cons_self).bind ((hvalues e List.mem_cons_self).bind hreads)
    · exact hperm.trans ((hplace.append_left es).trans List.perm_middle)

/-- A map is read back, up to the order of its entries. -/
theorem reads_parseMap (h128 : kv.Base128) {m : UnorderedMap K V}
    (hsize : m.entries.length < 2 ^ 32) (hkeys : ∀ e ∈ m.entries, key.RoundTrips e.1)
    (hvalues : ∀ e ∈ m.entries, value.RoundTrips e.2) :
    ∃ m', Reader.Reads (parseMap kv key value slot (UnorderedMap.empty K V))
        (serializeMap kv key value m) m'
      ∧ m'.entries.Perm m.entries := by
  have hn := reads_size h128 (show 0 < 32 by norm_num) (show 0 < 32 by norm_num) hsize hsize
    (-1 : BitVec 32)
  have hnodup : (m.entries.map Prod.fst ++ (UnorderedMap.empty K V).entries.map Prod.fst).Nodup := by
    rw [UnorderedMap.empty, List.map_nil, List.append_nil]
    exact m.nodup
  obtain ⟨m', hreads, hperm⟩ : ∃ m', Reader.Reads (parseEntries key value slot m.entries.length
      (UnorderedMap.empty K V)) _ m' ∧ m'.entries.Perm _ :=
    reads_parseEntries hkeys hvalues (UnorderedMap.empty K V) hnodup
  rw [UnorderedMap.empty, List.append_nil] at hperm
  refine ⟨m', hn.bind ?_, hperm⟩
  rw [toNat_ofNat_of_lt 32 _ hsize]
  exact hreads

end

/-- **What of the components is read back.**  Of the vectors of integers only those without
an element, at whatever depth; of bytes and of maps all. -/
theorem mmbpUtil_components_read_back {kv : Kvarint} (h128 : kv.Base128)
    {append16 : BitVec 16 → Bytes} {append32 : BitVec 32 → Bytes}
    (h16 : BigEndian 2 append16) (h32 : BigEndian 4 append32) :
    (∀ u16s : List (BitVec 16), u16s.length < 2 ^ 16 →
      (Reader.Reads (parseUvec kv []) (serializeUvec kv append16 u16s) u16s ↔ u16s = []))
    ∧ (∀ u32s : List (BitVec 32), u32s.length < 2 ^ 32 →
      (Reader.Reads (parseUvec kv []) (serializeUvec kv append32 u32s) u32s ↔ u32s = []))
    ∧ (∀ u16_2d : List (List (BitVec 16)), u16_2d.length < 2 ^ 16 →
      (∀ u16s ∈ u16_2d, u16s.length < 2 ^ 16) →
      (Reader.Reads (parseUvec2d kv []) (serializeUvec2d kv append16 u16_2d) u16_2d
        ↔ ∀ u16s ∈ u16_2d, u16s = []))
    ∧ (∀ u32_2d : List (List (BitVec 32)), u32_2d.length < 2 ^ 32 →
      (∀ u32s ∈ u32_2d, u32s.length < 2 ^ 32) →
      (Reader.Reads (parseUvec2d kv []) (serializeUvec2d kv append32 u32_2d) u32_2d
        ↔ ∀ u32s ∈ u32_2d, u32s = []))
    ∧ (∀ buf : Bytes, buf.length < 2 ^ 32 →
      Reader.Reads (parseChars kv) (serializeChars kv buf) buf)
    ∧ ∀ {K V : Type} [DecidableEq K] (key : Component K) (value : Component V)
        (slot : Placing K V) (m : UnorderedMap K V), m.entries.length < 2 ^ 32 →
        (∀ e ∈ m.entries, key.RoundTrips e.1 ∧ value.RoundTrips e.2) →
        ∃ m', Reader.Reads (parseMap kv key value slot (UnorderedMap.empty K V))
            (serializeMap kv key value m) m'
          ∧ m'.entries.Perm m.entries := by
  have h16lt : (2 : ℕ) ^ 16 ≤ 2 ^ 64 := by norm_num
  have h32lt : (2 : ℕ) ^ 32 ≤ 2 ^ 64 := by norm_num
  refine ⟨fun u16s hlen => ?_, fun u32s hlen => ?_, fun u16_2d hlen hlens => ?_,
    fun u32_2d hlen hlens => ?_, fun buf hbuf => reads_parseChars h128 hbuf,
    fun key value slot m hsize hes => ?_⟩
  · exact reads_parseUvec_iff h128 (by norm_num) rfl h16 hlen (hlen.trans_le h16lt)
  · exact reads_parseUvec_iff h128 (by norm_num) rfl h32 hlen (hlen.trans_le h32lt)
  · exact reads_parseUvec2d_iff h128 (by norm_num) rfl h16 hlen (hlen.trans_le h16lt)
      fun us hus => (hlens us hus).trans_le h16lt
  · exact reads_parseUvec2d_iff h128 (by norm_num) rfl h32 hlen (hlen.trans_le h32lt)
      fun us hus => (hlens us hus).trans_le h32lt
  · exact reads_parseMap h128 hsize (fun e he => (hes e he).1) fun e he => (hes e he).2

/-- Two bytes of a `uint16_t`, as kanon appends them, and four of a `uint32_t`. -/
def append16 (i : BitVec 16) : Bytes := beBytes 2 i.toNat
/-- `Append32`. -/
def append32 (i : BitVec 32) : Bytes := beBytes 4 i.toNat

/-- The component of the strings. -/
def Component.string (kv : Kvarint) : Component Bytes where
  parse := parseString kv false
  serialize := fun str => serializeString kv str false

/-- A vector without an element is read back, one with an element is not; a map of one name
to another is. -/
theorem mmbpUtil_components_read_back_few :
    Reader.Reads (parseUvec Kvarint.leb128 []) (serializeUvec Kvarint.leb128 append16 [])
        ([] : List (BitVec 16))
      ∧ ¬ Reader.Reads (parseUvec2d Kvarint.leb128 [])
        (serializeUvec2d Kvarint.leb128 append32 [[], [7]]) ([[], [7]] : List (List (BitVec 32)))
      ∧ ∃ m', Reader.Reads (parseMap Kvarint.leb128 (Component.string Kvarint.leb128)
          (Component.string Kvarint.leb128) (fun _ _ => 0) (UnorderedMap.empty Bytes Bytes))
          (serializeMap Kvarint.leb128 (Component.string Kvarint.leb128)
            (Component.string Kvarint.leb128) ⟨[([107], [104, 105])], List.nodup_singleton _⟩) m'
        ∧ m'.entries.Perm [([107], [104, 105])] := by
  obtain ⟨hu16s, -, -, hu32_2d, -, hmap⟩ := mmbpUtil_components_read_back Kvarint.leb128_base128
    (fun u => (rfl : append16 u = _)) (fun u => (rfl : append32 u = _))
  refine ⟨(hu16s [] (by decide)).mpr rfl, fun h => ?_, ?_⟩
  · exact absurd ((hu32_2d [[], [7]] (by decide) (by decide)).mp h [7] (by decide)) (by decide)
  · refine hmap _ _ _ ⟨[([107], [104, 105])], List.nodup_singleton _⟩ (by decide) ?_
    intro e he
    obtain rfl := List.mem_singleton.mp he
    exact ⟨reads_parseString Kvarint.leb128_inverse false [107] (by decide),
      reads_parseString Kvarint.leb128_inverse false [104, 105] (by decide)⟩

/-- The element 1 is read back as 0, from the first of its two bytes. -/
theorem mmbpUtil_components_not_read_back :
    ¬ ∀ u16s : List (BitVec 16), u16s.length < 2 ^ 16 →
      Reader.Reads (parseUvec Kvarint.leb128 []) (serializeUvec Kvarint.leb128 append16 u16s)
        u16s := by
  intro h
  have hrun : (parseUvec Kvarint.leb128 ([] : List (BitVec 16))).run
      (serializeUvec Kvarint.leb128 append16 [1] ++ []) = .ok ([0], [1]) := by
    decide +kernel
  have hone := (h [1] (by decide) []).symm.trans hrun
  exact absurd hone (by decide)

end Mmkvc
