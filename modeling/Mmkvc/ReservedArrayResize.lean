/-
# Growing and shrinking an array

`Grow` and `Shrink` do what they are for or leave the array as it was, with two exceptions: elements
that were moved to a new block do not come back when a constructor throws after that, and the
reallocating `Shrink` destroys elements before it knows that it gets the memory.
-/
import Mmkvc.ReservedArray

namespace Mmkvc

namespace RawMemory

/-! ## What is asked, and when it is so -/

section

variable {ι V : Type} (T : ElemType V) (f : Faults)

/-- The array has as many elements as the larger of its old length and `n`, the first as they were
and the others from the default constructor, which leaves the elements of a trivial type as they
come. -/
def Grown (a : ι) (xs : List (Storage V)) (n : ℕ) (s' : Memory ι V) : Prop :=
  ∃ ys, Owns T s' a (xs ++ ys) ∧ xs.length + ys.length = max xs.length n
    ∧ ∀ y ∈ ys, T.isTrivial = true ∨ y = .live T.default

/-- Of `n` elements, the first `k` from a block, the one at `j` is not constructed. -/
def StopsAt (k n j : ℕ) : Prop :=
  j < n ∧ Throws T f (if j < k then .transfer none T.moveIfNoexcept else .default) j

/-- The elements are moved, and one of the first `j` is not what it was after that. -/
def Drained (xs : List (Storage V)) (j : ℕ) : Prop :=
  T.moveIfNoexcept = true ∧ ∃ x ∈ xs.take j, x.map T.movedFrom ≠ x

/-- A longer array is safe.  The size in bytes must not overflow, unless the call fails before that
shows; and no constructor may throw behind an element that is changed by its move. -/
def GrowSafe (data : Option Addr) (xs : List (Storage V)) (n : ℕ) : Prop :=
  if T.canReallocate then
    n * T.sizeof < 2 ^ 64 ∨ (f.memory = false ∧ (data = none ∨ T.bytes n ≠ 0))
  else
    f.memory = false
      ∨ (∃ j, StopsAt T f xs.length n j ∧ j < T.capacity n ∧ ¬ Drained T xs j)
      ∨ ((∀ j, ¬ StopsAt T f xs.length n j) ∧ n * T.sizeof < 2 ^ 64)

/-- A shorter array is safe.  The reallocation must succeed or there be no destructor to call; and
no constructor may throw behind an element that is changed by its move. -/
def ShrinkSafe (xs : List (Storage V)) (n : ℕ) : Prop :=
  n = 0 ∨ if T.canReallocate then f.memory = true ∨ T.triviallyDestructible = true
    else f.memory = false ∨ ∀ j, StopsAt T f n n j → ¬ Drained T xs j

end

/-! ## Moving to a new block -/

section

variable {ι V : Type} {T : ElemType V} {f : Faults} {s s' : Memory ι V} {a : ι}
  {xs ys : List (Storage V)} {src : Option Addr} {n k j : ℕ}

theorem throws_transfer {move : Bool} :
    Throws T f (.transfer src move) j ↔ Throws T f (.transfer none move) j := by
  cases move <;> exact Iff.rfl

/-- Changing a block leaves it allocated. -/
theorem isSome_modify {p : Option Addr} {g : List (Storage V) → List (Storage V)} {q : Addr} :
    ((s.modify p g).blocks q).isSome = (s.blocks q).isSome := by
  rw [Memory.blocks_modify]
  split_ifs
  · exact Option.isSome_map
  · rfl

/-- Constructing elements allocates nothing. -/
theorem isSome_built {dst : Option Addr} {lo hi : ℕ} {init : Init} {q : Addr} :
    ((built T s dst lo hi init).blocks q).isSome = (s.blocks q).isSome := by
  rcases init with _ | ⟨src, _ | _⟩
  · exact isSome_modify
  · exact isSome_modify
  · exact isSome_modify.trans isSome_modify

/-- Destroying elements frees nothing. -/
theorem isSome_wiped {p : Option Addr} {lo hi : ℕ} {q : Addr} :
    ((wiped T s p lo hi).blocks q).isSome = (s.blocks q).isSome := by
  rw [wiped]
  split_ifs
  · rfl
  · exact isSome_modify

/-- Destroying elements in one block leaves the others alone. -/
theorem slots_wiped_of_ne {p q : Option Addr} {lo hi : ℕ} (h : q ≠ p) :
    (wiped T s p lo hi).slots q = s.slots q := by
  rw [wiped]
  split_ifs
  · rfl
  · exact Memory.slots_patch_of_ne h

theorem arrays_wiped {p : Option Addr} {lo hi : ℕ} : (wiped T s p lo hi).arrays = s.arrays := by
  rw [wiped]
  split_ifs <;> rfl

/-- What the moves leave in the old block. -/
theorem slots_built_src {dst : Option Addr} {lo hi : ℕ} {move : Bool} (h : src ≠ dst) :
    (built T s dst lo hi (.transfer src move)).slots src
      = if move then patch lo hi (fun _ => Storage.map T.movedFrom) (s.slots src)
        else s.slots src := by
  cases move with
  | false => exact Memory.slots_patch_of_ne h
  | true =>
    rw [built, Memory.slots_patch_self, Memory.slots_patch_of_ne h]
    rfl

/-- The array after a call that threw. -/
theorem Owns.drained_iff (h : Owns T s a xs) (harrays : s'.arrays = s.arrays)
    (halloc : ∀ p, (s.arrays a).data = some p → (s'.blocks p).isSome)
    (hslots : s'.slots (s.arrays a).data
      = if T.moveIfNoexcept then
          patch 0 k (fun _ => Storage.map T.movedFrom) (s.slots (s.arrays a).data)
        else s.slots (s.arrays a).data) :
    Owns T s' a xs ↔ ¬ Drained T xs k := by
  have howns : Owns T s' a xs ↔ xs <+: s'.slots (s.arrays a).data := by
    constructor
    · intro h'
      have hslots' := h'.slots
      rwa [harrays] at hslots'
    · intro hslots'
      exact ⟨by rw [harrays, h.size], by rwa [harrays], by rwa [harrays], h.usable, h.fits⟩
  rw [howns, hslots, Drained]
  cases T.moveIfNoexcept with
  | false => simp [h.slots]
  | true =>
    rw [if_pos rfl, prefix_patch_iff h.slots]
    push Not
    constructor
    · rintro hsame - x hx
      obtain ⟨i, hi, rfl⟩ := List.getElem_of_mem hx
      rw [List.length_take] at hi
      rw [List.getElem_take]
      exact hsame i _ (by omega) (List.getElem?_eq_getElem (by omega))
    · intro hsame i x hi hx
      refine hsame rfl x (List.mem_of_getElem? (i := i) ?_)
      rw [List.getElem?_take_of_lt hi, hx]

theorem drained_all (hle : xs.length ≤ j) : Drained T xs j ↔ Drained T xs xs.length := by
  rw [Drained, Drained, List.take_of_length_le hle, List.take_length]

/-- One constructor throws in a call. -/
theorem StopsAt.unique {i : ℕ} (hi : StopsAt T f k n i) (hj : StopsAt T f k n j) : i = j :=
  Option.some.inj (hi.2.1.symm.trans hj.2.1)

/-- What is known of the new block `r` when the elements are to be moved to it. -/
structure Beside (T : ElemType V) (s : Memory ι V) (a : ι) (xs : List (Storage V)) (r : Addr)
    (m : ℕ) : Prop where
  owns : Owns T s a xs
  ne : (s.arrays a).data ≠ some r
  allocated : (s.blocks r).isSome
  room : (s.slots (some r)).length = m

/-- A new block beside the one of an array. -/
theorem Owns.beside (h : Owns T s a xs) :
    Beside T (s.alloc (List.replicate n .raw)) a xs s.next n where
  owns := h.alloc
  ne := h.data_ne_next
  allocated := by rw [Memory.blocks_alloc, Function.update_self]; rfl
  room := by rw [Memory.slots_alloc_self, List.length_replicate]

namespace Beside

variable {r : Addr} {m : ℕ} (h : Beside T s a xs r m)

include h

theorem supplied {i : ℕ} (hi : i < xs.length) {move : Bool} :
    Supplied T s i (.transfer (s.arrays a).data move) :=
  h.owns.exists_usable hi

/-- **A constructor throws**, with `k` elements moved.  The array has its elements unless the moves
changed them. -/
theorem drained_iff (harrays : s'.arrays = s.arrays)
    (halloc : ∀ p, (s'.blocks p).isSome = (s.blocks p).isSome)
    (hslots : s'.slots (s.arrays a).data
      = (built T s (some r) 0 k (.transfer (s.arrays a).data T.moveIfNoexcept)).slots
          (s.arrays a).data) :
    Owns T (release s' (some r)) a xs ↔ ¬ Drained T xs k := by
  refine h.owns.drained_iff (arrays_release.trans harrays) (fun p hp => ?_) ?_
  · rw [isSome_release_of_ne (by rw [← hp]; exact h.ne), halloc]
    exact h.owns.allocated p hp
  · rw [slots_release_of_ne h.ne, hslots, slots_built_src h.ne]

/-- The elements are moved when no constructor throws and the block has room. -/
theorem outcome_move (hk : k ≤ xs.length) (hm : k ≤ m)
    (hthrow : ∀ i, i < k → ¬ Throws T f (.transfer none T.moveIfNoexcept) i) :
    outcome (uninitializedMoveIfNoexcept T f (s.arrays a).data (some r) k) s
      = some (.ok (), built T s (some r) 0 k (.transfer (s.arrays a).data T.moveIfNoexcept)) :=
  outcome_constructRange h.ne (Nat.zero_le k) fun i _ hi =>
    ⟨by rw [h.room]; omega, fun ht => hthrow i hi (throws_transfer.mp ht), h.supplied (by omega)⟩

/-- A move throws. -/
theorem outcome_move_throw (hk : k ≤ xs.length) (hj : j < k) (hm : j < m)
    (hthrow : Throws T f (.transfer none T.moveIfNoexcept) j) :
    outcome (uninitializedMoveIfNoexcept T f (s.arrays a).data (some r) k) s
      = some (.error .element, wiped T
          (built T s (some r) 0 j (.transfer (s.arrays a).data T.moveIfNoexcept)) (some r) 0 j) :=
  outcome_constructRange_throw h.ne (Nat.zero_le j) hj (by rwa [h.room])
    (throws_transfer.mpr hthrow) fun i _ hi => h.supplied (by omega)

/-- The block is too short for the elements. -/
theorem outcome_move_none (hk : k ≤ xs.length) (hm : m < k)
    (hthrow : ∀ i, i < m → ¬ Throws T f (.transfer none T.moveIfNoexcept) i) :
    outcome (uninitializedMoveIfNoexcept T f (s.arrays a).data (some r) k) s = none :=
  outcome_constructRange_none h.ne (by omega) (by rwa [h.room]) fun i _ hi => by
    rw [h.room] at hi
    exact ⟨fun ht => hthrow i hi (throws_transfer.mp ht), h.supplied (by omega)⟩

/-- `fillNew` when nothing goes wrong. -/
theorem outcome_fillNew (htriv : T.isTrivial = false) (hn : xs.length ≤ n) (hm : m = n)
    (hstop : ∀ j, ¬ StopsAt T f xs.length n j) :
    outcome (fillNew T f (s.arrays a) (some r) n) s
      = some (.ok (), built T
          (built T s (some r) 0 xs.length (.transfer (s.arrays a).data T.moveIfNoexcept))
          (some r) xs.length n .default) := by
  have hmove := h.outcome_move (f := f) le_rfl (by omega) fun i hi ht =>
    hstop i ⟨by omega, by rwa [if_pos hi]⟩
  rw [fillNew, h.owns.size, outcome_bind_ok hmove, uninitializedDefaultConstruct,
    if_neg (by simp [htriv])]
  refine outcome_constructRange apart_default hn fun i hlo hhi => ⟨?_, fun ht => ?_, trivial⟩
  · rw [length_slots_built, h.room]
    omega
  · exact hstop i ⟨hhi, by rwa [if_neg (Nat.not_lt.mpr hlo)]⟩

/-- `fillNew` when a constructor throws. -/
theorem outcome_fillNew_throw (htriv : T.isTrivial = false) (hm : j < m)
    (hstop : StopsAt T f xs.length n j) :
    ∃ s', outcome (fillNew T f (s.arrays a) (some r) n) s = some (.error .element, s')
      ∧ (s'.blocks r).isSome ∧ (Owns T (release s' (some r)) a xs ↔ ¬ Drained T xs j) := by
  obtain ⟨hjn, hthrow⟩ := hstop
  rw [fillNew, h.owns.size]
  by_cases hj : j < xs.length
  · -- a move throws
    rw [if_pos hj] at hthrow
    refine ⟨_, outcome_bind_error (h.outcome_move_throw le_rfl hj hm hthrow), ?_,
      h.drained_iff ?_ ?_ ?_⟩
    · rw [isSome_wiped, isSome_built]
      exact h.allocated
    · rw [arrays_wiped, arrays_built]
    · intro p
      rw [isSome_wiped, isSome_built]
    · rw [slots_wiped_of_ne h.ne]
  · -- a default constructor throws, when all elements have been moved
    rw [if_neg hj] at hthrow
    have hmove := h.outcome_move (f := f) le_rfl (by omega) fun i hi ht => by
      have heq := Option.some.inj (hthrow.1.symm.trans ht.1)
      omega
    have hdefault : outcome (constructRange T f .default (some r) xs.length n)
        (built T s (some r) 0 xs.length (.transfer (s.arrays a).data T.moveIfNoexcept)) = _ :=
      outcome_constructRange_throw apart_default (Nat.not_lt.mp hj) hjn
        (by rwa [length_slots_built, h.room]) hthrow fun i _ _ => trivial
    rw [outcome_bind_ok hmove, uninitializedDefaultConstruct, if_neg (by simp [htriv]), hdefault]
    refine ⟨_, rfl, ?_, ?_⟩
    · rw [isSome_wiped, isSome_built, isSome_built]
      exact h.allocated
    · rw [drained_all (Nat.not_lt.mp hj)]
      refine h.drained_iff ?_ ?_ ?_
      · rw [arrays_wiped, arrays_built, arrays_built]
      · intro p
        rw [isSome_wiped, isSome_built, isSome_built]
      · rw [slots_wiped_of_ne h.ne, built, Memory.slots_patch_of_ne h.ne]

/-- `fillNew` when the size in bytes has overflowed. -/
theorem outcome_fillNew_none (htriv : T.isTrivial = false) (hn : xs.length ≤ n) (hm : m < n)
    (hstop : ∀ j, j < m → ¬ StopsAt T f xs.length n j) :
    outcome (fillNew T f (s.arrays a) (some r) n) s = none := by
  rw [fillNew, h.owns.size]
  have hthrow : ∀ i, i < m → i < xs.length → ¬ Throws T f (.transfer none T.moveIfNoexcept) i :=
    fun i him hi ht => hstop i him ⟨by omega, by rwa [if_pos hi]⟩
  rcases Nat.lt_or_ge m xs.length with hlt | hge
  · exact outcome_bind_none (h.outcome_move_none le_rfl hlt fun i hi => hthrow i hi (by omega))
  · rw [outcome_bind_ok (h.outcome_move le_rfl hge fun i hi => hthrow i (by omega) hi),
      uninitializedDefaultConstruct, if_neg (by simp [htriv])]
    refine outcome_constructRange_none apart_default (by omega) ?_ fun i hlo hi => ⟨fun ht => ?_, trivial⟩
    · rwa [length_slots_built, h.room]
    · rw [length_slots_built, h.room] at hi
      exact hstop i hi ⟨by omega, by rwa [if_neg (Nat.not_lt.mpr hlo)]⟩

end Beside

end

/-! ## Growing -/

section

variable {ι V : Type} [DecidableEq ι] {T : ElemType V} {f : Faults} {s s' : Memory ι V} {a : ι}
  {xs ys : List (Storage V)} {n : ℕ}

omit [DecidableEq ι] in
theorem getArray_bind {α : Type} {k : ArrayHeader → BlockM ι V α} :
    outcome (getArray a >>= k) s = outcome (k (s.arrays a)) s := rfl

theorem isTrivial_of_not_canReallocate (h : T.canReallocate = false) : T.isTrivial = false :=
  (Bool.or_eq_false_iff.mp h).1

/-- The array after its elements were moved to the block `r` and others constructed behind. -/
theorem Beside.grown {r : Addr} (h : Beside T s a xs r n) (hn : xs.length < n)
    (hfits : n * T.sizeof < 2 ^ 64) :
    Grown T a xs n
      ((release (built T
          (built T s (some r) 0 xs.length (.transfer (s.arrays a).data T.moveIfNoexcept))
          (some r) xs.length n .default) (s.arrays a).data).setArray a ⟨some r, n⟩) := by
  have hlen : (xs ++ List.replicate (n - xs.length) (Storage.live T.default)).length = n := by
    rw [List.length_append, List.length_replicate]
    omega
  refine ⟨List.replicate (n - xs.length) (.live T.default), ?_, ?_, fun y hy => ?_⟩
  · refine owns_setArray hlen ?_ ?_ ?_ hfits
    · rintro p hp
      obtain rfl := Option.some.inj hp
      rw [isSome_release_of_ne h.ne.symm, isSome_built, isSome_built]
      exact h.allocated
    · rw [slots_release_of_ne h.ne.symm, List.prefix_iff_getElem?]
      intro i hi
      rw [hlen] at hi
      rw [← List.getElem?_eq_getElem]
      have hapart : Apart (some r) (.transfer (s.arrays a).data T.moveIfNoexcept) := h.ne
      rcases Nat.lt_or_ge i xs.length with hlt | hge
      · rw [slots_built_dst apart_default fun hm => Nat.not_le.mpr hlt hm.1, slots_built hapart (Nat.zero_le i) hlt
          (by rw [h.room]; omega) (h.supplied hlt), Init.value, h.owns.getElem? hlt,
          List.getElem?_append_left hlt, List.getElem?_eq_getElem hlt]
      · rw [slots_built apart_default hge hi (by rw [length_slots_built, h.room]; omega) trivial,
          Init.value, List.getElem?_append_right hge, List.getElem?_replicate_of_lt (by omega)]
    · intro x hx
      rcases List.mem_append.mp hx with hx | hx
      · exact h.owns.usable x hx
      · rw [List.eq_of_mem_replicate hx]
        rfl
  · rw [List.length_replicate]
    omega
  · exact Or.inr (List.eq_of_mem_replicate hy)

/-- What is done with the new block. -/
theorem Beside.grow_iff {r : Addr} (h : Beside T s a xs r (T.capacity n)) (hn : xs.length < n)
    (htriv : T.isTrivial = false) :
    Ends (outcome (do
        tryCatch (fillNew T f (s.arrays a) (some r) n) fun e => do
          deallocate (some r)
          throw e
        deallocate (s.arrays a).data
        putArray a ⟨some r, n⟩) s) (Grown T a xs n) (fun s' => Owns T s' a xs)
      ↔ (∃ j, StopsAt T f xs.length n j ∧ j < T.capacity n ∧ ¬ Drained T xs j)
        ∨ ((∀ j, ¬ StopsAt T f xs.length n j) ∧ n * T.sizeof < 2 ^ 64) := by
  by_cases hstop : ∃ j, StopsAt T f xs.length n j ∧ j < T.capacity n
  · obtain ⟨j, hj, hroom⟩ := hstop
    obtain ⟨s', hfill, hsome, howns⟩ := h.outcome_fillNew_throw htriv hroom hj
    rw [outcome_bind_error ((outcome_catch_error hfill).trans (outcome_giveBack hsome))]
    refine howns.trans ⟨fun hkeep => Or.inl ⟨j, hj, hroom, hkeep⟩, ?_⟩
    rintro (⟨i, hi, -, hkeep⟩ | ⟨hnone, -⟩)
    · rwa [hj.unique hi]
    · exact absurd hj (hnone j)
  push Not at hstop
  by_cases hfits : n * T.sizeof < 2 ^ 64
  · have hcap : T.capacity n = n := T.capacity_of_fits hfits
    have hnone : ∀ j, ¬ StopsAt T f xs.length n j := fun j hj =>
      absurd hj.1 (Nat.not_lt.mpr (hcap ▸ hstop j hj))
    have hfill := h.outcome_fillNew htriv hn.le hcap hnone
    rw [outcome_bind_ok (outcome_catch_ok hfill), outcome_bind_ok (outcome_deallocate ?_)]
    · rw [hcap] at h
      exact iff_of_true (h.grown hn hfits) (Or.inr ⟨hnone, hfits⟩)
    · intro p hp
      rw [isSome_built, isSome_built]
      exact h.owns.allocated p hp
  · -- the block is shorter than the code takes it to be
    have hcap : T.capacity n < n := T.capacity_lt (Nat.not_lt.mp hfits)
    have hfill := h.outcome_fillNew_none (f := f) htriv hn.le hcap fun j hj hs =>
      absurd hj (Nat.not_lt.mpr (hstop j hs))
    rw [outcome_bind_none (outcome_catch_none hfill)]
    refine iff_of_false id ?_
    rintro (⟨j, hj, hroom, -⟩ | ⟨-, hfits'⟩)
    · exact absurd hroom (Nat.not_lt.mpr (hstop j hj))
    · exact hfits hfits'

/-- Growing by moving the elements is safe in these cases and no others. -/
theorem reallocateElements_iff (h : Owns T s a xs) (hn : xs.length < n)
    (hcan : T.canReallocate = false) :
    Ends (outcome (reallocateElements T f a n) s) (Grown T a xs n) (fun s' => Owns T s' a xs)
      ↔ GrowSafe T f (s.arrays a).data xs n := by
  rw [GrowSafe, if_neg (by simp [hcan]), reallocateElements, getArray_bind]
  cases hmemory : f.memory with
  | false =>
    rw [outcome_bind_ok (outcome_allocate_none hmemory)]
    exact iff_of_true h (Or.inl rfl)
  | true =>
    rw [outcome_bind_ok (outcome_allocate hmemory)]
    refine (h.beside.grow_iff hn (isTrivial_of_not_canReallocate hcan)).trans ?_
    rw [or_iff_right Bool.false_ne_true.symm]

omit [DecidableEq ι] in
/-- A block that was given back is not the block of an array. -/
theorem not_owns_free {p : Addr} (hp : (s.arrays a).data = some p) : ¬ Owns T (s.free p) a xs := by
  intro h
  have hsome := h.allocated p hp
  rw [Memory.blocks_free, Function.update_self] at hsome
  cases hsome

/-- The array in a block that `realloc` made longer. -/
theorem Reallocated.grow_iff {r : Addr} (hr : Reallocated T f s s' (s.arrays a).data n r)
    (h : Owns T s a xs) (hn : xs.length < n) (hcan : T.canReallocate = true) :
    Ends (outcome (do
        uninitializedDefaultConstruct T f (some r) (s.arrays a).size n
        putArray a ⟨some r, n⟩) s') (Grown T a xs n) (fun s' => Owns T s' a xs)
      ↔ n * T.sizeof < 2 ^ 64 := by
  have hlen : (s'.slots (some r)).length = T.capacity n := by rw [hr.slots, length_reshape]
  have hkept : T.capacity n = n → ∀ i, i < xs.length → (s'.slots (some r))[i]? = xs[i]? := by
    intro hcap i hi
    rw [hr.slots, getElem?_reshape (by omega), h.getElem? hi, Option.getD_some,
      List.getElem?_eq_getElem hi]
  rw [h.size, uninitializedDefaultConstruct]
  split_ifs with htriv
  · -- the new elements are left as they come
    change Grown T a xs n (s'.setArray a ⟨some r, n⟩) ↔ _
    constructor
    · rintro ⟨ys, hys, hsum, -⟩
      have hle := hys.length_le
      rw [Memory.arrays_setArray_self, Memory.slots_setArray, hlen, List.length_append, hsum,
        max_eq_right hn.le] at hle
      by_contra hover
      exact absurd hle (Nat.not_le.mpr (T.capacity_lt (Nat.not_lt.mp hover)))
    · intro hfits
      have hcap : T.capacity n = n := T.capacity_of_fits hfits
      have hxs : xs <+: s'.slots (some r) := by
        rw [List.prefix_iff_getElem?]
        intro i hi
        rw [hkept hcap i hi, List.getElem?_eq_getElem hi]
      obtain ⟨ys, hys⟩ := hxs
      rw [← hys, List.length_append, hcap] at hlen
      refine ⟨ys, owns_setArray (by rw [List.length_append, hlen]) ?_ ?_ ?_ hfits, ?_,
        fun y _ => Or.inl htriv⟩
      · rintro p hp
        rw [← Option.some.inj hp]
        exact hr.allocated
      · rw [hys]
      · intro x _
        cases x with
        | raw => exact htriv
        | live v => rfl
      · omega
  · -- the constructor does not throw
    have hnothrow : ∀ i, ¬ Throws T f .default i := by
      rintro i ⟨-, hthrow⟩
      rw [ElemType.canReallocate, Bool.or_eq_true, Bool.and_eq_true] at hcan
      exact absurd (hcan.resolve_left htriv).2 (by rw [← ElemType.nothrow_default, hthrow]; decide)
    by_cases hfits : n * T.sizeof < 2 ^ 64
    · have hcap : T.capacity n = n := T.capacity_of_fits hfits
      have hzs : (xs ++ List.replicate (n - xs.length) (Storage.live T.default)).length = n := by
        rw [List.length_append, List.length_replicate]
        omega
      rw [outcome_bind_ok (outcome_constructRange apart_default hn.le fun i _ hi =>
        ⟨by rw [hlen]; omega, hnothrow i, trivial⟩)]
      refine iff_of_true ⟨List.replicate (n - xs.length) (.live T.default),
        owns_setArray hzs ?_ ?_ ?_ hfits, ?_, fun y hy => Or.inr (List.eq_of_mem_replicate hy)⟩
        hfits
      · rintro p hp
        rw [← Option.some.inj hp, isSome_built]
        exact hr.allocated
      · rw [List.prefix_iff_getElem?]
        intro i hi
        rw [hzs] at hi
        rw [← List.getElem?_eq_getElem]
        rcases Nat.lt_or_ge i xs.length with hlt | hge
        · rw [slots_built_dst apart_default fun hm => Nat.not_le.mpr hlt hm.1, hkept hcap i hlt,
            List.getElem?_append_left hlt]
        · rw [slots_built apart_default hge hi (by rw [hlen]; omega) trivial, Init.value,
            List.getElem?_append_right hge, List.getElem?_replicate_of_lt (by omega)]
      · intro x hx
        rcases List.mem_append.mp hx with hx | hx
        · exact h.usable x hx
        · rw [List.eq_of_mem_replicate hx]
          rfl
      · rw [List.length_replicate]
        omega
    · rw [outcome_bind_none (outcome_constructRange_none apart_default hn
        (by rw [hlen]; exact T.capacity_lt (Nat.not_lt.mp hfits))
        fun i _ _ => ⟨hnothrow i, trivial⟩)]
      exact iff_of_false id hfits

/-- Growing by `realloc` is safe in these cases and no others. -/
theorem reallocateBlock_iff (h : Owns T s a xs) (hn : xs.length < n)
    (hcan : T.canReallocate = true) :
    Ends (outcome (reallocateBlock T f a n) s) (Grown T a xs n) (fun s' => Owns T s' a xs)
      ↔ GrowSafe T f (s.arrays a).data xs n := by
  rw [GrowSafe, if_pos hcan, reallocateBlock, getArray_bind]
  by_cases hbytes : (s.arrays a).data = none ∨ T.bytes n ≠ 0
  · cases hmemory : f.memory with
    | false =>
      rw [outcome_bind_ok (outcome_reallocate_none h.allocated hmemory hbytes)]
      exact iff_of_true h (Or.inr ⟨rfl, hbytes⟩)
    | true =>
      obtain ⟨r, s', hrun, hr⟩ := outcome_reallocate (T := T) h.allocated hmemory hbytes
      rw [outcome_bind_ok hrun]
      refine (hr.grow_iff h hn hcan).trans ?_
      rw [or_iff_left]
      exact fun hfail => Bool.true_eq_false.mp hfail.1
  · -- the size in bytes is a multiple of `2 ^ 64`, and the block is given back
    rw [not_or, not_not] at hbytes
    obtain ⟨p, hp⟩ := Option.ne_none_iff_exists'.mp hbytes.1
    have hfree := outcome_reallocate_zero (f := f) (h.allocated p hp) hbytes.2
    rw [hp, outcome_bind_ok hfree]
    refine iff_of_false (not_owns_free hp) ?_
    rintro (hfits | ⟨-, hnone | hne⟩)
    · exact T.bytes_ne_zero hfits (by omega) hbytes.2
    · cases hnone
    · exact hne hbytes.2

/-- **`Grow`.** -/
theorem grow_iff (h : Owns T s a xs) :
    Ends (outcome (grow T f a n) s) (Grown T a xs n) (fun s' => Owns T s' a xs)
      ↔ (xs.length < n → GrowSafe T f (s.arrays a).data xs n) := by
  rw [grow, getArray_bind, h.size]
  by_cases hn : n ≤ xs.length
  · rw [if_pos hn]
    refine iff_of_true ⟨[], by rwa [List.append_nil], ?_, by simp⟩ fun hlt => absurd hlt (by omega)
    rw [List.length_nil, Nat.add_zero, max_eq_left hn]
  · rw [if_neg hn]
    have hlt : xs.length < n := Nat.not_le.mp hn
    cases hcan : T.canReallocate with
    | true => exact (reallocateBlock_iff h hlt hcan).trans ⟨fun hs _ => hs, fun hs => hs hlt⟩
    | false => exact (reallocateElements_iff h hlt hcan).trans ⟨fun hs _ => hs, fun hs => hs hlt⟩

/-! ## Shrinking -/

omit [DecidableEq ι] in
/-- A type with a destructor is not trivial. -/
theorem isTrivial_of_destructor (h : T.triviallyDestructible = false) : T.isTrivial = false := by
  rw [← Bool.not_eq_true]
  intro htriv
  rw [T.destructible_of_trivial htriv] at h
  cases h

/-- The first elements in a block of their own. -/
theorem owns_take {r : Addr} (h : Owns T s a xs) (hn : n ≤ xs.length)
    (hsome : (s'.blocks r).isSome) (hslots : xs.take n <+: s'.slots (some r)) :
    Owns T (s'.setArray a ⟨some r, n⟩) a (xs.take n) := by
  refine owns_setArray (by rw [List.length_take]; omega) ?_ hslots ?_ (T.fits_of_le h.fits hn)
  · rintro p hp
    rwa [← Option.some.inj hp]
  · exact fun x hx => h.usable x (List.mem_of_mem_take hx)

/-- Nothing in no block. -/
theorem owns_nil : Owns T (s'.setArray a ⟨none, 0⟩) a [] :=
  owns_setArray rfl (fun p hp => by cases hp) List.nil_prefix (fun x hx => by cases hx)
    (by rw [Nat.zero_mul]; decide)

omit [DecidableEq ι] in
/-- Destroying the last elements is seen where there is a destructor. -/
theorem Owns.wiped_iff (h : Owns T s a xs) (hn : n < xs.length) :
    Owns T (wiped T s (s.arrays a).data n xs.length) a xs ↔ T.triviallyDestructible = true := by
  rw [wiped]
  split_ifs with htriv
  · exact iff_of_true h htriv
  · refine iff_of_false (fun howns => ?_) htriv
    obtain ⟨v, hv⟩ := h.exists_live (isTrivial_of_destructor (by simpa using htriv)) hn
    have hget := howns.getElem? hn
    change ((Memory.patch _ _ _ _ _).slots (s.arrays a).data)[n]? = _ at hget
    rw [Memory.slots_patch_self, getElem?_patch_of_mem le_rfl hn, hv, Option.map_some] at hget
    have hlive := h.getElem? hn
    rw [hv, ← Option.some.inj hget] at hlive
    cases hlive

/-- Shrinking by `realloc` is safe in these cases and no others. -/
theorem shrinkBlock_iff (h : Owns T s a xs) (hn : n < xs.length) :
    Ends (outcome (shrinkBlock T f a n) s) (fun s' => Owns T s' a (xs.take n))
        (fun s' => Owns T s' a xs)
      ↔ n = 0 ∨ f.memory = true ∨ T.triviallyDestructible = true := by
  have hdestroy := outcome_destroyRange (T := T) (s := s) (p := (s.arrays a).data) hn.le
    fun htriv i _ hi => h.exists_live (isTrivial_of_destructor htriv) hi
  have halloc : ∀ p, (s.arrays a).data = some p →
      ((wiped T s (s.arrays a).data n xs.length).blocks p).isSome := fun p hp => by
    rw [isSome_wiped]
    exact h.allocated p hp
  rw [shrinkBlock, getArray_bind, h.size, outcome_bind_ok hdestroy]
  by_cases hzero : n = 0
  · -- the block is given back
    subst hzero
    obtain ⟨p, hp⟩ := Option.ne_none_iff_exists'.mp fun hnone => by
      rw [h.eq_nil_of_none hnone] at hn
      cases hn
    have hfree := outcome_reallocate_zero (T := T) (f := f) (n := 0) (halloc p hp)
      (by rw [ElemType.bytes, Nat.zero_mul, Nat.zero_mod])
    rw [hp] at hfree ⊢
    rw [outcome_bind_ok hfree]
    exact iff_of_true owns_nil (Or.inl rfl)
  have hbytes : T.bytes n ≠ 0 := T.bytes_ne_zero (T.fits_of_le h.fits hn.le) hzero
  cases hmemory : f.memory with
  | true =>
    obtain ⟨r, s', hrun, hr⟩ := outcome_reallocate (T := T) halloc hmemory (Or.inr hbytes)
    rw [outcome_bind_ok hrun, if_neg (by simp), if_neg hzero]
    refine iff_of_true (owns_take h hn.le hr.allocated ?_) (Or.inr (Or.inl rfl))
    rw [hr.slots, T.capacity_of_fits (T.fits_of_le h.fits hn.le)]
    -- the first elements are beside those that were destroyed
    have hkept : xs.take n <+: (wiped T s (s.arrays a).data n xs.length).slots
        (s.arrays a).data := by
      rw [List.prefix_iff_getElem?]
      intro i hi
      rw [List.length_take] at hi
      rw [wiped, List.getElem_take]
      split_ifs
      · exact h.getElem? (by omega)
      · rw [Memory.slots_patch_self, getElem?_patch_of_notMem (by omega), h.getElem? (by omega)]
    have hprefix := take_prefix_reshape (n := n) hkept
    rwa [List.take_take, min_self] at hprefix
  | false =>
    rw [outcome_bind_ok (outcome_reallocate_none halloc hmemory (Or.inr hbytes)),
      if_pos ⟨rfl, hzero⟩]
    refine (h.wiped_iff hn).trans ?_
    rw [or_iff_right hzero, or_iff_right Bool.false_ne_true]

/-- The last elements are destroyed and the old block is given back. -/
theorem outcome_finishShrink {q : Option Addr} (h : Owns T s a xs) (htriv : T.isTrivial = false)
    (hn : n ≤ xs.length) (halloc : ∀ p, (s.arrays a).data = some p → (s'.blocks p).isSome)
    (hslots : ∀ i, n ≤ i → (s'.slots (s.arrays a).data)[i]? = (s.slots (s.arrays a).data)[i]?) :
    outcome (do
        destroyLast T (s.arrays a) n
        deallocate (s.arrays a).data
        putArray a ⟨q, n⟩) s'
      = some (.ok (), (release (s'.patch (s.arrays a).data n xs.length fun _ _ => .raw)
          (s.arrays a).data).setArray a ⟨q, n⟩) := by
  have hdestroy := outcome_destroyEach (s := s') (p := (s.arrays a).data) hn fun i hlo hi => by
    rw [hslots i hlo]
    exact h.exists_live htriv hi
  rw [destroyLast, if_neg (by simp [htriv]), h.size, outcome_bind_ok hdestroy,
    outcome_bind_ok (outcome_deallocate fun p hp => ?_)]
  · rfl
  · rw [Memory.patch, isSome_modify]
    exact halloc p hp

/-- What is done with the new block. -/
theorem Beside.shrink_iff {r : Addr} (h : Beside T s a xs r n) (hn : n ≤ xs.length)
    (htriv : T.isTrivial = false) :
    Ends (outcome (do
        let newData ← moveInto T f (s.arrays a) (some r) n
        destroyLast T (s.arrays a) n
        deallocate (s.arrays a).data
        putArray a ⟨newData, n⟩) s) (fun s' => Owns T s' a (xs.take n)) (fun s' => Owns T s' a xs)
      ↔ ∀ j, StopsAt T f n n j → ¬ Drained T xs j := by
  -- a constructor throws at some element, or at none
  by_cases hstop : ∃ j, StopsAt T f n n j
  · obtain ⟨j, hj⟩ := hstop
    have hthrow := hj.2
    rw [if_pos hj.1] at hthrow
    have hmove := h.outcome_move_throw hn hj.1 hj.1 hthrow
    have hinto : outcome (moveInto T f (s.arrays a) (some r) n) s = some (.error .element, _) :=
      outcome_bind_error ((outcome_catch_error hmove).trans (outcome_giveBack (by
        rw [isSome_wiped, isSome_built]
        exact h.allocated)))
    rw [outcome_bind_error hinto]
    refine (h.drained_iff (k := j) ?_ ?_ ?_).trans ⟨fun hkeep i hi => ?_, fun hkeep => hkeep j hj⟩
    · rw [arrays_wiped, arrays_built]
    · intro p
      rw [isSome_wiped, isSome_built]
    · rw [slots_wiped_of_ne h.ne]
    · rwa [hi.unique hj]
  · push Not at hstop
    have hmove := h.outcome_move (f := f) hn le_rfl fun i hi ht =>
      hstop i ⟨hi, by rwa [if_pos hi]⟩
    have hapart : Apart (some r) (.transfer (s.arrays a).data T.moveIfNoexcept) := h.ne
    have hinto : outcome (moveInto T f (s.arrays a) (some r) n) s = some (.ok (some r), _) :=
      outcome_bind_ok (outcome_catch_ok hmove)
    rw [outcome_bind_ok hinto, outcome_finishShrink h.owns htriv hn ?_ ?_]
    · refine iff_of_true (owns_take h.owns hn ?_ ?_) fun j hj => absurd hj (hstop j)
      · rw [isSome_release_of_ne h.ne.symm, Memory.patch, isSome_modify, isSome_built]
        exact h.allocated
      · rw [slots_release_of_ne h.ne.symm, Memory.slots_patch_of_ne h.ne.symm,
          List.prefix_iff_getElem?]
        intro i hi
        rw [List.length_take] at hi
        rw [slots_built hapart (Nat.zero_le i) (by omega) (by rw [h.room]; omega)
          (h.supplied (by omega)), Init.value, h.owns.getElem? (by omega), List.getElem_take]
    · intro p hp
      rw [isSome_built]
      exact h.owns.allocated p hp
    · exact fun i hi => getElem?_slots_built h.ne hi _

/-- Shrinking by moving the elements is safe in these cases and no others. -/
theorem shrinkElements_iff (h : Owns T s a xs) (hn : n < xs.length)
    (hcan : T.canReallocate = false) :
    Ends (outcome (shrinkElements T f a n) s) (fun s' => Owns T s' a (xs.take n))
        (fun s' => Owns T s' a xs)
      ↔ n = 0 ∨ f.memory = false ∨ ∀ j, StopsAt T f n n j → ¬ Drained T xs j := by
  have htriv := isTrivial_of_not_canReallocate hcan
  rw [shrinkElements, getArray_bind, moveFirst]
  by_cases hzero : n = 0
  · subst hzero
    rw [if_pos rfl, outcome_bind_ok outcome_pure,
      outcome_finishShrink h htriv hn.le h.allocated fun _ _ => rfl]
    exact iff_of_true owns_nil (Or.inl rfl)
  rw [if_neg hzero, or_iff_right hzero]
  cases hmemory : f.memory with
  | false =>
    rw [outcome_bind_error ((outcome_bind_ok (outcome_allocate_none hmemory)).trans outcome_throw)]
    exact iff_of_true h (Or.inl rfl)
  | true =>
    have hb := h.beside (n := T.capacity n)
    rw [T.capacity_of_fits (T.fits_of_le h.fits hn.le)] at hb
    rw [bind_assoc, outcome_bind_ok (outcome_allocate hmemory), orBadAlloc_some,
      T.capacity_of_fits (T.fits_of_le h.fits hn.le)]
    refine (hb.shrink_iff hn.le htriv).trans ?_
    rw [or_iff_right Bool.false_ne_true.symm]

/-- **`Shrink`.** -/
theorem shrink_iff (h : Owns T s a xs) :
    Ends (outcome (shrink T f a n) s) (fun s' => Owns T s' a (xs.take n))
        (fun s' => Owns T s' a xs)
      ↔ (n < xs.length → ShrinkSafe T f xs n) := by
  rw [shrink, getArray_bind, h.size]
  by_cases hn : xs.length ≤ n
  · rw [if_pos hn]
    refine iff_of_true ?_ fun hlt => absurd hlt (Nat.not_lt.mpr hn)
    rw [List.take_of_length_le hn]
    exact h
  · rw [if_neg hn]
    have hlt : n < xs.length := Nat.not_le.mp hn
    rw [ShrinkSafe]
    cases hcan : T.canReallocate with
    | true => exact (shrinkBlock_iff h hlt).trans ⟨fun hs _ => hs, fun hs => hs hlt⟩
    | false => exact (shrinkElements_iff h hlt hcan).trans ⟨fun hs _ => hs, fun hs => hs hlt⟩

end

/-! ## A constructor that throws behind a move -/

end RawMemory

end Mmkvc
