/-
# Reserved arrays (`algo/reserved_array.h`)

An array is a block and a size, and has no capacity.  Where the source selects a body by the traits
of the type, each body is a definition of its own.  The members `data_` and `end_` are set at the
end of an operation, so a call that throws leaves them as they were.
-/
import Mmkvc.Uninitialized

namespace Mmkvc

namespace RawMemory

section

variable {ι V : Type} [DecidableEq ι] (T : ElemType V) (f : Faults)

def getArray (a : ι) : BlockM ι V ArrayHeader := fun s => some (.ok (s.arrays a), s)

def putArray (a : ι) (x : ArrayHeader) : BlockM ι V Unit := fun s => some (.ok (), s.setArray a x)

/-- What follows a request for memory. -/
def orBadAlloc {α : Type} (p : Option Addr) (k : BlockM ι V α) : BlockM ι V α :=
  if p = none then throw .badAlloc else k

/-! ## Growing -/

/-- `Reallocate`, for a type that can be reallocated. -/
def reallocateBlock (a : ι) (n : ℕ) : BlockM ι V Unit := do
  let x ← getArray a
  let tmp ← reallocate T f x.data n
  orBadAlloc tmp do
    uninitializedDefaultConstruct T f tmp x.size n
    putArray a ⟨tmp, n⟩

/-- The body of the `try` of `Reallocate`. -/
def fillNew (x : ArrayHeader) (newData : Option Addr) (n : ℕ) : BlockM ι V Unit := do
  uninitializedMoveIfNoexcept T f x.data newData x.size
  uninitializedDefaultConstruct T f newData x.size n

/-- `Reallocate`, for a type that cannot be reallocated. -/
def reallocateElements (a : ι) (n : ℕ) : BlockM ι V Unit := do
  let x ← getArray a
  let newData ← allocate T f n
  orBadAlloc newData do
    tryCatch (fillNew T f x newData n) fun e => do
      deallocate newData
      throw e
    deallocate x.data
    putArray a ⟨newData, n⟩

/-- `Grow`. -/
def grow (a : ι) (n : ℕ) : BlockM ι V Unit := do
  if n ≤ (← getArray a).size then return ()
  else if T.canReallocate then reallocateBlock T f a n else reallocateElements T f a n

/-! ## Shrinking -/

/-- `Shrink_impl`, for a type that can be reallocated. -/
def shrinkBlock (a : ι) (n : ℕ) : BlockM ι V Unit := do
  let x ← getArray a
  destroyRange T x.data n x.size
  let tmp ← reallocate T f x.data n
  if tmp = none ∧ n ≠ 0 then throw .badAlloc
  else if n = 0 then putArray a ⟨none, 0⟩ else putArray a ⟨tmp, n⟩

/-- The body and the handler of the `try` of `Shrink_impl`. -/
def moveInto (x : ArrayHeader) (newData : Option Addr) (n : ℕ) : BlockM ι V (Option Addr) := do
  tryCatch (uninitializedMoveIfNoexcept T f x.data newData n) fun e => do
    deallocate newData
    throw e
  return newData

/-- The part of `Shrink_impl` that makes the new block. -/
def moveFirst (x : ArrayHeader) (n : ℕ) : BlockM ι V (Option Addr) :=
  if n = 0 then return none
  else do
    let newData ← allocate T f n
    orBadAlloc newData (moveInto T f x newData n)

/-- `AllocTraits::destroy` on each of the last elements. -/
def destroyLast (x : ArrayHeader) (n : ℕ) : BlockM ι V Unit :=
  if T.isTrivial then return () else forSlots (destroyAt x.data) n (x.size - n)

/-- `Shrink_impl`, for a type that cannot be reallocated. -/
def shrinkElements (a : ι) (n : ℕ) : BlockM ι V Unit := do
  let x ← getArray a
  let newData ← moveFirst T f x n
  destroyLast T x n
  deallocate x.data
  putArray a ⟨newData, n⟩

/-- `Shrink`. -/
def shrink (a : ι) (n : ℕ) : BlockM ι V Unit := do
  if (← getArray a).size ≤ n then return ()
  else if T.canReallocate then shrinkBlock T f a n else shrinkElements T f a n

/-! ## Copying -/

/-- The copy constructor.  It does not test what `allocate` returns. -/
def copyConstruct (b : ι) : BlockM ι V ArrayHeader := do
  let y ← getArray b
  let data ← allocate T f y.size
  tryCatch (uninitializedCopy T f y.data data 0 y.size) fun e => do
    deallocate data
    throw e
  return ⟨data, y.size⟩

/-- The destructor. -/
def destruct (x : ArrayHeader) : BlockM ι V Unit :=
  if x.size = 0 then return ()
  else do
    destroyRange T x.data 0 x.size
    deallocate x.data

/-- `CopyAssignmentForSizeEqual`. -/
def copyAssignmentForSizeEqual (a b : ι) : BlockM ι V Unit :=
  if T.nothrowCopyAssign then do
    let x ← getArray a
    let y ← getArray b
    copyRange T y.data x.data y.size
  else do
    let tmp ← copyConstruct T f b
    let x ← getArray a
    putArray a tmp
    destruct T x

/-- The elements of `y` written over those of `x` in the block that `realloc` returned. -/
def refill (x y : ArrayHeader) (tmp : Option Addr) : BlockM ι V Unit :=
  if x.size < y.size then do
    copyRange T y.data tmp x.size
    uninitializedCopy T f y.data tmp x.size y.size
  else do
    copyRange T y.data tmp y.size
    destroyRange T tmp y.size x.size

/-- `CopyAssignmentForSizeNotEqual`, for a type that meets `cond`. -/
def copyAssignmentByRealloc (a b : ι) : BlockM ι V Unit := do
  let x ← getArray a
  let y ← getArray b
  let tmp ← reallocate T f x.data y.size
  orBadAlloc tmp do
    refill T f x y tmp
    putArray a ⟨tmp, y.size⟩

/-- `CopyAssignmentForSizeNotEqual`, for any other type. -/
def copyAssignmentByCopy (a b : ι) : BlockM ι V Unit := do
  let x ← getArray a
  let y ← getArray b
  let data ← allocate T f y.size
  orBadAlloc data do
    tryCatch (uninitializedCopy T f y.data data 0 y.size) fun e => do
      deallocate data
      throw e
    destroyRange T x.data 0 x.size
    deallocate x.data
    putArray a ⟨data, y.size⟩

/-- The copy assignment operator. -/
def copyAssign (a b : ι) : BlockM ι V Unit := do
  if b = a then return ()
  else if (← getArray a).size = (← getArray b).size then copyAssignmentForSizeEqual T f a b
  else if T.cond then copyAssignmentByRealloc T f a b
  else copyAssignmentByCopy T f a b

end

/-! ## Arrays in memory -/

section

variable {ι V : Type} {T : ElemType V} {f : Faults} {s s' : Memory ι V} {a b : ι}
  {xs ys zs : List (Storage V)} {p q : Option Addr} {n k : ℕ}

/-- The array `a` owns a block, or nothing, and holds the elements `xs`. -/
structure Owns (T : ElemType V) (s : Memory ι V) (a : ι) (xs : List (Storage V)) : Prop where
  size : (s.arrays a).size = xs.length
  allocated : ∀ p, (s.arrays a).data = some p → (s.blocks p).isSome
  slots : xs <+: s.slots (s.arrays a).data
  usable : ∀ x ∈ xs, T.usable x = true
  fits : xs.length * T.sizeof < 2 ^ 64

/-- How a call may end: it returns and `ok` holds then, or it throws and `bad` holds then. -/
def Ends (o : Option (Except Exc Unit × Memory ι V)) (ok bad : Memory ι V → Prop) : Prop :=
  match o with
  | some (.ok _, s') => ok s'
  | some (.error _, s') => bad s'
  | none => False

/-- A block that may be none is given back. -/
def release (s : Memory ι V) : Option Addr → Memory ι V
  | none => s
  | some p => s.free p

@[simp] theorem arrays_release : (release s p).arrays = s.arrays := by
  cases p <;> rfl

/-- Giving a block back leaves the elements of the others alone. -/
theorem slots_release_of_ne (h : q ≠ p) : (release s p).slots q = s.slots q := by
  cases p with
  | none => rfl
  | some p => exact Memory.slots_free_of_ne h

/-- Giving a block back leaves the others allocated. -/
theorem isSome_release_of_ne {r : Addr} (h : some r ≠ p) :
    ((release s p).blocks r).isSome = (s.blocks r).isSome := by
  cases p with
  | none => rfl
  | some p =>
    rw [release, Memory.blocks_free, Function.update_of_ne fun hr => h (congrArg some hr)]

/-- A new block leaves the others allocated. -/
theorem isSome_alloc {r : Addr} (h : (s.blocks r).isSome) : ((s.alloc zs).blocks r).isSome := by
  rw [Memory.blocks_alloc, Function.update_of_ne (Memory.ne_next h)]
  exact h

/-- A block that is there can be given back. -/
theorem outcome_deallocate (h : ∀ p, q = some p → (s.blocks p).isSome) :
    outcome (deallocate q) s = some (.ok (), release s q) := by
  cases q with
  | none => rfl
  | some q => exact if_pos (h q rfl)

/-- The block is given back, and the exception goes on. -/
theorem outcome_giveBack {r : Addr} {e : Exc} (hsome : (s.blocks r).isSome) :
    outcome (do deallocate (some r); throw e : BlockM ι V Unit) s
      = some (.error e, release s (some r)) :=
  outcome_bind_ok (outcome_deallocate fun p hp => by rwa [← Option.some.inj hp])

/-- If there is memory, a new block without elements is got. -/
theorem outcome_allocate (h : f.memory = true) : outcome (allocate T f n) s
    = some (.ok (some s.next), s.alloc (List.replicate (T.capacity n) .raw)) :=
  if_pos h

/-- If there is no memory, nothing is got. -/
theorem outcome_allocate_none (h : f.memory = false) :
    outcome (allocate T f n) s = some (.ok none, s) :=
  if_neg (by rw [h]; exact Bool.false_ne_true)

@[simp] theorem length_reshape : (reshape n xs).length = n := by
  rw [reshape, List.length_append, List.length_take, List.length_replicate]
  omega

/-- The elements that stay in a block, and the raw storage behind them. -/
theorem getElem?_reshape {i : ℕ} (hi : i < n) :
    (reshape n xs)[i]? = some (xs[i]?.getD .raw) := by
  rw [reshape]
  rcases Nat.lt_or_ge i xs.length with hlt | hge
  · rw [List.getElem?_append_left (by rw [List.length_take]; omega), List.getElem?_take_of_lt hi,
      List.getElem?_eq_getElem hlt, Option.getD_some]
  · rw [List.getElem?_append_right (by rw [List.length_take]; omega), List.length_take,
      List.getElem?_replicate_of_lt (by omega), List.getElem?_eq_none hge, Option.getD_none]

/-- The elements that are in the block before and after. -/
theorem take_prefix_reshape (h : xs <+: zs) : xs.take n <+: reshape n zs := by
  rw [List.prefix_iff_getElem?] at h ⊢
  intro i hi
  rw [List.length_take] at hi
  rw [getElem?_reshape (by omega), h i (by omega), Option.getD_some, List.getElem_take]

/-- Where `realloc` puts a block. -/
inductive Relocates (s s' : Memory ι V) (inPlace : Bool) : Option Addr → Addr → Prop where
  | first : Relocates s s' inPlace none s.next
  | same {r : Addr} : inPlace = true → Relocates s s' inPlace (some r) r
  | other {p : Addr} : inPlace = false → s'.blocks p = none → Relocates s s' inPlace (some p) s.next

/-- What is known when `realloc` returned the block `r`. -/
structure Reallocated (T : ElemType V) (f : Faults) (s s' : Memory ι V) (q : Option Addr) (n : ℕ)
    (r : Addr) : Prop where
  relocates : Relocates s s' f.inPlace q r
  arrays : s'.arrays = s.arrays
  allocated : (s'.blocks r).isSome
  slots : s'.slots (some r) = reshape (T.capacity n) (s.slots q)
  frame : ∀ p, some p ≠ q → p ≠ s.next → s'.blocks p = s.blocks p

/-- The cases of `realloc` on a block. -/
theorem outcome_reallocate_some {r : Addr} (hzs : s.blocks r = some zs) :
    outcome (reallocate T f (some r) n) s
      = if T.bytes n = 0 then some (.ok none, s.free r)
        else if !f.memory then some (.ok none, s)
        else if f.inPlace then some (.ok (some r), s.modify (some r) (reshape (T.capacity n)))
        else some (.ok (some s.next), (s.free r).alloc (reshape (T.capacity n) zs)) := by
  show reallocate T f (some r) n s = _
  unfold reallocate
  dsimp only
  rw [hzs]

/-- `realloc` gets the memory. -/
theorem outcome_reallocate (hq : ∀ p, q = some p → (s.blocks p).isSome) (hmem : f.memory = true)
    (hbytes : q = none ∨ T.bytes n ≠ 0) :
    ∃ r s', outcome (reallocate T f q n) s = some (.ok (some r), s')
      ∧ Reallocated T f s s' q n r := by
  cases q with
  | none =>
    refine ⟨s.next, _, outcome_allocate hmem, .first, rfl, ?_, ?_, fun p _ hp => ?_⟩
    · rw [Memory.blocks_alloc, Function.update_self]
      rfl
    · rw [Memory.slots_alloc_self, reshape, Memory.slots_none, List.take_nil, List.nil_append,
        List.length_nil, Nat.sub_zero]
    · rw [Memory.blocks_alloc, Function.update_of_ne hp]
  | some p =>
    obtain ⟨zs, hzs⟩ := Option.isSome_iff_exists.mp (hq p rfl)
    have hbytes' : T.bytes n ≠ 0 := hbytes.resolve_left fun hnone => by cases hnone
    have hne : p ≠ s.next := Memory.ne_next (hq p rfl)
    rw [outcome_reallocate_some hzs, if_neg hbytes', hmem, Bool.not_true,
      if_neg Bool.false_ne_true]
    cases hplace : f.inPlace with
    | true =>
      refine ⟨p, _, rfl, .same hplace, rfl, ?_, ?_, fun r hr _ => ?_⟩
      · rw [Memory.blocks_modify, if_pos rfl, hzs]
        rfl
      · rw [Memory.slots_eq hzs]
        refine Memory.slots_eq ?_
        rw [Memory.blocks_modify, if_pos rfl, hzs]
        rfl
      · rw [Memory.blocks_modify, if_neg hr.symm]
    | false =>
      refine ⟨s.next, _, rfl, .other hplace ?_, rfl, ?_, ?_, fun r hr hr' => ?_⟩
      · rw [Memory.blocks_alloc, Memory.next_free, Function.update_of_ne hne, Memory.blocks_free,
          Function.update_self]
      · rw [Memory.blocks_alloc, Memory.next_free, Function.update_self]
        rfl
      · rw [Memory.slots_eq hzs]
        refine Memory.slots_eq ?_
        rw [Memory.blocks_alloc, Memory.next_free, Function.update_self]
      · rw [Memory.blocks_alloc, Memory.next_free, Function.update_of_ne hr', Memory.blocks_free,
          Function.update_of_ne fun heq => hr (congrArg some heq)]

/-- `realloc` does not get the memory. -/
theorem outcome_reallocate_none (hq : ∀ p, q = some p → (s.blocks p).isSome)
    (hmem : f.memory = false) (hbytes : q = none ∨ T.bytes n ≠ 0) :
    outcome (reallocate T f q n) s = some (.ok none, s) := by
  cases q with
  | none => exact outcome_allocate_none hmem
  | some p =>
    obtain ⟨zs, hzs⟩ := Option.isSome_iff_exists.mp (hq p rfl)
    have hbytes' : T.bytes n ≠ 0 := hbytes.resolve_left fun hnone => by cases hnone
    rw [outcome_reallocate_some hzs, if_neg hbytes', hmem, Bool.not_false, if_pos rfl]

/-- `realloc` to nothing. -/
theorem outcome_reallocate_zero {r : Addr} (hr : (s.blocks r).isSome) (hbytes : T.bytes n = 0) :
    outcome (reallocate T f (some r) n) s = some (.ok none, s.free r) := by
  obtain ⟨zs, hzs⟩ := Option.isSome_iff_exists.mp hr
  rw [outcome_reallocate_some hzs, if_pos hbytes]

@[simp] theorem orBadAlloc_none {α : Type} {m : BlockM ι V α} :
    orBadAlloc none m = throw .badAlloc := rfl

@[simp] theorem orBadAlloc_some {α : Type} {m : BlockM ι V α} {r : Addr} :
    orBadAlloc (some r) m = m := rfl

/-! ### Capacities -/

theorem ElemType.capacity_of_fits (h : n * T.sizeof < 2 ^ 64) : T.capacity n = n := by
  rw [capacity, bytes, Nat.mod_eq_of_lt h, Nat.mul_div_cancel _ T.sizeof_pos]

/-- A size that overflows makes a block that is too small. -/
theorem ElemType.capacity_lt (h : 2 ^ 64 ≤ n * T.sizeof) : T.capacity n < n := by
  rw [capacity, Nat.div_lt_iff_lt_mul T.sizeof_pos]
  exact (Nat.mod_lt _ (by decide)).trans_le h

/-- A size that does not overflow is not zero. -/
theorem ElemType.bytes_ne_zero (h : n * T.sizeof < 2 ^ 64) (hn : n ≠ 0) : T.bytes n ≠ 0 := by
  rw [bytes, Nat.mod_eq_of_lt h]
  exact Nat.mul_ne_zero hn T.sizeof_pos.ne'

theorem ElemType.fits_of_le (h : k * T.sizeof < 2 ^ 64) (hle : n ≤ k) : n * T.sizeof < 2 ^ 64 :=
  (Nat.mul_le_mul_right _ hle).trans_lt h

/-! ### Elements of an array -/

/-- A stretch at the front is rewritten by what is there already. -/
theorem prefix_patch_iff {g : ℕ → Storage V → Storage V} (h : xs <+: zs) :
    xs <+: patch 0 k g zs ↔ ∀ i x, i < k → xs[i]? = some x → g i x = x := by
  rw [List.prefix_iff_getElem?] at h ⊢
  constructor
  · intro hpatch i x hi hx
    obtain ⟨hlt, rfl⟩ := List.getElem?_eq_some_iff.mp hx
    have heq := hpatch i hlt
    rw [getElem?_patch_of_mem (Nat.zero_le i) hi, h i hlt, Option.map_some] at heq
    exact Option.some.inj heq
  · intro hsame i hlt
    by_cases hi : i < k
    · rw [getElem?_patch_of_mem (Nat.zero_le i) hi, h i hlt, Option.map_some,
        hsame i _ hi (List.getElem?_eq_getElem hlt)]
    · rw [getElem?_patch_of_notMem (by omega), h i hlt]

/-- An array whose members have been set. -/
theorem owns_setArray [DecidableEq ι] (hn : xs.length = n)
    (halloc : ∀ r, p = some r → (s.blocks r).isSome) (hslots : xs <+: s.slots p)
    (husable : ∀ x ∈ xs, T.usable x = true) (hfits : n * T.sizeof < 2 ^ 64) :
    Owns T (s.setArray a ⟨p, n⟩) a xs where
  size := by rw [Memory.arrays_setArray_self, hn]
  allocated r hr := halloc r (by rwa [Memory.arrays_setArray_self] at hr)
  slots := by rwa [Memory.arrays_setArray_self, Memory.slots_setArray]
  usable := husable
  fits := by rwa [hn]

namespace Owns

variable (h : Owns T s a xs)

include h

theorem getElem? {i : ℕ} (hi : i < xs.length) : (s.slots (s.arrays a).data)[i]? = some xs[i] :=
  List.prefix_iff_getElem?.mp h.slots i hi

theorem length_le : xs.length ≤ (s.slots (s.arrays a).data).length := h.slots.length_le

/-- An element of the array can be used. -/
theorem exists_usable {i : ℕ} (hi : i < xs.length) :
    ∃ x, (s.slots (s.arrays a).data)[i]? = some x ∧ T.usable x = true :=
  ⟨xs[i], h.getElem? hi, h.usable _ (List.getElem_mem hi)⟩

/-- A new block is none that the array owns. -/
theorem data_ne_next : (s.arrays a).data ≠ some s.next := fun heq =>
  Memory.ne_next (h.allocated _ heq) rfl

/-- A call that does not touch the array. -/
theorem congr (harrays : s'.arrays = s.arrays)
    (halloc : ∀ p, (s.arrays a).data = some p → (s'.blocks p).isSome)
    (hslots : s'.slots (s.arrays a).data = s.slots (s.arrays a).data) : Owns T s' a xs :=
  ⟨by rw [harrays, h.size], by rwa [harrays], by rw [harrays, hslots]; exact h.slots, h.usable,
    h.fits⟩

/-- A new block leaves the array alone. -/
theorem alloc : Owns T (s.alloc zs) a xs :=
  h.congr rfl (fun p hp => isSome_alloc (h.allocated p hp))
    (Memory.slots_alloc_of_ne h.data_ne_next)

/-- The elements of a type with a destructor are live. -/
theorem exists_live (htriv : T.isTrivial = false) {i : ℕ} (hi : i < xs.length) :
    ∃ v, (s.slots (s.arrays a).data)[i]? = some (.live v) := by
  obtain ⟨x, hx, husable⟩ := h.exists_usable hi
  cases x with
  | live v => exact ⟨v, hx⟩
  | raw => exact absurd (htriv.symm.trans husable) Bool.false_ne_true

/-- An array without a block is empty. -/
theorem eq_nil_of_none (hnone : (s.arrays a).data = none) : xs = [] := by
  have hslots := h.slots
  rwa [hnone, Memory.slots_none, List.prefix_nil] at hslots

end Owns

end

end RawMemory

end Mmkvc
