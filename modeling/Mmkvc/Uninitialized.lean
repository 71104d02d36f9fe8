/-
# Elements in raw memory (`zstl/uninitialized.h`, `algo/libc_allocator_with_realloc.h`)

The allocator asks libc for blocks.  The loops construct, assign or destroy the elements of a
stretch one after the other, and take back what they constructed when a constructor throws.  What
the code asks about the type of the elements is a parameter, and so is what goes wrong in a call.
-/
import Mmkvc.RawBlocks

namespace Mmkvc

namespace RawMemory

/-! ## The parameters -/

/-- The type of the elements.  The last fields are the rules of the language for trivial types. -/
structure ElemType (V : Type) where
  sizeof : ℕ
  isTrivial : Bool
  /-- `T::can_reallocate`, false where `T` has no such member -/
  memberCanReallocate : Bool
  triviallyDestructible : Bool
  copyConstructible : Bool
  nothrowDefault : Bool
  nothrowCopy : Bool
  nothrowMove : Bool
  nothrowCopyAssign : Bool
  /-- the value of `T()` -/
  default : V
  /-- what a move leaves of its source -/
  movedFrom : V → V
  sizeof_pos : 0 < sizeof
  default_of_trivial : isTrivial → nothrowDefault
  copy_of_trivial : isTrivial → nothrowCopy
  destructible_of_trivial : isTrivial → triviallyDestructible

namespace ElemType

variable {V : Type} (T : ElemType V)

/-- `can_reallocate<T>`. -/
def canReallocate : Bool := T.isTrivial || (T.memberCanReallocate && T.nothrowDefault)

/-- `MoveIfNoexcept<T>`. -/
def moveIfNoexcept : Bool := !(!T.nothrowMove && T.copyConstructible)

/-- `cond<T>` of the copy assignment. -/
def cond : Bool := T.canReallocate && T.nothrowCopyAssign && T.nothrowDefault

/-- `n * sizeof(T)`. -/
def bytes (n : ℕ) : ℕ := n * T.sizeof % 2 ^ 64

/-- The elements for which a block of `n * sizeof(T)` bytes has room. -/
def capacity (n : ℕ) : ℕ := T.bytes n / T.sizeof

/-- The slot may be read and assigned to. -/
def usable : Storage V → Bool
  | .raw => T.isTrivial
  | .live _ => true

end ElemType

/-- What goes wrong in a call: whether the request for memory is granted, whether a block that is
reallocated keeps its address, and the position of the element whose constructor throws if it can. -/
structure Faults where
  memory : Bool
  inPlace : Bool
  throwAt : Option ℕ
  deriving DecidableEq, Repr

/-- How an element comes to be: by the default constructor, or from the element at the same position
of another block. -/
inductive Init where
  | default
  | transfer (src : Option Addr) (move : Bool)
  deriving DecidableEq, Repr

/-- Whether the constructor is `noexcept`. -/
def ElemType.nothrow {V : Type} (T : ElemType V) : Init → Bool
  | .default => T.nothrowDefault
  | .transfer _ true => T.nothrowMove
  | .transfer _ false => T.nothrowCopy

theorem ElemType.nothrow_default {V : Type} {T : ElemType V} :
    T.nothrow .default = T.nothrowDefault := rfl

/-! ## The allocator -/

section

variable {ι V : Type} (T : ElemType V) (f : Faults)

/-- What `realloc` makes of a block. -/
def reshape (n : ℕ) (xs : List (Storage V)) : List (Storage V) :=
  xs.take n ++ List.replicate (n - xs.length) .raw

/-- `allocate`. -/
def allocate (n : ℕ) : BlockM ι V (Option Addr) := fun s =>
  if f.memory then some (.ok (some s.next), s.alloc (List.replicate (T.capacity n) .raw))
  else some (.ok none, s)

/-- `reallocate`. -/
def reallocate (p : Option Addr) (n : ℕ) : BlockM ι V (Option Addr) := fun s =>
  match p with
  | none => allocate T f n s
  | some a =>
    match s.blocks a with
    | none => none
    | some xs =>
      if T.bytes n = 0 then some (.ok none, s.free a)
      else if !f.memory then some (.ok none, s)
      else if f.inPlace then some (.ok (some a), s.modify (some a) (reshape (T.capacity n)))
      else some (.ok (some s.next), (s.free a).alloc (reshape (T.capacity n) xs))

/-- `deallocate`. -/
def deallocate (p : Option Addr) : BlockM ι V Unit := fun s =>
  match p with
  | none => some (.ok (), s)
  | some a => if (s.blocks a).isSome then some (.ok (), s.free a) else none

/-! ## Single slots -/

/-- The slot is in a block. -/
def storage (p : Option Addr) (i : ℕ) : BlockM ι V Unit := fun s =>
  if i < (s.slots p).length then some (.ok (), s) else none

def load (p : Option Addr) (i : ℕ) : BlockM ι V (Storage V) := fun s =>
  match (s.slots p)[i]? with
  | none => none
  | some x => if T.usable x then some (.ok x, s) else none

def store (p : Option Addr) (i : ℕ) (x : Storage V) : BlockM ι V Unit := fun s =>
  if i < (s.slots p).length then some (.ok (), s.patch p i (i + 1) fun _ _ => x) else none

/-- What a constructor writes. -/
def makeAt (dst : Option Addr) (i : ℕ) : Init → BlockM ι V Unit
  | .default => store dst i (.live T.default)
  | .transfer src false => do store dst i (← load T src i)
  | .transfer src true => do
    let x ← load T src i
    store dst i x
    store src i (x.map T.movedFrom)

/-- The constructor of the element at `i` throws. -/
def Throws (init : Init) (i : ℕ) : Prop := f.throwAt = some i ∧ T.nothrow init = false

instance (init : Init) (i : ℕ) : Decidable (Throws T f init i) := inferInstanceAs (Decidable (_ ∧ _))

/-- `new (dst + i) T(...)`. -/
def constructAt (init : Init) (dst : Option Addr) (i : ℕ) : BlockM ι V Unit := do
  storage dst i
  if Throws T f init i then throw .element else makeAt T dst i init

/-- `p[i].~T()`. -/
def destroyAt (p : Option Addr) (i : ℕ) : BlockM ι V Unit := fun s =>
  match (s.slots p)[i]? with
  | some (.live _) => some (.ok (), s.patch p i (i + 1) fun _ _ => .raw)
  | _ => none

/-- `dst[i] = src[i]`. -/
def assignAt (src dst : Option Addr) (i : ℕ) : BlockM ι V Unit := do
  let x ← load T src i
  let _ ← load T dst i
  store dst i x

/-! ## Stretches -/

/-- `DestroyRange(p + lo, p + hi)`. -/
def destroyRange (p : Option Addr) (lo hi : ℕ) : BlockM ι V Unit :=
  if T.triviallyDestructible then return () else forSlots (destroyAt p) lo (hi - lo)

/-- One round of a loop that constructs. -/
def constructStep (init : Init) (dst : Option Addr) (lo i : ℕ) : BlockM ι V Unit :=
  tryCatch (constructAt T f init dst i) fun e => do
    destroyRange T dst lo i
    throw e

def constructRange (init : Init) (dst : Option Addr) (lo hi : ℕ) : BlockM ι V Unit :=
  forSlots (constructStep T f init dst lo) lo (hi - lo)

/-- `UninitializedDefaultConstruct(p + lo, p + hi)`. -/
def uninitializedDefaultConstruct (p : Option Addr) (lo hi : ℕ) : BlockM ι V Unit :=
  if T.isTrivial then return () else constructRange T f .default p lo hi

/-- `UninitializedMoveIfNoexcept(src, src + n, dst)`. -/
def uninitializedMoveIfNoexcept (src dst : Option Addr) (n : ℕ) : BlockM ι V Unit :=
  constructRange T f (.transfer src T.moveIfNoexcept) dst 0 n

/-- `std::uninitialized_copy(src + lo, src + hi, dst + lo)`. -/
def uninitializedCopy (src dst : Option Addr) (lo hi : ℕ) : BlockM ι V Unit :=
  constructRange T f (.transfer src false) dst lo hi

/-- `std::copy(src, src + n, dst)`. -/
def copyRange (src dst : Option Addr) (n : ℕ) : BlockM ι V Unit :=
  forSlots (assignAt T src dst) 0 n

end

/-! ## What the loops do -/

section

variable {ι V : Type} {T : ElemType V} {f : Faults} {s : Memory ι V} {init : Init}
  {src dst p : Option Addr} {x y : Storage V} {lo mid hi i j n : ℕ}

/-- The element at `i` can be constructed from what is in memory. -/
def Supplied (T : ElemType V) (s : Memory ι V) (i : ℕ) : Init → Prop
  | .default => True
  | .transfer src _ => ∃ x, (s.slots src)[i]? = some x ∧ T.usable x = true

/-- The elements come from another block. -/
def Apart (dst : Option Addr) : Init → Prop
  | .default => True
  | .transfer src _ => src ≠ dst

theorem apart_default : Apart dst .default := True.intro

/-- Memory after the elements from `lo` to before `hi` have been constructed. -/
def built (T : ElemType V) (s : Memory ι V) (dst : Option Addr) (lo hi : ℕ) : Init → Memory ι V
  | .default => s.patch dst lo hi fun _ _ => .live T.default
  | .transfer src false => s.patch dst lo hi fun i y => (s.slots src)[i]?.getD y
  | .transfer src true =>
    (s.patch dst lo hi fun i y => (s.slots src)[i]?.getD y).patch src lo hi
      fun _ => Storage.map T.movedFrom

/-- Memory after the elements from `lo` to before `hi` have been destroyed. -/
def wiped (T : ElemType V) (s : Memory ι V) (p : Option Addr) (lo hi : ℕ) : Memory ι V :=
  if T.triviallyDestructible then s else s.patch p lo hi fun _ _ => .raw

/-- An element that can be used is loaded. -/
theorem outcome_load (h : (s.slots p)[i]? = some x) (hx : T.usable x = true) :
    outcome (load T p i) s = some (.ok x, s) := by
  change (match (s.slots p)[i]? with
    | none => none
    | some x => if T.usable x then some (Except.ok x, s) else none) = _
  rw [h]
  exact if_pos hx

theorem outcome_store (h : i < (s.slots p).length) :
    outcome (store p i x) s = some (.ok (), s.patch p i (i + 1) fun _ _ => x) :=
  if_pos h

theorem outcome_storage (h : i < (s.slots p).length) :
    outcome (storage p i : BlockM ι V Unit) s = some (.ok (), s) :=
  if_pos h

theorem outcome_storage_none (h : (s.slots p).length ≤ i) :
    outcome (storage p i : BlockM ι V Unit) s = none :=
  if_neg (Nat.not_lt.mpr h)

/-- An element that is there is destroyed. -/
theorem outcome_destroyAt {v : V} (h : (s.slots p)[i]? = some (.live v)) :
    outcome (destroyAt p i) s = some (.ok (), s.patch p i (i + 1) fun _ _ => .raw) := by
  change (match (s.slots p)[i]? with
    | some (.live _) => some (Except.ok (), s.patch p i (i + 1) fun _ _ => .raw)
    | _ => none) = _
  rw [h]

/-- Nothing is constructed in an empty stretch. -/
theorem built_self : built T s dst lo lo init = s := by
  rcases init with _ | ⟨src, _ | _⟩
  · exact Memory.patch_self
  · exact Memory.patch_self
  · rw [built, Memory.patch_self, Memory.patch_self]

@[simp] theorem arrays_built : (built T s dst lo hi init).arrays = s.arrays := by
  rcases init with _ | ⟨src, _ | _⟩ <;> rfl

/-- Constructing elements leaves the length of the block alone. -/
@[simp] theorem length_slots_built :
    ((built T s dst lo hi init).slots p).length = (s.slots p).length := by
  have hpatch : ∀ (m : Memory ι V) q g, ((m.patch q lo hi g).slots p).length
      = (m.slots p).length := by
    intro m q g
    by_cases hq : p = q
    · rw [hq, Memory.slots_patch_self, length_patch]
    · rw [Memory.slots_patch_of_ne hq]
  rcases init with _ | ⟨src, _ | _⟩
  · exact hpatch _ _ _
  · exact hpatch _ _ _
  · exact (hpatch _ _ _).trans (hpatch _ _ _)

/-- The source from `hi` on is as it was. -/
theorem getElem?_slots_built (h : src ≠ dst) (hi' : hi ≤ i) (move : Bool) :
    ((built T s dst lo hi (.transfer src move)).slots src)[i]? = (s.slots src)[i]? := by
  cases move with
  | false => rw [built, Memory.slots_patch_of_ne h]
  | true =>
    rw [built, Memory.slots_patch_self, getElem?_patch_of_notMem (by omega),
      Memory.slots_patch_of_ne h]

/-- **One element.** -/
theorem outcome_constructAt (hapart : Apart dst init) (hlo : lo ≤ i)
    (hroom : i < (s.slots dst).length) (hthrow : ¬ Throws T f init i)
    (hsupply : Supplied T s i init) :
    outcome (constructAt T f init dst i) (built T s dst lo i init)
      = some (.ok (), built T s dst lo (i + 1) init) := by
  have hroom' : i < ((built T s dst lo i init).slots dst).length := by
    rwa [length_slots_built]
  rw [constructAt, outcome_bind_ok (outcome_storage hroom'), if_neg hthrow]
  rcases init with _ | ⟨src, move⟩
  · refine (outcome_store hroom').trans ?_
    rw [built, Memory.patch_patch hlo (Nat.le_succ i), built]
  obtain ⟨x, hx, husable⟩ := hsupply
  have hget : ((built T s dst lo i (.transfer src move)).slots src)[i]? = some x :=
    (getElem?_slots_built hapart le_rfl move).trans hx
  have hload := outcome_load hget husable
  -- what is stored is what the source holds at `i`
  have hvalue : ∀ m : Memory ι V, (m.patch dst i (i + 1) fun _ _ => x)
      = m.patch dst i (i + 1) fun i y => (s.slots src)[i]?.getD y := by
    intro m
    apply Memory.patch_congr
    intro j y hj hj' _
    obtain rfl : j = i := by omega
    rw [hx, Option.getD_some]
  cases move with
  | false =>
    refine (outcome_bind_ok hload).trans ((outcome_store hroom').trans ?_)
    rw [hvalue, built, Memory.patch_patch hlo (Nat.le_succ i), built]
  | true =>
    refine (outcome_bind_ok hload).trans ((outcome_bind_ok (outcome_store hroom')).trans ?_)
    have hroom'' : i < ((built T s dst lo i (.transfer src true)).slots src).length :=
      (List.getElem?_eq_some_iff.mp hget).1
    refine (outcome_store (by rwa [Memory.slots_patch_of_ne hapart])).trans ?_
    rw [hvalue, built, Memory.patch_comm hapart, Memory.patch_patch hlo (Nat.le_succ i), built,
      ← Memory.patch_patch (p := src) hlo (Nat.le_succ i)]
    congr 2
    apply Memory.patch_congr
    intro j y hj hj' hy
    obtain rfl : j = i := by omega
    rw [Memory.slots_patch_self, getElem?_patch_of_notMem (by omega),
      Memory.slots_patch_of_ne hapart, hx] at hy
    rw [Option.some.inj hy]

/-- The slots are as they were beside the stretch of the destination. -/
theorem slots_built_dst (h : Apart dst init) (hi' : ¬ (lo ≤ i ∧ i < hi)) :
    ((built T s dst lo hi init).slots dst)[i]? = (s.slots dst)[i]? := by
  rcases init with _ | ⟨src, _ | _⟩
  · rw [built, Memory.slots_patch_self, getElem?_patch_of_notMem hi']
  · rw [built, Memory.slots_patch_self, getElem?_patch_of_notMem hi']
  · rw [built, Memory.slots_patch_of_ne (Ne.symm h), Memory.slots_patch_self,
      getElem?_patch_of_notMem hi']

/-- The value that the constructor gives to the element at `i`. -/
def Init.value (T : ElemType V) (s : Memory ι V) (i : ℕ) : Init → Option (Storage V)
  | .default => some (.live T.default)
  | .transfer src _ => (s.slots src)[i]?

/-- The element that was constructed at an index. -/
theorem slots_built (h : Apart dst init) (hlo : lo ≤ i) (hhi : i < hi)
    (hroom : i < (s.slots dst).length) (hsupply : Supplied T s i init) :
    ((built T s dst lo hi init).slots dst)[i]? = init.value T s i := by
  have hdst : (s.slots dst)[i]? = some ((s.slots dst)[i]) := List.getElem?_eq_getElem hroom
  rcases init with _ | ⟨src, _ | _⟩
  · rw [built, Memory.slots_patch_self, getElem?_patch_of_mem hlo hhi, hdst]
    rfl
  · obtain ⟨x, hx, -⟩ := hsupply
    rw [built, Memory.slots_patch_self, getElem?_patch_of_mem hlo hhi, hdst, Option.map_some,
      Init.value, hx, Option.getD_some]
  · obtain ⟨x, hx, -⟩ := hsupply
    rw [built, Memory.slots_patch_of_ne (Ne.symm h), Memory.slots_patch_self,
      getElem?_patch_of_mem hlo hhi, hdst, Option.map_some, Init.value, hx, Option.getD_some]

/-- The destructors of the elements of a stretch. -/
theorem outcome_destroyEach (hle : lo ≤ hi)
    (h : ∀ i, lo ≤ i → i < hi → ∃ v, (s.slots p)[i]? = some (.live v)) :
    outcome (forSlots (destroyAt p) lo (hi - lo)) s
      = some (.ok (), s.patch p lo hi fun _ _ => .raw) := by
  have hloop := outcome_forSlots (destroyAt p) lo (hi - lo) 0
    (S := fun i => s.patch p lo i fun _ _ => .raw) fun i hlo hhi => by
      obtain ⟨v, hv⟩ := h i hlo (by omega)
      rw [outcome_destroyAt (v := v), Memory.patch_patch hlo (Nat.le_succ i)]
      rw [Memory.slots_patch_self, getElem?_patch_of_notMem (by omega), hv]
  rw [Memory.patch_self, Nat.add_zero] at hloop
  rw [hloop, Nat.add_sub_cancel' hle]
  rfl

/-- `DestroyRange` over elements. -/
theorem outcome_destroyRange (hle : lo ≤ hi) (h : T.triviallyDestructible = false →
      ∀ i, lo ≤ i → i < hi → ∃ v, (s.slots p)[i]? = some (.live v)) :
    outcome (destroyRange T p lo hi) s = some (.ok (), wiped T s p lo hi) := by
  rw [destroyRange, wiped]
  split_ifs with htriv
  · rfl
  · exact outcome_destroyEach hle (h (by simpa using htriv))

/-- `DestroyRange` past the end of a block. -/
theorem outcome_destroyRange_none (htriv : T.triviallyDestructible = false) (hlt : lo < hi)
    (hend : (s.slots p).length ≤ lo) : outcome (destroyRange T p lo hi) s = none := by
  obtain ⟨k, hk⟩ : ∃ k, hi - lo = k + 1 := ⟨hi - lo - 1, by omega⟩
  rw [destroyRange, if_neg (by simp [htriv]), hk, forSlots]
  apply outcome_bind_none
  change (match (s.slots p)[lo]? with
    | some (.live _) => some (Except.ok (), s.patch p lo (lo + 1) fun _ _ => .raw)
    | _ => none) = _
  rw [List.getElem?_eq_none hend]

/-- `std::copy` over elements of another block. -/
theorem outcome_copyRange (hne : src ≠ dst)
    (hsrc : ∀ i, i < n → ∃ x, (s.slots src)[i]? = some x ∧ T.usable x = true)
    (hdst : ∀ i, i < n → ∃ y, (s.slots dst)[i]? = some y ∧ T.usable y = true) :
    outcome (copyRange T src dst n) s
      = some (.ok (), s.patch dst 0 n fun i y => (s.slots src)[i]?.getD y) := by
  have hloop := outcome_forSlots (assignAt T src dst) 0 n 0
    (S := fun i => s.patch dst 0 i fun i y => (s.slots src)[i]?.getD y) fun i hlo hhi => by
      obtain ⟨x, hx, hxu⟩ := hsrc i (by omega)
      obtain ⟨y, hy, hyu⟩ := hdst i (by omega)
      have hsrc' : ((s.patch dst 0 i fun i y => (s.slots src)[i]?.getD y).slots src)[i]?
          = some x := by
        rw [Memory.slots_patch_of_ne hne, hx]
      have hdst' : ((s.patch dst 0 i fun i y => (s.slots src)[i]?.getD y).slots dst)[i]?
          = some y := by
        rw [Memory.slots_patch_self, getElem?_patch_of_notMem (by omega), hy]
      rw [assignAt, outcome_bind_ok (outcome_load hsrc' hxu),
        outcome_bind_ok (outcome_load hdst' hyu),
        outcome_store (List.getElem?_eq_some_iff.mp hdst').1,
        ← Memory.patch_patch hlo (Nat.le_succ i)]
      congr 2
      apply Memory.patch_congr
      intro j z hj hj' _
      obtain rfl : j = i := by omega
      rw [hx, Option.getD_some]
  rw [Memory.patch_self, Nat.add_zero, Nat.zero_add] at hloop
  exact hloop

/-- The loop comes to the element at `j` when nothing is in the way before. -/
theorem outcome_constructRange_reach (hapart : Apart dst init) (hlo : lo ≤ j) (hhi : j ≤ hi)
    (h : ∀ i, lo ≤ i → i < j →
      i < (s.slots dst).length ∧ ¬ Throws T f init i ∧ Supplied T s i init) :
    outcome (constructRange T f init dst lo hi) s
      = outcome (forSlots (constructStep T f init dst lo) j (hi - j)) (built T s dst lo j init) := by
  have hloop := outcome_forSlots (constructStep T f init dst lo) lo (j - lo) (hi - j)
    (S := fun i => built T s dst lo i init) fun i hlo' hhi' => by
      obtain ⟨hroom, hthrow, hsupply⟩ := h i hlo' (by omega)
      exact outcome_catch_ok (outcome_constructAt hapart hlo' hroom hthrow hsupply)
  rw [built_self, Nat.add_sub_cancel' hlo] at hloop
  rw [constructRange, ← hloop]
  congr 2
  omega

/-- **No constructor throws.** -/
theorem outcome_constructRange (hapart : Apart dst init) (hle : lo ≤ hi)
    (h : ∀ i, lo ≤ i → i < hi →
      i < (s.slots dst).length ∧ ¬ Throws T f init i ∧ Supplied T s i init) :
    outcome (constructRange T f init dst lo hi) s = some (.ok (), built T s dst lo hi init) := by
  rw [outcome_constructRange_reach hapart hle le_rfl h, Nat.sub_self]
  rfl

/-- **A constructor throws.**  The elements before it are destroyed. -/
theorem outcome_constructRange_throw (hapart : Apart dst init) (hlo : lo ≤ j) (hhi : j < hi)
    (hroom : j < (s.slots dst).length) (hthrow : Throws T f init j)
    (hsupply : ∀ i, lo ≤ i → i < j → Supplied T s i init) :
    outcome (constructRange T f init dst lo hi) s
      = some (.error .element, wiped T (built T s dst lo j init) dst lo j) := by
  have hbefore : ∀ i, lo ≤ i → i < j →
      i < (s.slots dst).length ∧ ¬ Throws T f init i ∧ Supplied T s i init := by
    intro i hlo' hlt
    refine ⟨hlt.trans hroom, ?_, hsupply i hlo' hlt⟩
    rintro ⟨hi', -⟩
    have heq := Option.some.inj (hthrow.1.symm.trans hi')
    omega
  obtain ⟨k, hk⟩ : ∃ k, hi - j = k + 1 := ⟨hi - j - 1, by omega⟩
  rw [outcome_constructRange_reach hapart hlo hhi.le hbefore, hk, forSlots]
  apply outcome_bind_error
  have hroom' : j < ((built T s dst lo j init).slots dst).length := by
    rwa [length_slots_built]
  have hat : outcome (constructAt T f init dst j) (built T s dst lo j init)
      = some (.error .element, built T s dst lo j init) := by
    rw [constructAt, outcome_bind_ok (outcome_storage hroom'), if_pos hthrow]
    rfl
  rw [constructStep, outcome_catch_error hat, outcome_bind_ok (outcome_destroyRange hlo ?_)]
  · rfl
  -- what was constructed is live, or there is no destructor
  intro htriv i hlo' hlt
  have hvalue := slots_built (T := T) hapart hlo' hlt (hlt.trans hroom) (hsupply i hlo' hlt)
  rw [hvalue]
  rcases init with _ | ⟨src, _⟩
  · exact ⟨T.default, rfl⟩
  · obtain ⟨x, hx, husable⟩ := hsupply i hlo' hlt
    cases x with
    | live v => exact ⟨v, hx⟩
    | raw =>
      have := T.destructible_of_trivial husable
      rw [htriv] at this
      cases this

/-- **The block is too short.** -/
theorem outcome_constructRange_none (hapart : Apart dst init) (hlt : lo < hi)
    (hhi : (s.slots dst).length < hi)
    (h : ∀ i, lo ≤ i → i < (s.slots dst).length → ¬ Throws T f init i ∧ Supplied T s i init) :
    outcome (constructRange T f init dst lo hi) s = none := by
  let e := max lo (s.slots dst).length
  have hend : (s.slots dst).length ≤ e := le_max_right _ _
  obtain ⟨k, hk⟩ : ∃ k, hi - e = k + 1 := ⟨hi - e - 1, by omega⟩
  rw [outcome_constructRange_reach hapart (le_max_left _ _) (max_lt hlt hhi).le
    fun i hlo' hi' => ⟨by omega, h i hlo' (by omega)⟩, hk, forSlots]
  apply outcome_bind_none
  apply outcome_catch_none
  apply outcome_bind_none
  apply outcome_storage_none
  rwa [length_slots_built]

end

end RawMemory

end Mmkvc
