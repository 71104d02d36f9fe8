/-
# Copy assignment of an array

The copy assignment works on a block of its own and puts it in place at the end, with three
exceptions.  On the path with `realloc` it writes over the array before the copy constructors have
run, takes the null pointer that stands for an empty block for a failure, and calls destructors
behind the end of a block that it has made shorter.  And the copy constructor, which it uses when
the sizes are equal, does not test what `allocate` returns.
-/
import Mmkvc.ReservedArrayResize

namespace Mmkvc

namespace RawMemory

/-! ## What is asked, and when it is so -/

section

variable {ι V : Type} (T : ElemType V) (f : Faults)

/-- `a = b` makes `a` equal to `b` and leaves `b` as it was, or throws and leaves `a` as it was. -/
def Assigns [DecidableEq ι] (a b : ι) (s : Memory ι V) (xs ys : List (Storage V)) : Prop :=
  Ends (outcome (copyAssign T f a b) s) (fun s' => Owns T s' a ys ∧ Owns T s' b ys)
    (fun s' => Owns T s' a xs)

/-- Two array objects do not own the same block. -/
def Separate (s : Memory ι V) (a b : ι) : Prop :=
  a = b ∨ ∀ p, (s.arrays a).data = some p → (s.arrays b).data ≠ some p

/-- A longer array is assigned safely by `realloc`: no element is copied by a constructor that
throws, or nothing is lost by that, since there was no block, or since the block stays where it is
and the elements that were written over it are those that it had. -/
def LongerSafe (data : Option Addr) (xs ys : List (Storage V)) : Prop :=
  (∀ j, xs.length ≤ j → j < ys.length → ¬ Throws T f (.transfer none false) j)
    ∨ data = none ∨ (f.inPlace = true ∧ ys.take xs.length = xs)

/-- The array `b` is assigned to `a` safely. -/
def AssignSafe (a b : ι) (s : Memory ι V) (xs ys : List (Storage V)) : Prop :=
  a = b ∨
    if xs.length = ys.length then T.nothrowCopyAssign = true ∨ f.memory = true ∨ ys = []
    else if T.cond then
      ys ≠ [] ∧ (f.memory = false ∨
        if xs.length < ys.length then LongerSafe T f (s.arrays a).data xs ys
        else T.triviallyDestructible = true)
    else True

end

/-! ## Other blocks -/

section

variable {ι V : Type} {T : ElemType V} {f : Faults} {s s' s'' : Memory ι V} {a b : ι}
  {xs ys : List (Storage V)} {p q : Option Addr} {n lo hi : ℕ}

/-- The arrays are as they were, and every block but one. -/
structure SameBut (p : Option Addr) (s s' : Memory ι V) : Prop where
  arrays : s'.arrays = s.arrays
  blocks : ∀ r, some r ≠ p → s'.blocks r = s.blocks r

namespace SameBut

theorem refl : SameBut p s s := ⟨rfl, fun _ _ => rfl⟩

theorem trans (h : SameBut p s s') (h' : SameBut p s' s'') : SameBut p s s'' :=
  ⟨h'.arrays.trans h.arrays, fun r hr => (h'.blocks r hr).trans (h.blocks r hr)⟩

theorem patch {g : ℕ → Storage V → Storage V} : SameBut p s (s.patch p lo hi g) :=
  ⟨rfl, fun _ hr => if_neg hr.symm⟩

/-- Destroying elements of the block. -/
theorem wiped : SameBut p s (wiped T s p lo hi) := by
  rw [RawMemory.wiped]
  split_ifs
  · exact refl
  · exact patch

/-- Giving the block back. -/
theorem release : SameBut p s (release s p) := by
  cases p with
  | none => exact refl
  | some p =>
    exact ⟨rfl, fun _ hr => Function.update_of_ne (fun heq => hr (congrArg some heq)) ..⟩

theorem alloc : SameBut (some s.next) s (s.alloc xs) :=
  ⟨rfl, fun _ hr => Function.update_of_ne (fun heq => hr (congrArg some heq)) ..⟩

variable (h : SameBut p s s')

include h

/-- Another block has the elements that it had. -/
theorem slots (hq : ∀ r, q = some r → some r ≠ p) : s'.slots q = s.slots q := by
  cases q with
  | none => rfl
  | some r => rw [Memory.slots, Memory.slots, h.blocks r (hq r rfl)]

/-- An array in another block. -/
theorem owns (hs : Owns T s a xs) (hne : ∀ r, (s.arrays a).data = some r → some r ≠ p) :
    Owns T s' a xs :=
  hs.congr h.arrays (fun r hr => by rw [h.blocks r (hne r hr)]; exact hs.allocated r hr)
    (h.slots hne)

end SameBut

/-- Another array object keeps its members. -/
theorem Owns.setArray [DecidableEq ι] {x : ArrayHeader} (h : Owns T s b ys) (hab : b ≠ a) :
    Owns T (s.setArray a x) b ys where
  size := by rw [Memory.arrays_setArray_of_ne hab, h.size]
  allocated r hr := h.allocated r (by rwa [Memory.arrays_setArray_of_ne hab] at hr)
  slots := by
    rw [Memory.arrays_setArray_of_ne hab, Memory.slots_setArray]
    exact h.slots
  usable := h.usable
  fits := h.fits

/-- The elements of a source are constructed in another block. -/
theorem Owns.supplied (h : Owns T s b ys) {i : ℕ} (hi : i < ys.length) :
    Supplied T s i (.transfer (s.arrays b).data false) :=
  h.exists_usable hi

/-! ## To a new block -/

/-- The elements are copied to a new block. -/
theorem outcome_copyNew (h : Owns T s b ys)
    (hthrow : ∀ i, i < ys.length → ¬ Throws T f (.transfer none false) i) :
    ∃ s', outcome (uninitializedCopy T f (s.arrays b).data (some s.next) 0 ys.length)
        (s.alloc (List.replicate ys.length .raw)) = some (.ok (), s')
      ∧ SameBut (some s.next) s s' ∧ (s'.blocks s.next).isSome
      ∧ ys <+: s'.slots (some s.next) := by
  have hnew := h.beside (n := ys.length)
  have hapart : Apart (some s.next) (.transfer (s.arrays b).data false) := h.data_ne_next
  refine ⟨_, outcome_constructRange hapart (Nat.zero_le _) fun i _ hi =>
    ⟨by rwa [hnew.room], fun ht => hthrow i hi (throws_transfer.mp ht), hnew.supplied hi⟩,
    SameBut.alloc.trans .patch, by rw [isSome_built]; exact hnew.allocated, ?_⟩
  rw [List.prefix_iff_getElem?]
  intro i hi
  rw [slots_built hapart (Nat.zero_le i) hi (by rwa [hnew.room]) (hnew.supplied hi), Init.value]
  exact hnew.owns.getElem? hi

/-- A copy constructor throws, and the new block is given back. -/
theorem outcome_copyNew_throw {j : ℕ} (h : Owns T s b ys) (hj : j < ys.length)
    (hthrow : Throws T f (.transfer none false) j) :
    ∃ s', outcome (tryCatch (uninitializedCopy T f (s.arrays b).data (some s.next) 0 ys.length)
        fun e => do deallocate (some s.next); throw e)
        (s.alloc (List.replicate ys.length .raw)) = some (.error .element, s')
      ∧ SameBut (some s.next) s s' := by
  have hnew := h.beside (n := ys.length)
  have hcopy : outcome (uninitializedCopy T f (s.arrays b).data (some s.next) 0 ys.length)
      (s.alloc (List.replicate ys.length .raw)) = _ :=
    outcome_constructRange_throw h.data_ne_next (Nat.zero_le j) hj (by rwa [hnew.room])
      (throws_transfer.mpr hthrow) fun i _ hi => hnew.supplied (hi.trans hj)
  refine ⟨_, (outcome_catch_error hcopy).trans (outcome_giveBack ?_),
    ((SameBut.alloc.trans .patch).trans .wiped).trans .release⟩
  rw [isSome_wiped, isSome_built]
  exact hnew.allocated

/-- The old elements are destroyed and their block is given back. -/
theorem outcome_discard {α : Type} {k : BlockM ι V α} (h : Owns T s a xs)
    (hblocks : ∀ r, (s.arrays a).data = some r → s'.blocks r = s.blocks r) :
    outcome (do
        destroyRange T (s.arrays a).data 0 xs.length
        deallocate (s.arrays a).data
        k) s' = outcome k
          (release (wiped T s' (s.arrays a).data 0 xs.length) (s.arrays a).data) := by
  have hslots : s'.slots (s.arrays a).data = s.slots (s.arrays a).data := by
    cases hdata : (s.arrays a).data with
    | none => rfl
    | some r => rw [Memory.slots, Memory.slots, hblocks r hdata]
  rw [outcome_bind_ok (outcome_destroyRange (Nat.zero_le _) fun htriv i _ hi => ?_),
    outcome_bind_ok (outcome_deallocate fun p hp => ?_)]
  · rw [isSome_wiped, hblocks p hp]
    exact h.allocated p hp
  · rw [hslots]
    exact h.exists_live (isTrivial_of_destructor htriv) hi

/-- A new block is none that an array owns. -/
theorem Owns.some_ne_next (h : Owns T s a xs) :
    ∀ r, (s.arrays a).data = some r → some r ≠ some s.next := fun r hr => by
  rw [← hr]
  exact h.data_ne_next

/-- An array with an element has a block. -/
theorem Owns.data_ne (h : Owns T s a xs) (hxs : xs ≠ []) : (s.arrays a).data ≠ none :=
  fun hnone => hxs (h.eq_nil_of_none hnone)

/-! ## Two arrays -/

/-- Two arrays, one of them with an element, are not in one block. -/
theorem Separate.data_ne (h : Separate s a b) (hab : a ≠ b) (hb : Owns T s b ys) (hys : ys ≠ []) :
    (s.arrays b).data ≠ (s.arrays a).data := by
  intro heq
  cases hdata : (s.arrays b).data with
  | none => exact hys (hb.eq_nil_of_none hdata)
  | some q => exact h.elim hab fun hne => hne q (heq.symm.trans hdata) hdata

theorem Separate.some_ne (h : Separate s a b) (hab : a ≠ b) :
    ∀ r, (s.arrays b).data = some r → some r ≠ (s.arrays a).data := fun r hr heq =>
  h.elim hab fun hne => hne r heq.symm hr

/-- Assigning element by element. -/
theorem outcome_copyElements (ha : Owns T s a xs) (hb : Owns T s b ys) (hab : a ≠ b)
    (hsep : Separate s a b) (hsize : xs.length = ys.length) :
    ∃ s', outcome (copyRange T (s.arrays b).data (s.arrays a).data ys.length) s
        = some (.ok (), s') ∧ Owns T s' a ys ∧ Owns T s' b ys := by
  by_cases hys : ys = []
  · subst hys
    rw [List.length_nil, List.length_eq_zero_iff] at hsize
    subst hsize
    exact ⟨s, rfl, ha, hb⟩
  have hne := hsep.data_ne hab hb hys
  refine ⟨_, outcome_copyRange hne (fun i hi => hb.exists_usable hi) fun i hi =>
    ha.exists_usable (by omega), ⟨?_, ?_, ?_, hb.usable, hb.fits⟩,
    SameBut.patch.owns hb (hsep.some_ne hab)⟩
  · exact ha.size.trans hsize
  · intro p hp
    rw [Memory.patch, isSome_modify]
    exact ha.allocated p hp
  · change ys <+: (Memory.patch _ _ _ _ _).slots (s.arrays a).data
    rw [Memory.slots_patch_self, List.prefix_iff_getElem?]
    intro i hi
    rw [getElem?_patch_of_mem (Nat.zero_le i) hi, ha.getElem? (by omega), Option.map_some,
      hb.getElem? hi, Option.getD_some]

/-- The array that `a` was is destroyed. -/
theorem outcome_destruct (ha : Owns T s a xs)
    (hblocks : ∀ r, (s.arrays a).data = some r → s'.blocks r = s.blocks r) :
    ∃ s'', outcome (destruct T (s.arrays a)) s' = some (.ok (), s'')
      ∧ SameBut (s.arrays a).data s' s'' := by
  rw [destruct, ha.size]
  split_ifs with hzero
  · exact ⟨s', rfl, .refl⟩
  · have hdiscard := outcome_discard (k := pure ()) ha hblocks
    rw [bind_pure_unit] at hdiscard
    exact ⟨_, hdiscard, SameBut.wiped.trans .release⟩

/-! ## The bodies of the operator -/

variable [DecidableEq ι]

omit [DecidableEq ι] in
theorem SameBut.blocks_of_new (hs : SameBut (some s.next) s s') (ha : Owns T s a xs) :
    ∀ r, (s.arrays a).data = some r → s'.blocks r = s.blocks r := fun r hr =>
  hs.blocks r (ha.some_ne_next r hr)

/-- The new block takes the place of the old one. -/
theorem owns_adopted (ha : Owns T s a xs) (hb : Owns T s b ys) (hab : a ≠ b)
    (hsep : Separate s a b) (hs : SameBut (some s.next) s s') (hsome : (s'.blocks s.next).isSome)
    (hslots : ys <+: s'.slots (some s.next)) :
    Owns T ((release (wiped T s' (s.arrays a).data 0 xs.length) (s.arrays a).data).setArray a
        ⟨some s.next, ys.length⟩) a ys
      ∧ Owns T ((release (wiped T s' (s.arrays a).data 0 xs.length) (s.arrays a).data).setArray a
        ⟨some s.next, ys.length⟩) b ys := by
  have hdiscard : SameBut (s.arrays a).data s'
      (release (wiped T s' (s.arrays a).data 0 xs.length) (s.arrays a).data) :=
    SameBut.wiped.trans .release
  constructor
  · refine owns_setArray rfl (fun p hp => ?_) ?_ hb.usable hb.fits
    · rw [← Option.some.inj hp, hdiscard.blocks _ ha.data_ne_next.symm]
      exact hsome
    · rw [hdiscard.slots fun p hp => by rw [← hp]; exact ha.data_ne_next.symm]
      exact hslots
  · refine Owns.setArray (hdiscard.owns (hs.owns hb hb.some_ne_next) fun p hp hpa => ?_) hab.symm
    rw [hs.arrays] at hp
    exact hsep.elim hab fun hne => hne p hpa.symm hp

/-- An assignment by copying succeeds or leaves the array as it was. -/
theorem copyAssignmentByCopy_ends (ha : Owns T s a xs) (hb : Owns T s b ys) (hab : a ≠ b)
    (hsep : Separate s a b) :
    Ends (outcome (copyAssignmentByCopy T f a b) s) (fun s' => Owns T s' a ys ∧ Owns T s' b ys)
      (fun s' => Owns T s' a xs) := by
  rw [copyAssignmentByCopy, getArray_bind, getArray_bind, hb.size, ha.size]
  cases hmemory : f.memory with
  | false =>
    rw [outcome_bind_ok (outcome_allocate_none hmemory)]
    exact ha
  | true =>
    rw [outcome_bind_ok (outcome_allocate hmemory), orBadAlloc_some, T.capacity_of_fits hb.fits]
    by_cases hstop : ∃ j, j < ys.length ∧ Throws T f (.transfer none false) j
    · obtain ⟨j, hj, hthrow⟩ := hstop
      obtain ⟨s', hrun, hs⟩ := outcome_copyNew_throw hb hj hthrow
      rw [outcome_bind_error hrun]
      exact hs.owns ha ha.some_ne_next
    · push Not at hstop
      obtain ⟨s', hrun, hs, hsome, hslots⟩ := outcome_copyNew hb hstop
      have hdiscard := outcome_discard (k := putArray a ⟨some s.next, ys.length⟩) ha
        (hs.blocks_of_new ha)
      rw [outcome_bind_ok (outcome_catch_ok hrun), hdiscard]
      exact owns_adopted ha hb hab hsep hs hsome hslots

/-- The array is swapped with a copy in the new block, and the copy is destroyed. -/
theorem outcome_swapIn (ha : Owns T s a xs) (hb : Owns T s b ys) (hab : a ≠ b)
    (hsep : Separate s a b) (hs : SameBut (some s.next) s s') (hsome : (s'.blocks s.next).isSome)
    (hslots : ys <+: s'.slots (some s.next)) :
    ∃ s'', outcome (do
        let x ← getArray a
        putArray a ⟨some s.next, ys.length⟩
        destruct T x) s' = some (.ok (), s'') ∧ Owns T s'' a ys ∧ Owns T s'' b ys := by
  obtain ⟨s'', hrun, hs'⟩ : ∃ s'', outcome (destruct T (s.arrays a))
        (s'.setArray a ⟨some s.next, ys.length⟩) = some (.ok (), s'')
      ∧ SameBut (s.arrays a).data (s'.setArray a ⟨some s.next, ys.length⟩) s'' :=
    outcome_destruct ha (hs.blocks_of_new ha)
  rw [getArray_bind, hs.arrays]
  refine ⟨s'', (outcome_bind_ok rfl).trans hrun, hs'.owns ?_ fun r hr hra => ?_,
    hs'.owns ((hs.owns hb hb.some_ne_next).setArray hab.symm) fun r hr => ?_⟩
  · refine owns_setArray rfl (fun p hp => ?_) hslots hb.usable hb.fits
    rw [← Option.some.inj hp]
    exact hsome
  · rw [Memory.arrays_setArray_self] at hr
    exact ha.data_ne_next (hra.symm.trans hr.symm)
  · rw [Memory.arrays_setArray_of_ne hab.symm, hs.arrays] at hr
    exact hsep.some_ne hab r hr

/-- The bodies for arrays of the same size. -/
theorem copyAssignmentForSizeEqual_iff (ha : Owns T s a xs) (hb : Owns T s b ys) (hab : a ≠ b)
    (hsep : Separate s a b) (hsize : xs.length = ys.length) :
    Ends (outcome (copyAssignmentForSizeEqual T f a b) s)
        (fun s' => Owns T s' a ys ∧ Owns T s' b ys) (fun s' => Owns T s' a xs)
      ↔ T.nothrowCopyAssign = true ∨ f.memory = true ∨ ys = [] := by
  rw [copyAssignmentForSizeEqual]
  split_ifs with hassign
  · refine iff_of_true ?_ (Or.inl hassign)
    obtain ⟨s', hrun, howns⟩ := outcome_copyElements ha hb hab hsep hsize
    rw [getArray_bind, getArray_bind, hb.size, hrun]
    exact howns
  rw [or_iff_right hassign, copyConstruct, bind_assoc, getArray_bind, hb.size, bind_assoc]
  cases hmemory : f.memory with
  | true =>
    refine iff_of_true ?_ (Or.inl rfl)
    rw [outcome_bind_ok (outcome_allocate hmemory), T.capacity_of_fits hb.fits, bind_assoc]
    by_cases hstop : ∃ j, j < ys.length ∧ Throws T f (.transfer none false) j
    · obtain ⟨j, hj, hthrow⟩ := hstop
      obtain ⟨s', hrun, hs⟩ := outcome_copyNew_throw hb hj hthrow
      rw [outcome_bind_error hrun]
      exact hs.owns ha ha.some_ne_next
    · push Not at hstop
      obtain ⟨s', hrun, hs, hsome, hslots⟩ := outcome_copyNew hb hstop
      obtain ⟨s'', hswap, howns⟩ := outcome_swapIn ha hb hab hsep hs hsome hslots
      rw [outcome_bind_ok (outcome_catch_ok hrun), outcome_bind_ok outcome_pure, hswap]
      exact howns
  | false =>
    rw [outcome_bind_ok (outcome_allocate_none hmemory), or_iff_right Bool.false_ne_true]
    by_cases hys : ys = []
    · refine iff_of_true ?_ hys
      subst hys
      have hdone : outcome (do
          let x ← getArray a
          putArray a ⟨none, 0⟩
          destruct T x) s = some (.ok (), s.setArray a ⟨none, 0⟩) := by
        rw [getArray_bind, destruct, ha.size, hsize]
        rfl
      refine Eq.mpr (congrArg (Ends · _ _) hdone) ⟨owns_nil, hb.setArray hab.symm⟩
    · -- nothing is allocated, and the elements are constructed all the same
      refine iff_of_false ?_ hys
      have hnull : outcome (uninitializedCopy T f (s.arrays b).data none 0 ys.length) s = none :=
        outcome_constructRange_none (hb.data_ne hys) (List.length_pos_iff.mpr hys)
          (List.length_pos_iff.mpr hys) fun i _ hi => absurd hi (Nat.not_lt_zero i)
      rw [bind_assoc, outcome_bind_none (outcome_catch_none hnull)]
      exact id

/-! ## In the block that `realloc` returns -/

omit [DecidableEq ι] in
/-- Where a reallocated block stands. -/
theorem Relocates.exhaust {inPlace : Bool} {r : Addr} (h : Relocates s s' inPlace q r) :
    (q = none ∧ r = s.next) ∨ (q = some r ∧ inPlace = true)
      ∨ ∃ p, q = some p ∧ r = s.next ∧ inPlace = false ∧ s'.blocks p = none := by
  cases h with
  | first => exact Or.inl ⟨rfl, rfl⟩
  | same hplace => exact Or.inr (Or.inl ⟨rfl, hplace⟩)
  | other hplace hnone => exact Or.inr (Or.inr ⟨_, rfl, rfl, hplace, hnone⟩)

/-- What is known when the block of `a` has been reallocated for the elements of `b`. -/
structure Moved (T : ElemType V) (s : Memory ι V) (b : ι) (xs ys : List (Storage V)) (r : Addr) :
    Prop where
  source : Owns T s b ys
  ne : (s.arrays b).data ≠ some r
  allocated : (s.blocks r).isSome
  room : (s.slots (some r)).length = ys.length
  kept : ∀ i, i < xs.length → i < ys.length → (s.slots (some r))[i]? = xs[i]?
  usable : ∀ x ∈ xs, T.usable x = true

omit [DecidableEq ι] in
/-- After the reallocation the other array is as it was. -/
theorem Reallocated.moved {r : Addr} (hr : Reallocated T f s s' (s.arrays a).data ys.length r)
    (ha : Owns T s a xs) (hb : Owns T s b ys) (hab : a ≠ b) (hsep : Separate s a b) :
    Moved T s' b xs ys r := by
  have hframe : ∀ p, (s.arrays b).data = some p → s'.blocks p = s.blocks p := fun p hp =>
    hr.frame p (hsep.some_ne hab p hp) fun heq => hb.some_ne_next p hp (congrArg some heq)
  have hcap : T.capacity ys.length = ys.length := T.capacity_of_fits hb.fits
  refine ⟨hb.congr hr.arrays (fun p hp => ?_) ?_, ?_, hr.allocated, ?_, ?_, ha.usable⟩
  · rw [hframe p hp]
    exact hb.allocated p hp
  · cases hdata : (s.arrays b).data with
    | none => rfl
    | some p => rw [Memory.slots, Memory.slots, hframe p hdata]
  · rw [hr.arrays]
    rcases hr.relocates.exhaust with ⟨-, rfl⟩ | ⟨hdata, -⟩ | ⟨p, -, rfl, -, -⟩
    · exact hb.data_ne_next
    · exact fun heq => hsep.some_ne hab r heq hdata.symm
    · exact hb.data_ne_next
  · rw [hr.slots, length_reshape, hcap]
  · intro i hx hy
    rw [hr.slots, getElem?_reshape (by rwa [hcap]), ha.getElem? hx, Option.getD_some,
      List.getElem?_eq_getElem hx]

namespace Moved

variable {r : Addr} (h : Moved T s b xs ys r)

include h

omit [DecidableEq ι] in
/-- The elements that there are in both arrays are assigned. -/
theorem outcome_copyRange (hx : n ≤ xs.length) (hy : n ≤ ys.length) :
    ∃ s', outcome (copyRange T (s.arrays b).data (some r) n) s = some (.ok (), s')
      ∧ SameBut (some r) s s' ∧ Moved T s' b (ys.take n) ys r := by
  have hne : ∀ q, (s.arrays b).data = some q → some q ≠ some r := fun q hq => by
    rw [← hq]
    exact h.ne
  refine ⟨_, RawMemory.outcome_copyRange h.ne (fun i hi => h.source.exists_usable (by omega))
    fun i hi => ⟨xs[i], ?_, h.usable _ (List.getElem_mem (by omega))⟩, .patch,
    SameBut.patch.owns h.source hne, h.ne, ?_, ?_, ?_, fun x hx => h.source.usable x
      (List.mem_of_mem_take hx)⟩
  · rw [h.kept i (by omega) (by omega), List.getElem?_eq_getElem]
  · rw [Memory.patch, isSome_modify]
    exact h.allocated
  · rw [Memory.slots_patch_self, length_patch, h.room]
  · intro i hi hi'
    have hin : i < n := hi.trans_le (List.length_take_le ..)
    rw [Memory.slots_patch_self, getElem?_patch_of_mem (Nat.zero_le i) hin,
      h.kept i (by omega) hi', List.getElem?_eq_getElem (l := xs) (by omega), Option.map_some,
      h.source.getElem? hi', Option.getD_some, List.getElem?_take_of_lt hin,
      List.getElem?_eq_getElem hi']

omit [DecidableEq ι] in
/-- All elements are in the block. -/
theorem slots_prefix (hle : ys.length ≤ xs.length) (heq : xs.take ys.length = ys) :
    ys <+: s.slots (some r) := by
  rw [List.prefix_iff_getElem?]
  intro i hi
  have hget : ys[i]? = xs[i]? := by
    rw [← heq, List.getElem?_take_of_lt hi]
  rw [h.kept i (by omega) hi, ← hget, List.getElem?_eq_getElem hi]

/-- The members of `a` are set. -/
theorem owns_setArray (hab : b ≠ a) (hslots : ys <+: s.slots (some r)) :
    Owns T (s.setArray a ⟨some r, ys.length⟩) a ys
      ∧ Owns T (s.setArray a ⟨some r, ys.length⟩) b ys := by
  refine ⟨RawMemory.owns_setArray rfl (fun p hp => ?_) hslots h.source.usable h.source.fits,
    h.source.setArray hab⟩
  rw [← Option.some.inj hp]
  exact h.allocated

omit [DecidableEq ι] in
/-- The other elements of a longer array are constructed. -/
theorem outcome_uninitializedCopy (h' : xs = ys.take n) (hn : n ≤ ys.length)
    (hthrow : ∀ i, n ≤ i → i < ys.length → ¬ Throws T f (.transfer none false) i) :
    ∃ s', outcome (uninitializedCopy T f (s.arrays b).data (some r) n ys.length) s
        = some (.ok (), s') ∧ SameBut (some r) s s' ∧ Moved T s' b ys ys r := by
  have hapart : Apart (some r) (.transfer (s.arrays b).data false) := h.ne
  have hne : ∀ q, (s.arrays b).data = some q → some q ≠ some r := fun q hq => by
    rw [← hq]
    exact h.ne
  refine ⟨_, outcome_constructRange hapart hn fun i hlo hi =>
    ⟨by rwa [h.room], fun ht => hthrow i hlo hi (throws_transfer.mp ht),
      h.source.exists_usable hi⟩, .patch, SameBut.patch.owns h.source hne, h.ne, ?_, ?_, ?_,
    h.source.usable⟩
  · rw [isSome_built]
    exact h.allocated
  · rw [length_slots_built, h.room]
  · intro i hi _
    rcases Nat.lt_or_ge i n with hlt | hge
    · rw [slots_built_dst hapart fun hm => Nat.not_le.mpr hlt hm.1,
        h.kept i (by rw [h', List.length_take]; omega) hi, h', List.getElem?_take_of_lt hlt]
    · rw [slots_built hapart hge hi (by rwa [h.room]) (h.source.exists_usable hi), Init.value,
        h.source.getElem? hi, List.getElem?_eq_getElem hi]

omit [DecidableEq ι] in
/-- A copy constructor throws, with the elements of `a` written over. -/
theorem outcome_uninitializedCopy_throw {j : ℕ} (hn : n ≤ j) (hj : j < ys.length)
    (hthrow : Throws T f (.transfer none false) j) :
    ∃ s', outcome (uninitializedCopy T f (s.arrays b).data (some r) n ys.length) s
        = some (.error .element, s') ∧ SameBut (some r) s s' ∧ (s'.blocks r).isSome
      ∧ ∀ i, i < n → (s'.slots (some r))[i]? = (s.slots (some r))[i]? := by
  have hapart : Apart (some r) (.transfer (s.arrays b).data false) := h.ne
  refine ⟨_, outcome_constructRange_throw hapart hn hj (by rwa [h.room])
    (throws_transfer.mpr hthrow) fun i _ hi => h.source.exists_usable (by omega),
    SameBut.patch.trans .wiped, ?_, fun i hi => ?_⟩
  · rw [isSome_wiped, isSome_built]
    exact h.allocated
  · have hwiped : ∀ m : Memory ι V, ((wiped T m (some r) n j).slots (some r))[i]?
        = (m.slots (some r))[i]? := by
      intro m
      rw [wiped]
      split_ifs
      · rfl
      · rw [Memory.slots_patch_self, getElem?_patch_of_notMem (by omega)]
    rw [hwiped, slots_built_dst hapart (by omega)]

end Moved

omit [DecidableEq ι] in
/-- What is left of `a` when a copy constructor throws. -/
theorem owns_after_throw {r : Addr} (ha : Owns T s a xs)
    (hr : Reallocated T f s s' (s.arrays a).data ys.length r) (hs : SameBut (some r) s' s'')
    (hsome : (s''.blocks r).isSome) (hlt : xs.length < ys.length)
    (hslots : ∀ i, i < xs.length → (s''.slots (some r))[i]? = ys[i]?) :
    Owns T s'' a xs
      ↔ (s.arrays a).data = none ∨ (f.inPlace = true ∧ ys.take xs.length = xs) := by
  have harrays : s''.arrays = s.arrays := hs.arrays.trans hr.arrays
  rcases hr.relocates.exhaust with ⟨hdata, -⟩ | ⟨hdata, hplace⟩ | ⟨p, hdata, hrnext, hplace, hnone⟩
  · -- there was no block
    refine iff_of_true (ha.congr harrays (fun p hp => ?_) ?_) (Or.inl hdata)
    · rw [hdata] at hp
      cases hp
    · rw [hdata]
      rfl
  · -- the block is where it was
    have hequal : Owns T s'' a xs ↔ xs <+: s''.slots (some r) := by
      constructor
      · intro howns
        have hpre := howns.slots
        rwa [harrays, hdata] at hpre
      · intro hpre
        refine ⟨by rw [harrays, ha.size], fun p hp => ?_, ?_, ha.usable, ha.fits⟩
        · rw [harrays, hdata] at hp
          rwa [← Option.some.inj hp]
        · rwa [harrays, hdata]
    rw [hequal, hdata, List.prefix_iff_getElem?]
    constructor
    · intro hpre
      refine Or.inr ⟨hplace, List.ext_getElem? fun i => ?_⟩
      rcases Nat.lt_or_ge i xs.length with hi | hi
      · rw [List.getElem?_take_of_lt hi, ← hslots i hi, hpre i hi, List.getElem?_eq_getElem hi]
      · rw [List.getElem?_eq_none (by rw [List.length_take]; omega), List.getElem?_eq_none hi]
    · rintro (hnone | ⟨-, heq⟩) i hi
      · cases hnone
      · rw [hslots i hi, ← List.getElem?_take_of_lt hi, heq, List.getElem?_eq_getElem hi]
  · -- the block was given back
    refine iff_of_false (fun howns => ?_) ?_
    · have hfreed := howns.allocated p (by rw [harrays, hdata])
      have hne : some p ≠ some r := by
        rw [hrnext]
        exact ha.some_ne_next p hdata
      rw [hs.blocks p hne, hnone] at hfreed
      cases hfreed
    · rintro (hnone' | ⟨hplace', -⟩)
      · rw [hdata] at hnone'
        cases hnone'
      · exact Bool.false_ne_true (hplace.symm.trans hplace')

/-- `refill` with a block for more elements, and what follows. -/
theorem Reallocated.longer_iff {r : Addr} (ha : Owns T s a xs) (hab : a ≠ b)
    (hr : Reallocated T f s s' (s.arrays a).data ys.length r) (hm : Moved T s' b xs ys r)
    (hlt : xs.length < ys.length) :
    Ends (outcome (do
        refill T f (s.arrays a) (s.arrays b) (some r)
        putArray a ⟨some r, ys.length⟩) s') (fun s' => Owns T s' a ys ∧ Owns T s' b ys)
        (fun s' => Owns T s' a xs)
      ↔ LongerSafe T f (s.arrays a).data xs ys := by
  have hysize : (s.arrays b).size = ys.length := by rw [← hr.arrays, hm.source.size]
  obtain ⟨s₁, hcopy, hs₁, hm₁⟩ := hm.outcome_copyRange (n := xs.length) le_rfl hlt.le
  rw [hr.arrays] at hcopy
  rw [refill, ha.size, hysize, if_pos hlt, bind_assoc, outcome_bind_ok hcopy, LongerSafe]
  by_cases hstop : ∃ j, xs.length ≤ j ∧ j < ys.length ∧ Throws T f (.transfer none false) j
  · obtain ⟨j, hlo, hj, hthrow⟩ := hstop
    obtain ⟨s₂, hrun, hs₂, hsome, hslots⟩ := hm₁.outcome_uninitializedCopy_throw hlo hj hthrow
    rw [hs₁.arrays, hr.arrays] at hrun
    rw [outcome_bind_error hrun, or_iff_right fun hnone => hnone j hlo hj hthrow]
    refine owns_after_throw ha hr (hs₁.trans hs₂) hsome hlt fun i hi => ?_
    rw [hslots i hi, hm₁.kept i (by rw [List.length_take]; omega) (by omega),
      List.getElem?_take_of_lt hi]
  · push Not at hstop
    obtain ⟨s₂, hrun, hs₂, hm₂⟩ := hm₁.outcome_uninitializedCopy rfl hlt.le hstop
    rw [hs₁.arrays, hr.arrays] at hrun
    rw [outcome_bind_ok hrun]
    exact iff_of_true (hm₂.owns_setArray hab.symm (hm₂.slots_prefix le_rfl List.take_length))
      (Or.inl hstop)

/-- `refill` with a block for fewer elements, and what follows. -/
theorem Reallocated.shorter_iff {r : Addr} (ha : Owns T s a xs) (hab : a ≠ b)
    (hr : Reallocated T f s s' (s.arrays a).data ys.length r) (hm : Moved T s' b xs ys r)
    (hlt : ys.length < xs.length) :
    Ends (outcome (do
        refill T f (s.arrays a) (s.arrays b) (some r)
        putArray a ⟨some r, ys.length⟩) s') (fun s' => Owns T s' a ys ∧ Owns T s' b ys)
        (fun s' => Owns T s' a xs)
      ↔ T.triviallyDestructible = true := by
  have hysize : (s.arrays b).size = ys.length := by rw [← hr.arrays, hm.source.size]
  obtain ⟨s₁, hcopy, hs₁, hm₁⟩ := hm.outcome_copyRange (n := ys.length) hlt.le le_rfl
  rw [hr.arrays] at hcopy
  rw [refill, ha.size, hysize, if_neg (Nat.not_lt.mpr hlt.le), bind_assoc, outcome_bind_ok hcopy]
  by_cases htriv : T.triviallyDestructible = true
  · have hnothing : outcome (destroyRange T (some r) ys.length xs.length) s₁
        = some (.ok (), s₁) := by
      rw [destroyRange, if_pos htriv]
      rfl
    rw [outcome_bind_ok hnothing]
    rw [List.take_length] at hm₁
    exact iff_of_true (hm₁.owns_setArray hab.symm (hm₁.slots_prefix le_rfl List.take_length)) htriv
  · -- the destructors run behind the end of the block
    rw [outcome_bind_none (outcome_destroyRange_none (by simpa using htriv) hlt hm₁.room.le)]
    exact iff_of_false id htriv

/-- An assignment by `realloc` succeeds or leaves the array as it was exactly in the cases that are
safe. -/
theorem copyAssignmentByRealloc_iff (ha : Owns T s a xs) (hb : Owns T s b ys) (hab : a ≠ b)
    (hsep : Separate s a b) (hsize : xs.length ≠ ys.length) :
    Ends (outcome (copyAssignmentByRealloc T f a b) s)
        (fun s' => Owns T s' a ys ∧ Owns T s' b ys) (fun s' => Owns T s' a xs)
      ↔ ys ≠ [] ∧ (f.memory = false ∨
        if xs.length < ys.length then LongerSafe T f (s.arrays a).data xs ys
        else T.triviallyDestructible = true) := by
  rw [copyAssignmentByRealloc, getArray_bind, getArray_bind, hb.size]
  by_cases hys : ys = []
  · -- the block is given back, and the null pointer is taken for a failure
    refine iff_of_false ?_ fun hsafe => hsafe.1 hys
    subst hys
    obtain ⟨p, hp⟩ := Option.ne_none_iff_exists'.mp
      (ha.data_ne fun hnil => hsize (by rw [hnil]))
    have hfree := outcome_reallocate_zero (T := T) (f := f) (n := 0) (ha.allocated p hp)
      (by rw [ElemType.bytes, Nat.zero_mul, Nat.zero_mod])
    rw [hp, List.length_nil, outcome_bind_ok hfree]
    exact not_owns_free hp
  have hbytes : T.bytes ys.length ≠ 0 :=
    T.bytes_ne_zero hb.fits fun hzero => hys (List.length_eq_zero_iff.mp hzero)
  rw [and_iff_right hys]
  cases hmemory : f.memory with
  | false =>
    rw [outcome_bind_ok (outcome_reallocate_none ha.allocated hmemory (Or.inr hbytes))]
    exact iff_of_true ha (Or.inl rfl)
  | true =>
    obtain ⟨r, s', hrun, hr⟩ := outcome_reallocate (T := T) ha.allocated hmemory (Or.inr hbytes)
    have hm := hr.moved ha hb hab hsep
    rw [outcome_bind_ok hrun, orBadAlloc_some, or_iff_right Bool.false_ne_true.symm]
    split_ifs with hlt
    · exact hr.longer_iff ha hab hm hlt
    · exact hr.shorter_iff ha hab hm (by omega)

/-- **When copy assignment is correct and atomic.** -/
theorem assigns_iff (ha : Owns T s a xs) (hb : Owns T s b ys) (hsep : Separate s a b) :
    Assigns T f a b s xs ys ↔ AssignSafe T f a b s xs ys := by
  rw [Assigns, AssignSafe, copyAssign]
  by_cases hab : b = a
  · subst hab
    rw [if_pos rfl]
    have hxs : xs = ys := List.ext_getElem? fun i => by
      have hsize : xs.length = ys.length := ha.size.symm.trans hb.size
      rcases Nat.lt_or_ge i xs.length with hi | hi
      · rw [List.getElem?_eq_getElem hi, ← ha.getElem? hi, hb.getElem? (by omega),
          List.getElem?_eq_getElem]
      · rw [List.getElem?_eq_none hi, List.getElem?_eq_none (by omega)]
    subst hxs
    exact iff_of_true ⟨ha, ha⟩ (Or.inl rfl)
  rw [if_neg hab, getArray_bind, getArray_bind, ha.size, hb.size,
    or_iff_right fun heq => hab heq.symm]
  by_cases hsize : xs.length = ys.length
  · rw [if_pos hsize, if_pos hsize]
    exact copyAssignmentForSizeEqual_iff ha hb (Ne.symm hab) hsep hsize
  rw [if_neg hsize, if_neg hsize]
  by_cases hcond : T.cond = true
  · rw [if_pos hcond, if_pos hcond]
    exact copyAssignmentByRealloc_iff ha hb (Ne.symm hab) hsep hsize
  · rw [if_neg hcond, if_neg hcond]
    exact iff_of_true (copyAssignmentByCopy_ends ha hb (Ne.symm hab) hsep) True.intro

end

/-! ## An empty array is assigned -/

/-- `int`. -/
def ElemType.int : ElemType ℤ where
  sizeof := 4
  isTrivial := true
  memberCanReallocate := false
  triviallyDestructible := true
  copyConstructible := true
  nothrowDefault := true
  nothrowCopy := true
  nothrowMove := true
  nothrowCopyAssign := true
  default := 0
  movedFrom v := v
  sizeof_pos := by decide
  default_of_trivial := by decide
  copy_of_trivial := by decide
  destructible_of_trivial := by decide

theorem fresh_oneBlock (a : Addr) (ha : 1 ≤ a) :
    (if a = 0 then some [Storage.live (7 : ℤ)] else none) = none :=
  if_neg (Nat.ne_of_gt ha)

/-- An array with one element, and one without a block. -/
def oneAndNone : Memory Bool ℤ where
  blocks a := if a = 0 then some [.live 7] else none
  next := 1
  arrays a := if a then ⟨some 0, 1⟩ else ⟨none, 0⟩
  fresh := fresh_oneBlock

/-- The array with one element. -/
theorem owns_one : Owns .int oneAndNone true [.live 7] where
  size := rfl
  allocated p hp := by
    rw [← Option.some.inj hp]
    rfl
  slots := by decide
  usable := by decide
  fits := by decide

/-- The array with none. -/
theorem owns_none : Owns .int oneAndNone false [] where
  size := rfl
  allocated p hp := by cases hp
  slots := by decide
  usable := by decide
  fits := by decide

theorem separate_oneAndNone : Separate oneAndNone true false :=
  Or.inr fun p _ hp => by cases hp

theorem assigns_iff_oneAndNone :
    Assigns .int ⟨true, true, none⟩ true false oneAndNone [.live 7] []
      ↔ AssignSafe .int ⟨true, true, none⟩ true false oneAndNone [.live 7] [] :=
  assigns_iff owns_one owns_none separate_oneAndNone

/-- The block is given back, and the array that is left points to it. -/
theorem not_assigns : ¬ ∀ (T : ElemType ℤ) (f : Faults) (a b : Bool) (s : Memory Bool ℤ)
    (xs ys : List (Storage ℤ)), Owns T s a xs → Owns T s b ys → Separate s a b →
      Assigns T f a b s xs ys := by
  intro h
  have hthrow : Owns .int _ true [.live 7] :=
    h .int ⟨true, true, none⟩ true false oneAndNone [.live 7] [] owns_one owns_none
      separate_oneAndNone
  have hslots : [Storage.live (7 : ℤ)] <+: [] := hthrow.slots
  revert hslots
  decide

end RawMemory

end Mmkvc
