/-
# Blocks of raw memory

A program that gets and gives back blocks of memory and that constructs and destroys elements in
them by hand.  A slot of a block is raw or holds an element.  A program ends, throws, or gets stuck
where the source has undefined behaviour; what it throws does not undo what it did.
-/
import Mmkvc.Cells

namespace Mmkvc

/-! ## A stretch of a list -/

section

variable {α : Type} {lo mid hi i : ℕ} {g g' : ℕ → α → α} {xs : List α}

/-- The elements from `lo` to before `hi` are rewritten. -/
def patch (lo hi : ℕ) (g : ℕ → α → α) (xs : List α) : List α :=
  xs.mapIdx fun i x => if lo ≤ i ∧ i < hi then g i x else x

/-- The element at an index, in the stretch or outside. -/
theorem getElem?_patch :
    (patch lo hi g xs)[i]? = xs[i]?.map fun x => if lo ≤ i ∧ i < hi then g i x else x :=
  List.getElem?_mapIdx

@[simp] theorem length_patch : (patch lo hi g xs).length = xs.length := List.length_mapIdx

@[simp] theorem patch_nil : patch lo hi g [] = [] := rfl

/-- An element of the stretch is rewritten. -/
theorem getElem?_patch_of_mem (hlo : lo ≤ i) (hhi : i < hi) :
    (patch lo hi g xs)[i]? = xs[i]?.map (g i) := by
  rw [getElem?_patch]
  simp only [hlo, hhi, and_self, if_true]

/-- An element outside of the stretch stays. -/
theorem getElem?_patch_of_notMem (h : ¬ (lo ≤ i ∧ i < hi)) : (patch lo hi g xs)[i]? = xs[i]? := by
  rw [getElem?_patch]
  simp only [h, if_false, Option.map_id']

/-- An empty stretch changes nothing. -/
theorem patch_self : patch lo lo g xs = xs := by
  apply List.ext_getElem?
  intro i
  exact getElem?_patch_of_notMem (by omega)

/-- Two stretches beside each other. -/
theorem patch_patch (h₁ : lo ≤ mid) (h₂ : mid ≤ hi) :
    patch mid hi g (patch lo mid g xs) = patch lo hi g xs := by
  apply List.ext_getElem?
  intro i
  by_cases hlow : i < mid
  · rw [getElem?_patch_of_notMem (by omega), getElem?_patch, getElem?_patch]
    congr 1
    funext x
    by_cases hlo : lo ≤ i <;> simp [hlo, hlow, Nat.lt_of_lt_of_le hlow h₂]
  · rw [getElem?_patch, getElem?_patch_of_notMem (by omega), getElem?_patch]
    congr 1
    funext x
    by_cases hhi : i < hi <;> simp [hhi, h₁.trans (Nat.not_lt.mp hlow), Nat.not_lt.mp hlow]

/-- What the rewriting does outside of the stretch, or on other elements, does not matter. -/
theorem patch_congr (h : ∀ i x, lo ≤ i → i < hi → xs[i]? = some x → g i x = g' i x) :
    patch lo hi g xs = patch lo hi g' xs := by
  apply List.ext_getElem?
  intro i
  rw [getElem?_patch, getElem?_patch]
  cases hx : xs[i]? with
  | none => rfl
  | some x =>
    rw [Option.map_some, Option.map_some]
    split_ifs with hmem
    · rw [h i x hmem.1 hmem.2 hx]
    · rfl

end

/-! ## Memory -/

/-- A slot of a block, raw or with a constructed element. -/
inductive Storage (V : Type) where
  | raw
  | live (v : V)
  deriving DecidableEq, Repr

/-- The element is replaced. -/
def Storage.map {V : Type} (g : V → V) : Storage V → Storage V
  | raw => raw
  | live v => live (g v)

/-- The members `data_` and `end_ - data_` of an array. -/
structure ArrayHeader where
  data : Option Addr
  size : ℕ
  deriving DecidableEq, Repr

/-- The blocks, the first address that was never given out, and the array objects. -/
@[ext]
structure Memory (ι V : Type) where
  blocks : Addr → Option (List (Storage V))
  next : Addr
  arrays : ι → ArrayHeader
  fresh : ∀ a, next ≤ a → blocks a = none

namespace Memory

variable {ι V : Type} {s : Memory ι V} {p q : Option Addr} {a : Addr} {lo mid hi : ℕ}
  {g g' : ℕ → Storage V → Storage V} {xs : List (Storage V)}

/-- The slots behind a pointer, none where there is no block. -/
def slots (s : Memory ι V) : Option Addr → List (Storage V)
  | none => []
  | some a => (s.blocks a).getD []

/-- The slots of a block are rewritten. -/
def modify (s : Memory ι V) (p : Option Addr) (g : List (Storage V) → List (Storage V)) : Memory ι V where
  blocks a := if p = some a then (s.blocks a).map g else s.blocks a
  next := s.next
  arrays := s.arrays
  fresh a ha := by simp only [s.fresh a ha, Option.map_none, ite_self]

/-- A stretch of a block is rewritten. -/
def patch (s : Memory ι V) (p : Option Addr) (lo hi : ℕ) (g : ℕ → Storage V → Storage V) : Memory ι V :=
  s.modify p (Mmkvc.patch lo hi g)

/-- A new block at the next address. -/
def alloc (s : Memory ι V) (xs : List (Storage V)) : Memory ι V where
  blocks := Function.update s.blocks s.next (some xs)
  next := s.next + 1
  arrays := s.arrays
  fresh a ha := by
    rw [Function.update_of_ne (Nat.ne_of_gt ha)]
    exact s.fresh a (Nat.le_of_succ_le ha)

/-- A block is given back. -/
def free (s : Memory ι V) (a : Addr) : Memory ι V where
  blocks := Function.update s.blocks a none
  next := s.next
  arrays := s.arrays
  fresh b hb := by
    by_cases hba : b = a
    · rw [hba, Function.update_self]
    · rw [Function.update_of_ne hba]
      exact s.fresh b hb

/-- The members of an array object are set. -/
def setArray [DecidableEq ι] (s : Memory ι V) (a : ι) (x : ArrayHeader) : Memory ι V :=
  { s with arrays := Function.update s.arrays a x }

theorem blocks_modify {g : List (Storage V) → List (Storage V)} :
    (s.modify p g).blocks a = if p = some a then (s.blocks a).map g else s.blocks a := rfl

theorem blocks_alloc : (s.alloc xs).blocks = Function.update s.blocks s.next (some xs) := rfl

theorem blocks_free : (s.free a).blocks = Function.update s.blocks a none := rfl

@[simp] theorem arrays_setArray_self [DecidableEq ι] {b : ι} {x : ArrayHeader} :
    (s.setArray b x).arrays b = x := Function.update_self ..

/-- The other arrays keep their members. -/
theorem arrays_setArray_of_ne [DecidableEq ι] {b c : ι} {x : ArrayHeader} (h : c ≠ b) :
    (s.setArray b x).arrays c = s.arrays c := Function.update_of_ne h ..

@[simp] theorem next_free : (s.free a).next = s.next := rfl

/-- Nothing is at the next address. -/
theorem ne_next (h : (s.blocks a).isSome) : a ≠ s.next := by
  rintro rfl
  rw [s.fresh _ le_rfl] at h
  cases h

@[simp] theorem slots_none : s.slots none = [] := rfl

/-- The elements of a block that is there. -/
theorem slots_eq (h : s.blocks a = some xs) : s.slots (some a) = xs := by
  rw [slots, h, Option.getD_some]

/-- The members of an array are not in a block. -/
@[simp] theorem slots_setArray [DecidableEq ι] {b : ι} {x : ArrayHeader} :
    (s.setArray b x).slots p = s.slots p := by
  cases p <;> rfl

/-- A stretch of a block is a stretch of its elements. -/
@[simp] theorem slots_patch_self :
    (s.patch p lo hi g).slots p = Mmkvc.patch lo hi g (s.slots p) := by
  cases p with
  | none => rfl
  | some a =>
    rw [slots, slots, patch, blocks_modify, if_pos rfl]
    cases s.blocks a <;> rfl

/-- The other blocks keep their elements. -/
theorem slots_modify_of_ne {g : List (Storage V) → List (Storage V)} (h : q ≠ p) :
    (s.modify p g).slots q = s.slots q := by
  cases q with
  | none => rfl
  | some a => rw [slots, slots, blocks_modify, if_neg h.symm]

/-- Rewriting in one block leaves the others alone. -/
theorem slots_patch_of_ne (h : q ≠ p) : (s.patch p lo hi g).slots q = s.slots q :=
  slots_modify_of_ne h

/-- The elements of a new block are the given ones. -/
theorem slots_alloc_self : (s.alloc xs).slots (some s.next) = xs :=
  slots_eq (Function.update_self ..)

/-- A new block leaves the elements of the others alone. -/
theorem slots_alloc_of_ne (h : p ≠ some s.next) : (s.alloc xs).slots p = s.slots p := by
  cases p with
  | none => rfl
  | some a =>
    rw [slots, slots, blocks_alloc, Function.update_of_ne fun ha => h (congrArg some ha)]

/-- Giving a block back leaves the elements of the others alone. -/
theorem slots_free_of_ne (h : p ≠ some a) : (s.free a).slots p = s.slots p := by
  cases p with
  | none => rfl
  | some b =>
    rw [slots, slots, blocks_free, Function.update_of_ne fun hb => h (congrArg some hb)]

/-- Rewriting an empty stretch of a block changes nothing. -/
theorem patch_self : s.patch p lo lo g = s := by
  ext1
  · funext a
    rw [patch, blocks_modify]
    split_ifs
    · cases s.blocks a with
      | none => rfl
      | some xs => exact congrArg some Mmkvc.patch_self
    · rfl
  all_goals rfl

/-- Two stretches of one block beside each other. -/
theorem patch_patch (h₁ : lo ≤ mid) (h₂ : mid ≤ hi) :
    (s.patch p lo mid g).patch p mid hi g = s.patch p lo hi g := by
  ext1
  · funext a
    simp only [patch, blocks_modify]
    split_ifs
    · cases s.blocks a with
      | none => rfl
      | some xs => exact congrArg some (Mmkvc.patch_patch h₁ h₂)
    · rfl
  all_goals rfl

/-- Stretches of different blocks. -/
theorem patch_comm {lo' hi' : ℕ} (h : p ≠ q) :
    (s.patch p lo hi g).patch q lo' hi' g' = (s.patch q lo' hi' g').patch p lo hi g := by
  ext1
  · funext a
    simp only [patch, blocks_modify]
    split_ifs with h₁ h₂
    · exact absurd (h₂.trans h₁.symm) h
    all_goals rfl
  all_goals rfl

/-- Only the elements of the stretch decide what the rewriting makes. -/
theorem patch_congr (h : ∀ i x, lo ≤ i → i < hi → (s.slots p)[i]? = some x → g i x = g' i x) :
    s.patch p lo hi g = s.patch p lo hi g' := by
  ext1
  · funext a
    simp only [patch, blocks_modify]
    split_ifs with ha
    · cases hxs : s.blocks a with
      | none => rfl
      | some xs =>
        rw [ha, slots_eq hxs] at h
        exact congrArg some (Mmkvc.patch_congr h)
    · rfl
  all_goals rfl

end Memory

/-! ## Programs -/

/-- What a program throws. -/
inductive Exc where
  | badAlloc
  | element
  deriving DecidableEq, Repr

/-- A program over the blocks and the arrays. -/
abbrev BlockM (ι V : Type) := ExceptT Exc (StateT (Memory ι V) Option)

section

variable {ι V α β : Type} {s s' : Memory ι V} {p : BlockM ι V α} {f : α → BlockM ι V β} {a : α}
  {e : Exc}

/-- How a program ends, and the memory that it leaves. -/
def outcome (p : BlockM ι V α) (s : Memory ι V) : Option (Except Exc α × Memory ι V) :=
  (ExceptT.run p).run s

@[simp] theorem outcome_pure : outcome (pure a : BlockM ι V α) s = some (.ok a, s) := rfl

@[simp] theorem outcome_throw : outcome (throw e : BlockM ι V α) s = some (.error e, s) := rfl

/-- A program goes on from the result of its first part. -/
theorem outcome_bind_ok (h : outcome p s = some (.ok a, s')) :
    outcome (p >>= f) s = outcome (f a) s' := by
  rw [outcome, StateT.run] at h ⊢
  change (ExceptT.run p s >>= _) = _
  rw [h]
  rfl

/-- An exception of the first part ends a program. -/
theorem outcome_bind_error (h : outcome p s = some (.error e, s')) :
    outcome (p >>= f) s = some (.error e, s') := by
  rw [outcome, StateT.run] at h ⊢
  change (ExceptT.run p s >>= _) = _
  rw [h]
  rfl

/-- A program is stuck if its first part is. -/
theorem outcome_bind_none (h : outcome p s = none) : outcome (p >>= f) s = none := by
  rw [outcome, StateT.run] at h ⊢
  change (ExceptT.run p s >>= _) = _
  rw [h]
  rfl

/-- Nothing is caught where nothing is thrown. -/
theorem outcome_catch_ok {f : Exc → BlockM ι V α} (h : outcome p s = some (.ok a, s')) :
    outcome (tryCatch p f) s = some (.ok a, s') := by
  rw [outcome, StateT.run] at h ⊢
  change (ExceptT.run p s >>= _) = _
  rw [h]
  rfl

/-- What is thrown is handled in the state where it was thrown. -/
theorem outcome_catch_error {f : Exc → BlockM ι V α} (h : outcome p s = some (.error e, s')) :
    outcome (tryCatch p f) s = outcome (f e) s' := by
  rw [outcome, StateT.run] at h ⊢
  change (ExceptT.run p s >>= _) = _
  rw [h]
  rfl

/-- A handler does not help a program that is stuck. -/
theorem outcome_catch_none {f : Exc → BlockM ι V α} (h : outcome p s = none) :
    outcome (tryCatch p f) s = none := by
  rw [outcome, StateT.run] at h ⊢
  change (ExceptT.run p s >>= _) = _
  rw [h]
  rfl

/-- The slots from `lo` on, `k` of them. -/
def forSlots (body : ℕ → BlockM ι V Unit) : ℕ → ℕ → BlockM ι V Unit
  | _, 0 => return ()
  | lo, k + 1 => do
    body lo
    forSlots body (lo + 1) k

/-- **The loop rule.**  The loop comes to a slot when it got past every one before it. -/
theorem outcome_forSlots (body : ℕ → BlockM ι V Unit) (lo j k : ℕ) {S : ℕ → Memory ι V}
    (h : ∀ i, lo ≤ i → i < lo + j → outcome (body i) (S i) = some (.ok (), S (i + 1))) :
    outcome (forSlots body lo (j + k)) (S lo) = outcome (forSlots body (lo + j) k) (S (lo + j)) := by
  induction j generalizing lo with
  | zero => rw [Nat.zero_add, Nat.add_zero]
  | succ j ih =>
    rw [Nat.add_right_comm, forSlots, outcome_bind_ok (h lo le_rfl (by omega)),
      ih (lo + 1) fun i hlo hhi => h i (by omega) (by omega), Nat.add_right_comm lo 1 j, ← Nat.add_assoc]

end

end Mmkvc
