/-
# The memory usage (`util/memory_util.h`, `algo/libc_allocator_with_realloc.h`)

`Malloc`, `Free` and `Realloc` add to `memory_usage` the bytes that their callers name, in
64 bits that wrap around, whether the C library gives memory or not.  `memoryUsage_exact_iff`
says when the number is that of the bytes in the live blocks.
-/
import Mathlib.Algebra.BigOperators.Group.Finset.Basic
import Mathlib.Data.BitVec
import Mmkvc.Cells
import Mmkvc.Transition

namespace Mmkvc

/-- `MemoryStat`. -/
structure MemoryStat where
  memoryUsage : BitVec 64
  allocateCount : BitVec 64
  deallocateCount : BitVec 64
  reallocateCount : BitVec 64
  deriving DecidableEq, Repr

/-- The heap of the C library: its live blocks, and the bytes that each was asked for with. -/
structure LibcHeap where
  live : Finset Addr
  bytes : Addr → BitVec 64

namespace LibcHeap

/-- A new block. -/
def put (h : LibcHeap) (a : Addr) (n : BitVec 64) : LibcHeap :=
  ⟨insert a h.live, Function.update h.bytes a n⟩

/-- The block at a pointer is released; nothing is done for a null pointer. -/
def drop (h : LibcHeap) : Option Addr → LibcHeap
  | none => h
  | some a => ⟨h.live.erase a, h.bytes⟩

/-- The bytes of the block at a pointer. -/
def bytesAt (h : LibcHeap) : Option Addr → BitVec 64
  | none => 0
  | some a => h.bytes a

/-- A pointer that may be given back: null, or to a live block. -/
def Valid (h : LibcHeap) (p : Option Addr) : Prop := ∀ a ∈ p, a ∈ h.live

/-- Memory that the library may give. -/
def Gives (h : LibcHeap) (ret : Option Addr) : Prop := ∀ a ∈ ret, a ∉ h.live

instance (h : LibcHeap) (p : Option Addr) : Decidable (h.Valid p) :=
  inferInstanceAs (Decidable (∀ a ∈ p, a ∈ h.live))

instance (h : LibcHeap) (ret : Option Addr) : Decidable (h.Gives ret) :=
  inferInstanceAs (Decidable (∀ a ∈ ret, a ∉ h.live))

/-- The bytes of all live blocks. -/
def usage (h : LibcHeap) : ℕ := ∑ a ∈ h.live, (h.bytes a).toNat

end LibcHeap

/-- The statistics and the heap. -/
structure MemoryState where
  stat : MemoryStat
  heap : LibcHeap

namespace MemoryState

def init : MemoryState := ⟨⟨0, 0, 0, 0⟩, ⟨∅, fun _ => 0⟩⟩

/-- `Malloc`, with what `::malloc` returns. -/
def malloc (s : MemoryState) (n : BitVec 64) : Option Addr → MemoryState
  | none => s
  | some a =>
    { stat := { s.stat with
        allocateCount := s.stat.allocateCount + 1
        memoryUsage := s.stat.memoryUsage + n }
      heap := s.heap.put a n }

/-- `Free`. -/
def free (s : MemoryState) (p : Option Addr) (n : BitVec 64) : MemoryState where
  stat := { s.stat with
    deallocateCount := s.stat.deallocateCount + 1
    memoryUsage := s.stat.memoryUsage - n }
  heap := s.heap.drop p

/-- `Realloc` that is recorded: memory was given, or asked for no byte. -/
def record (s : MemoryState) (oldSize size : BitVec 64) : MemoryStat :=
  { s.stat with
    reallocateCount := s.stat.reallocateCount + 1
    memoryUsage := s.stat.memoryUsage + (size - oldSize) }

/-- `Realloc`, with what `::realloc` returns. -/
def realloc (s : MemoryState) (p : Option Addr) (oldSize size : BitVec 64) :
    Option Addr → MemoryState
  | some a => { stat := s.record oldSize size, heap := (s.heap.drop p).put a size }
  | none => if size = 0 then { stat := s.record oldSize size, heap := s.heap.drop p } else s

end MemoryState

/-- The calls of `LibcAllocatorWithRealloc<T>` for types of any size, with what the library
returns. -/
inductive AllocatorOp where
  | allocate (sizeofT n : BitVec 64) (ret : Option Addr)
  | reallocate (sizeofT : BitVec 64) (p : Option Addr) (oldN n : BitVec 64) (ret : Option Addr)
  | deallocate (sizeofT : BitVec 64) (p : Option Addr) (n : BitVec 64)
  deriving DecidableEq, Repr

namespace MemoryState

open Transition

/-- The state after a call, if its pointer may be given back and the library can return what it
does. -/
def step (s : MemoryState) : AllocatorOp → Option MemoryState
  | .allocate sizeofT n ret => if s.heap.Gives ret then some (s.malloc (n * sizeofT) ret) else none
  | .reallocate sizeofT p oldN n ret =>
    if s.heap.Valid p ∧ (s.heap.drop p).Gives ret then
      some (s.realloc p (oldN * sizeofT) (n * sizeofT) ret)
    else none
  | .deallocate sizeofT p n => if s.heap.Valid p then some (s.free p (n * sizeofT)) else none

/-- `memory_usage` is the number of bytes in the live blocks, modulo 2^64. -/
def Exact (s : MemoryState) : Prop := s.stat.memoryUsage = BitVec.ofNat 64 s.heap.usage

/-- A call that takes bytes off the account names those of its block. -/
def NamesBytes (s : MemoryState) : AllocatorOp → Prop
  | .allocate _ _ _ => True
  | .reallocate sizeofT p oldN n ret =>
    ret ≠ none ∨ n * sizeofT = 0 → oldN * sizeofT = s.heap.bytesAt p
  | .deallocate sizeofT p n => n * sizeofT = s.heap.bytesAt p

instance decidableNamesBytes (s : MemoryState) : ∀ op, Decidable (s.NamesBytes op)
  | .allocate _ _ _ => isTrue trivial
  | .reallocate _ _ _ _ _ => inferInstanceAs (Decidable (_ → _))
  | .deallocate _ _ _ => inferInstanceAs (Decidable (_ = _))

end MemoryState

namespace LibcHeap

variable {h : LibcHeap} {a : Addr} {p : Option Addr}

/-- A new block adds its size to the usage. -/
theorem usage_put (ha : a ∉ h.live) (n : BitVec 64) : (h.put a n).usage = h.usage + n.toNat := by
  have hrest : ∑ b ∈ h.live, (Function.update h.bytes a n b).toNat = h.usage :=
    Finset.sum_congr rfl fun b hb => by
      rw [Function.update_of_ne (ne_of_mem_of_not_mem hb ha)]
  have hsum := Finset.sum_insert (f := fun b => (Function.update h.bytes a n b).toNat) ha
  rw [Function.update_self, hrest, Nat.add_comm] at hsum
  exact hsum

/-- A block that is given back takes its size from the usage. -/
theorem usage_drop (hp : h.Valid p) : (h.drop p).usage + (h.bytesAt p).toNat = h.usage := by
  cases p with
  | none => rfl
  | some a => exact Finset.sum_erase_add _ _ (hp a rfl)

end LibcHeap

namespace MemoryState

open Transition

variable {s s' : MemoryState} {op : AllocatorOp} {a : Addr} {p : Option Addr}

/-- In 64 bits a new block adds its size. -/
theorem ofNat_put {h : LibcHeap} (ha : a ∉ h.live) (n : BitVec 64) :
    BitVec.ofNat 64 (h.put a n).usage = BitVec.ofNat 64 h.usage + n := by
  rw [LibcHeap.usage_put ha, BitVec.ofNat_add, BitVec.ofNat_toNat, BitVec.setWidth_eq]

/-- In 64 bits a block that is given back takes its size away. -/
theorem ofNat_drop {h : LibcHeap} (hp : h.Valid p) :
    BitVec.ofNat 64 (h.drop p).usage = BitVec.ofNat 64 h.usage - h.bytesAt p := by
  rw [← LibcHeap.usage_drop hp, BitVec.ofNat_add, BitVec.ofNat_toNat, BitVec.setWidth_eq,
    BitVec.add_sub_cancel]

/-- **What a call does to the account**: it stays exact if and only if the call names the bytes
of the block that it gives back. -/
theorem exact_iff_namesBytes (h : s.Exact) (hstep : s.step op = some s') :
    s'.Exact ↔ s.NamesBytes op := by
  unfold Exact at h ⊢
  cases op with
  | allocate sizeofT n ret =>
    simp only [step] at hstep
    split_ifs at hstep with hgives
    obtain rfl := Option.some.inj hstep
    cases ret with
    | none => exact iff_of_true h trivial
    | some a =>
      refine iff_of_true ?_ trivial
      rw [malloc, ofNat_put (hgives a rfl), h]
  | deallocate sizeofT p n =>
    simp only [step] at hstep
    split_ifs at hstep with hvalid
    obtain rfl := Option.some.inj hstep
    rw [free, ofNat_drop hvalid, h]
    exact sub_right_inj
  | reallocate sizeofT p oldN n ret =>
    simp only [step] at hstep
    split_ifs at hstep with henabled
    obtain rfl := Option.some.inj hstep
    obtain ⟨hvalid, hgives⟩ := henabled
    cases ret with
    | some a =>
      rw [realloc, ofNat_put (hgives a rfl), ofNat_drop hvalid, record, h]
      show _ ↔ (_ ∨ _ → _)
      rw [forall_prop_of_true (Or.inl (Option.some_ne_none a)), add_sub, ← sub_add_eq_add_sub, add_left_inj]
      exact sub_right_inj
    | none =>
      -- a call that asks for no byte gives the block back, any other that fails does nothing
      by_cases hsize : n * sizeofT = 0
      · rw [realloc, if_pos hsize, ofNat_drop hvalid, record, h]
        show _ ↔ (_ ∨ _ → _)
        rw [forall_prop_of_true (Or.inr hsize), hsize, zero_sub, ← sub_eq_add_neg]
        exact sub_right_inj
      · rw [realloc, if_neg hsize]
        exact iff_of_true h fun hor => absurd hsize (hor.elim (absurd rfl) not_not_intro)

end MemoryState

/-- **When `memory_usage` is exact.**  In any run of allocations, reallocations and
deallocations, whatever the C library returns, `memory_usage` is the number of bytes in the
live blocks (modulo 2^64) after every call exactly if each deallocation, and each
reallocation that succeeds or asks for no byte, names the number of bytes of its block, and 0
for a null pointer. -/
theorem memoryUsage_exact_iff {ops : List AllocatorOp} {s : MemoryState}
    (hrun : Transition.run MemoryState.step MemoryState.init ops = some s) :
    Transition.AllSteps MemoryState.step
        (fun s op => ∀ s', s.step op = some s' → s'.Exact) MemoryState.init ops
      ↔ Transition.AllSteps MemoryState.step MemoryState.NamesBytes MemoryState.init ops := by
  have henabled := Transition.allSteps_isSome_of_run hrun
  refine Transition.allSteps_iff (I := fun _ => True) (fun s op _ hexact hop => ?_) trivial
    (show MemoryState.init.Exact from rfl) henabled
  obtain ⟨s', hs'⟩ := Option.isSome_iff_exists.mp hop
  exact ⟨s', hs', fun _ => trivial, MemoryState.exact_iff_namesBytes hexact hs'⟩

/-- Three words are asked for and moved into a block of five, which is then released. -/
def growThenFree : List AllocatorOp :=
  [.allocate 8 3 (some 1), .reallocate 8 (some 1) 3 5 (some 2), .deallocate 8 (some 2) 5]

theorem memoryUsage_exact_iff_growThenFree :
    Transition.AllSteps MemoryState.step
      (fun s op => ∀ s', s.step op = some s' → s'.Exact) MemoryState.init growThenFree := by
  obtain ⟨s, hs⟩ : ∃ s, Transition.run MemoryState.step MemoryState.init growThenFree = some s :=
    Option.isSome_iff_exists.mp (by decide)
  exact (memoryUsage_exact_iff hs).mpr (by decide)

end Mmkvc
