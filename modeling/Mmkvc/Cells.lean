/-
# Memory as a multiset of cells

A memory maps addresses to cells.  `Sat m M` says that the memory `m` is the cells
of `M`, at different addresses, and nothing else.  A program that touches cells of
one part of `M` only leaves the other part as it is, and the order of the cells does
not matter, so a proof brings the cell it needs to the front by rearranging a sum.
-/
import Mathlib

namespace Mmkvc

/-- The address of a cell. -/
abbrev Addr := ℕ

/-- The address of the first cell of a list. -/
def first {V : Type} (es : List (Addr × V)) : Option Addr := es.head?.map Prod.fst

@[simp] theorem first_nil {V : Type} : first ([] : List (Addr × V)) = none := rfl

@[simp] theorem first_cons {V : Type} {e : Addr × V} {es : List (Addr × V)} :
    first (e :: es) = some e.1 := rfl

variable {β : Type}

/-- The memory `m` consists of the cells `M`. -/
structure Sat (m : Addr → Option β) (M : Multiset (Addr × β)) : Prop where
  nodup : (M.map Prod.fst).Nodup
  cell : ∀ x ∈ M, m x.1 = some x.2
  rest : ∀ a, a ∉ M.map Prod.fst → m a = none

namespace Sat

variable {m : Addr → Option β} {M N : Multiset (Addr × β)} {a : Addr} {n n' : β}

theorem empty : Sat (fun _ => (none : Option β)) 0 where
  nodup := by simp
  cell := by simp
  rest := by simp

/-- A cell of one part has another address than the cells of the other. -/
theorem ne_of_mem {x y : Addr × β} (h : Sat m (M + N)) (hx : x ∈ M) (hy : y ∈ N) :
    x.1 ≠ y.1 := by
  have hnodup := h.nodup
  rw [Multiset.map_add, Multiset.nodup_add] at hnodup
  intro heq
  refine Multiset.disjoint_left.mp hnodup.2.2 (Multiset.mem_map_of_mem Prod.fst hx) ?_
  rw [heq]
  exact Multiset.mem_map_of_mem Prod.fst hy

/-- The address of a node that is set aside is not among the others. -/
theorem notMem (h : Sat m ({(a, n)} + M)) : a ∉ M.map Prod.fst := by
  intro ha
  obtain ⟨x, hx, rfl⟩ := Multiset.mem_map.mp ha
  exact h.ne_of_mem (Multiset.mem_singleton_self _) hx rfl

/-- What is in memory is a cell. -/
theorem mem_of_eq (h : Sat m M) (hm : m a = some n) : (a, n) ∈ M := by
  by_cases ha : a ∈ M.map Prod.fst
  · obtain ⟨⟨b, n'⟩, hx, rfl⟩ := Multiset.mem_map.mp ha
    rw [h.cell _ hx] at hm
    rwa [← Option.some.inj hm]
  · rw [h.rest a ha] at hm
    cases hm

/-- A cell is overwritten. -/
theorem write (h : Sat m ({(a, n)} + M)) :
    Sat (Function.update m a (some n')) ({(a, n')} + M) := by
  refine ⟨?_, ?_, ?_⟩
  · have hnodup := h.nodup
    rw [Multiset.singleton_add, Multiset.map_cons] at hnodup ⊢
    exact hnodup
  · intro x hx
    rw [Multiset.singleton_add, Multiset.mem_cons] at hx
    rcases hx with rfl | hx
    · exact Function.update_self _ _ _
    · have hne : x.1 ≠ a := by
        rintro rfl
        exact h.notMem (Multiset.mem_map_of_mem Prod.fst hx)
      rw [Function.update_of_ne hne]
      exact h.cell x (Multiset.mem_add.mpr (Or.inr hx))
  · intro b hb
    rw [Multiset.singleton_add, Multiset.map_cons, Multiset.mem_cons, not_or] at hb
    rw [Function.update_of_ne hb.1]
    refine h.rest b ?_
    rw [Multiset.singleton_add, Multiset.map_cons, Multiset.mem_cons, not_or]
    exact hb

/-- A cell is added at a free address. -/
theorem alloc (h : Sat m M) (hfree : m a = none) :
    Sat (Function.update m a (some n)) ({(a, n)} + M) := by
  have hnotMem : a ∉ M.map Prod.fst := by
    intro ha
    obtain ⟨x, hx, rfl⟩ := Multiset.mem_map.mp ha
    rw [h.cell x hx] at hfree
    cases hfree
  refine ⟨?_, ?_, ?_⟩
  · rw [Multiset.singleton_add, Multiset.map_cons, Multiset.nodup_cons]
    exact ⟨hnotMem, h.nodup⟩
  · intro x hx
    rw [Multiset.singleton_add, Multiset.mem_cons] at hx
    rcases hx with rfl | hx
    · exact Function.update_self _ _ _
    · have hne : x.1 ≠ a := by
        rintro rfl
        exact hnotMem (Multiset.mem_map_of_mem Prod.fst hx)
      rw [Function.update_of_ne hne]
      exact h.cell x hx
  · intro b hb
    rw [Multiset.singleton_add, Multiset.map_cons, Multiset.mem_cons, not_or] at hb
    rw [Function.update_of_ne hb.1]
    exact h.rest b hb.2

/-- A cell is given back. -/
theorem dealloc (h : Sat m ({(a, n)} + M)) : Sat (Function.update m a none) M := by
  refine ⟨?_, ?_, ?_⟩
  · have hnodup := h.nodup
    rw [Multiset.map_add, Multiset.nodup_add] at hnodup
    exact hnodup.2.1
  · intro x hx
    have hne : x.1 ≠ a := by
      rintro rfl
      exact h.notMem (Multiset.mem_map_of_mem Prod.fst hx)
    rw [Function.update_of_ne hne]
    exact h.cell x (Multiset.mem_add.mpr (Or.inr hx))
  · intro b hb
    by_cases hba : b = a
    · subst hba
      exact Function.update_self _ _ _
    · rw [Function.update_of_ne hba]
      refine h.rest b ?_
      rw [Multiset.singleton_add, Multiset.map_cons, Multiset.mem_cons, not_or]
      exact ⟨hba, hb⟩

/-- Below a bound on the addresses in use there is room for no more cells than that. -/
theorem card_le (h : Sat m M) {next : ℕ} (hnext : ∀ b, next ≤ b → m b = none) :
    Multiset.card M ≤ next := by
  have hsub : M.map Prod.fst ⊆ Multiset.range next := by
    intro b hb
    obtain ⟨x, hx, rfl⟩ := Multiset.mem_map.mp hb
    rw [Multiset.mem_range]
    by_contra hle
    have hcell := h.cell x hx
    rw [hnext x.1 (Nat.not_lt.mp hle)] at hcell
    cases hcell
  have hle := Multiset.card_le_card ((Multiset.le_iff_subset h.nodup).mpr hsub)
  rwa [Multiset.card_map, Multiset.card_range] at hle

/-- A memory in use below a bound consists of some cells. -/
theorem exists_of_bounded {next : ℕ} (hnext : ∀ b, next ≤ b → m b = none) : ∃ M, Sat m M := by
  let f : Addr → Option (Addr × β) := fun b => (m b).map fun n => (b, n)
  have hf : ∀ b, (f b).map Prod.fst = (m b).map fun _ => b := fun b => by
    cases h : m b <;> simp [f, h]
  refine ⟨((List.range next).filterMap f : List (Addr × β)), ?_, ?_, fun b hb => ?_⟩
  · rw [Multiset.map_coe, Multiset.coe_nodup, List.map_filterMap]
    refine List.Nodup.filterMap (fun b c x hb hc => ?_) List.nodup_range
    rw [hf, Option.mem_def, Option.map_eq_some_iff] at hb hc
    obtain ⟨-, -, rfl⟩ := hb
    obtain ⟨-, -, rfl⟩ := hc
    rfl
  · intro x hx
    rw [Multiset.mem_coe, List.mem_filterMap] at hx
    obtain ⟨b, -, hb⟩ := hx
    obtain ⟨n, hn, rfl⟩ := Option.map_eq_some_iff.mp hb
    exact hn
  · rcases hcell : m b with _ | n
    · rfl
    · refine absurd (Multiset.mem_map_of_mem Prod.fst (a := (b, n)) ?_) hb
      have hlt : b < next := by
        by_contra hle
        rw [hnext b (Nat.not_lt.mp hle)] at hcell
        cases hcell
      exact List.mem_filterMap.mpr ⟨b, List.mem_range.mpr hlt, by simp [f, hcell]⟩

/-- Cells that are in memory are a part of it. -/
theorem exists_add (h : Sat m M) (hnodup : (N.map Prod.fst).Nodup)
    (hcell : ∀ x ∈ N, m x.1 = some x.2) : ∃ M', Sat m (N + M') := by
  have hle : N ≤ M :=
    (Multiset.le_iff_subset (Multiset.Nodup.of_map _ hnodup)).mpr fun x hx => h.mem_of_eq (hcell x hx)
  obtain ⟨M', rfl⟩ := Multiset.le_iff_exists_add.mp hle
  exact ⟨M', h⟩

end Sat

end Mmkvc
