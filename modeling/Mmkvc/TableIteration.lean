/-
# Iteration over `HashTable` and `TreeHashTable`

The lists and the trees are buckets as the iterator wants them, so in every state that a table
can be in, whatever the phase of a rehash, iteration meets the entries of both tables.
-/
import Mmkvc.AvlTraversal
import Mmkvc.HashTableAnswers
import Mmkvc.TreeTableAnswers

namespace Mmkvc

open Tables Transition

variable {K V : Type}

/-! ## Lists -/

namespace HashTable

open Slist

section

variable {l : Layout} {f : Bucket → List (Addr × V)} {H : Multiset (Addr × SNode V)} {top : ℕ}
  {s : HashTable V}

/-- The lists of a table are buckets as the iterator wants them. -/
theorem walks (l : Layout) (f : Bucket → List (Addr × V)) (H : Multiset (Addr × SNode V)) (top : ℕ) :
    Walks listWalk l.size f (Holds l f H top) where
  size_eq s hs := hs.size_eq
  isEmpty {b} hb := by
    refine onHeap_lists (Triple.bind_eq Lists.header_spec (triple_pure fun s hs => ⟨?_, hs⟩))
    cases f b <;> rfl
  front hb hf := onHeap_lists (Lists.front_spec hf)
  next {b e pre post} hb hf := by
    refine onHeap_lists (Slist.load_bind (n := ⟨e.2, first post⟩) ?_ (triple_pure fun s hs => ⟨rfl, hs⟩))
    refine Multiset.mem_add.mpr (Or.inl (mem_gather.mpr ⟨b, hb, ?_⟩))
    rw [hf]
    exact mem_cells_append pre post e
  bound := by
    have hbound : Triple (Lists l.size f H top) Slist.bound
        fun n h => n = top ∧ Lists l.size f H top h := fun s hs => ⟨s.next, s, rfl, hs.next, hs⟩
    refine Triple.of_pre (C := (rest l.size f .table1 0).length ≤ top) (fun hle => ?_) fun s hs =>
      length_rest_le (fun b => Slist.cells_map_fst (f b)) hs.mem.sat hs.mem.fresh
    refine (onHeap_lists hbound).post fun n s hs => ⟨?_, hs.2⟩
    rw [hs.1]
    exact hle

end

/-- Iteration meets the entries of a table. -/
theorem visitAll_contains {T : EqualTraits K V} {l : Layout} {M : Multiset (Addr × V)}
    {H : Multiset (Addr × SNode V)} {top : ℕ} {s : HashTable V} (hs : Contains T l M H top s) :
    ∃ (es : List (Addr × V)) (s' : HashTable V), visitAll.run s = some (es.map Prod.fst, s')
      ∧ (es.map Prod.fst).Nodup ∧ (es : Multiset (Addr × V)) = M ∧ Contains T l M H top s' := by
  obtain ⟨f, hf, hM, hs⟩ := hs
  obtain ⟨r, s', hrun, rfl, hs'⟩ := visitAll_spec (walks l f H top) s hs
  exact ⟨_, s', hrun, nodup_rest (fun b => Slist.cells_map_fst (f b)) hs.mem.sat,
    (coe_rest l.size f).trans hM, f, hf, hM, hs'⟩

end HashTable

/-! ## Trees -/

namespace TreeHashTable

open AvlM AvlUtil LinkedTree

section

variable {l : Layout} {f : Bucket → LinkedTree V} {H : Multiset (Addr × AvlNode V)} {top : ℕ}

/-- A program that reads one tree. -/
theorem onHeap_reads {α : Type} {p : AvlM Bucket V α} {x : α} {b : Bucket} (hb : b.2 < l.size b.1)
    (hp : ∀ e, Triple (Focus b (others l.size f b + H) e [] (f b)) p
      fun a h => a = x ∧ Focus b (others l.size f b + H) e [] (f b) h) :
    Triple (Holds l f H top) (onHeap p) fun a s => a = x ∧ Holds l f H top s := by
  refine onHeap_forest (Forest.lift hb fun counts => (hp _).post fun a h hh => ⟨hh.1, ?_⟩)
  have hforest := Forest.of_focus hb (fun _ _ => rfl) hh.2
  rwa [Function.update_eq_self] at hforest

/-- The trees of a table are buckets as the iterator wants them. -/
theorem walks (l : Layout) (f : Bucket → LinkedTree V) (H : Multiset (Addr × AvlNode V)) (top : ℕ) :
    Walks treeWalk l.size (fun b => (f b).inorder) (Holds l f H top) where
  size_eq s hs := hs.size_eq
  isEmpty {b} hb := by
    refine onHeap_reads hb fun e => getRoot_bind (triple_pure fun s hs => ⟨?_, hs⟩)
    rw [Place.top_nil]
    cases ht : f b <;> simp
  front {b e es} hb hf := by
    refine onHeap_reads hb fun e' => getRoot_bind (Triple.bind_eq (getEdgeNode_spec (d := .right)) ?_)
    rw [toward, hf]
    exact fun s hs => ⟨e.1, s, rfl, rfl, hs⟩
  next {b e pre post} hb hf := onHeap_reads hb fun e' => getNeighbour_spec (d := .right) hf
  bound := by
    have hbound : Triple (Forest l.size f H top) AvlM.bound
        fun n h => n = top ∧ Forest l.size f H top h := fun s hs => ⟨s.next, s, rfl, hs.next, hs⟩
    refine Triple.of_pre (C := (rest l.size (fun b => (f b).inorder) .table1 0).length ≤ top)
      (fun hle => ?_) fun s hs =>
        length_rest_le (fun b => cells_map_fst (f b) none) hs.mem.sat hs.mem.fresh
    refine (onHeap_forest hbound).post fun n s hs => ⟨?_, hs.2⟩
    rw [hs.1]
    exact hle

end

/-- A state in which a new table can be after some calls. -/
def Reachable (T : HashTraits K V) (s : TreeHashTable V) : Prop :=
  ∃ s₀ ops, construct = some s₀ ∧ AllSteps (step T) PushesLoose s₀ ops ∧ run (step T) s₀ ops = some s

/-- Every reachable table is that of a map. -/
theorem Reachable.exists_refines {T : HashTraits K V} {s : TreeHashTable V} (hT : LawfulHash T)
    (h : Reachable T s) : ∃ c m, Refines T c s m := by
  obtain ⟨s₀, ops, hs₀, hpush, hrun⟩ := h
  obtain ⟨t, ht, href, -⟩ := TreeHashTable.exists_refines T
  obtain rfl := Option.some.inj (ht.symm.trans hs₀)
  refine invariant_of_allSteps (I := fun s => ∃ c m, Refines T c s m) ?_ ⟨_, _, href⟩ hpush hrun
  rintro s op s' ⟨c, m, href⟩ hop hstep
  obtain ⟨r, t, c', m', hcall, -, -, href', -⟩ := href.call hT hop
  rw [step, exec, hcall] at hstep
  obtain rfl := Option.some.inj hstep
  exact ⟨c', m', href'⟩

/-- Iteration meets the entries of a table. -/
theorem visitAll_holds {c : Snapshot V} {s : TreeHashTable V} (hs : c.Holds s) :
    ∃ (es : List (Addr × V)) (s' : TreeHashTable V), visitAll.run s = some (es.map Prod.fst, s')
      ∧ (es.map Prod.fst).Nodup ∧ (es : Multiset (Addr × V)) = c.stored ∧ c.Holds s' := by
  obtain ⟨r, s', hrun, rfl, hs'⟩ := visitAll_spec (walks c.layout c.trees c.loose c.top) s hs
  exact ⟨_, s', hrun, nodup_rest (fun b => cells_map_fst (c.trees b) none) hs.mem.sat,
    coe_rest c.layout.size fun b => (c.trees b).inorder, hs'⟩

end TreeHashTable

/-! ## Every phase of a rehash -/

/-- **Iteration is complete**: from `begin()` to `end()` it meets each entry of both tables once
and leaves them where they are, for either kind of table and whatever calls there were. -/
theorem visitAll_reachable {T : EqualTraits K V} {T' : HashTraits K V} (hT : LawfulEqual T)
    (hT' : LawfulHash T') :
    (∀ s : HashTable V, HashTable.Reachable T s → ∃ (es : List (Addr × V)) (s' : HashTable V),
      HashTable.visitAll.run s = some (es.map Prod.fst, s') ∧ (es.map Prod.fst).Nodup
        ∧ HashTable.Stores s es ∧ HashTable.Stores s' es)
    ∧ ∀ s : TreeHashTable V, TreeHashTable.Reachable T' s →
      ∃ (es : List (Addr × V)) (s' : TreeHashTable V),
        TreeHashTable.visitAll.run s = some (es.map Prod.fst, s') ∧ (es.map Prod.fst).Nodup
          ∧ TreeHashTable.Stores s es ∧ TreeHashTable.Stores s' es := by
  constructor
  · intro s hs
    obtain ⟨c, hc⟩ := hs.exists_holds hT
    obtain ⟨es, s', hrun, hnodup, hM, hs'⟩ := HashTable.visitAll_contains hc
    refine ⟨es, s', hrun, hnodup, ?_, ?_⟩
    · rw [hM]
      exact HashTable.stores_of_contains hc
    · rw [hM]
      exact HashTable.stores_of_contains hs'
  · intro s hs
    obtain ⟨c, m, href⟩ := hs.exists_refines hT'
    obtain ⟨es, s', hrun, hnodup, hM, hs'⟩ := TreeHashTable.visitAll_holds href.holds
    refine ⟨es, s', hrun, hnodup, ?_, ?_⟩
    · rw [hM]
      exact TreeHashTable.stores_of_holds href.holds
    · rw [hM]
      exact TreeHashTable.stores_of_holds hs'

/-- Both tables in the middle of a rehash. -/
theorem visitAll_reachable_rehashing :
    (∃ s : HashTable ℤ, HashTable.Reachable HashTable.intKeys s ∧ s.rehashMoveBucketIndex = some 1
      ∧ ∃ (es : List (Addr × ℤ)) (s' : HashTable ℤ),
        HashTable.visitAll.run s = some (es.map Prod.fst, s') ∧ (es.map Prod.fst).Nodup
          ∧ HashTable.Stores s es ∧ HashTable.Stores s' es)
    ∧ ∃ s : TreeHashTable ℤ, TreeHashTable.Reachable TreeHashTable.intHash s
      ∧ s.rehashMoveBucketIndex = some 1 ∧ ∃ (es : List (Addr × ℤ)) (s' : TreeHashTable ℤ),
        TreeHashTable.visitAll.run s = some (es.map Prod.fst, s') ∧ (es.map Prod.fst).Nodup
          ∧ TreeHashTable.Stores s es ∧ TreeHashTable.Stores s' es := by
  constructor
  · have hcalc : ((HashTable.construct (V := ℤ)).bind fun s₀ =>
        (run (HashTable.step HashTable.intKeys) s₀ ([1, 2, 5, 9, 3].map .insert)).map
          (·.rehashMoveBucketIndex)) = some (some 1) := by decide +kernel
    obtain ⟨s₀, hs₀, hrun⟩ := Option.bind_eq_some_iff.mp hcalc
    obtain ⟨s, hs, hmoved⟩ := Option.map_eq_some_iff.mp hrun
    have hreach : HashTable.Reachable HashTable.intKeys s := ⟨s₀, _, hs₀, hs⟩
    exact ⟨s, hreach, hmoved, (visitAll_reachable HashTable.lawfulEqual_int
      TreeHashTable.lawfulHash_int).1 s hreach⟩
  · have hcalc : ((TreeHashTable.construct (V := ℤ)).bind fun s₀ =>
        (run (TreeHashTable.step TreeHashTable.intHash) s₀ ([1, 2, 5, 9, 3].map .insert)).map
          (·.rehashMoveBucketIndex)) = some (some 1) := by decide +kernel
    obtain ⟨s₀, hs₀, hrun⟩ := Option.bind_eq_some_iff.mp hcalc
    obtain ⟨s, hs, hmoved⟩ := Option.map_eq_some_iff.mp hrun
    have hpush : AllSteps (TreeHashTable.step TreeHashTable.intHash) TreeHashTable.PushesLoose s₀
        ([1, 2, 5, 9, 3].map .insert) :=
      ⟨nofun, fun _ _ => ⟨nofun, fun _ _ => ⟨nofun, fun _ _ => ⟨nofun, fun _ _ =>
        ⟨nofun, fun _ _ => trivial⟩⟩⟩⟩⟩
    have hreach : TreeHashTable.Reachable TreeHashTable.intHash s := ⟨s₀, _, hs₀, hpush, hs⟩
    exact ⟨s, hreach, hmoved, (visitAll_reachable HashTable.lawfulEqual_int
      TreeHashTable.lawfulHash_int).2 s hreach⟩

end Mmkvc
