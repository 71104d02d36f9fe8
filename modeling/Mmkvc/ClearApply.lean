/-
# `ClearApply` of a table

The callback gets the values of all entries, bucket by bucket, and what is left behaves as a
new table.
-/
import Mmkvc.TreeTableAnswers

namespace Mmkvc

open AvlM LinkedTree Tables Transition

variable {K V : Type}

namespace TreeHashTable

/-! ## The table after `ClearApply` -/

/-- What a new table looks like. -/
structure IsNew (s : TreeHashTable V) : Prop where
  size1 : s.size .table1 = 4
  roots : ∀ i < 4, s.heap.roots (.table1, i) = none
  size2 : s.size .table2 = 0
  size : s.getSize = 0
  idle : s.rehashMoveBucketIndex = none

section

variable {T : HashTraits K V} {c c' c'' : Snapshot V} {s s' : TreeHashTable V} {m : MapState T}
  {op : TreeTableOp K V} {r r' : Bool × Option Addr}

/-- A table that was cleared is as it was new. -/
theorem isNew_of_holds (hs : c.cleared.Holds s) : IsNew s where
  size1 := congrFun (Tables.Holds.size_eq hs) .table1
  roots i _ := congrFun hs.mem.roots (.table1, i)
  size2 := congrFun (Tables.Holds.size_eq hs) .table2
  size := Tables.Holds.used_eq hs
  idle := Tables.Holds.moved_eq hs

/-- A new table in a memory where there are nodes in no tree. -/
theorem construct_holds (hs : c.cleared.Holds s) :
    ∃ s', Tables.construct treeBuckets s.heap = some s' ∧ c.cleared.Holds s' := by
  refine Tables.construct_spec (bucketLaws c.loose c.top) ⟨?_, hs.mem.roots, hs.mem.next, hs.mem.fresh⟩
  have hcells : ∀ size, gather size (fun _ : Bucket => (nil : LinkedTree V).cells none) = 0 := by
    intro size
    simp [gather, LinkedTree.cells]
  have hsat := hs.mem.sat
  change Sat _ (gather _ (fun _ : Bucket => (nil : LinkedTree V).cells none) + c.loose) at hsat
  rw [hcells] at hsat ⊢
  exact hsat

/-- A call does one thing only. -/
theorem moves_unique (hnodup : (c.loose.map Prod.fst).Nodup) (h : c.Moves T op r c')
    (h' : c.Moves T op r' c'') : r = r' ∧ c' = c'' := by
  cases op with
  | push a =>
    obtain ⟨n, L, hL, rfl, rfl⟩ := h
    obtain ⟨n', L', hL', rfl, rfl⟩ := h'
    have hmem : (a, n') ∈ ({(a, n)} : Multiset (Addr × AvlNode V)) + L := by
      rw [← hL, hL']
      simp
    rw [hL] at hnodup
    simp only [Multiset.singleton_add, Multiset.map_cons, Multiset.nodup_cons] at hnodup
    obtain heq | hmem := Multiset.mem_cons.mp hmem
    · obtain rfl := (Prod.mk.inj heq).2
      obtain rfl := Multiset.add_right_inj.mp (hL.symm.trans hL')
      exact ⟨rfl, rfl⟩
    · exact absurd (Multiset.mem_map_of_mem Prod.fst hmem) hnodup.1
  | insert v | insertWithDuplicate v | create v | find k | extract k | erase k | eraseNode k | clear
  | clearApply =>
    obtain ⟨rfl, rfl⟩ := h
    obtain ⟨rfl, rfl⟩ := h'
    exact ⟨rfl, rfl⟩

/-- Tables with the same trees answer alike. -/
theorem Refines.answer_eq (h : Refines T c s m) (h' : Refines T c s' m) (hT : LawfulHash T)
    (hpush : PushesLoose s op) : ∃ b t t' d m', answer T s op = some (b, t)
      ∧ answer T s' op = some (b, t') ∧ Refines T d t m' ∧ Refines T d t' m' := by
  have hpushable := pushable_of_loose h.holds hpush
  obtain ⟨r, t, hrun, d, hmoves, ht⟩ := call_spec hT h.good hpushable s h.holds
  obtain ⟨r', t', hrun', d', hmoves', ht'⟩ := call_spec hT h.good hpushable s' h'.holds
  obtain ⟨rfl, rfl⟩ := moves_unique h.holds.nodup_loose hmoves hmoves'
  obtain ⟨hgood, m₁, hcall, habs, -⟩ := hmoves.simulates hT h.good h.abstracts h.holds ht
  obtain ⟨-, m₂, hcall', -, -⟩ := hmoves.simulates hT h.good h.abstracts h'.holds ht'
  obtain ⟨heq, rfl⟩ := Prod.mk.inj (Option.some.inj (hcall.symm.trans hcall'))
  refine ⟨_, t, t', d, m₁, by rw [answer, hrun]; rfl, ?_, ⟨ht, hgood, habs⟩, ⟨ht', hgood, habs⟩⟩
  rw [answer, hrun', Option.map_some]
  have hsize : t'.getSize = t.getSize :=
    (Tables.Holds.used_eq ht').trans (Tables.Holds.used_eq ht).symm
  dsimp only
  rw [hsize, heq]

/-- **`ClearApply` reaches every entry once.**  In every state of a table that calls lead to,
there is an order of its values in which any callback gets each of them once, and what
is left is a new table: it looks like one, and in every later run it answers as a table does that is
constructed in the same memory. -/
theorem clearApplyWith_of_run (hT : LawfulHash T) (ops : List (TreeTableOp K V)) :
    ∃ s, construct = some s ∧ (AllSteps (step T) PushesLoose s ops →
      ∃ (s' : TreeHashTable V) (M : Multiset (Addr × V)) (vs : List V),
        run (step T) s ops = some s' ∧ Stores s' M ∧ (vs : Multiset V) = M.map Prod.snd
        ∧ ∀ (σ : Type) (cb : V → σ → σ) (st : σ), ∃ t t₀,
          (clearApplyWith cb st).run s' = some (vs.foldl (fun st v => cb v st) st, t) ∧ IsNew t
          ∧ Tables.construct treeBuckets t.heap = some t₀
          ∧ ∀ later, AllSteps (step T) PushesLoose t later → ∃ bs u u₀,
            outputs (answer T) t later = some (bs, u)
            ∧ outputs (answer T) t₀ later = some (bs, u₀)) := by
  obtain ⟨s, hs, href, -⟩ := exists_refines T
  refine ⟨s, hs, fun hpush => ?_⟩
  have hcall : ∀ s op, (∃ c m, Refines T c s m) → PushesLoose s op →
      ∃ s', step T s op = some s' ∧ ∃ c m, Refines T c s' m := by
    rintro s op ⟨c, m, h⟩ hpush
    obtain ⟨r, s', c', m', hrun, -, -, h', -⟩ := h.call hT hpush
    exact ⟨s', by rw [step, exec, hrun]; rfl, c', m', h'⟩
  obtain ⟨s', hrun, c, m, h⟩ := exists_run_of_allSteps hcall ⟨_, _, href⟩ hpush
  refine ⟨s', c.stored, (handedAll c.layout c.trees).map Prod.snd, hrun, stores_of_holds h.holds, ?_,
    fun σ cb st => ?_⟩
  · rw [← Multiset.map_coe, coe_handedAll h.good.trees.sound.four_le]
    rfl
  · have hspec : Triple (Holds c.layout c.trees c.loose c.top) (clearApplyWith cb st) _ :=
      clearApplyWith_spec h.good.trees
    obtain ⟨st', t, hclear, hst, ht⟩ := hspec s' h.holds
    obtain ⟨t₀, ht₀, hholds₀⟩ := construct_holds (c := c) ht
    refine ⟨t, t₀, ?_, isNew_of_holds (c := c) ht, ht₀, fun later hlater => ?_⟩
    · rw [hclear, hst, List.foldl_map]
    · have hagree : ∀ s s' op, (∃ c m, Refines T c s m ∧ Refines T c s' m) → PushesLoose s op →
          ∃ b t t', answer T s op = some (b, t) ∧ answer T s' op = some (b, t')
            ∧ ∃ c m, Refines T c t m ∧ Refines T c t' m := by
        rintro s s' op ⟨c, m, h, h'⟩ hpush
        obtain ⟨b, t, t', d, m', hrun, hrun', hd, hd'⟩ := h.answer_eq h' hT hpush
        exact ⟨b, t, t', hrun, hrun', d, m', hd, hd'⟩
      have hcleared : ∀ t, c.cleared.Holds t → Refines T c.cleared t m.clear := fun t ht =>
        ⟨ht, h.good.cleared, h.abstracts.cleared.1⟩
      rw [← next_answer] at hlater
      obtain ⟨bs, u, u₀, hu, hu₀, -⟩ := exists_outputs_of_allSteps hagree
        ⟨_, _, hcleared t ht, hcleared t₀ hholds₀⟩ hlater
      exact ⟨bs, u, u₀, hu, hu₀⟩

end

/-- A run that ends while a rehash is going on. -/
def rehashRun : List (TreeTableOp ℤ ℤ) :=
  [.insert 1, .insert 5, .insert 9, .insert 13, .insert 2, .extract 1]

theorem clearApplyWith_rehashRun : ∃ (s s' : TreeHashTable ℤ) (M : Multiset (Addr × ℤ)) (vs : List ℤ),
    construct = some s ∧ run (step intHash) s rehashRun = some s'
      ∧ Stores s' M ∧ (vs : Multiset ℤ) = M.map Prod.snd
      ∧ ∀ (σ : Type) (cb : ℤ → σ → σ) (st : σ), ∃ t t₀,
        (clearApplyWith cb st).run s' = some (vs.foldl (fun st v => cb v st) st, t) ∧ IsNew t
        ∧ Tables.construct treeBuckets t.heap = some t₀
        ∧ ∀ later, AllSteps (step intHash) PushesLoose t later → ∃ bs u u₀,
          outputs (answer intHash) t later = some (bs, u)
          ∧ outputs (answer intHash) t₀ later = some (bs, u₀) := by
  obtain ⟨s, hs, h⟩ := clearApplyWith_of_run lawfulHash_int rehashRun
  obtain rfl := Option.some.inj hs
  obtain ⟨s', M, vs, hrest⟩ := h (by decide +kernel)
  exact ⟨_, s', M, vs, hs, hrest⟩

end TreeHashTable

end Mmkvc
