/-
# Runs of `TreeHashTable`

Every run of the calls, from a new table, answers as a finite map does, and `size()` is
the number of the entries as long as `EraseNode` is not used.
-/
import Mmkvc.TreeTableMap

namespace Mmkvc

open AvlM LinkedTree Tables Transition

variable {K V : Type}

namespace TreeHashTable

/-- The entries in the trees of both tables, read from memory. -/
def Stores (s : TreeHashTable V) (M : Multiset (Addr × V)) : Prop :=
  ∃ f : Bucket → LinkedTree V, M = gather s.size (entries f) ∧ ∀ b : Bucket, b.2 < s.size b.1 →
    s.heap.roots b = (f b).root ∧ Represents s.heap.nodes none (f b)

/-- A node that is in no tree. -/
def Loose (s : TreeHashTable V) (a : Addr) : Prop :=
  (∃ n, s.heap.nodes a = some n ∧ n.left = none ∧ n.right = none ∧ n.parent = none)
    ∧ ∀ b : Bucket, b.2 < s.size b.1 → s.heap.roots b ≠ some a

/-- `Push` is called with a node that is in no tree: a new one, or one that was extracted. -/
def PushesLoose (s : TreeHashTable V) (op : TreeTableOp K V) : Prop :=
  ∀ a, op = .push a → Loose s a

instance decidableLoose (s : TreeHashTable V) (a : Addr) : Decidable (Loose s a) :=
  have : Decidable (∃ n, s.heap.nodes a = some n
      ∧ n.left = none ∧ n.right = none ∧ n.parent = none) :=
    decidable_of_iff (∃ n ∈ s.heap.nodes a, n.left = none ∧ n.right = none ∧ n.parent = none)
      Iff.rfl
  have : Decidable (∀ b : Bucket, b.2 < s.size b.1 → s.heap.roots b ≠ some a) :=
    decidable_of_iff ((∀ i < s.size .table1, s.heap.roots (.table1, i) ≠ some a)
        ∧ ∀ i < s.size .table2, s.heap.roots (.table2, i) ≠ some a)
      ⟨fun h b => match b with
        | (.table1, i) => h.1 i
        | (.table2, i) => h.2 i, fun h => ⟨fun i => h (.table1, i), fun i => h (.table2, i)⟩⟩
  inferInstanceAs (Decidable (_ ∧ _))

instance decidablePushesLoose (s : TreeHashTable V) :
    ∀ op : TreeTableOp K V, Decidable (PushesLoose s op)
  | .push a => decidable_of_iff (Loose s a) ⟨fun h _ ha => TreeTableOp.push.inj ha ▸ h, fun h => h a rfl⟩
  | .insert _ | .insertWithDuplicate _ | .create _ | .find _ | .extract _ | .erase _ | .eraseNode _
  | .clear | .clearApply => isTrue nofun

/-- No entry of the table has the key. -/
def Absent (T : HashTraits K V) (s : TreeHashTable V) (k : K) : Prop :=
  ∀ M, Stores s M → ∀ e ∈ M, T.cmp (T.gk e.2) k ≠ 0

/-- `size()` is the number of entries, and `empty()` says whether there are none. -/
def SizeCounts (s : TreeHashTable V) : Prop :=
  ∃ M, Stores s M ∧ s.getSize = Multiset.card M ∧ (s.isEmpty = true ↔ M = 0)

section

variable {T : HashTraits K V} {c : Snapshot V} {s : TreeHashTable V} {m : MapState T}
  {op : TreeTableOp K V} {k : K} {a : Addr}

/-- A table stores one multiset of entries only. -/
theorem Stores.eq {M M' : Multiset (Addr × V)} (h : Stores s M) (h' : Stores s M') : M = M' := by
  obtain ⟨f, rfl, hf⟩ := h
  obtain ⟨f', rfl, hf'⟩ := h'
  refine gather_congr fun b hb => ?_
  obtain ⟨hroot, hrep⟩ := hf b hb
  obtain ⟨hroot', hrep'⟩ := hf' b hb
  unfold entries
  rw [hrep.eq hrep' (hroot.symm.trans hroot')]

/-- A table stores the entries of its trees. -/
theorem stores_of_holds (hs : c.Holds s) : Stores s c.stored := by
  have hsize : s.size = c.layout.size := Tables.Holds.size_eq hs
  refine ⟨c.trees, by rw [hsize]; rfl, fun b hb => ⟨congrFun hs.mem.roots b, ?_⟩⟩
  rw [hsize] at hb
  exact represents_of_cells fun x hx =>
    hs.mem.sat.cell x (Multiset.mem_add.mpr (Or.inl (mem_gather.mpr ⟨b, hb, hx⟩)))

/-- The size counts the entries if the layout does. -/
theorem sizeCounts_iff (hs : c.Holds s) : SizeCounts s ↔ c.Counted := by
  have hused : s.getSize = c.layout.used := Tables.Holds.used_eq hs
  constructor
  · rintro ⟨M, hM, hsize, -⟩
    rw [hM.eq (stores_of_holds hs)] at hsize
    exact hused.symm.trans hsize
  · intro hcount
    have hcard : s.getSize = Multiset.card c.stored := hused.trans hcount
    refine ⟨c.stored, stores_of_holds hs, hcard, ?_⟩
    unfold isEmpty
    rw [decide_eq_true_iff, hcard, Multiset.card_eq_zero]

/-- A key is absent if the map has no entry with it. -/
theorem absent_iff (hs : c.Holds s) (hm : c.Abstracts m) :
    Absent T s k ↔ (m.map.lookup k).isSome = false := by
  have hspec := m.map.lookup_spec k
  have hstores := stores_of_holds hs
  rw [hm.stored] at hstores
  cases hfound : m.map.lookup k with
  | none =>
    rw [hfound] at hspec
    refine ⟨fun _ => rfl, fun _ M hM e he => ?_⟩
    rw [hM.eq hstores] at he
    exact hspec e he
  | some e =>
    rw [hfound] at hspec
    exact ⟨fun h => absurd hspec.2 (h _ hstores e hspec.1), nofun⟩

/-- A loose node may be pushed. -/
theorem pushable_of_loose (hs : c.Holds s) (hpush : PushesLoose s op) : Pushable c op := by
  intro a ha
  obtain ⟨⟨n, hn, hleft, hright, hparent⟩, hroots⟩ := hpush a ha
  refine ⟨n, ?_⟩
  rcases Multiset.mem_add.mp (hs.mem.sat.mem_of_eq hn) with hcell | hcell
  · obtain ⟨b, hb, hcell⟩ := mem_gather.mp hcell
    have hroot := root_of_mem_cells hcell hparent
    rw [← Tables.Holds.size_eq hs] at hb
    exact absurd ((congrFun hs.mem.roots b).trans hroot) (hroots b hb)
  · exact hcell

/-! ## Runs -/

/-- The table and the map have the same entries. -/
structure Refines (T : HashTraits K V) (c : Snapshot V) (s : TreeHashTable V) (m : MapState T) :
    Prop where
  holds : c.Holds s
  good : c.Good T
  abstracts : c.Abstracts m

/-- **Each call answers as the map does.** -/
theorem Refines.call (h : Refines T c s m) (hT : LawfulHash T) (hpush : PushesLoose s op) :
    ∃ r s' c' m', (TreeHashTable.call T op).run s = some (r, s') ∧ c.Moves T op r c'
      ∧ m.call op = some ((r.1, entryAt s' r.2), m') ∧ Refines T c' s' m'
      ∧ (SizeCounts s → (SizeCounts s' ↔ ∀ k, op = .eraseNode k → Absent T s k)) := by
  obtain ⟨r, s', hrun, c', hmoves, hs'⟩ :=
    call_spec hT h.good (pushable_of_loose h.holds hpush) s h.holds
  obtain ⟨hgood, m', hcall, habs, hcount⟩ := hmoves.simulates hT h.good h.abstracts h.holds hs'
  refine ⟨r, s', c', m', hrun, hmoves, hcall, ⟨hs', hgood, habs⟩, fun hsize => ?_⟩
  rw [sizeCounts_iff hs', hcount ((sizeCounts_iff h.holds).mp hsize)]
  exact forall_congr' fun k => imp_congr_right fun _ => (absent_iff h.holds h.abstracts).symm

/-- A new table is that of an empty map. -/
theorem exists_refines (T : HashTraits K V) : ∃ s, construct = some s
    ∧ Refines T Snapshot.fresh s MapState.empty ∧ SizeCounts s := by
  obtain ⟨s, hs, hholds⟩ := construct_spec (V := V)
  have hc : Snapshot.fresh.Holds s := hholds
  have hstored : (Snapshot.fresh : Snapshot V).stored = 0 := gather_entries_nil _
  refine ⟨s, hs, ⟨hc, ⟨treesInv_fresh, fun x hx => ?_⟩, ⟨hstored, fun a v => ?_, rfl⟩⟩, ?_⟩
  · cases hx
  · constructor
    · nofun
    · rintro ⟨n, hn, -⟩
      cases hn
  · rw [sizeCounts_iff hc]
    unfold Snapshot.Counted
    rw [hstored]
    rfl

/-- The state after a call does not depend on what is asked of it. -/
theorem next_answer (T : HashTraits K V) : next (answer T) = step T := by
  funext s op
  unfold next answer step exec
  rw [Option.map_map]
  rfl

end

section

variable {T : HashTraits K V}

/-- **A table is a finite map.**  In every run of calls other than `EraseNode`, the table gives
the flags, the entries and the sizes that a finite map gives, and in the end its two tables
have the entries of the map. -/
theorem outputs_answer_eq (hT : LawfulHash T) (ops : List (TreeTableOp K V))
    (hops : ∀ op ∈ ops, ∀ k, op ≠ .eraseNode k) :
    ∃ s, construct = some s ∧ (AllSteps (step T) PushesLoose s ops →
      ∃ rs s' m, outputs (answer T) s ops = some (rs, s')
        ∧ outputs MapState.answer (MapState.empty : MapState T) ops = some (rs, m)
        ∧ Stores s' m.map.entries) := by
  have hagree : ∀ s m op, (∃ c, Refines T c s m) ∧ SizeCounts s →
      (PushesLoose s op ∧ ∀ k, op ≠ .eraseNode k) → ∃ b s' m', answer T s op = some (b, s')
        ∧ m.answer op = some (b, m') ∧ (∃ c, Refines T c s' m') ∧ SizeCounts s' := by
    rintro s m op ⟨⟨c, href⟩, hsize⟩ ⟨hpush, hop⟩
    obtain ⟨r, s', c', m', hrun, -, hcall, href', hcount⟩ := href.call hT hpush
    have hsize' : SizeCounts s' := (hcount hsize).mpr fun k hk => absurd hk (hop k)
    refine ⟨((r.1, entryAt s' r.2), s'.getSize), s', m', ?_, ?_, ⟨c', href'⟩, hsize'⟩
    · rw [answer, hrun]
      rfl
    · have hcard : s'.getSize = m'.map.size := by
        rw [← href'.abstracts.card_stored]
        exact (Tables.Holds.used_eq href'.holds).trans ((sizeCounts_iff href'.holds).mp hsize')
      rw [MapState.answer, hcall, hcard]
      rfl
  obtain ⟨s, hs, href, hsize⟩ := exists_refines T
  refine ⟨s, hs, fun hpush => ?_⟩
  have hsteps := hpush.and (allSteps_of_forall hops)
  rw [← next_answer] at hsteps
  obtain ⟨rs, s', m, hrun, hrun', ⟨c', href'⟩, -⟩ :=
    exists_outputs_of_allSteps hagree ⟨⟨_, href⟩, hsize⟩ hsteps
  refine ⟨rs, s', m, hrun, hrun', ?_⟩
  rw [← href'.abstracts.stored]
  exact stores_of_holds href'.holds

end

/-- Integers as their own keys, with the low bits as hash value. -/
def intHash : HashTraits ℤ ℤ := { intTraits with hash := BitVec.ofInt 64 }

/-- Integers are compared and hashed lawfully. -/
theorem lawfulHash_int : LawfulHash intHash where
  cmp := lawfulCompare_int
  hash x y h := by
    have heq : x - y = 0 := h
    rw [show x = y by omega]

/-- A run with a rehash and two nodes that are pushed. -/
def pushRun : List (TreeTableOp ℤ ℤ) :=
  [.insert 1, .insertWithDuplicate 5, .insert 9, .insert 13, .insert 2, .find 9, .extract 1, .push 0,
    .insert 5, .create 6, .push 5, .erase 9, .find 13, .clear, .insert 4]

theorem outputs_answer_pushRun : ∃ s rs s' m, construct = some s
    ∧ outputs (answer intHash) s pushRun = some (rs, s')
    ∧ outputs MapState.answer (MapState.empty : MapState intHash) pushRun = some (rs, m)
    ∧ Stores s' m.map.entries := by
  obtain ⟨s, hs, h⟩ := outputs_answer_eq lawfulHash_int pushRun (by simp [pushRun])
  obtain rfl := Option.some.inj hs
  obtain ⟨rs, s', m, hrest⟩ := h (by decide +kernel)
  exact ⟨_, rs, s', m, hs, hrest⟩

/-! ## The count -/

section

variable {T : HashTraits K V}

/-- **`size()` counts the entries** as long as no `EraseNode` finds one to remove, and no
longer. -/
theorem sizeCounts_iff_eraseNode_absent (hT : LawfulHash T) (ops : List (TreeTableOp K V)) :
    ∃ s, construct = some s ∧ SizeCounts s ∧ (AllSteps (step T) PushesLoose s ops →
      (∃ s', run (step T) s ops = some s')
      ∧ (AllSteps (step T) (fun s op => ∀ s', step T s op = some s' → SizeCounts s') s ops
        ↔ AllSteps (step T) (fun s op => ∀ k, op = .eraseNode k → Absent T s k) s ops)) := by
  obtain ⟨s, hs, href, hsize⟩ := exists_refines T
  have hstep : ∀ s op, (∃ c m, Refines T c s m) → PushesLoose s op → ∃ s', step T s op = some s'
      ∧ (∃ c m, Refines T c s' m)
      ∧ (SizeCounts s → (SizeCounts s' ↔ ∀ k, op = .eraseNode k → Absent T s k)) := by
    rintro s op ⟨c, m, href⟩ hpush
    obtain ⟨r, s', c', m', hrun, -, -, href', hcount⟩ := href.call hT hpush
    exact ⟨s', by rw [step, exec, hrun]; rfl, ⟨c', m', href'⟩, hcount⟩
  have hI : ∃ c m, Refines T c s m := ⟨_, _, href⟩
  refine ⟨s, hs, hsize, fun hpush => ⟨?_, ?_⟩⟩
  · have hstep' : ∀ s op, (∃ c m, Refines T c s m) → PushesLoose s op →
        ∃ s', step T s op = some s' ∧ ∃ c m, Refines T c s' m := by
      intro s op hI hop
      obtain ⟨s', hs', hI', -⟩ := hstep s op hI hop
      exact ⟨s', hs', hI'⟩
    obtain ⟨s', hrun, -⟩ := exists_run_of_allSteps hstep' hI hpush
    exact ⟨s', hrun⟩
  · refine allSteps_iff (I := fun s => ∃ c m, Refines T c s m) (fun s op hI hC hop => ?_) hI hsize hpush
    obtain ⟨s', hs', hI', hcount⟩ := hstep s op hI hop
    exact ⟨s', hs', fun _ => hI', hcount hC⟩

end

/-- A run with a rehash, and with `EraseNode` of a key that is not there and of one that is. -/
def eraseNodesRun : List (TreeTableOp ℤ ℤ) :=
  [.insert 1, .insertWithDuplicate 5, .insert 9, .insert 13, .insert 2, .eraseNode 7, .create 6,
    .push 5, .extract 1, .eraseNode 9, .insert 9, .erase 13]

theorem sizeCounts_iff_eraseNodesRun : ∃ s, construct = some s
    ∧ (AllSteps (step intHash) (fun s op => ∀ s', step intHash s op = some s' → SizeCounts s') s
        eraseNodesRun
      ↔ AllSteps (step intHash) (fun s op => ∀ k, op = .eraseNode k → Absent intHash s k) s
        eraseNodesRun) := by
  obtain ⟨s, hs, -, h⟩ := sizeCounts_iff_eraseNode_absent lawfulHash_int eraseNodesRun
  obtain rfl := Option.some.inj hs
  exact ⟨_, hs, (h (by decide +kernel)).2⟩

/-- A removal by `EraseNode`. -/
def eraseNodeRun : List (TreeTableOp ℤ ℤ) := [.insert 7, .eraseNode 7]

theorem not_sizeCounts_eraseNodeRun : ∃ s s', construct = some s
    ∧ AllSteps (step intHash) PushesLoose s eraseNodeRun
    ∧ run (step intHash) s eraseNodeRun = some s' ∧ ¬ SizeCounts s' := by
  obtain ⟨s, hs, href, hsize⟩ := exists_refines intHash
  have hinsert : PushesLoose s (.insert (7 : ℤ) : TreeTableOp ℤ ℤ) := by rintro _ ⟨⟩
  obtain ⟨r₁, s₁, c₁, m₁, hrun₁, -, hcall₁, href₁, hcount₁⟩ := href.call lawfulHash_int hinsert
  have herase : ∀ t : TreeHashTable ℤ, PushesLoose t (.eraseNode (7 : ℤ)) := by rintro _ _ ⟨⟩
  obtain ⟨r₂, s₂, c₂, m₂, hrun₂, -, hcall₂, href₂, hcount₂⟩ :=
    href₁.call lawfulHash_int (herase s₁)
  have hstep₁ : step intHash s (.insert 7) = some s₁ := by rw [step, exec, hrun₁]; rfl
  have hstep₂ : step intHash s₁ (.eraseNode 7) = some s₂ := by rw [step, exec, hrun₂]; rfl
  refine ⟨s, s₂, hs, ⟨hinsert, fun t _ => ⟨herase t, fun _ _ => trivial⟩⟩, ?_, fun hbad => ?_⟩
  · exact run_cons.mpr ⟨s₁, hstep₁, run_cons.mpr ⟨s₂, hstep₂, rfl⟩⟩
  · have hcount : SizeCounts s₁ := (hcount₁ hsize).mpr (by rintro _ ⟨⟩)
    have habsent := (hcount₂ hcount).mp hbad 7 rfl
    rw [absent_iff href₁.holds href₁.abstracts] at habsent
    have hm₁ : m₁ = MapState.empty.insert 7 := (Prod.mk.inj (Option.some.inj hcall₁)).2.symm
    rw [hm₁] at habsent
    cases habsent

end TreeHashTable

end Mmkvc
