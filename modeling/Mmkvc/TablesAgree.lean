/-
# The two kinds of hash tables (`algo/hash_table.h`, `algo/internal/tree_hashtable.h`)

`HashTable` keeps the entries of a bucket in a list and finds a key by its equality;
`TreeHashTable` keeps them in an AVL tree and finds a key by its comparator.  Where the equality
is that of the comparator, `hashTables_agree` says that no sequence of the calls which both have
tells them apart, whatever their hash functions and the state of their rehashes.
-/
import Mmkvc.HashTableAnswers
import Mmkvc.TreeTableAnswers

namespace Mmkvc

open Transition

/-- A call that both kinds of tables have. -/
inductive MapCall (K V : Type) where
  | insert (elem : V)
  | insertWithDuplicate (elem : V)
  | find (key : K)
  | extract (key : K)
  | erase (key : K)
  | clear
  deriving DecidableEq, Repr

namespace MapCall

variable {K V : Type}

/-- The call on a table of lists. -/
def onLists : MapCall K V → HashTableOp K V
  | .insert elem => .insert elem
  | .insertWithDuplicate elem => .insertWithDuplicate elem
  | .find key => .find key
  | .extract key => .extract key
  | .erase key => .erase key
  | .clear => .clear

/-- The call on a table of trees. -/
def onTrees : MapCall K V → TreeTableOp K V
  | .insert elem => .insert elem
  | .insertWithDuplicate elem => .insertWithDuplicate elem
  | .find key => .find key
  | .extract key => .extract key
  | .erase key => .erase key
  | .clear => .clear

theorem ofMap_onLists (op : MapCall K V) : HashTable.OfMap op.onLists := by
  cases op <;> exact ⟨nofun, nofun⟩

/-- The calls of a map push no nodes. -/
theorem pushesLoose_onTrees (s : TreeHashTable V) (op : MapCall K V) :
    TreeHashTable.PushesLoose s op.onTrees := by
  intro a ha
  cases op <;> cases ha

theorem onTrees_ne_eraseNode (op : MapCall K V) (k : K) : op.onTrees ≠ .eraseNode k := by
  intro h
  cases op <;> cases h

end MapCall

namespace FiniteMap

variable {K E : Type} {eqv eqv' : K → K → Prop} {key : E → K} [DecidableRel eqv] [DecidableRel eqv']
  {m : FiniteMap eqv key} {m' : FiniteMap eqv' key}

/-- Maps with the same entries by equivalences that are the same find the same. -/
theorem lookup_congr (heqv : ∀ x y, eqv x y ↔ eqv' x y) (hm : m.entries = m'.entries) (k : K) :
    m.lookup k = m'.lookup k := by
  unfold lookup
  rw [hm]
  congr 1
  funext e
  exact decide_eq_decide.mpr (heqv (key e) k)

/-- The same entries are left where the keys are equivalent alike. -/
theorem entries_erase_congr (heqv : ∀ x y, eqv x y ↔ eqv' x y) (hm : m.entries = m'.entries) (k : K) :
    (m.erase k).entries = (m'.erase k).entries := by
  show m.entries.filter (fun e => ¬ eqv (key e) k) = m'.entries.filter fun e => ¬ eqv' (key e) k
  rw [hm]
  congr 1
  funext e
  exact decide_eq_decide.mpr (not_congr (heqv (key e) k))

end FiniteMap

/-- The traits of a table of lists whose values have the keys that `T` gives them. -/
def AvlTraits.withEqual {K V : Type} (T : AvlTraits K V) (hash : K → BitVec 64)
    (equalKey : K → K → Bool) : EqualTraits K V :=
  ⟨hash, T.gk, equalKey⟩

section

variable {K V : Type} {T : HashTraits K V} {hash : K → BitVec 64} {equalKey : K → K → Bool}
  {m : EntryMap (T.withEqual hash equalKey)} {m' : MapState T} {op : MapCall K V}

/-- The two maps have the same entries, and the next new node will be at the same address. -/
structure SameMap (m : EntryMap (T.withEqual hash equalKey)) (m' : MapState T) : Prop where
  entries : m.map.entries = m'.map.entries
  next : m.next = m'.next

theorem SameMap.size (h : SameMap m m') : m.map.size = m'.map.size :=
  congrArg List.length h.entries

/-- Equal maps find the same entry. -/
theorem SameMap.lookup (h : SameMap m m') (hequal : ∀ x y, equalKey x y = true ↔ T.cmp x y = 0)
    (k : K) : m.map.lookup k = m'.map.lookup k :=
  FiniteMap.lookup_congr hequal h.entries k

/-- Equal maps are equal after an insertion. -/
theorem SameMap.insert (h : SameMap m m') (hequal : ∀ x y, equalKey x y = true ↔ T.cmp x y = 0)
    (v : V) : SameMap (m.insert v) (m'.insert v) := by
  have hlookup : m.map.lookup ((T.withEqual hash equalKey).gk v) = m'.map.lookup (T.gk v) :=
    h.lookup hequal _
  unfold EntryMap.insert MapState.insert
  by_cases hnone : m.map.lookup ((T.withEqual hash equalKey).gk v) = none
  · have hnone' : m'.map.lookup (T.gk v) = none := hlookup.symm.trans hnone
    rw [if_pos hnone, if_pos hnone']
    refine ⟨?_, congrArg (· + 1) h.next⟩
    rw [FiniteMap.insert_of_none hnone, FiniteMap.insert_of_none hnone', h.entries, h.next]
  · have hnone' : ¬ m'.map.lookup (T.gk v) = none := hlookup ▸ hnone
    rw [if_neg hnone, if_neg hnone']
    exact h

/-- Equal maps are equal after a removal. -/
theorem SameMap.erase (h : SameMap m m') (hequal : ∀ x y, equalKey x y = true ↔ T.cmp x y = 0)
    (k : K) (held : Addr → Option V) :
    SameMap { m with map := m.map.erase k } { m' with map := m'.map.erase k, held := held } :=
  ⟨FiniteMap.entries_erase_congr hequal h.entries k, h.next⟩

/-- The maps answer a call alike. -/
theorem SameMap.call (h : SameMap m m') (hequal : ∀ x y, equalKey x y = true ↔ T.cmp x y = 0)
    (op : MapCall K V) :
    ∃ r n n', m.call op.onLists = some (r, n) ∧ m'.call op.onTrees = some (r, n')
      ∧ SameMap n n' := by
  cases op with
  | insert v =>
    refine ⟨_, _, _, rfl, ?_, h.insert hequal v⟩
    rw [MapCall.onTrees, MapState.call, ← h.lookup hequal, ← h.next]
    rfl
  | insertWithDuplicate v =>
    refine ⟨_, _, _, rfl, ?_, h.insert hequal v⟩
    rw [MapCall.onTrees, MapState.call, ← h.lookup hequal, ← h.next]
    rfl
  | find k =>
    refine ⟨_, _, _, rfl, ?_, h⟩
    rw [MapCall.onTrees, MapState.call, ← h.lookup hequal]
  | extract k =>
    refine ⟨_, _, _, ?_, rfl, h.erase hequal k _⟩
    rw [MapCall.onLists, EntryMap.call, h.lookup hequal]
  | erase k =>
    refine ⟨_, _, _, rfl, ?_, h.erase hequal k m'.held⟩
    rw [MapCall.onTrees, MapState.call, ← h.lookup hequal]
  | clear => exact ⟨_, _, _, rfl, rfl, ⟨rfl, h.next⟩⟩

/-! ## The tables -/

/-- The two tables have the entries of the same map. -/
def SameTables (T : HashTraits K V) (hash : K → BitVec 64) (equalKey : K → K → Bool)
    (s : HashTable V) (t : TreeHashTable V) : Prop :=
  ∃ (m : EntryMap (T.withEqual hash equalKey)) (m' : MapState T), SameMap m m'
    ∧ (∃ c : Inventory V, c.Holds (T.withEqual hash equalKey) s ∧ c.Counted ∧ c.Abstracts m)
    ∧ (∃ c, TreeHashTable.Refines T c t m') ∧ TreeHashTable.SizeCounts t

/-- Both tables answer alike, and are alike after that. -/
theorem SameTables.answer {s : HashTable V} {t : TreeHashTable V} (hT : LawfulHash T)
    (hE : LawfulEqual (T.withEqual hash equalKey)) (hequal : ∀ x y, equalKey x y = true ↔ T.cmp x y = 0)
    (h : SameTables T hash equalKey s t) (op : MapCall K V) :
    ∃ b s' t', HashTable.answer (T.withEqual hash equalKey) s op.onLists = some (b, s')
      ∧ TreeHashTable.answer T t op.onTrees = some (b, t') ∧ SameTables T hash equalKey s' t' := by
  obtain ⟨m, m', hm, hlists, ⟨c, href⟩, hsize⟩ := h
  obtain ⟨r, n, n', hcall, hcall', hn⟩ := hm.call hequal op
  -- the table of lists
  obtain ⟨b, s', m₁, hanswer, hmap, hlists'⟩ := HashTable.exists_answer hE hlists op.ofMap_onLists
  rw [EntryMap.answer, hcall] at hmap
  obtain ⟨rfl, rfl⟩ := Prod.mk.inj (Option.some.inj hmap)
  -- the table of trees
  obtain ⟨r', t', c', m₂, hrun, -, hmap', href', hcount⟩ :=
    href.call hT (op.pushesLoose_onTrees t)
  rw [hcall'] at hmap'
  obtain ⟨rfl, rfl⟩ := Prod.mk.inj (Option.some.inj hmap')
  have hsize' := (hcount hsize).mpr fun k hk => absurd hk (op.onTrees_ne_eraseNode k)
  refine ⟨_, s', t', hanswer, ?_, n, n', hn, hlists', ⟨c', href'⟩, hsize'⟩
  have hcard : t'.getSize = n'.map.size := by
    rw [← href'.abstracts.card_stored]
    exact (Tables.Holds.used_eq href'.holds).trans
      ((TreeHashTable.sizeCounts_iff href'.holds).mp hsize')
  rw [TreeHashTable.answer, hrun, Option.map_some, hcard, ← hn.size]

end

/-- **The tables are interchangeable.**  Any sequence of insertions, searches, extractions,
removals and clearances, from new tables, is answered by a table of lists and a table of trees
with the same flags, the same entries and the same sizes, and leaves the same entries in both;
the hash functions may differ, and so may the buckets and the progress of the rehashes. -/
theorem hashTables_agree {K V : Type} {T : HashTraits K V} {hash : K → BitVec 64}
    {equalKey : K → K → Bool} (hT : LawfulHash T)
    (hequal : ∀ x y, equalKey x y = true ↔ T.cmp x y = 0)
    (hhash : ∀ x y, equalKey x y = true → hash x = hash y) (ops : List (MapCall K V)) :
    ∃ s t, HashTable.construct = some s ∧ TreeHashTable.construct = some t
      ∧ ∃ rs s' t' M,
        outputs (fun s op => HashTable.answer (T.withEqual hash equalKey) s (MapCall.onLists op)) s ops
          = some (rs, s')
        ∧ outputs (fun t op => TreeHashTable.answer T t (MapCall.onTrees op)) t ops = some (rs, t')
        ∧ HashTable.Stores s' M ∧ TreeHashTable.Stores t' M := by
  have hE : LawfulEqual (T.withEqual hash equalKey) := by
    refine ⟨?_, hhash⟩
    have heqv : (T.withEqual hash equalKey).Equiv = T.Equiv := by
      funext x y
      exact propext (hequal x y)
    rw [heqv]
    exact hT.cmp.equivalence
  obtain ⟨s, hs, hholds⟩ := HashTable.exists_holds (T.withEqual hash equalKey)
  obtain ⟨t, ht, href, hsize⟩ := TreeHashTable.exists_refines T
  have hsame : SameTables T hash equalKey s t :=
    ⟨EntryMap.empty, MapState.empty, ⟨rfl, rfl⟩, ⟨_, hholds, rfl, rfl, rfl⟩, ⟨_, href⟩, hsize⟩
  obtain ⟨rs, s', t', hrun, hrun', m, m', hm, ⟨c, hc, -, hcm⟩, ⟨c', hc'⟩, -⟩ :=
    exists_outputs_of_allSteps (P := fun _ _ => True)
      (fun s t op hst _ => hst.answer hT hE hequal op) hsame (allSteps_of_forall fun _ _ => trivial)
  refine ⟨s, t, hs, ht, rs, s', t', m.map.entries, hrun, hrun', ?_, ?_⟩
  · rw [← hcm.entries]
    exact HashTable.stores_of_contains hc
  · rw [hm.entries, ← hc'.abstracts.stored]
    exact TreeHashTable.stores_of_holds hc'.holds

/-- A run with a rehash in both tables. -/
def sharedRun : List (MapCall ℤ ℤ) :=
  [.insert 1, .insertWithDuplicate 5, .insert 9, .insert 13, .insert 2, .find 9, .extract 1,
    .insert 5, .erase 9, .find 13, .clear, .insert 4]

/-- One table hashes a number to its low bits, the other all numbers to 0. -/
theorem hashTables_agree_sharedRun :
    ∃ s t, HashTable.construct = some s ∧ TreeHashTable.construct = some t
      ∧ ∃ rs s' t' M,
        outputs (fun s op => HashTable.answer
          (TreeHashTable.intHash.withEqual (fun _ => 0) (· == ·)) s (MapCall.onLists op)) s sharedRun
          = some (rs, s')
        ∧ outputs (fun t op => TreeHashTable.answer TreeHashTable.intHash t (MapCall.onTrees op)) t
          sharedRun = some (rs, t')
        ∧ HashTable.Stores s' M ∧ TreeHashTable.Stores t' M :=
  hashTables_agree TreeHashTable.lawfulHash_int
    (fun _ _ => beq_iff_eq.trans sub_eq_zero.symm) (fun _ _ _ => rfl) sharedRun

end Mmkvc
