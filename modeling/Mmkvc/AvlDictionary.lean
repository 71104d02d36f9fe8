/-
# The dictionary (`algo/avl_dictionary.h`, `algo/key_value.h`)

`AvlDictionary` is a hash table of trees whose entries are keys with values.  `Holding T s D`
says that the table `s` has the value `D k` for each key `k`; the calls, and writes through the
pointers that they give, are then those of a partial function.
-/
import Mmkvc.MappedValues
import Mmkvc.MmbpUtil

namespace Mmkvc

open AvlM TreeHashTable

variable {K V : Type}

/-- `AvlDictionary<K, V, Comparator, HF>`. -/
abbrev AvlDictionary (K V : Type) := TreeHashTable (KeyValue K V)

namespace AvlDictionary

/-- The traits of the base class, with `GetKey<KeyValue<K, V>>`. -/
def traits (V : Type) (comparator : K → K → ℤ) (hf : K → BitVec 64) :
    HashTraits K (KeyValue K V) where
  cmp := comparator
  gk := KeyValue.key
  hash := hf

section

variable (comparator : K → K → ℤ) (hf : K → BitVec 64)

/-- `InsertKv`. -/
def insertKv (key : K) (value : V) : HtM (KeyValue K V) (Option Addr) :=
  insert (traits V comparator hf) { key := key, value := value }

/-- `InsertKvWithDuplicate`. -/
def insertKvWithDuplicate (key : K) (value : V) : HtM (KeyValue K V) (Bool × Option Addr) :=
  insertWithDuplicate (traits V comparator hf) { key := key, value := value }

/-- `Find`. -/
def find (key : K) : HtM (KeyValue K V) (Option Addr) := findNode (traits V comparator hf) key

/-- `p->value`. -/
def valueAt (p : Addr) : HtM (KeyValue K V) V := do
  return (← Tables.onHeap (load p)).value.value

/-- `p->value = value`. -/
def setValue (p : Addr) (value : V) : HtM (KeyValue K V) Unit :=
  Tables.onHeap (modifyNode p (AvlNode.mapValue fun kv => { kv with value := value }))

/-- `operator[]`, `mapped_type{}` being `fallback`. -/
def subscript (fallback : V) (key : K) : HtM (KeyValue K V) Addr := do
  match ← find comparator hf key with
  | some kv => return kv
  | none => do
    match ← insertKv comparator hf key fallback with
    | some kv => return kv
    | none => failure

end

/-! ## A partial function -/

/-- The table and the map have the same entries, and their values are those of `D`. -/
structure Carries (T : HashTraits K (KeyValue K V)) (c : Snapshot (KeyValue K V))
    (m : MapState T) (s : AvlDictionary K V) (D : K → Option V) : Prop where
  refines : Refines T c s m
  counts : SizeCounts s
  values : ∀ k, D k = (m.map.lookup k).map fun e => e.2.value

/-- The table has the value `D k` for each key. -/
def Holding (T : HashTraits K (KeyValue K V)) (s : AvlDictionary K V) (D : K → Option V) : Prop :=
  ∃ c m, Carries T c m s D

/-- The same, and the entry with the key `k` is in the node `a`. -/
def HoldingAt (T : HashTraits K (KeyValue K V)) (s : AvlDictionary K V) (D : K → Option V) (k : K)
    (a : Addr) : Prop :=
  ∃ c m, Carries T c m s D ∧ ∃ v, m.map.lookup k = some (a, v)

theorem HoldingAt.holding {T : HashTraits K (KeyValue K V)} {s : AvlDictionary K V}
    {D : K → Option V} {k : K} {a : Addr} (h : HoldingAt T s D k a) : Holding T s D := by
  obtain ⟨c, m, hm, -⟩ := h
  exact ⟨c, m, hm⟩

/-- What a pointer of a call points to. -/
theorem entryAt_eq_some {s : AvlDictionary K V} {p : Option Addr} {e : Addr × KeyValue K V}
    (h : entryAt s p = some e) : p = some e.1 := by
  obtain ⟨b, rfl, hb⟩ := Option.bind_eq_some_iff.mp h
  obtain ⟨n, -, rfl⟩ := Option.map_eq_some_iff.mp hb
  rfl

section

variable {T : HashTraits K (KeyValue K V)} {c : Snapshot (KeyValue K V)} {m : MapState T}
  {s : AvlDictionary K V} {D : K → Option V} {k k' : K} {v : V} {a : Addr}
  {op : TreeTableOp K (KeyValue K V)}

/-- A call that leaves the count right. -/
theorem Carries.call (h : Carries T c m s D) (hT : LawfulHash T) (hpush : TreeHashTable.PushesLoose s op)
    (hop : ∀ k, op ≠ .eraseNode k) :
    ∃ r s' c' m', (TreeHashTable.call T op).run s = some (r, s')
      ∧ m.call op = some ((r.1, entryAt s' r.2), m') ∧ Refines T c' s' m' ∧ SizeCounts s' := by
  obtain ⟨r, s', c', m', hrun, -, hcall, hm', hcount⟩ := h.refines.call hT hpush
  exact ⟨r, s', c', m', hrun, hcall, hm', (hcount h.counts).mpr fun k hk => absurd hk (hop k)⟩

/-- Entries of a map at one address are one entry. -/
theorem Carries.entry_eq (h : Carries T c m s D) {e e' : Addr × KeyValue K V}
    (he : m.map.lookup k = some e) (he' : m.map.lookup k' = some e') (haddr : e.1 = e'.1) :
    e = e' := by
  have hat := h.refines.abstracts.entryAt_lookup h.refines.holds k
  have hat' := h.refines.abstracts.entryAt_lookup h.refines.holds k'
  rw [he, Option.map_some] at hat
  rw [he', Option.map_some, ← haddr, hat] at hat'
  exact Option.some.inj hat'

/-- An entry of the map is the value of a node. -/
theorem Carries.node_eq (h : Carries T c m s D) {kv : KeyValue K V}
    (hk : m.map.lookup k = some (a, kv)) :
    ∃ n, s.heap.nodes a = some n ∧ n.value = kv := by
  have hat := h.refines.abstracts.entryAt_lookup h.refines.holds k
  rw [hk, Option.map_some] at hat
  obtain ⟨n, hn, heq⟩ := Option.map_eq_some_iff.mp hat
  exact ⟨n, hn, congrArg Prod.snd heq⟩

/-- `size()` is the number of keys that have a value. -/
theorem Carries.getSize_eq (h : Carries T c m s D) (heq : ∀ x y, T.Equiv x y ↔ x = y) :
    s.getSize = {k | (D k).isSome}.ncard := by
  have hsize : s.getSize = m.map.size := by
    rw [← h.refines.abstracts.card_stored]
    exact (Tables.Holds.used_eq h.refines.holds).trans ((sizeCounts_iff h.refines.holds).mp h.counts)
  classical
  have hkeys : {k | (D k).isSome} = ((m.map.entries.map T.keyOf).toFinset : Set K) := by
    ext k
    have hspec := m.map.lookup_spec k
    show (D k).isSome = true ↔ k ∈ (m.map.entries.map T.keyOf).toFinset
    rw [h.values, Option.isSome_map, List.mem_toFinset, List.mem_map]
    constructor
    · intro hk
      obtain ⟨e, he⟩ := Option.isSome_iff_exists.mp hk
      rw [he] at hspec
      exact ⟨e, hspec.1, (heq _ _).mp hspec.2⟩
    · rintro ⟨e, he, rfl⟩
      cases hfound : m.map.lookup (T.keyOf e) with
      | none =>
        rw [hfound] at hspec
        exact absurd ((heq _ _).mpr rfl) (hspec e he)
      | some e' => rfl
  have hnodup : (m.map.entries.map T.keyOf).Nodup := by
    rw [List.nodup_iff_pairwise_ne, List.pairwise_map]
    exact m.map.unique.imp fun hne hkey => hne ((heq _ _).mpr hkey.symm)
  rw [hkeys, Set.ncard_coe_finset, List.toFinset_card_of_nodup hnodup, List.length_map]
  exact hsize

/-- The value that an insertion gives a key. -/
def put [DecidableEq K] (D : K → Option V) (k : K) (v : V) : K → Option V :=
  Function.update D k (some ((D k).getD v))

/-- What an insertion leaves, and where. -/
theorem Carries.inserted [DecidableEq K] (h : Carries T c m s D)
    (heq : ∀ x y, T.Equiv x y ↔ x = y) (hgk : T.gk ⟨k, v⟩ = k) {s' : AvlDictionary K V}
    {c' : Snapshot (KeyValue K V)} (hm' : Refines T c' s' (m.insert ⟨k, v⟩))
    (hcount : SizeCounts s') :
    HoldingAt T s' (put D k v) k ((m.map.lookup k).getD (m.next, ⟨k, v⟩)).1 := by
  have hD := h.values k
  cases hfound : m.map.lookup k with
  | none =>
    have hlookup : m.map.lookup (T.keyOf (m.next, (⟨k, v⟩ : KeyValue K V))) = none :=
      (congrArg m.map.lookup hgk).trans hfound
    have hmap : (m.insert ⟨k, v⟩).map = m.map.insert (m.next, ⟨k, v⟩) := by
      unfold MapState.insert
      exact congrArg MapState.map (if_pos hlookup)
    have hkey : T.Equiv (T.keyOf (m.next, (⟨k, v⟩ : KeyValue K V))) k := (heq _ _).mpr hgk
    rw [hfound] at hD
    refine ⟨c', _, ⟨hm', hcount, fun k' => ?_⟩, ⟨k, v⟩, ?_⟩
    · rw [hmap, FiniteMap.lookup_insert_of_none hlookup, put, hD]
      by_cases hk : k' = k
      · subst hk
        rw [Function.update_self, if_pos hkey]
        rfl
      · have hne : ¬ T.Equiv (T.keyOf (m.next, (⟨k, v⟩ : KeyValue K V))) k' := fun he =>
          hk (((heq _ _).mp he).symm.trans hgk)
        rw [Function.update_of_ne hk, if_neg hne, h.values]
    · rw [hmap, FiniteMap.lookup_insert_of_none hlookup, if_pos hkey]
      rfl
  | some e =>
    have hsame : m.insert ⟨k, v⟩ = m := by
      have hlookup : m.map.lookup (T.gk ⟨k, v⟩) = some e := hgk.symm ▸ hfound
      unfold MapState.insert
      exact if_neg (hlookup ▸ Option.some_ne_none e)
    have hput : put D k v = D := by
      rw [hfound] at hD
      rw [put, hD]
      exact Function.update_eq_self_iff.mpr hD.symm
    rw [hsame] at hm'
    rw [hput]
    exact ⟨c', m, ⟨hm', hcount, h.values⟩, e.2, hfound⟩

end

/-! ## The calls -/

section

variable {comparator : K → K → ℤ} {hf : K → BitVec 64}

/-- A comparator that tells keys apart agrees with every hash function. -/
theorem lawfulHash (hcmp : LawfulCompare comparator) (heq : ∀ x y, comparator x y = 0 ↔ x = y)
    (hf : K → BitVec 64) : LawfulHash (traits V comparator hf) where
  cmp := hcmp
  hash x y h := congrArg hf ((heq x y).mp h)

/-- A new table has no value for any key. -/
theorem exists_holding (comparator : K → K → ℤ) (hf : K → BitVec 64) :
    ∃ s : AvlDictionary K V, construct = some s
      ∧ Holding (traits V comparator hf) s fun _ => none := by
  obtain ⟨s, hs, hrefines, hsize⟩ := exists_refines (traits V comparator hf)
  exact ⟨s, hs, _, _, hrefines, hsize, fun _ => rfl⟩

variable {D : K → Option V} {k : K} {a : Addr}

/-- `Find`. -/
theorem find_spec (hT : LawfulHash (traits V comparator hf)) (k : K) :
    Triple (Holding (traits V comparator hf) · D) (find comparator hf k)
      fun p s => (D k = none ∧ p = none ∧ Holding (traits V comparator hf) s D)
        ∨ ∃ a v, D k = some v ∧ p = some a ∧ HoldingAt (traits V comparator hf) s D k a := by
  rintro s ⟨c, m, h⟩
  obtain ⟨r, s', c', m', hrun, hcall, hm', hcount⟩ :=
    h.call hT (nofun : TreeHashTable.PushesLoose s (.find k)) nofun
  obtain ⟨⟨p, s''⟩, hfind, hret⟩ := Option.bind_eq_some_iff.mp hrun
  obtain ⟨rfl, rfl⟩ := Prod.mk.inj (Option.some.inj hret)
  obtain ⟨hfound, rfl⟩ := Prod.mk.inj (Option.some.inj hcall)
  obtain ⟨hsome, hentry⟩ := Prod.mk.inj hfound
  refine ⟨p, s'', hfind, ?_⟩
  rw [h.values]
  cases hlookup : m.map.lookup k with
  | none =>
    rw [hlookup] at hsome
    have hnone : p = none :=
      Option.isNone_iff_eq_none.mp (Option.isSome_eq_false_iff.mp hsome.symm)
    exact Or.inl ⟨rfl, hnone, c', m, hm', hcount, h.values⟩
  | some e =>
    rw [hlookup] at hentry
    exact Or.inr ⟨e.1, _, rfl, entryAt_eq_some hentry.symm, c', m, ⟨hm', hcount, h.values⟩, e.2,
      hlookup⟩

/-- A read of a value. -/
theorem valueAt_spec : Triple (HoldingAt (traits V comparator hf) · D k a) (valueAt a)
    fun v s => D k = some v ∧ HoldingAt (traits V comparator hf) s D k a := by
  rintro s ⟨c, m, h, kv, hk⟩
  obtain ⟨n, hn, rfl⟩ := h.node_eq hk
  refine ⟨n.value.value, s, ?_, ?_, c, m, h, n.value, hk⟩
  · show (((s.heap.nodes a).map _).map _).bind _ = _
    rw [hn]
    rfl
  · rw [h.values, hk]
    rfl

variable [DecidableEq K]

/-- **A write of a value.** -/
theorem setValue_spec (heq : ∀ x y, comparator x y = 0 ↔ x = y) (v : V) :
    Triple (HoldingAt (traits V comparator hf) · D k a) (setValue a v)
      fun _ s => HoldingAt (traits V comparator hf) s (Function.update D k (some v)) k a := by
  rintro s ⟨c, m, h, w, hw⟩
  obtain ⟨n, hn, -⟩ := h.node_eq hw
  obtain ⟨s', c', m', hrun, hm', hcount, hlookup⟩ := h.refines.modifyValue hn
    (fun kv => { kv with value := v }) fun _ => rfl
  refine ⟨(), s', hrun, c', m', ⟨hm', hcount h.counts, fun k' => ?_⟩, { w with value := v }, ?_⟩
  · rw [hlookup]
    by_cases hk : k' = k
    · subst hk
      rw [Function.update_self, hw, Option.map_some, if_pos rfl]
      rfl
    · rw [Function.update_of_ne hk, h.values]
      cases he : m.map.lookup k' with
      | none => rfl
      | some e =>
        -- one node would have both keys
        have hne : e.1 ≠ a := by
          intro haddr
          have hsame := h.entry_eq he hw haddr
          have hkey := m.map.lookup_spec k'
          have hkey' := m.map.lookup_spec k
          rw [he, hsame] at hkey
          rw [hw] at hkey'
          exact hk (((heq _ _).mp hkey.2).symm.trans ((heq _ _).mp hkey'.2))
        rw [Option.map_some, Option.map_some, if_neg hne, Option.map_some]
  · rw [hlookup, hw, Option.map_some, if_pos rfl]

/-- `InsertKvWithDuplicate`. -/
theorem insertKvWithDuplicate_spec (heq : ∀ x y, comparator x y = 0 ↔ x = y)
    (hT : LawfulHash (traits V comparator hf)) (k : K) (v : V) :
    Triple (Holding (traits V comparator hf) · D) (insertKvWithDuplicate comparator hf k v)
      fun r s => ∃ a, r = ((D k).isNone, some a)
        ∧ HoldingAt (traits V comparator hf) s (put D k v) k a := by
  rintro s ⟨c, m, h⟩
  obtain ⟨⟨ok, p⟩, s', c', m', hrun, hcall, hm', hcount⟩ :=
    h.call hT (nofun : TreeHashTable.PushesLoose s (.insertWithDuplicate ⟨k, v⟩)) nofun
  obtain ⟨hfound, rfl⟩ := Prod.mk.inj (Option.some.inj hcall)
  obtain ⟨hok, hentry⟩ := Prod.mk.inj hfound
  obtain rfl : p = _ := entryAt_eq_some hentry.symm
  obtain rfl : (m.map.lookup k).isNone = ok := hok
  refine ⟨_, s', hrun, _, ?_, h.inserted heq rfl hm' hcount⟩
  rw [h.values, Option.isNone_map]
  rfl

/-- `InsertKv`. -/
theorem insertKv_spec (heq : ∀ x y, comparator x y = 0 ↔ x = y)
    (hT : LawfulHash (traits V comparator hf)) (k : K) (v : V) :
    Triple (Holding (traits V comparator hf) · D) (insertKv comparator hf k v)
      fun p s => ∃ a, p = (if (D k).isNone then some a else none)
        ∧ HoldingAt (traits V comparator hf) s (put D k v) k a := by
  refine (insertKvWithDuplicate_spec heq hT k v).bind fun r => ?_
  rintro s ⟨a, rfl, h⟩
  exact ⟨_, s, rfl, a, rfl, h⟩

/-- `operator[]`. -/
theorem subscript_spec (heq : ∀ x y, comparator x y = 0 ↔ x = y)
    (hT : LawfulHash (traits V comparator hf)) (fallback : V) (k : K) :
    Triple (Holding (traits V comparator hf) · D) (subscript comparator hf fallback k)
      fun a s => HoldingAt (traits V comparator hf) s (put D k fallback) k a := by
  refine (find_spec hT k).bind fun p => ?_
  rintro s (⟨hnone, rfl, h⟩ | ⟨a, v, hsome, rfl, h⟩)
  · obtain ⟨p, s', hrun, a, rfl, h'⟩ := insertKv_spec heq hT k fallback s h
    rw [hnone] at hrun
    exact ⟨a, s', run_bind_eq hrun rfl, h'⟩
  · have hput : put D k fallback = D := by
      rw [put, hsome]
      exact Function.update_eq_self_iff.mpr hsome.symm
    rw [hput]
    exact ⟨a, s, rfl, h⟩

end

end AvlDictionary

end Mmkvc
