/-
# Values of a table written through pointers

`InsertWithDuplicate` gives its caller a pointer into a node, and the caller may write a
value through it.  A write that leaves the key as it is changes no tree but for this one
value: the table and the map stay together (`Refines.modifyValue`).
-/
import Mmkvc.TreeTableAnswers

namespace Mmkvc

open AvlM LinkedTree

variable {K V : Type}

/-- A node with another value. -/
def AvlNode.mapValue (g : V → V) (n : AvlNode V) : AvlNode V := { n with value := g n.value }

/-- The cells of a memory in which the value at `a` is mapped by `g a`. -/
def mapCell (g : Addr → V → V) (x : Addr × AvlNode V) : Addr × AvlNode V :=
  (x.1, x.2.mapValue (g x.1))

/-- An entry with its value mapped. -/
def mapEntry (g : Addr → V → V) (e : Addr × V) : Addr × V := (e.1, g e.1 e.2)

/-! ## Trees -/

namespace LinkedTree

/-- The tree with the value of each node mapped. -/
def mapValues (g : Addr → V → V) : LinkedTree V → LinkedTree V
  | nil => nil
  | node a h v l r => node a h (g a v) (l.mapValues g) (r.mapValues g)

variable {g : Addr → V → V}

@[simp] theorem root_mapValues (t : LinkedTree V) : (t.mapValues g).root = t.root := by
  cases t <;> rfl

/-- The entries in order have the new values. -/
theorem inorder_mapValues (t : LinkedTree V) :
    (t.mapValues g).inorder = t.inorder.map (mapEntry g) := by
  induction t with
  | nil => rfl
  | node a h v l r ihl ihr =>
    rw [mapValues, inorder_node, inorder_node, ihl, ihr, List.map_append, List.map_cons]
    rfl

/-- The nodes have the new values and the links they had. -/
theorem cells_mapValues (t : LinkedTree V) (p : Option Addr) :
    (t.mapValues g).cells p = (t.cells p).map (mapCell g) := by
  induction t generalizing p with
  | nil => rfl
  | node a h v l r ihl ihr =>
    rw [mapValues, cells, cells, ihl, ihr, root_mapValues, root_mapValues, Multiset.map_add,
      Multiset.map_add, Multiset.map_singleton]
    rfl

end LinkedTree

/-! ## Memory -/

/-- New values in the nodes of the memory. -/
theorem Sat.mapValues {m : Addr → Option (AvlNode V)} {M : Multiset (Addr × AvlNode V)}
    (h : Sat m M) (g : Addr → V → V) :
    Sat (fun a => (m a).map fun n => n.mapValue (g a)) (M.map (mapCell g)) := by
  have haddr : (M.map (mapCell g)).map Prod.fst = M.map Prod.fst := by
    rw [Multiset.map_map]
    rfl
  refine ⟨?_, ?_, ?_⟩
  · rw [haddr]
    exact h.nodup
  · intro x hx
    obtain ⟨y, hy, rfl⟩ := Multiset.mem_map.mp hx
    show (m y.1).map _ = _
    rw [h.cell y hy]
    rfl
  · intro a ha
    rw [haddr] at ha
    rw [h.rest a ha]
    rfl

section

variable {g : Addr → V → V} {size : TableName → ℕ} {f : Bucket → LinkedTree V}
  {H : Multiset (Addr × AvlNode V)} {top : ℕ} {s : AvlHeap Bucket V}

/-- A memory with the values of all nodes mapped. -/
def AvlHeap.mapValues (g : Addr → V → V) (s : AvlHeap Bucket V) : AvlHeap Bucket V :=
  { s with nodes := fun a => (s.nodes a).map fun n => n.mapValue (g a) }

/-- The trees of a forest keep their shape under new values. -/
theorem Forest.mapValues (hs : Forest size f H top s) :
    Forest size (fun b => (f b).mapValues g) (H.map (mapCell g)) top (s.mapValues g) := by
  refine ⟨?_, ?_, hs.next, fun a ha => ?_⟩
  · have hcells : gather size (fun b => ((f b).mapValues g).cells none)
        = (gather size fun b => (f b).cells none).map (mapCell g) := by
      refine Eq.trans (gather_congr fun b _ => cells_mapValues (f b) none) ?_
      exact (map_gather (Multiset.mapAddMonoidHom (mapCell g))).symm
    rw [hcells, ← Multiset.map_add]
    exact hs.sat.mapValues g
  · show s.roots = _
    rw [hs.roots]
    funext b
    exact (root_mapValues (f b)).symm
  · show (s.nodes a).map _ = none
    rw [hs.fresh a ha]
    rfl

/-- A mapping of the value at one address. -/
def mapAt (a : Addr) (v : V → V) : Addr → V → V := fun b w => if b = a then v w else w

/-- One write is a mapping. -/
theorem modifyValue_run {a : Addr} {n : AvlNode V} (hn : s.nodes a = some n) (v : V → V) :
    (modifyNode a (AvlNode.mapValue v)).run s
      = some ((), s.mapValues (mapAt a v)) := by
  show (s.nodes a).map _ = _
  rw [hn, Option.map_some]
  congr 2
  unfold AvlHeap.mapValues
  congr 1
  funext b
  by_cases hb : b = a
  · subst hb
    have hself : mapAt b v b = v := by
      funext w
      exact if_pos rfl
    rw [Function.update_self, hn, hself]
    rfl
  · have hother : mapAt a v b = id := by
      funext w
      exact if_neg hb
    rw [Function.update_of_ne hb, hother]
    cases s.nodes b <;> rfl

end

/-! ## The invariant and the map -/

section

variable {T : HashTraits K V} {g : Addr → V → V}

/-- The keys stay as they are. -/
def KeepsKeys (T : HashTraits K V) (g : Addr → V → V) : Prop := ∀ a v, T.gk (g a v) = T.gk v

/-- Keys that are kept stay different. -/
theorem Unique.mapEntry {eqv : K → K → Prop} {M : Multiset (Addr × V)} (hg : KeepsKeys T g)
    (h : Unique eqv T.keyOf M) : Unique eqv T.keyOf (M.map (mapEntry g)) := by
  obtain ⟨l, rfl, hl⟩ := h
  refine ⟨l.map (Mmkvc.mapEntry g), rfl, ?_⟩
  rw [List.pairwise_map]
  refine hl.imp fun {e e'} hne => ?_
  show ¬ eqv (T.gk (g e.1 e.2)) (T.gk (g e'.1 e'.2))
  rw [hg, hg]
  exact hne

/-- The entries of a bucket have the new values. -/
theorem entries_mapValues (f : Bucket → LinkedTree V) (b : Bucket) :
    entries (fun b => (f b).mapValues g) b = (entries f b).map (mapEntry g) := by
  unfold entries
  rw [inorder_mapValues]
  rfl

/-- The entries of all buckets have the new values. -/
theorem gather_entries_mapValues (size : TableName → ℕ) (f : Bucket → LinkedTree V) :
    gather size (entries fun b => (f b).mapValues g) = (gather size (entries f)).map (mapEntry g) := by
  have hmap : (gather size (entries f)).map (mapEntry g)
      = gather size fun b => (entries f b).map (mapEntry g) :=
    map_gather (Multiset.mapAddMonoidHom (mapEntry g))
  rw [hmap]
  exact gather_congr fun b _ => entries_mapValues f b

/-- The trees of the buckets stay sorted and balanced, since keys are kept. -/
theorem TreesInv.mapValues {l : Layout} {f : Bucket → LinkedTree V} (hf : TreesInv T l f)
    (hg : KeepsKeys T g) : TreesInv T l fun b => (f b).mapValues g := by
  have hhash : ∀ e : Addr × V, T.hashOf (mapEntry g e).2 = T.hashOf e.2 := by
    intro e
    show (T.hash (T.gk (g e.1 e.2))).toNat = _
    rw [hg]
    rfl
  refine ⟨hf.sound, fun b e he => ?_, fun i e he => ?_, fun b => ?_, ?_⟩
  · rw [entries_mapValues] at he
    obtain ⟨e', he', rfl⟩ := Multiset.mem_map.mp he
    have hfits : Fits l (T.hashOf e'.2) b := hf.placed b e' he'
    rwa [← hhash] at hfits
  · rw [entries_mapValues] at he
    obtain ⟨e', he', rfl⟩ := Multiset.mem_map.mp he
    have hbehind : T.hashOf e'.2 % l.size .table1 < l.moved.getD 0 := hf.behind i e' he'
    rwa [← hhash] at hbehind
  · rw [inorder_mapValues, List.pairwise_map]
    refine (hf.sorted b).imp fun {e e'} hle => ?_
    show T.cmp (T.gk (g e.1 e.2)) (T.gk (g e'.1 e'.2)) ≤ 0
    rw [hg, hg]
    exact hle
  · rw [gather_entries_mapValues]
    exact hf.unique.mapEntry hg

namespace Snapshot

/-- The snapshot with every value mapped. -/
def mapValues (g : Addr → V → V) (c : Snapshot V) : Snapshot V :=
  { c with trees := fun b => (c.trees b).mapValues g, loose := c.loose.map (mapCell g) }

variable {c : Snapshot V}

theorem Good.mapValues (hc : c.Good T) (hg : KeepsKeys T g) : (c.mapValues g).Good T := by
  refine ⟨hc.trees.mapValues hg, fun x hx => ?_⟩
  obtain ⟨y, hy, rfl⟩ := Multiset.mem_map.mp hx
  exact hc.links y hy

theorem Holds.mapValues {s : TreeHashTable V} (hs : c.Holds s) :
    (c.mapValues g).Holds { s with heap := s.heap.mapValues g } :=
  ⟨hs.mem.mapValues, hs.layout, hs.mask1, hs.mask2⟩

end Snapshot

namespace MapState

/-- The map with every value mapped. -/
def mapValues (m : MapState T) (hg : KeepsKeys T g) : MapState T where
  map :=
    { entries := m.map.entries.map (mapEntry g)
      unique := by
        rw [List.pairwise_map]
        refine m.map.unique.imp fun {e e'} hne => ?_
        show ¬ T.Equiv (T.gk (g e'.1 e'.2)) (T.gk (g e.1 e.2))
        rw [hg, hg]
        exact hne }
  held := fun a => (m.held a).map (g a)
  next := m.next

/-- In the map, a key has the new value of the entry it had. -/
theorem lookup_mapValues (m : MapState T) (hg : KeepsKeys T g) (k : K) :
    (m.mapValues hg).map.lookup k = (m.map.lookup k).map (mapEntry g) := by
  show List.find? _ (List.map _ _) = _
  rw [List.find?_map]
  congr 2
  funext e
  show decide (T.Equiv (T.gk (g e.1 e.2)) k) = _
  rw [hg]
  rfl

end MapState

/-- The values that are held by nodes outside of the table are mapped as well. -/
theorem ValuesOf.mapValues {L : Multiset (Addr × AvlNode V)} {held : Addr → Option V}
    (h : ValuesOf L held) : ValuesOf (L.map (mapCell g)) fun a => (held a).map (g a) := by
  intro a v
  rw [Option.map_eq_some_iff]
  constructor
  · rintro ⟨w, hw, rfl⟩
    obtain ⟨n, hn, rfl⟩ := (h a w).mp hw
    exact ⟨n.mapValue (g a), Multiset.mem_map_of_mem (mapCell g) hn, rfl⟩
  · rintro ⟨n, hn, rfl⟩
    obtain ⟨⟨b, n'⟩, hn', heq⟩ := Multiset.mem_map.mp hn
    obtain ⟨rfl, rfl⟩ := Prod.mk.inj heq
    exact ⟨n'.value, (h b n'.value).mpr ⟨n', hn', rfl⟩, rfl⟩

/-- The map of a table with new values is the map with the new values. -/
theorem Snapshot.Abstracts.mapValues {c : Snapshot V} {m : MapState T} (hm : c.Abstracts m)
    (hg : KeepsKeys T g) : (c.mapValues g).Abstracts (m.mapValues hg) := by
  refine ⟨?_, hm.held.mapValues, hm.next⟩
  refine (gather_entries_mapValues c.layout.size c.trees).trans ?_
  have hstored : gather c.layout.size (entries c.trees) = (m.map.entries : Multiset _) := hm.stored
  rw [hstored]
  rfl

namespace TreeHashTable

/-- **A value is written through a pointer**, and the entry has it in the map too. -/
theorem Refines.modifyValue {c : Snapshot V} {s : TreeHashTable V} {m : MapState T}
    (h : Refines T c s m) {a : Addr} {n : AvlNode V} (hn : s.heap.nodes a = some n) (v : V → V)
    (hv : ∀ w, T.gk (v w) = T.gk w) :
    ∃ (s' : TreeHashTable V) (c' : Snapshot V) (m' : MapState T),
      (Tables.onHeap (modifyNode a (AvlNode.mapValue v))).run s = some ((), s')
        ∧ Refines T c' s' m' ∧ (SizeCounts s → SizeCounts s')
        ∧ ∀ k, m'.map.lookup k
          = (m.map.lookup k).map fun e => if e.1 = a then (e.1, v e.2) else e := by
  have hg : KeepsKeys T (mapAt a v) := by
    intro b w
    unfold mapAt
    split_ifs
    · exact hv w
    · rfl
  refine ⟨_, _, _, ?_, ⟨h.holds.mapValues, h.good.mapValues hg, h.abstracts.mapValues hg⟩,
    fun hsize => ?_, fun k => ?_⟩
  · show ((modifyNode a (AvlNode.mapValue v)).run s.heap).map _ = _
    rw [modifyValue_run hn]
    rfl
  · rw [sizeCounts_iff h.holds.mapValues]
    have hcount : c.Counted := (sizeCounts_iff h.holds).mp hsize
    show c.layout.used = Multiset.card (gather c.layout.size
      (entries fun b => (c.trees b).mapValues (mapAt a v)))
    rw [gather_entries_mapValues, Multiset.card_map]
    exact hcount
  · rw [MapState.lookup_mapValues]
    congr 1
    funext e
    unfold mapEntry mapAt
    split_ifs <;> rfl

end TreeHashTable

end

end Mmkvc
