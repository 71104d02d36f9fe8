/-
# Trees that share nodes as finite maps

Whatever heights are stored in the nodes that `Push` puts back, each tree answers as a finite
map does: the rebalancing goes by the stored heights and keeps the entries as they are.
-/
import Mmkvc.AvlGrove
import Mmkvc.FiniteMap

namespace Mmkvc

open AvlM AvlTreeBase LinkedTree Transition

variable {ι K V : Type} [DecidableEq ι]

/-! ## One tree and one map -/

/-- A sorted tree with the entries of a map. -/
structure MapOf (T : AvlTraits K V) (t : LinkedTree V) (m : FiniteMap T.Equiv T.keyOf) : Prop where
  entries : (t.inorder : Multiset (Addr × V)) = m.entries
  sorted : t.inorder.Pairwise T.lt

section

variable {T : AvlTraits K V} {t : LinkedTree V} {m : FiniteMap T.Equiv T.keyOf} {key : K}

theorem mapOf_nil : MapOf T nil FiniteMap.empty := ⟨rfl, List.Pairwise.nil⟩

theorem MapOf.le (hm : MapOf T t m) : t.inorder.Pairwise T.le := hm.sorted.imp fun hlt => hlt.le

/-- What the tree has with a key is what the map has. -/
theorem MapOf.lookup_eq (hm : MapOf T t m) (hT : LawfulCompare T.cmp) {o : Option (Addr × V)}
    (ho : Lookup T.Equiv T.keyOf key (t.inorder : Multiset (Addr × V)) o) : m.lookup key = o := by
  rw [hm.entries] at ho
  exact FiniteMap.lookup_eq hT.equivalence ho

/-- `Find` gives the node of the entry that the map has for the key. -/
theorem MapOf.find_eq (hm : MapOf T t m) (hT : LawfulCompare T.cmp) (key : K) :
    find T key t = (m.lookup key).map Prod.fst := by
  rcases find_spec key hT hm.le with ⟨hnone, hall⟩ | ⟨a, v, hsome, hmem, heq⟩
  · rw [hnone, hm.lookup_eq hT (o := none) fun e he => hall e he]
    rfl
  · rw [hsome, hm.lookup_eq hT (o := some (a, v)) ⟨hmem, heq⟩]
    rfl

/-- An insertion into the tree is one into the map. -/
theorem MapOf.insertNew (hm : MapOf T t m) (hT : LawfulCompare T.cmp) (x : Addr) (h : ℕ) (v : V) :
    (LinkedTree.insertNew T (T.gk v) x h v t).1 = (m.lookup (T.gk v)).map Prod.fst
      ∧ MapOf T (LinkedTree.insertNew T (T.gk v) x h v t).2 (m.insert (x, v)) := by
  rcases insertNew_outcome hT hm.le x h v with ⟨hnone, L, R, hent, hent', hL, hR⟩
    | ⟨a, w, hsome, hmem, heq⟩
  · have hlookup : m.lookup (T.gk v) = none := by
      refine hm.lookup_eq hT (o := none) fun e he heq => ?_
      rw [hent, Multiset.mem_coe, List.mem_append] at he
      rcases he with he | he
      · exact (hL e he).ne heq
      · exact (hR e he).ne' heq
    refine ⟨by rw [hnone, hlookup]; rfl, ?_, strict_insertNew hT hm.sorted x h v⟩
    rw [FiniteMap.insert_of_none (e := (x, v)) hlookup, ← Multiset.cons_coe, ← hm.entries, hent', hent]
    exact Multiset.coe_eq_coe.mpr List.perm_middle
  · have hlookup : m.lookup (T.gk v) = some (a, w) := hm.lookup_eq hT (o := some (a, w)) ⟨hmem, heq⟩
    rw [hsome, hlookup, FiniteMap.insert_of_some (e := (x, v)) hlookup]
    exact ⟨rfl, hm⟩

/-- A removal from the tree is one from the map. -/
theorem MapOf.eraseKey (hm : MapOf T t m) (hT : LawfulCompare T.cmp) (key : K) :
    (LinkedTree.eraseKey T key t).1.map (fun x => (x.1, x.2.2)) = m.lookup key
      ∧ MapOf T (LinkedTree.eraseKey T key t).2 (m.erase key) := by
  have hsorted := hm.sorted.sublist (sublist_eraseKey T key t)
  rcases eraseKey_outcome key hT hm.le with ⟨hnone, hall⟩ | ⟨a, h, v, hsome, heq, L, R, hent, hent'⟩
  · have hlookup : m.lookup key = none := hm.lookup_eq hT (o := none) fun e he => hall e he
    rw [hnone] at hsorted ⊢
    refine ⟨hlookup.symm, ?_, hsorted⟩
    rw [FiniteMap.erase_of_none hlookup]
    exact hm.entries
  · have hentries : (t.inorder : Multiset (Addr × V)) = (a, v) ::ₘ (L ++ R : List (Addr × V)) := by
      rw [hent]
      exact Multiset.coe_eq_coe.mpr List.perm_middle
    have hlookup : m.lookup key = some (a, v) := by
      refine hm.lookup_eq hT (o := some (a, v)) ⟨?_, heq⟩
      rw [hentries]
      exact Multiset.mem_cons_self _ _
    rw [hsome, hlookup]
    refine ⟨rfl, ?_, hsorted⟩
    rw [hent']
    exact (FiniteMap.coe_erase hT.equivalence (hm.entries.symm.trans hentries) heq).symm

end

/-! ## The finite maps -/

/-- The calls that a map has. -/
def TreeCall.OfMap : TreeCall K V → Bool
  | .insert _ | .insertWithDuplicate _ | .push _ | .find _ | .erase _ | .extract _ | .reuseAllNodes
  | .clear => true
  | .insertEq _ | .pushEq _ | .eraseNode _ | .extractRoot => false

/-- Finite maps by their names, the values of the nodes that are in none of them, and the
address of the next new node. -/
structure Maps (T : AvlTraits K V) (ι : Type) where
  map : ι → FiniteMap T.Equiv T.keyOf
  held : Addr → Option V
  next : Addr

namespace Maps

variable {T : AvlTraits K V}

def empty : Maps T ι := ⟨fun _ => FiniteMap.empty, fun _ => none, 0⟩

/-- Another map at a name. -/
def replace (m : Maps T ι) (i : ι) (f : FiniteMap T.Equiv T.keyOf) : Maps T ι :=
  { m with map := Function.update m.map i f }

/-- An entry in a new node, if its key is not there. -/
def insert (m : Maps T ι) (i : ι) (v : V) : Maps T ι :=
  if (m.map i).lookup (T.gk v) = none then
    { m.replace i ((m.map i).insert (m.next, v)) with next := m.next + 1 }
  else m

/-- The values of nodes that are in no map when those of the entries are added. -/
def heldWith (held : Addr → Option V) (es : List (Addr × V)) (a : Addr) : Option V :=
  ((es.find? fun e => e.1 = a).map Prod.snd).or (held a)

/-- The calls on the maps: whether they succeed, and the entry they give. -/
def call (m : Maps T ι) (i : ι) : TreeCall K V → Option ((Bool × Option (Addr × V)) × Maps T ι)
  | .insert v => some ((((m.map i).lookup (T.gk v)).isNone, none), m.insert i v)
  | .insertWithDuplicate v =>
    let found := (m.map i).lookup (T.gk v)
    some ((found.isNone, some (found.getD (m.next, v))), m.insert i v)
  | .push a => (m.held a).map fun v =>
    if (m.map i).lookup (T.gk v) = none then
      ((true, none), { m.replace i ((m.map i).insert (a, v)) with held := Function.update m.held a none })
    else ((false, none), m)
  | .find key =>
    let found := (m.map i).lookup key
    some ((found.isSome, found), m)
  | .erase key => some ((((m.map i).lookup key).isSome, none), m.replace i ((m.map i).erase key))
  | .extract key =>
    let found := (m.map i).lookup key
    some ((found.isSome, found), { m.replace i ((m.map i).erase key) with
      held := match found with
        | none => m.held
        | some e => Function.update m.held e.1 (some e.2) })
  | .reuseAllNodes => some ((true, none), { m.replace i FiniteMap.empty with
      held := heldWith m.held (m.map i).entries })
  | .clear => some ((true, none), m.replace i FiniteMap.empty)
  | .insertEq _ | .pushEq _ | .eraseNode _ | .extractRoot => none

/-- The result of a call on one of the maps, and the state. -/
def answer (m : Maps T ι) (op : ι × TreeCall K V) : Option ((Bool × Option (Addr × V)) × Maps T ι) :=
  m.call op.1 op.2

end Maps

/-- The entry at a pointer. -/
def AvlHeap.entryAt (s : AvlHeap ι V) (p : Option Addr) : Option (Addr × V) :=
  p.bind fun a => (s.nodes a).map fun n => (a, n.value)

/-- The result of a call on one of the trees with the entry it points to, and the state. -/
def groveAnswer (T : AvlTraits K V) (s : AvlHeap ι V) (op : ι × TreeCall K V) :
    Option ((Bool × Option (Addr × V)) × AvlHeap ι V) :=
  ((callTree T op.1 op.2).run s).map fun r => ((r.1.1, r.2.entryAt r.1.2), r.2)

/-! ## The trees as the maps -/

namespace Grove

variable {T : AvlTraits K V} {g g' : Grove ι V} {m : Maps T ι} {i : ι} {op : TreeCall K V}
  {r : Bool × Option Addr} {e : Rest ι} {L : Multiset (Addr × AvlNode V)} {a : Addr} {n : AvlNode V}

/-- The trees are the maps, and the nodes beside them hold the values beside those. -/
structure Abstracts (g : Grove ι V) (m : Maps T ι) : Prop where
  maps : ∀ i, MapOf T (g.trees i) (m.map i)
  held : ValuesOf g.loose m.held
  next : m.next = g.top

omit [DecidableEq ι] in
theorem abstracts_bare : (bare : Grove ι V).Abstracts (Maps.empty : Maps T ι) :=
  ⟨fun _ => mapOf_nil, fun _ _ => ⟨nofun, fun ⟨_, hn, _⟩ => absurd hn (Multiset.notMem_zero _)⟩, rfl⟩

/-- One tree and one map change. -/
theorem Abstracts.replace {t : LinkedTree V} {f : FiniteMap T.Equiv T.keyOf} {held : Addr → Option V}
    (hm : g.Abstracts m) (ht : MapOf T t f) (hheld : ValuesOf L held) :
    (g.replace i t e L).Abstracts { m.replace i f with held := held, next := e.next } := by
  refine ⟨fun j => ?_, hheld, rfl⟩
  by_cases hj : j = i
  · subst hj
    change MapOf T _ (Function.update m.map j f j)
    rw [replace_trees_self, Function.update_self]
    exact ht
  · change MapOf T _ (Function.update m.map i f j)
    rw [replace_trees_of_ne hj, Function.update_of_ne hj]
    exact hm.maps j

omit [DecidableEq ι] in
theorem Abstracts.inserted_fst (hm : g.Abstracts m) (hT : LawfulCompare T.cmp) (x : Addr) (h : ℕ)
    (v : V) : (g.inserted T i x h v).1 = ((m.map i).lookup (T.gk v)).map Prod.fst :=
  ((hm.maps i).insertNew hT x h v).1

/-- A tree from which a node was taken out, and the map without its entry. -/
theorem Abstracts.cut {out : Option (Addr × ℕ × V) × LinkedTree V} {f : FiniteMap T.Equiv T.keyOf}
    {held : Addr → Option V} (hm : g.Abstracts m) (hmap : MapOf T out.2 f) (hheld : ValuesOf L held) :
    (g.cut i out L).Abstracts { m.replace i f with held := held } := by
  have habs := hm.replace (i := i) (e := if out.1.isSome then g.rest.decrease i else g.rest) hmap hheld
  have hnext : (if out.1.isSome then g.rest.decrease i else g.rest).next = m.next := by
    rw [hm.next]
    split_ifs <;> rfl
  rw [hnext] at habs
  exact habs

/-- A new entry goes into the tree and the map. -/
theorem Abstracts.planted {h : ℕ} {v : V} {x : Addr} {held : Addr → Option V} (hm : g.Abstracts m)
    (hT : LawfulCompare T.cmp) (hheld : ValuesOf L held)
    (hnone : (m.map i).lookup (T.gk v) = none) :
    (g.planted i (g.inserted T i x h v) e L).Abstracts
      { m.replace i ((m.map i).insert (x, v)) with held := held, next := e.next } := by
  have hout := hm.inserted_fst (i := i) hT x h v
  rw [hnone, Option.map_none] at hout
  have hnext : (restAfter i (g.trees i) e).next = e.next := restAfter_next
  rw [Grove.planted, hout, Option.isNone_none, if_pos rfl, ← hnext]
  exact hm.replace ((hm.maps i).insertNew hT x h v).2 hheld

/-- An entry with the key stays. -/
theorem Abstracts.planted_some {h : ℕ} {v : V} {x : Addr} {e' : Addr × V} (hm : g.Abstracts m)
    (hT : LawfulCompare T.cmp) (hsome : (m.map i).lookup (T.gk v) = some e') :
    g.planted i (g.inserted T i x h v) e L = g := by
  have hout := hm.inserted_fst (i := i) hT x h v
  rw [hsome, Option.map_some] at hout
  rw [Grove.planted, hout, Option.isNone_some, if_neg Bool.false_ne_true]

/-- An insertion puts the entry into the map, if the key is new. -/
theorem Abstracts.insert (hm : g.Abstracts m) (hT : LawfulCompare T.cmp) (v : V) :
    (g.planted i (g.inserted T i g.top 1 v) g.rest.advance g.loose).Abstracts (m.insert i v) := by
  unfold Maps.insert
  cases hfound : (m.map i).lookup (T.gk v) with
  | none =>
    have hplanted := hm.planted (e := g.rest.advance) (x := g.top) (h := 1) hT hm.held hfound
    rw [if_pos rfl, hm.next]
    exact hplanted
  | some e' =>
    rw [if_neg nofun, hm.planted_some hT hfound]
    exact hm

section

variable [Fintype ι] {s : AvlHeap ι V}

omit [DecidableEq ι] in
theorem Holds.nodup_loose (hs : g.Holds s) : (g.loose.map Prod.fst).Nodup := by
  have hnodup := hs.sat.nodup
  rw [Multiset.map_add, Multiset.nodup_add] at hnodup
  exact hnodup.2.1

omit [DecidableEq ι] in
/-- A loose node holds its value. -/
theorem Holds.entryAt_loose (hs : g.Holds s) (hn : (a, n) ∈ g.loose) :
    s.entryAt (some a) = some (a, n.value) := by
  rw [AvlHeap.entryAt, Option.bind_some, hs.node_eq hn]
  rfl

omit [DecidableEq ι] in
/-- An entry is at its address. -/
theorem Holds.entryAt_tree (hs : g.Holds s) {x : Addr × V} (hx : x ∈ (g.trees i).inorder) :
    s.entryAt (some x.1) = some x := by
  obtain ⟨n, hn, hv⟩ := exists_mem_cells none hx
  have hcell := hs.sat.cell (x.1, n)
    (Multiset.mem_add.mpr (Or.inl (Multiset.mem_sum.mpr ⟨i, Finset.mem_univ i, hn⟩)))
  rw [AvlHeap.entryAt, Option.bind_some, hcell, Option.map_some, hv]

omit [DecidableEq ι] in
/-- What a map finds is at its address. -/
theorem Abstracts.entryAt_lookup (hm : g.Abstracts m) (hs : g.Holds s) (key : K) :
    s.entryAt (((m.map i).lookup key).map Prod.fst) = (m.map i).lookup key := by
  cases hfound : (m.map i).lookup key with
  | none => rfl
  | some x =>
    have hspec := (m.map i).lookup_spec key
    rw [hfound, ← (hm.maps i).entries] at hspec
    exact hs.entryAt_tree hspec.1

/-- The entry with the key after an insertion, in memory. -/
theorem Abstracts.entryAt_insert {v : V} (hm : g.Abstracts (m.insert i v)) (hs : g.Holds s) :
    s.entryAt (some ((((m.map i).lookup (T.gk v)).map Prod.fst).getD m.next))
      = some (((m.map i).lookup (T.gk v)).getD (m.next, v)) := by
  have hentry := hm.entryAt_lookup (i := i) hs (T.gk v)
  have hmap := (hm.maps i).entries
  unfold Maps.insert at hentry hmap
  cases hfound : (m.map i).lookup (T.gk v) with
  | none =>
    rw [hfound, if_pos rfl] at hmap
    refine hs.entryAt_tree (x := (m.next, v)) (i := i) ?_
    rw [← Multiset.mem_coe, hmap]
    change (m.next, v) ∈ (Function.update m.map i ((m.map i).insert (m.next, v)) i).entries
    rw [Function.update_self, FiniteMap.insert_of_none (e := (m.next, v)) hfound]
    exact List.mem_cons_self
  | some x =>
    rw [hfound, if_neg nofun, hfound] at hentry
    exact hentry

/-- The nodes that `ReuseAllNodes` hands out hold the values of the entries. -/
theorem valuesOf_spares {es es' : List (Addr × V)} {held : Addr → Option V} (h : ValuesOf L held)
    (hperm : es.Perm es') (hnodup : ((spares es + L).map Prod.fst).Nodup) :
    ValuesOf (spares es + L) (Maps.heldWith held es') := by
  have hspare : ∀ {x : Addr} {v : V}, (∃ n, (x, n) ∈ spares es ∧ n.value = v) ↔ (x, v) ∈ es' := by
    intro x v
    rw [← hperm.mem_iff]
    constructor
    · rintro ⟨n, hn, rfl⟩
      obtain ⟨y, hy, heq⟩ := List.mem_map.mp hn
      obtain ⟨rfl, rfl⟩ := Prod.mk.inj heq
      exact hy
    · exact fun hx => ⟨_, List.mem_map.mpr ⟨(x, v), hx, rfl⟩, rfl⟩
  rw [Multiset.map_add, Multiset.nodup_add] at hnodup
  obtain ⟨hes, -, hdisjoint⟩ := hnodup
  -- an address that is handed out was not held before
  have hother : ∀ {x : Addr} {v : V} {n : AvlNode V}, (x, v) ∈ es' → (x, n) ∉ L := by
    intro x v n hx hn
    obtain ⟨n', hn', -⟩ := hspare.mpr hx
    have hleft : x ∈ (spares es).map Prod.fst := Multiset.mem_map_of_mem Prod.fst hn'
    have hright : x ∈ L.map Prod.fst := Multiset.mem_map_of_mem Prod.fst hn
    exact Multiset.disjoint_left.mp hdisjoint hleft hright
  have hsame : ∀ {x : Addr} {v w : V}, (x, v) ∈ es' → (x, w) ∈ es' → w = v := by
    intro x v w hx hw
    have hkeys : (es.map Prod.fst).Nodup := by simpa [spares, Function.comp_def] using hes
    have heq := List.inj_on_of_nodup_map hkeys (hperm.mem_iff.mpr hw) (hperm.mem_iff.mpr hx) rfl
    exact (Prod.mk.inj heq).2
  intro x v
  unfold Maps.heldWith
  cases hfound : es'.find? fun e => e.1 = x with
  | none =>
    rw [Option.map_none, Option.none_or, h x v]
    constructor
    · rintro ⟨n, hn, hv⟩
      exact ⟨n, Multiset.mem_add.mpr (Or.inr hn), hv⟩
    · rintro ⟨n, hn, hv⟩
      rcases Multiset.mem_add.mp hn with hn | hn
      · have hmem := hspare.mp ⟨n, hn, hv⟩
        exact absurd (List.find?_eq_none.mp hfound (x, v) hmem) (by simp)
      · exact ⟨n, hn, hv⟩
  | some y =>
    have hy : y.1 = x := by simpa using List.find?_some hfound
    obtain ⟨a, w⟩ := y
    obtain rfl : a = x := hy
    have hmem := List.mem_of_find?_eq_some hfound
    rw [Option.map_some, Option.some_or]
    constructor
    · intro hv
      obtain rfl := Option.some.inj hv
      obtain ⟨n, hn, hv⟩ := hspare.mpr hmem
      exact ⟨n, Multiset.mem_add.mpr (Or.inl hn), hv⟩
    · rintro ⟨n, hn, rfl⟩
      rcases Multiset.mem_add.mp hn with hn | hn
      · exact congrArg some (hsame (hspare.mp ⟨n, hn, rfl⟩) hmem)
      · exact absurd hn (hother hmem)

/-- **The maps answer as the trees do.** -/
theorem Moves.simulates {s' : AvlHeap ι V} (hmoves : g.Moves T i op r g') (hT : LawfulCompare T.cmp)
    (hm : g.Abstracts m) (hs : g.Holds s) (hs' : g'.Holds s') (hop : op.OfMap = true) :
    ∃ m', m.call i op = some ((r.1, s'.entryAt r.2), m') ∧ g'.Abstracts m' := by
  cases hmoves with
  | insert v =>
    refine ⟨_, ?_, hm.insert hT v⟩
    rw [hm.inserted_fst hT, Option.isNone_map]
    rfl
  | insertWithDuplicate v =>
    refine ⟨_, ?_, hm.insert hT v⟩
    have hentry := (hm.insert (i := i) hT v).entryAt_insert hs'
    rw [hm.inserted_fst hT, Option.isNone_map, ← hm.next, hentry]
    rfl
  | push a n L hL =>
    have hheld : m.held a = some n.value := (hm.held a n.value).mpr ⟨n, by simp [hL], rfl⟩
    rw [hm.inserted_fst hT, Option.isNone_map, Maps.call, hheld, Option.map_some]
    cases hfound : (m.map i).lookup (T.gk n.value) with
    | none =>
      have hloose := hm.held
      have hnodup := hs.nodup_loose
      rw [hL] at hloose hnodup
      have hplanted := hm.planted (e := g.rest) (x := a) (h := n.height) hT (hloose.erase hnodup) hfound
      rw [show g.rest.next = m.next from hm.next.symm] at hplanted
      exact ⟨_, rfl, hplanted⟩
    | some x =>
      refine ⟨m, by rw [if_neg nofun]; rfl, ?_⟩
      rw [hm.planted_some hT hfound]
      exact hm
  | find key =>
    refine ⟨m, ?_, hm⟩
    rw [(hm.maps i).find_eq hT, Option.isSome_map, hm.entryAt_lookup hs']
    rfl
  | erase key =>
    obtain ⟨hout, hmap⟩ := (hm.maps i).eraseKey hT key
    refine ⟨m.replace i ((m.map i).erase key), ?_, hm.cut hmap hm.held⟩
    rw [Maps.call, ← hout, Option.isSome_map]
    rfl
  | extract key =>
    obtain ⟨hout, hmap⟩ := (hm.maps i).eraseKey hT key
    change (g.erased T i key).1.map _ = _ at hout
    cases hremoved : (g.erased T i key).1 with
    | none =>
      rw [hremoved] at hs' hout
      refine ⟨_, ?_, hm.cut hmap hm.held⟩
      rw [Maps.call, ← hout]
      rfl
    | some x =>
      obtain ⟨a, h, v⟩ := x
      rw [hremoved] at hs' hout
      have hheld : ValuesOf (extracted (some (a, h, v)) g.loose) (Function.update m.held a (some v)) :=
        hm.held.insert hs'.nodup_loose
      refine ⟨_, ?_, hm.cut hmap hheld⟩
      have hentry := hs'.entryAt_loose (Multiset.mem_add.mpr (Or.inl (Multiset.mem_singleton_self _)))
      change _ = some ((true, s'.entryAt (some a)), _)
      rw [Maps.call, ← hout, hentry]
      rfl
  | reuseAllNodes =>
    -- every node is handed out, so that its caller holds every entry of the map
    have hperm : (g.trees i).postorder.Perm (m.map i).entries :=
      (postorder_perm_inorder _).trans (Multiset.coe_eq_coe.mp (hm.maps i).entries)
    have habs := hm.replace (i := i) (e := g.rest.reset i) mapOf_nil
      (valuesOf_spares hm.held hperm hs'.nodup_loose)
    rw [show (g.rest.reset i).next = m.next from hm.next.symm] at habs
    exact ⟨_, rfl, habs⟩
  | clear =>
    have habs := hm.replace (i := i) (e := g.rest.reset i) mapOf_nil hm.held
    rw [show (g.rest.reset i).next = m.next from hm.next.symm] at habs
    exact ⟨_, rfl, habs⟩
  | insertEq v | pushEq a n L hL | eraseNode c a h v l r ht | extractRoot_nil ht
  | extractRoot d a h v near ht => cases hop

end

end Grove

/-! ## Runs -/

section

variable [Fintype ι] {T : AvlTraits K V}

omit [Fintype ι] in
/-- The state after a call does not depend on what is asked of it. -/
theorem next_groveAnswer (T : AvlTraits K V) :
    next (groveAnswer T) = (groveStep T : AvlHeap ι V → _) := by
  funext s op
  unfold next groveAnswer groveStep exec
  rw [Option.map_map]
  rfl

/-- **Trees that share nodes are finite maps**, whatever heights the nodes bring along.  In every
run the trees give the flags and the entries that finite maps give, no call gets stuck, and in
the end the trees have the entries of the maps in strict order. -/
theorem grove_answers_as_maps (hT : LawfulCompare T.cmp) (ops : List (ι × TreeCall K V))
    (hops : ∀ op ∈ ops, op.2.OfMap = true)
    (hpush : AllSteps (groveStep T) PushesLoose AvlHeap.bare ops) :
    ∃ rs s m, outputs (groveAnswer T) AvlHeap.bare ops = some (rs, s)
      ∧ outputs Maps.answer (Maps.empty : Maps T ι) ops = some (rs, m)
      ∧ ∀ i, ∃ t : LinkedTree V, s.roots i = t.root ∧ Represents s.nodes none t
        ∧ t.inorder.Pairwise T.lt ∧ (t.inorder : Multiset (Addr × V)) = (m.map i).entries := by
  have hagree : ∀ s (m : Maps T ι) op, (∃ g : Grove ι V, g.Holds s ∧ g.Good ∧ g.Abstracts m) →
      (PushesLoose s op ∧ op.2.OfMap = true) → ∃ b s' m', groveAnswer T s op = some (b, s')
        ∧ m.answer op = some (b, m') ∧ ∃ g' : Grove ι V, g'.Holds s' ∧ g'.Good ∧ g'.Abstracts m' := by
    rintro s m ⟨i, op⟩ ⟨g, hs, hg, hm⟩ ⟨hpush, hop⟩
    have herase : ErasesMember s (i, op) := by
      rintro a rfl
      cases hop
    have hextract : op ≠ .extractRoot := by
      rintro rfl
      cases hop
    obtain ⟨r, s', g', hrun, -, hmoves, hs', hg'⟩ :=
      hs.step (T := T) hg (hs.allows hpush herase fun h => absurd h hextract)
    obtain ⟨m', hcall, hm'⟩ := hmoves.simulates hT hm hs hs' hop
    refine ⟨_, s', m', ?_, hcall, g', hs', hg', hm'⟩
    rw [groveAnswer, hrun]
    rfl
  have hsteps := hpush.and (allSteps_of_forall hops)
  rw [← next_groveAnswer] at hsteps
  obtain ⟨rs, s, m, hrun, hrun', g, hs, -, hm⟩ := exists_outputs_of_allSteps hagree
    ⟨Grove.bare, Grove.holds_bare, nofun, Grove.abstracts_bare⟩ hsteps
  refine ⟨rs, s, m, hrun, hrun', fun i => ?_⟩
  obtain ⟨hroot, hrep⟩ := hs.represents i
  exact ⟨_, hroot, hrep, (hm.maps i).sorted, (hm.maps i).entries⟩

end

/-- Nodes come back with the heights 3 and 0. -/
def mapRun : List (Unit × TreeCall ℤ ℤ) :=
  [.insert 1, .insert 2, .insert 3, .insert 4, .extract 2, .insertWithDuplicate 3, .push 1, .insert 5,
    .find 2, .reuseAllNodes, .push 0, .push 1, .push 2, .push 3, .erase 3, .insert 9,
    .clear].map fun op => ((), op)

theorem grove_answers_as_maps_mapRun : ∃ rs s m,
    outputs (groveAnswer intTraits) AvlHeap.bare mapRun = some (rs, s)
      ∧ outputs Maps.answer (Maps.empty : Maps intTraits Unit) mapRun = some (rs, m)
      ∧ ∀ i, ∃ t : LinkedTree ℤ, s.roots i = t.root ∧ Represents s.nodes none t
        ∧ t.inorder.Pairwise intTraits.lt ∧ (t.inorder : Multiset (Addr × ℤ)) = (m.map i).entries :=
  grove_answers_as_maps lawfulCompare_int mapRun (by simp [mapRun, TreeCall.OfMap]) (by decide +kernel)

end Mmkvc
