/-
# `TreeHashTable` as a finite map

The calls on a table answer as the same calls on a finite map, in every run: no key is
lost, doubled or hidden while the entries are spread over the two tables.
-/
import Mmkvc.FiniteMap
import Mmkvc.TreeTableRuns

namespace Mmkvc

open AvlM LinkedTree

variable {K V : Type}

/-! ## The finite map -/

/-- A finite map of entries, the values of the nodes that are not in it, and the address of
the next new node. -/
structure MapState (T : HashTraits K V) where
  map : FiniteMap T.Equiv T.keyOf
  held : Addr → Option V
  next : Addr

namespace MapState

variable {T : HashTraits K V}

def empty : MapState T := ⟨FiniteMap.empty, fun _ => none, 0⟩

/-- An entry in a new node, if its key is not there. -/
def insert (m : MapState T) (v : V) : MapState T :=
  if m.map.lookup (T.gk v) = none then { m with map := m.map.insert (m.next, v), next := m.next + 1 }
  else m

/-- No entry is left. -/
def clear (m : MapState T) : MapState T := { m with map := FiniteMap.empty }

/-- The calls on the map: whether they succeed, and the entry they give. -/
def call (m : MapState T) : TreeTableOp K V → Option ((Bool × Option (Addr × V)) × MapState T)
  | .insert v =>
    let found := m.map.lookup (T.gk v)
    some ((found.isNone, if found.isNone then some (m.next, v) else none), m.insert v)
  | .insertWithDuplicate v =>
    let found := m.map.lookup (T.gk v)
    some ((found.isNone, some (found.getD (m.next, v))), m.insert v)
  | .create v => some ((true, some (m.next, v)),
      { m with held := Function.update m.held m.next (some v), next := m.next + 1 })
  | .push a => (m.held a).map fun v =>
    if m.map.lookup (T.gk v) = none then
      ((true, none), { m with map := m.map.insert (a, v), held := Function.update m.held a none })
    else ((false, none), m)
  | .find k =>
    let found := m.map.lookup k
    some ((found.isSome, found), m)
  | .extract k =>
    let found := m.map.lookup k
    some ((found.isSome, found), { m with
      map := m.map.erase k
      held := match found with
        | none => m.held
        | some e => Function.update m.held e.1 (some e.2) })
  | .erase k | .eraseNode k => some (((m.map.lookup k).isSome, none), { m with map := m.map.erase k })
  | .clear | .clearApply => some ((true, none), m.clear)

/-- The result of a call, the number of keys after it, and the state. -/
def answer (m : MapState T) (op : TreeTableOp K V) :
    Option (((Bool × Option (Addr × V)) × ℕ) × MapState T) :=
  (m.call op).map fun r => ((r.1, r.2.map.size), r.2)

end MapState

/-! ## The trees as the map -/

namespace Snapshot

variable {T : HashTraits K V} {c c' : Snapshot V} {m : MapState T} {s : TreeHashTable V} {a : Addr}
  {h : ℕ} {v : V} {k : K} {n : AvlNode V}

/-- The entries in the trees. -/
def stored (c : Snapshot V) : Multiset (Addr × V) := gather c.layout.size (entries c.trees)

/-- The count is the number of the entries. -/
def Counted (c : Snapshot V) : Prop := c.layout.used = Multiset.card c.stored

/-- The trees have the entries of the map. -/
structure Abstracts (c : Snapshot V) (m : MapState T) : Prop where
  stored : c.stored = m.map.entries
  held : ValuesOf c.loose m.held
  next : m.next = c.top

theorem Abstracts.card_stored (hm : c.Abstracts m) : Multiset.card c.stored = m.map.size := by
  rw [hm.stored]
  rfl

/-! ### A step of the rehash -/

theorem Good.start (hc : c.Good T) : c.start.Good T ∧ c.start.stored = c.stored :=
  ⟨⟨hc.trees.start.1, hc.links⟩, hc.trees.start.2⟩

theorem Good.advance (hc : c.Good T) (hT : LawfulHash T) :
    (c.advance T).Good T ∧ (c.advance T).stored = c.stored :=
  ⟨⟨(hc.trees.advance hT).1, hc.links⟩, (hc.trees.advance hT).2⟩

theorem Abstracts.advance (hm : c.Abstracts m) (hc : c.Good T) (hT : LawfulHash T) :
    (c.advance T).Abstracts m := ⟨(hc.advance hT).2.trans hm.stored, hm.held, hm.next⟩

theorem Abstracts.start (hm : c.Abstracts m) (hc : c.Good T) : c.start.Abstracts m :=
  ⟨hc.start.2.trans hm.stored, hm.held, hm.next⟩

/-- A step of a rehash does not change the count. -/
theorem Counted.advance (h : c.Counted) (hc : c.Good T) (hT : LawfulHash T) :
    (c.advance T).Counted := by
  unfold Counted
  rw [(hc.advance hT).2]
  exact Layout.used_advance.trans h

/-- The start of a rehash does not change the count. -/
theorem Counted.start (h : c.Counted) (hc : c.Good T) : c.start.Counted := by
  unfold Counted
  rw [hc.start.2]
  exact Layout.used_start.trans h

/-! ### The bucket of a key -/

/-- The trees and the map find the same entry. -/
theorem Abstracts.lookup_eq (hm : c.Abstracts m) (hc : c.Good T) (hT : LawfulHash T)
    {o : Option (Addr × V)} (ho : Lookup T.Equiv T.keyOf k c.stored o) : m.map.lookup k = o := by
  refine Lookup.eq hT.cmp.equivalence hc.trees.unique ?_ ho
  have hspec := m.map.lookup_spec k
  rw [← hm.stored] at hspec
  exact hspec

/-- The search in the bucket of a key finds what the map finds. -/
theorem Abstracts.find_eq (hm : c.Abstracts m) (hc : c.Good T) (hT : LawfulHash T) (k : K) :
    LinkedTree.find T.toAvlTraits k (c.trees (c.bucketOf T k)) = (m.map.lookup k).map Prod.fst := by
  obtain ⟨o, hlookup, hfind⟩ := hc.trees.find_bucketOf hT k
  rw [hm.lookup_eq hc hT hlookup]
  exact hfind

/-- An insertion into the bucket of a key is one into the map. -/
theorem Abstracts.inserted (hm : c.Abstracts m) (hc : c.Good T) (hT : LawfulHash T) (a : Addr)
    (h : ℕ) (v : V) :
    (c.inserted T a h v).1 = (m.map.lookup (T.gk v)).map Prod.fst
      ∧ (c.setBucket T (T.gk v) (c.inserted T a h v).2).Good T
      ∧ (c.setBucket T (T.gk v) (c.inserted T a h v).2).stored = (m.map.insert (a, v)).entries := by
  obtain ⟨o, hlookup, hout, htrees, hgather⟩ := hc.trees.insertNew hT a h v
  have hmap := hm.lookup_eq hc hT hlookup
  refine ⟨by rw [hmap]; exact hout, ⟨htrees, hc.links⟩, hgather.trans ?_⟩
  have hstored : gather c.layout.size (entries c.trees) = m.map.entries := hm.stored
  rw [hstored]
  cases o with
  | none => exact (congrArg _ (FiniteMap.insert_of_none hmap)).symm
  | some e => rw [FiniteMap.insert_of_some (e := (a, v)) hmap]; rfl

/-- A removal from the bucket of a key is one from the map. -/
theorem Abstracts.erased (hm : c.Abstracts m) (hc : c.Good T) (hT : LawfulHash T) (k : K) :
    (c.erased T k).1.map (fun x => (x.1, x.2.2)) = m.map.lookup k
      ∧ (c.setBucket T k (c.erased T k).2).Good T
      ∧ (c.setBucket T k (c.erased T k).2).stored = (m.map.erase k).entries := by
  obtain ⟨o, hlookup, hout, htrees, hgather⟩ := hc.trees.eraseKey hT k
  have hmap := hm.lookup_eq hc hT hlookup
  refine ⟨hout.trans hmap.symm, ⟨htrees, hc.links⟩, ?_⟩
  have hstored : gather c.layout.size (entries c.trees) = m.map.entries := hm.stored
  rw [hstored] at hgather
  cases o with
  | none =>
    rw [FiniteMap.erase_of_none hmap, hgather]
    exact (zero_add _).symm
  | some e =>
    refine (FiniteMap.coe_erase hT.cmp.equivalence ?_ hlookup.2).symm
    rw [hgather]
    exact Multiset.singleton_add _ _

/-! ### Nodes in no tree -/

/-- No address is used twice among the loose nodes. -/
theorem Holds.nodup_loose (hs : c.Holds s) : (c.loose.map Prod.fst).Nodup := by
  have hnodup := hs.mem.sat.nodup
  rw [Multiset.map_add, Multiset.nodup_add] at hnodup
  exact hnodup.2.1

/-- A loose node holds its value. -/
theorem Holds.entryAt_loose (hs : c.Holds s) (hn : (a, n) ∈ c.loose) :
    s.entryAt (some a) = some (a, n.value) := by
  have hcell := hs.mem.sat.cell (a, n) (Multiset.mem_add.mpr (Or.inr hn))
  rw [TreeHashTable.entryAt, Option.bind_some, hcell]
  rfl

/-- An entry is at its address. -/
theorem Holds.entryAt_stored (hs : c.Holds s) {e : Addr × V} (he : e ∈ c.stored) :
    s.entryAt (some e.1) = some e := by
  obtain ⟨b, hb, hmem⟩ := mem_gather.mp he
  obtain ⟨n, hn, hv⟩ := exists_mem_cells none hmem
  have hcell := hs.mem.sat.cell (e.1, n) (Multiset.mem_add.mpr (Or.inl (mem_gather.mpr ⟨b, hb, hn⟩)))
  rw [TreeHashTable.entryAt, Option.bind_some, hcell, Option.map_some, hv]

/-- What the map finds is at its address. -/
theorem Abstracts.entryAt_lookup (hm : c.Abstracts m) (hs : c.Holds s) (k : K) :
    s.entryAt ((m.map.lookup k).map Prod.fst) = m.map.lookup k := by
  cases hfound : m.map.lookup k with
  | none => rfl
  | some e =>
    refine hs.entryAt_stored ?_
    rw [hm.stored]
    have hspec := m.map.lookup_spec k
    rw [hfound] at hspec
    exact hspec.1

/-! ### The calls -/

/-- Whether an entry is put in, and the count that goes with it. -/
theorem Abstracts.counted_insert {e : Addr × V} (hm : c.Abstracts m)
    (hstored : c'.stored = (m.map.insert e).entries)
    (hused : c'.layout.used = if m.map.lookup (T.keyOf e) = none then c.layout.used + 1
      else c.layout.used) (hcount : c.Counted) : c'.Counted := by
  have hcard : c.layout.used = m.map.size := hcount.trans hm.card_stored
  unfold Counted
  rw [hused, hstored]
  cases hfound : m.map.lookup (T.keyOf e) with
  | none =>
    rw [if_pos rfl, hcard]
    exact (FiniteMap.size_insert_of_none hfound).symm
  | some e' =>
    rw [if_neg nofun, hcard, FiniteMap.insert_of_some hfound]
    rfl

/-- A removal that is counted. -/
theorem Abstracts.counted_erase (hm : c.Abstracts m) (hT : LawfulHash T)
    (hstored : c'.stored = (m.map.erase k).entries)
    (hused : c'.layout.used = if (m.map.lookup k).isSome then c.layout.used - 1
      else c.layout.used) (hcount : c.Counted) : c'.Counted := by
  have hcard : c.layout.used = m.map.size := hcount.trans hm.card_stored
  unfold Counted
  rw [hused, hstored, hcard]
  cases hfound : m.map.lookup k with
  | none =>
    rw [Option.isSome_none, if_neg nofun]
    exact (FiniteMap.size_erase_of_none hfound).symm
  | some e =>
    rw [Option.isSome_some, if_pos rfl]
    exact Nat.sub_eq_of_eq_add (FiniteMap.size_erase_of_some hT.cmp.equivalence hfound).symm

/-- An insertion of a new node, with the step of a rehash that comes with it. -/
theorem Abstracts.insertFresh (hm : c.Abstracts m) (hc : c.Good T) (hT : LawfulHash T) (v : V) :
    (c.insertFresh T v).Good T ∧ (c.insertFresh T v).Abstracts (m.insert v)
      ∧ (c.Counted → (c.insertFresh T v).Counted) := by
  obtain ⟨hout, hgood, hstored⟩ := hm.inserted hc hT c.top 1 v
  unfold Snapshot.insertFresh MapState.insert
  dsimp only
  cases hfound : m.map.lookup (T.gk v) with
  | none =>
    rw [hfound, Option.map_none] at hout
    rw [hout, Option.isNone_none, if_pos rfl, if_pos rfl]
    refine ⟨⟨hgood.trees.congr rfl rfl, hc.links⟩, ⟨?_, hm.held, ?_⟩, ?_⟩
    · rw [hm.next]
      exact hstored
    · rw [hm.next]
    · exact hm.counted_insert hstored (if_pos hfound).symm
  | some e =>
    rw [hfound, Option.map_some] at hout
    rw [hout, Option.isNone_some, if_neg nofun, if_neg nofun]
    refine ⟨hgood, ⟨?_, hm.held, hm.next⟩, hm.counted_insert hstored (if_neg ?_).symm⟩
    · rw [hstored, FiniteMap.insert_of_some (e := (c.top, v)) hfound]
    · rw [show m.map.lookup (T.keyOf (c.top, v)) = some e from hfound]
      nofun

/-- A push of a loose node, with the step of a rehash that comes with it. -/
theorem Abstracts.push {L : Multiset (Addr × AvlNode V)} (hm : c.Abstracts m) (hc : c.Good T)
    (hT : LawfulHash T) (hL : c.loose = {(a, n)} + L) (hnodup : (c.loose.map Prod.fst).Nodup) :
    let out := c.inserted T a n.height n.value
    let c₂ := c.setBucket T (T.gk n.value) out.2
    let c' := if out.1.isNone then { c₂ with layout := c.layout.add, loose := L } else c₂
    ∃ m', m.call (.push a) = some ((out.1.isNone, none), m') ∧ c'.Good T ∧ c'.Abstracts m'
      ∧ (c.Counted → c'.Counted) := by
  intro out c₂ c'
  obtain ⟨hout, hgood, hstored⟩ := hm.inserted hc hT a n.height n.value
  have hheld : m.held a = some n.value := (hm.held a n.value).mpr ⟨n, by simp [hL], rfl⟩
  have hcall : m.call (.push a) = some (if m.map.lookup (T.gk n.value) = none then
      ((true, none), { m with
        map := m.map.insert (a, n.value), held := Function.update m.held a none })
    else ((false, none), m)) := by
    rw [MapState.call, hheld]
    rfl
  rw [hcall]
  change out.1 = _ at hout
  cases hfound : m.map.lookup (T.gk n.value) with
  | none =>
    rw [hfound, Option.map_none] at hout
    have hc' : c' = { c₂ with layout := c.layout.add, loose := L } := if_pos (by rw [hout]; rfl)
    rw [hc', hout]
    refine ⟨_, rfl, ⟨hgood.trees.congr rfl rfl, fun x hx => ?_⟩, ⟨hstored, ?_, hm.next⟩, ?_⟩
    · refine hc.links x ?_
      rw [hL]
      exact Multiset.mem_add.mpr (Or.inr hx)
    · have hheld := hm.held
      rw [hL] at hheld hnodup
      exact hheld.erase hnodup
    · exact hm.counted_insert hstored (if_pos hfound).symm
  | some e =>
    rw [hfound, Option.map_some] at hout
    have hc' : c' = c₂ := if_neg (by rw [hout]; nofun)
    rw [hc', hout]
    refine ⟨m, rfl, hgood, ⟨?_, hm.held, hm.next⟩, hm.counted_insert hstored (if_neg ?_).symm⟩
    · rw [hstored, FiniteMap.insert_of_some (e := (a, n.value)) hfound]
    · rw [show m.map.lookup (T.keyOf (a, n.value)) = some e from hfound]
      nofun

/-- A removal, with whatever becomes of the node. -/
theorem Abstracts.remove {L : Multiset (Addr × AvlNode V)} {held : Addr → Option V}
    (hm : c.Abstracts m) (hc : c.Good T) (hT : LawfulHash T) (k : K)
    (hlinks : ∀ x ∈ L, x.2.left = none ∧ x.2.right = none ∧ x.2.parent = none)
    (hheld : ValuesOf L held) :
    let out := c.erased T k
    let c' := { c.setBucket T k out.2 with
      layout := if out.1.isSome then c.layout.remove else c.layout, loose := L }
    c'.Good T ∧ c'.Abstracts { m with map := m.map.erase k, held := held }
      ∧ (c.Counted → c'.Counted) := by
  intro out c'
  obtain ⟨hout, hgood, hstored⟩ := hm.erased hc hT k
  have hsome : out.1.isSome = (m.map.lookup k).isSome := by
    rw [← hout, Option.isSome_map]
  have hsize : c'.layout.size = c.layout.size := by
    change (if out.1.isSome then c.layout.remove else c.layout).size = _
    split_ifs <;> rfl
  have hmoved : c'.layout.moved = c.layout.moved := by
    change (if out.1.isSome then c.layout.remove else c.layout).moved = _
    split_ifs <;> rfl
  have hstored' : c'.stored = (m.map.erase k).entries := by
    change gather c'.layout.size _ = _
    rw [hsize]
    exact hstored
  refine ⟨⟨hgood.trees.congr hsize hmoved, hlinks⟩, ⟨hstored', hheld, hm.next⟩,
    hm.counted_erase hT hstored' ?_⟩
  change (if out.1.isSome then c.layout.remove else c.layout).used = _
  rw [hsome]
  split_ifs <;> rfl

/-- `EraseNode` leaves the count as it was. -/
theorem Abstracts.eraseNode (hm : c.Abstracts m) (hc : c.Good T) (hT : LawfulHash T) (k : K) :
    let c' := c.setBucket T k (c.erased T k).2
    c'.Good T ∧ c'.Abstracts { m with map := m.map.erase k }
      ∧ (c.Counted → (c'.Counted ↔ (m.map.lookup k).isSome = false)) := by
  intro c'
  obtain ⟨-, hgood, hstored⟩ := hm.erased hc hT k
  refine ⟨hgood, ⟨hstored, hm.held, hm.next⟩, fun hcount => ?_⟩
  have hcard : c.layout.used = m.map.size := hcount.trans hm.card_stored
  have hcounted : c'.Counted ↔ c.layout.used = (m.map.erase k).size := by
    unfold Counted
    rw [hstored]
    rfl
  rw [hcounted, hcard]
  cases hfound : m.map.lookup k with
  | none => simp [FiniteMap.size_erase_of_none hfound]
  | some e =>
    have hsize := FiniteMap.size_erase_of_some hT.cmp.equivalence hfound
    simp only [Option.isSome_some, Bool.true_eq_false, iff_false]
    omega

theorem Good.cleared (hc : c.Good T) : c.cleared.Good T := ⟨treesInv_fresh, hc.links⟩

theorem stored_cleared : c.cleared.stored = 0 := gather_entries_nil _

/-- An emptied table is that of the empty map. -/
theorem Abstracts.cleared (hm : c.Abstracts m) :
    c.cleared.Abstracts m.clear ∧ c.cleared.Counted := by
  refine ⟨⟨stored_cleared, hm.held, hm.next⟩, ?_⟩
  unfold Counted
  rw [stored_cleared]
  rfl

/-- What `Insert` returns, in memory. -/
theorem Abstracts.entryAt_insert (hm : c'.Abstracts (m.insert v)) (hs : c'.Holds s) :
    s.entryAt (some (((m.map.lookup (T.gk v)).map Prod.fst).getD m.next))
      = some ((m.map.lookup (T.gk v)).getD (m.next, v)) := by
  have hstored := hm.stored
  unfold MapState.insert at hstored
  cases hfound : m.map.lookup (T.gk v) with
  | none =>
    rw [hfound, if_pos rfl, FiniteMap.insert_of_none (e := (m.next, v)) hfound] at hstored
    refine hs.entryAt_stored (e := (m.next, v)) ?_
    rw [hstored]
    exact List.mem_cons_self
  | some e =>
    rw [hfound, if_neg nofun] at hstored
    refine hs.entryAt_stored (e := e) ?_
    rw [hstored]
    have hspec := m.map.lookup_spec (T.gk v)
    rw [hfound] at hspec
    exact hspec.1

/-- **The map answers as the trees do**, and an `EraseNode` that finds an entry is the only
call that spoils the count. -/
theorem Moves.simulates {op : TreeTableOp K V} {r : Bool × Option Addr} {s' : TreeHashTable V}
    (hT : LawfulHash T) (hc : c.Good T) (hm : c.Abstracts m) (hs : c.Holds s)
    (hmoves : c.Moves T op r c') (hs' : c'.Holds s') :
    c'.Good T ∧ ∃ m', m.call op = some ((r.1, s'.entryAt r.2), m') ∧ c'.Abstracts m'
      ∧ (c.Counted → (c'.Counted ↔ ∀ k, op = .eraseNode k → (m.map.lookup k).isSome = false)) := by
  -- a call that puts a node in may start a rehash, and every call of a key moves a bucket first
  have hstart := (hc.start.1.advance hT).1
  have hmstart := (hm.start hc).advance hc.start.1 hT
  have hcstart : c.Counted → (c.start.advance T).Counted := fun h =>
    (h.start hc).advance hc.start.1 hT
  have hadv := (hc.advance hT).1
  have hmadv := hm.advance hc hT
  cases op with
  | insert v =>
    obtain ⟨rfl, rfl⟩ := hmoves
    obtain ⟨hgood, habs, hcount⟩ := hmstart.insertFresh hstart hT v
    obtain ⟨hout, -⟩ := hmstart.inserted hstart hT (c.start.advance T).top 1 v
    refine ⟨hgood, _, ?_, habs, fun hcounted => ⟨nofun, fun _ => hcount (hcstart hcounted)⟩⟩
    change some _ = some (_, _)
    rw [hout, Option.isNone_map]
    have hentry := habs.entryAt_insert hs'
    cases hfound : m.map.lookup (T.gk v) with
    | none =>
      rw [hfound] at hentry
      have htop : m.next = (c.start.advance T).top := hm.next
      rw [Option.isNone_none, if_pos rfl, if_pos rfl, ← htop]
      exact congrArg (fun e => some ((true, e), m.insert v)) hentry.symm
    | some e => rfl
  | insertWithDuplicate v =>
    obtain ⟨rfl, rfl⟩ := hmoves
    obtain ⟨hgood, habs, hcount⟩ := hmstart.insertFresh hstart hT v
    obtain ⟨hout, -⟩ := hmstart.inserted hstart hT (c.start.advance T).top 1 v
    refine ⟨hgood, _, ?_, habs, fun hcounted => ⟨nofun, fun _ => hcount (hcstart hcounted)⟩⟩
    change some _ = some (_, _)
    have htop : m.next = (c.start.advance T).top := hm.next
    rw [hout, Option.isNone_map, ← htop, habs.entryAt_insert hs']
  | create v =>
    obtain ⟨rfl, rfl⟩ := hmoves
    have hheld := hm.held.insert hs'.nodup_loose
    have hcall : m.call (.create v) = some ((true, some (c.top, v)),
        { m with held := Function.update m.held c.top (some v), next := c.top + 1 }) := by
      rw [MapState.call, hm.next]
    refine ⟨⟨hc.trees, fun x hx => ?_⟩,
      { m with held := Function.update m.held c.top (some v), next := c.top + 1 }, ?_,
      ⟨hm.stored, hheld, rfl⟩, fun hcounted => ⟨nofun, fun _ => hcounted⟩⟩
    · rcases Multiset.mem_add.mp hx with hx | hx
      · obtain rfl := Multiset.mem_singleton.mp hx
        exact ⟨rfl, rfl, rfl⟩
      · exact hc.links x hx
    · rw [hs'.entryAt_loose (Multiset.mem_add.mpr (Or.inl (Multiset.mem_singleton_self _)))]
      exact hcall
  | push a =>
    obtain ⟨n, L, hL, rfl, rfl⟩ := hmoves
    obtain ⟨m', hcall, hgood, habs, hcount⟩ := hmstart.push hstart hT hL hs.nodup_loose
    exact ⟨hgood, m', hcall, habs, fun hcounted => ⟨nofun, fun _ => hcount (hcstart hcounted)⟩⟩
  | find k =>
    obtain ⟨rfl, rfl⟩ := hmoves
    refine ⟨hadv, m, ?_, hmadv, fun hcounted => ⟨nofun, fun _ => hcounted.advance hc hT⟩⟩
    rw [hmadv.find_eq hadv hT k, Option.isSome_map, hmadv.entryAt_lookup hs']
    rfl
  | extract k =>
    obtain ⟨rfl, rfl⟩ := hmoves
    obtain ⟨hout, -⟩ := hmadv.erased hadv hT k
    cases hremoved : ((c.advance T).erased T k).1 with
    | none =>
      rw [hremoved] at hs' hout
      obtain ⟨hgood, habs, hcount⟩ := hmadv.remove hadv hT k hc.links hm.held
      rw [hremoved] at hgood habs hcount
      refine ⟨hgood, _, ?_, habs, fun hcounted => ⟨nofun, fun _ => hcount (hcounted.advance hc hT)⟩⟩
      rw [MapState.call, ← hout]
      rfl
    | some x =>
      obtain ⟨a, h, v⟩ := x
      rw [hremoved] at hs' hout
      -- the node that is taken out joins those that callers hold
      have hheld : ValuesOf (extracted (some (a, h, v)) c.loose)
          (Function.update m.held a (some v)) := hm.held.insert hs'.nodup_loose
      have hlinks : ∀ x ∈ extracted (some (a, h, v)) c.loose,
          x.2.left = none ∧ x.2.right = none ∧ x.2.parent = none := by
        intro x hx
        rcases Multiset.mem_add.mp hx with hx | hx
        · obtain rfl := Multiset.mem_singleton.mp hx
          exact ⟨rfl, rfl, rfl⟩
        · exact hc.links x hx
      obtain ⟨hgood, habs, hcount⟩ := hmadv.remove hadv hT k hlinks hheld
      rw [hremoved] at hgood habs hcount
      refine ⟨hgood, _, ?_, habs, fun hcounted => ⟨nofun, fun _ => hcount (hcounted.advance hc hT)⟩⟩
      have hentry := hs'.entryAt_loose (Multiset.mem_add.mpr (Or.inl (Multiset.mem_singleton_self _)))
      change _ = some ((true, s'.entryAt (some a)), _)
      rw [MapState.call, ← hout, hentry]
      rfl
  | erase k =>
    obtain ⟨rfl, rfl⟩ := hmoves
    obtain ⟨hgood, habs, hcount⟩ := hmadv.remove hadv hT k hc.links hm.held
    obtain ⟨hout, -⟩ := hmadv.erased hadv hT k
    refine ⟨hgood, _, ?_, habs, fun hcounted => ⟨nofun, fun _ => hcount (hcounted.advance hc hT)⟩⟩
    rw [MapState.call, ← hout, Option.isSome_map]
    rfl
  | eraseNode k =>
    obtain ⟨rfl, rfl⟩ := hmoves
    obtain ⟨hgood, habs, hcount⟩ := hmadv.eraseNode hadv hT k
    obtain ⟨hout, -⟩ := hmadv.erased hadv hT k
    refine ⟨hgood, _, ?_, habs, fun hcounted => (hcount (hcounted.advance hc hT)).trans ?_⟩
    · rw [MapState.call, ← hout, Option.isSome_map]
      rfl
    · constructor
      · rintro hfound k' hk
        rwa [← TreeTableOp.eraseNode.inj hk]
      · exact fun h => h k rfl
  | clear =>
    obtain ⟨rfl, rfl⟩ := hmoves
    exact ⟨hc.cleared, _, rfl, hm.cleared.1, fun _ => ⟨nofun, fun _ => hm.cleared.2⟩⟩
  | clearApply =>
    obtain ⟨rfl, rfl⟩ := hmoves
    exact ⟨hc.cleared, _, rfl, hm.cleared.1, fun _ => ⟨nofun, fun _ => hm.cleared.2⟩⟩

end Snapshot

end Mmkvc
