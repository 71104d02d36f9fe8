/-
# `HashTable` as a finite map, and its count

Every run of the calls, from a new table, answers as a finite map does.  `size()` is the number
of the entries as long as no entry is removed by `EraseAfterFindSlot` or `EraseRandom`.
-/
import Mmkvc.FiniteMap
import Mmkvc.HashTableRuns
import Mmkvc.Transition

namespace Mmkvc

open Slist Tables Transition

variable {K V : Type}

/-! ## The finite map -/

/-- A finite map of entries, and the address of the next new node. -/
structure EntryMap (T : EqualTraits K V) where
  map : FiniteMap T.Equiv T.keyOf
  next : Addr

namespace EntryMap

variable {T : EqualTraits K V}

def empty : EntryMap T := ⟨FiniteMap.empty, 0⟩

/-- An entry in a new node, if its key is not there. -/
def insert (m : EntryMap T) (v : V) : EntryMap T :=
  if m.map.lookup (T.gk v) = none then ⟨m.map.insert (m.next, v), m.next + 1⟩ else m

/-- The calls on the map: whether they succeed, and the entry they give.  `EraseRandom` is not
a call on a map. -/
def call (m : EntryMap T) : HashTableOp K V → Option ((Bool × Option (Addr × V)) × EntryMap T)
  | .insert v =>
    let found := m.map.lookup (T.gk v)
    some ((found.isNone, if found.isNone then some (m.next, v) else none), m.insert v)
  | .insertWithDuplicate v =>
    let found := m.map.lookup (T.gk v)
    some ((found.isNone, some (found.getD (m.next, v))), m.insert v)
  | .find k | .findSlot k =>
    let found := m.map.lookup k
    some ((found.isSome, found), m)
  | .extract k =>
    let found := m.map.lookup k
    some ((found.isSome, found), { m with map := m.map.erase k })
  | .erase k | .eraseSlot k => some (((m.map.lookup k).isSome, none), { m with map := m.map.erase k })
  | .eraseRandom => none
  | .clear => some ((true, none), { m with map := FiniteMap.empty })

/-- The result of a call, the number of keys after it, and the state. -/
def answer (m : EntryMap T) (op : HashTableOp K V) :
    Option (((Bool × Option (Addr × V)) × ℕ) × EntryMap T) :=
  (m.call op).map fun r => ((r.1, r.2.map.size), r.2)

end EntryMap

/-! ## Entries in memory -/

namespace HashTable

/-- The nodes from a pointer on are those of the list. -/
def Chained (nodes : Addr → Option (SNode V)) (p : Option Addr) : List (Addr × V) → Prop
  | [] => p = none
  | e :: es => p = some e.1 ∧ ∃ next, nodes e.1 = some ⟨e.2, next⟩ ∧ Chained nodes next es

/-- A list is what memory has at its header. -/
theorem Chained.eq {nodes : Addr → Option (SNode V)} {p : Option Addr} {es es' : List (Addr × V)}
    (h : Chained nodes p es) (h' : Chained nodes p es') : es = es' := by
  induction es generalizing p es' with
  | nil =>
    cases es' with
    | nil => rfl
    | cons e' es' => cases h.symm.trans h'.1
  | cons e es ih =>
    cases es' with
    | nil => cases h.1.symm.trans h'
    | cons e' es' =>
      obtain ⟨ha, next, hn, hrest⟩ := h
      obtain ⟨ha', next', hn', hrest'⟩ := h'
      have haddr : e.1 = e'.1 := Option.some.inj (ha.symm.trans ha')
      rw [haddr] at hn
      obtain ⟨hv, rfl⟩ := SNode.mk.inj (Option.some.inj (hn.symm.trans hn'))
      rw [ih hrest hrest', Prod.ext haddr hv]

/-- Nodes in memory are chained as a list. -/
theorem chained_of_cells {nodes : Addr → Option (SNode V)} {es : List (Addr × V)}
    (h : ∀ x ∈ cells es, nodes x.1 = some x.2) : Chained nodes (first es) es := by
  induction es with
  | nil => rfl
  | cons e es ih =>
    refine ⟨rfl, first es, h (e.1, ⟨e.2, first es⟩) ?_, ih fun x hx => h x ?_⟩
    · exact Multiset.mem_add.mpr (Or.inl (Multiset.mem_singleton_self _))
    · exact Multiset.mem_add.mpr (Or.inr hx)

/-- The entries in the lists of both tables, read from memory. -/
def Stores (s : HashTable V) (M : Multiset (Addr × V)) : Prop :=
  ∃ f : Bucket → List (Addr × V), M = gather s.size (listed f) ∧ ∀ b : Bucket, b.2 < s.size b.1 →
    Chained s.heap.nodes (s.heap.headers b) (f b)

/-- No entry of the table has the key. -/
def Absent (T : EqualTraits K V) (s : HashTable V) (k : K) : Prop :=
  ∀ M, Stores s M → ∀ e ∈ M, ¬ T.equalKey (T.gk e.2) k

/-- `FindSlot` gives the header of a bucket that has the entry with the key at its front. -/
def FindsFront (T : EqualTraits K V) (s : HashTable V) (op : HashTableOp K V) : Prop :=
  ∀ k, op = .findSlot k → ∃ x s', (findSlot T k).run s = some (x, s') ∧ ∀ b, x = some b →
    b.2 < s'.size b.1 ∧ ∃ e es, T.equalKey (T.gk e.2) k
      ∧ Chained s'.heap.nodes (s'.heap.headers b) (e :: es)

/-- `size()` is the number of entries, and `empty()` says whether `EraseRandom` would return 0. -/
def SizeCounts (T : EqualTraits K V) (s : HashTable V) : Prop :=
  ∃ M, Stores s M ∧ s.getSize = Multiset.card M
    ∧ (s.isEmpty = true ↔ ∃ s', (eraseRandom T).run s = some (0, s'))

/-- A call that removes no entry without counting it. -/
def CountsRemoval (T : EqualTraits K V) (s : HashTable V) (op : HashTableOp K V) : Prop :=
  (∀ k, op = .eraseSlot k → Absent T s k) ∧ (op = .eraseRandom → Stores s 0)

section

variable {T : EqualTraits K V} {l : Layout} {f : Bucket → List (Addr × V)} {M : Multiset (Addr × V)}
  {H : Multiset (Addr × SNode V)} {top : ℕ} {s : HashTable V} {b : Bucket} {k : K} {e : Addr × V}

/-- A table stores one multiset of entries only. -/
theorem Stores.eq {M' : Multiset (Addr × V)} (h : Stores s M) (h' : Stores s M') : M = M' := by
  obtain ⟨f, rfl, hf⟩ := h
  obtain ⟨f', rfl, hf'⟩ := h'
  refine gather_congr fun b hb => ?_
  unfold listed
  rw [(hf b hb).eq (hf' b hb)]

/-- The list of a bucket is chained from its header on. -/
theorem chained_of_holds (hs : Holds l f H top s) (hb : b.2 < l.size b.1) :
    Chained s.heap.nodes (s.heap.headers b) (f b) := by
  rw [congrFun hs.mem.headers b]
  refine chained_of_cells fun x hx => hs.mem.sat.cell x ?_
  exact Multiset.mem_add.mpr (Or.inl (mem_gather.mpr ⟨b, hb, hx⟩))

theorem stores_of_contains (hs : Contains T l M H top s) : Stores s M := by
  obtain ⟨f, -, rfl, hs⟩ := hs
  refine ⟨f, by rw [hs.size_eq], fun b hb => chained_of_holds hs ?_⟩
  rwa [← hs.size_eq]

theorem used_of_contains (hs : Contains T l M H top s) : s.getSize = l.used := by
  obtain ⟨f, -, -, hs⟩ := hs
  exact hs.used_eq

/-- An entry is at its address. -/
theorem entryAt_stored (hs : Contains T l M H top s) (he : e ∈ M) : entryAt s (some e.1) = some e := by
  obtain ⟨f, -, rfl, hs⟩ := hs
  obtain ⟨b, hb, hmem⟩ := mem_gather.mp he
  obtain ⟨next, hnext⟩ := exists_mem_cells hmem
  have hcell := hs.mem.sat.cell _ (Multiset.mem_add.mpr (Or.inl (mem_gather.mpr ⟨b, hb, hnext⟩)))
  rw [entryAt, Option.bind_some, hcell]
  rfl

/-- An entry that was taken out can be read at its address. -/
theorem entryAt_released (hs : Contains T l M (released (some e) + H) top s) :
    entryAt s (some e.1) = some e := by
  obtain ⟨f, -, rfl, hs⟩ := hs
  have hcell := hs.mem.sat.cell (e.1, ⟨e.2, none⟩) (Multiset.mem_add.mpr (Or.inr
    (Multiset.mem_add.mpr (Or.inl (Multiset.mem_singleton_self _)))))
  rw [entryAt, Option.bind_some, hcell]
  rfl

/-- A key is absent if the search for it finds nothing. -/
theorem absent_iff (hs : Contains T l M H top s) :
    Absent T s k ↔ Lookup T.Equiv T.keyOf k M none := by
  have hstores := stores_of_contains hs
  constructor
  · exact fun h => h M hstores
  · intro h M' hM'
    rw [hM'.eq hstores]
    exact h

/-- The size counts the entries if the layout does. -/
theorem sizeCounts_iff (hT : LawfulEqual T) (hs : Contains T l M H top s) :
    SizeCounts T s ↔ l.used = Multiset.card M := by
  have hstores := stores_of_contains hs
  rw [← used_of_contains hs]
  constructor
  · rintro ⟨M', hM', hsize, -⟩
    rwa [hM'.eq hstores] at hsize
  · intro hsize
    refine ⟨M, hstores, hsize, ?_⟩
    unfold Tables.isEmpty
    rw [decide_eq_true_iff, hsize, Multiset.card_eq_zero]
    obtain ⟨x, s', hrun, hx⟩ := eraseRandom_spec hT s hs
    rw [hrun]
    rcases hx with ⟨rfl, rfl, -⟩ | ⟨rfl, e, M', rfl, -⟩
    · exact ⟨fun _ => ⟨s', rfl⟩, fun _ => rfl⟩
    · exact ⟨fun hzero => absurd hzero (Multiset.cons_ne_zero), fun ⟨_, h⟩ => by cases h⟩

end

end HashTable

/-! ## The entries as the map -/

namespace Inventory

variable {T : EqualTraits K V} {c c' : Inventory V} {m : EntryMap T} {op : HashTableOp K V}
  {r : Bool × Option Addr} {s : HashTable V} {k : K} {o : Option (Addr × V)} {v : V}
  {M : Multiset (Addr × V)}

/-- The table has the entries of the map. -/
structure Abstracts (c : Inventory V) (m : EntryMap T) : Prop where
  entries : c.entries = m.map.entries
  next : m.next = c.top

/-- The map finds what the table finds. -/
theorem Abstracts.lookup_eq (hm : c.Abstracts m) (hT : LawfulEqual T) (ho : c.Has T k o) :
    m.map.lookup k = o := by
  unfold Has at ho
  rw [hm.entries] at ho
  exact FiniteMap.lookup_eq hT.equivalence ho

/-- An insertion into the table is one into the map. -/
theorem Abstracts.insert (hm : c.Abstracts m) (hT : LawfulEqual T) (ho : c.Has T (T.gk v) o) :
    (c.insert v o).Abstracts (m.insert v) := by
  have hlookup := hm.lookup_eq hT ho
  unfold Inventory.insert EntryMap.insert
  rw [hlookup]
  cases o with
  | none =>
    rw [if_pos rfl]
    refine ⟨?_, congrArg (· + 1) hm.next⟩
    change (c.top, v) ::ₘ c.entries = (m.map.insert (m.next, v)).entries
    rw [FiniteMap.insert_of_none (e := (m.next, v)) hlookup, hm.entries, hm.next]
    rfl
  | some e => exact ⟨hm.entries, hm.next⟩

/-- A removal from the table is one from the map. -/
theorem Abstracts.erase (hm : c.Abstracts m) (hT : LawfulEqual T) (ho : c.Has T k o)
    (hM : c.entries = HashTable.withEntry o M) : M = (m.map.erase k).entries := by
  have hlookup := hm.lookup_eq hT ho
  rw [hm.entries] at hM
  cases o with
  | none =>
    rw [FiniteMap.erase_of_none hlookup]
    exact hM.symm
  | some e => exact (FiniteMap.coe_erase hT.equivalence hM ho.2).symm

/-- What `Insert` returns, in memory. -/
theorem entryAt_insert (hs : (c.insert v o).Holds T s) (ho : c.Has T (T.gk v) o) :
    HashTable.entryAt s (some ((o.map Prod.fst).getD c.top)) = some (o.getD (c.top, v)) := by
  cases o with
  | none => exact HashTable.entryAt_stored hs (e := (c.top, v)) (Multiset.mem_cons_self _ _)
  | some e => exact HashTable.entryAt_stored hs (e := e) ho.1

/-- What was found can be read at its address. -/
theorem entryAt_found (hs : c.Holds T s) (ho : c.Has T k o) :
    HashTable.entryAt s (o.map Prod.fst) = o := by
  cases o with
  | none => rfl
  | some e => exact HashTable.entryAt_stored hs ho.1

/-- **The map answers as the entries do.** -/
theorem Moves.simulates (hT : LawfulEqual T) (hm : c.Abstracts m) (hmoves : c.Moves T op r c')
    (hs : c'.Holds T s) (hop : op ≠ .eraseRandom) :
    ∃ m', m.call op = some ((r.1, HashTable.entryAt s r.2), m') ∧ c'.Abstracts m' := by
  cases op with
  | insert v =>
    obtain ⟨o, ho, rfl, rfl⟩ := hmoves
    refine ⟨m.insert v, ?_, hm.insert hT ho⟩
    have hentry := entryAt_insert hs ho
    rw [EntryMap.call, hm.lookup_eq hT ho, hm.next]
    cases o with
    | none => exact congrArg (fun e => some ((true, e), m.insert v)) hentry.symm
    | some e => rfl
  | insertWithDuplicate v =>
    obtain ⟨o, ho, rfl, rfl⟩ := hmoves
    refine ⟨m.insert v, ?_, hm.insert hT ho⟩
    rw [EntryMap.call, hm.lookup_eq hT ho, hm.next, entryAt_insert hs ho]
  | find k | findSlot k =>
    obtain ⟨o, ho, rfl, rfl⟩ := hmoves
    refine ⟨m, ?_, hm.entries, hm.next⟩
    rw [EntryMap.call, hm.lookup_eq hT ho, entryAt_found hs ho]
  | extract k =>
    obtain ⟨o, M, ho, hM, rfl, rfl⟩ := hmoves
    refine ⟨{ m with map := m.map.erase k }, ?_, hm.erase hT ho hM, hm.next⟩
    rw [EntryMap.call, hm.lookup_eq hT ho]
    cases o with
    | none => rfl
    | some e => exact congrArg (fun e => some ((true, e), _)) (HashTable.entryAt_released hs).symm
  | erase k | eraseSlot k =>
    obtain ⟨o, M, ho, hM, rfl, rfl⟩ := hmoves
    refine ⟨{ m with map := m.map.erase k }, ?_, hm.erase hT ho hM, hm.next⟩
    rw [EntryMap.call, hm.lookup_eq hT ho]
    rfl
  | eraseRandom => exact absurd rfl hop
  | clear =>
    obtain ⟨rfl, rfl⟩ := hmoves
    exact ⟨{ m with map := FiniteMap.empty }, rfl, rfl, hm.next⟩

/-- The count is the number of the entries. -/
def Counted (c : Inventory V) : Prop := c.layout.used = Multiset.card c.entries

/-- An entry that was found is one more. -/
theorem card_withEntry (o : Option (Addr × V)) (M : Multiset (Addr × V)) :
    Multiset.card (HashTable.withEntry o M) = if o.isSome then Multiset.card M + 1 else Multiset.card M := by
  cases o with
  | none => rfl
  | some e => exact Multiset.card_cons e M

/-- An insertion is counted. -/
theorem Counted.insert (h : c.Counted) : (c.insert v o).Counted := by
  have hused : c.layout.start.advance.used = Multiset.card c.entries := by
    rw [Layout.used_advance, Layout.used_start, h]
  cases o with
  | none => exact (congrArg (· + 1) hused).trans (Multiset.card_cons _ _).symm
  | some e => exact hused

/-- A removal that is counted. -/
theorem Counted.remove {H : Multiset (Addr × SNode V)} (h : c.Counted)
    (hM : c.entries = HashTable.withEntry o M) : (c.remove o M H).Counted := by
  have hused : c.layout.advance.used = Multiset.card (HashTable.withEntry o M) := by
    rw [Layout.used_advance, h, hM]
  rw [card_withEntry] at hused
  cases o with
  | none => exact hused
  | some e => exact Nat.sub_eq_of_eq_add hused

/-- A removal without a count keeps it only where there is nothing to remove. -/
theorem counted_advance_iff (h : c.Counted) (hM : c.entries = HashTable.withEntry o M) :
    ({ c.advance with entries := M } : Inventory V).Counted ↔ o = none := by
  have hused : c.layout.advance.used = Multiset.card (HashTable.withEntry o M) := by
    rw [Layout.used_advance, h, hM]
  rw [card_withEntry] at hused
  unfold Counted
  change c.layout.advance.used = Multiset.card M ↔ _
  rw [hused]
  cases o with
  | none => simp
  | some e => simp

/-- **The count** is spoilt by `EraseAfterFindSlot` and `EraseRandom` alone. -/
theorem Moves.counted_iff (hT : LawfulEqual T) (hmoves : c.Moves T op r c') (hs : c.Holds T s)
    (h : c.Counted) : c'.Counted ↔ HashTable.CountsRemoval T s op := by
  unfold HashTable.CountsRemoval
  have hstores := HashTable.stores_of_contains hs
  cases op with
  | insert v | insertWithDuplicate v =>
    obtain ⟨o, ho, rfl, -⟩ := hmoves
    exact ⟨fun _ => ⟨nofun, nofun⟩, fun _ => h.insert⟩
  | find k | findSlot k =>
    obtain ⟨o, ho, rfl, -⟩ := hmoves
    exact ⟨fun _ => ⟨nofun, nofun⟩, fun _ => Layout.used_advance.trans h⟩
  | extract k | erase k =>
    obtain ⟨o, M, ho, hM, rfl, -⟩ := hmoves
    exact ⟨fun _ => ⟨nofun, nofun⟩, fun _ => h.remove hM⟩
  | eraseSlot k =>
    -- the two removals that do not count: they must find nothing
    obtain ⟨o, M, ho, hM, rfl, -⟩ := hmoves
    rw [counted_advance_iff h hM]
    constructor
    · rintro rfl
      refine ⟨fun k' hk => ?_, nofun⟩
      rw [← HashTableOp.eraseSlot.inj hk]
      exact (HashTable.absent_iff hs).mpr ho
    · intro hcounts
      have hnone := (HashTable.absent_iff hs).mp (hcounts.1 k rfl)
      obtain ⟨f, hf, hunique, -⟩ := hs
      refine Lookup.eq hT.equivalence ?_ ho hnone
      rw [← hunique]
      exact hf.unique
  | eraseRandom =>
    obtain ⟨o, M, hzero, hM, rfl, -⟩ := hmoves
    rw [counted_advance_iff h hM]
    constructor
    · intro hnone
      refine ⟨nofun, fun _ => ?_⟩
      rw [← hzero hnone]
      exact hstores
    · intro hcounts
      have hempty := hstores.eq (hcounts.2 rfl)
      rw [hM] at hempty
      cases o with
      | none => rfl
      | some e => exact absurd hempty Multiset.cons_ne_zero
  | clear =>
    obtain ⟨rfl, -⟩ := hmoves
    exact ⟨fun _ => ⟨nofun, nofun⟩, fun _ => rfl⟩

end Inventory

/-! ## Runs -/

namespace HashTable

/-- A state in which a new table can be after some calls. -/
def Reachable (T : EqualTraits K V) (s : HashTable V) : Prop :=
  ∃ s₀ ops, construct = some s₀ ∧ run (step T) s₀ ops = some s

section

variable {T : EqualTraits K V} {c : Inventory V} {s s' : HashTable V} {op : HashTableOp K V}

theorem exists_holds (T : EqualTraits K V) : ∃ s, construct = some s ∧ Inventory.fresh.Holds T s := by
  obtain ⟨s, hs, hholds⟩ := construct_spec (V := V)
  exact ⟨s, hs, _, listsInv_fresh, gather_listed_nil _, hholds⟩

/-- **No call gets stuck.** -/
theorem exists_step (hT : LawfulEqual T) (hs : c.Holds T s) (op : HashTableOp K V) :
    ∃ r s' c', (call T op).run s = some (r, s') ∧ step T s op = some s' ∧ c.Moves T op r c'
      ∧ c'.Holds T s' := by
  obtain ⟨r, s', hrun, c', hmoves, hs'⟩ := Inventory.call_spec hT op s hs
  exact ⟨r, s', c', hrun, by rw [step, exec, hrun]; rfl, hmoves, hs'⟩

/-- A call keeps the inventory true. -/
theorem holds_of_step (hT : LawfulEqual T) (hs : ∃ c : Inventory V, c.Holds T s)
    (hstep : step T s op = some s') : ∃ c : Inventory V, c.Holds T s' := by
  obtain ⟨c, hs⟩ := hs
  obtain ⟨r, t, c', -, ht, -, hholds⟩ := exists_step hT hs op
  obtain rfl := Option.some.inj (ht.symm.trans hstep)
  exact ⟨c', hholds⟩

/-- In every reachable state there is an inventory. -/
theorem Reachable.exists_holds (hT : LawfulEqual T) (h : Reachable T s) :
    ∃ c : Inventory V, c.Holds T s := by
  obtain ⟨s₀, ops, hs₀, hrun⟩ := h
  obtain ⟨t, ht, hholds⟩ := HashTable.exists_holds T
  obtain rfl := Option.some.inj (ht.symm.trans hs₀)
  exact invariant_of_run (I := fun s => ∃ c : Inventory V, c.Holds T s)
    (fun _ _ _ => holds_of_step hT) ⟨_, hholds⟩ hrun

/-- `FindSlot` gives a bucket with the entry at the front. -/
theorem findsFront_of_holds (hT : LawfulEqual T) (hs : c.Holds T s) : FindsFront T s op := by
  rintro k rfl
  obtain ⟨o, ho⟩ := hs.exists_has hT k
  obtain ⟨x, s', hrun, hx⟩ := findSlot_spec hT ho s hs
  refine ⟨x, s', hrun, fun b hb => ?_⟩
  cases o with
  | none => cases hx.1.symm.trans hb
  | some e =>
    obtain ⟨b', hb', f, es, -, -, hlt, hfront, hholds⟩ := hx
    obtain rfl := Option.some.inj (hb'.symm.trans hb)
    rw [hholds.size_eq]
    exact ⟨hlt, e, es, ho.2, hfront ▸ chained_of_holds hholds hlt⟩

end

/-- A call of a map: none that removes an entry without counting it. -/
def OfMap (op : HashTableOp K V) : Prop := op ≠ .eraseRandom ∧ ∀ k, op ≠ .eraseSlot k

section

variable {T : EqualTraits K V} {c : Inventory V} {s : HashTable V} {m : EntryMap T}
  {op : HashTableOp K V} {ops : List (HashTableOp K V)}

/-- A call of a map is counted. -/
theorem exists_step_counted (hT : LawfulEqual T) (hs : c.Holds T s) (hcount : c.Counted)
    (hop : OfMap op) : ∃ r s' c', (call T op).run s = some (r, s') ∧ step T s op = some s'
      ∧ c.Moves T op r c' ∧ c'.Holds T s' ∧ c'.Counted := by
  obtain ⟨r, s', c', hrun, hstep, hmoves, hs'⟩ := exists_step hT hs op
  exact ⟨r, s', c', hrun, hstep, hmoves, hs', (hmoves.counted_iff hT hs hcount).mpr
    ⟨fun k hk => absurd hk (hop.2 k), fun hk => absurd hk hop.1⟩⟩

/-- A table that has the entries of a map answers a call as the map does. -/
theorem exists_answer (hT : LawfulEqual T)
    (h : ∃ c : Inventory V, c.Holds T s ∧ c.Counted ∧ c.Abstracts m) (hop : OfMap op) :
    ∃ b s' m', answer T s op = some (b, s') ∧ m.answer op = some (b, m')
      ∧ ∃ c : Inventory V, c.Holds T s' ∧ c.Counted ∧ c.Abstracts m' := by
  obtain ⟨c, hs, hcount, hm⟩ := h
  obtain ⟨r, s', c', hrun, -, hmoves, hs', hcount'⟩ := exists_step_counted hT hs hcount hop
  obtain ⟨m', hcall, hm'⟩ := hmoves.simulates hT hm hs' hop.1
  have hsize : s'.getSize = m'.map.size := by
    rw [used_of_contains hs', hcount', hm'.entries]
    rfl
  refine ⟨((r.1, entryAt s' r.2), s'.getSize), s', m', ?_, ?_, c', hs', hcount', hm'⟩
  · rw [answer, hrun]
    rfl
  · rw [EntryMap.answer, hcall, hsize]
    rfl

/-- **And so it does in every run.** -/
theorem exists_outputs (hT : LawfulEqual T)
    (h : ∃ c : Inventory V, c.Holds T s ∧ c.Counted ∧ c.Abstracts m) (hops : ∀ op ∈ ops, OfMap op) :
    ∃ rs s' m', outputs (answer T) s ops = some (rs, s')
      ∧ outputs EntryMap.answer m ops = some (rs, m') ∧ Stores s' m'.map.entries := by
  have hagree : ∀ s (m : EntryMap T) op, (∃ c : Inventory V, c.Holds T s ∧ c.Counted ∧ c.Abstracts m) →
      OfMap op → ∃ b s' m', answer T s op = some (b, s') ∧ m.answer op = some (b, m')
        ∧ ∃ c : Inventory V, c.Holds T s' ∧ c.Counted ∧ c.Abstracts m' :=
    fun _ _ _ h hop => exists_answer hT h hop
  obtain ⟨rs, s', m', hrun, hrun', c, hs', -, hm⟩ :=
    exists_outputs_of_allSteps hagree h (allSteps_of_forall hops)
  refine ⟨rs, s', m', hrun, hrun', ?_⟩
  rw [← hm.entries]
  exact stores_of_contains hs'

end

/-- **A table is a finite map.**  In every run of the calls of a map, the table gives the flags, the
entries and the sizes that a finite map gives, in the end its two tables have the entries of
the map, and `FindSlot` gives the front of a bucket. -/
theorem answers_as_map {T : EqualTraits K V} (hT : LawfulEqual T) (ops : List (HashTableOp K V))
    (hops : ∀ op ∈ ops, op ≠ .eraseRandom ∧ ∀ k, op ≠ .eraseSlot k) :
    ∃ s, construct = some s ∧ AllSteps (step T) (FindsFront T) s ops
      ∧ ∃ rs s' m, outputs (answer T) s ops = some (rs, s')
        ∧ outputs EntryMap.answer (EntryMap.empty : EntryMap T) ops = some (rs, m)
        ∧ Stores s' m.map.entries := by
  obtain ⟨s, hs, hholds⟩ := exists_holds T
  refine ⟨s, hs, ?_, exists_outputs hT ⟨_, hholds, rfl, rfl, rfl⟩ hops⟩
  refine AllSteps.imp (I := fun s => ∃ c : Inventory V, c.Holds T s)
    (fun _ _ _ hI _ => holds_of_step hT hI) (fun s op hI _ => ?_) ⟨_, hholds⟩
    (allSteps_of_forall (P := OfMap) hops)
  obtain ⟨c, hc⟩ := hI
  exact findsFront_of_holds hT hc

/-- Integers as their own keys, with the low bits as hash value. -/
def intKeys : EqualTraits ℤ ℤ := setTraits (BitVec.ofInt 64) (· == ·)

/-- Integers are compared and hashed lawfully. -/
theorem lawfulEqual_int : LawfulEqual intKeys where
  equivalence := by
    have heq : intKeys.Equiv = Eq := by
      funext x y
      exact propext beq_iff_eq
    rw [heq]
    exact eq_equivalence
  hash x y h := by rw [beq_iff_eq.mp h]

/-- A run with a rehash and keys that share their buckets. -/
def slotRun : List (HashTableOp ℤ ℤ) :=
  [.insert 1, .insertWithDuplicate 5, .insert 9, .insert 13, .insert 2, .findSlot 9, .extract 1,
    .insert 5, .find 13, .erase 9, .find 9, .clear]

theorem answers_as_map_slotRun : ∃ s, construct = some s
    ∧ AllSteps (step intKeys) (FindsFront intKeys) s slotRun
    ∧ ∃ rs s' m, outputs (answer intKeys) s slotRun = some (rs, s')
      ∧ outputs EntryMap.answer (EntryMap.empty : EntryMap intKeys) slotRun = some (rs, m)
      ∧ Stores s' m.map.entries :=
  answers_as_map lawfulEqual_int slotRun (by simp [slotRun])

/-! ## The count -/

/-- **`size()` counts the entries** as long as no entry is removed by `EraseAfterFindSlot` or
`EraseRandom`, and no longer. -/
theorem sizeCounts_iff_countsRemoval {T : EqualTraits K V} (hT : LawfulEqual T)
    (ops : List (HashTableOp K V)) :
    ∃ s, construct = some s ∧ SizeCounts T s ∧ (∃ s', run (step T) s ops = some s')
      ∧ (AllSteps (step T) (fun s op => ∀ s', step T s op = some s' → SizeCounts T s') s ops
        ↔ AllSteps (step T) (CountsRemoval T) s ops) := by
  obtain ⟨s, hs, hholds⟩ := exists_holds T
  have hI : ∃ c : Inventory V, c.Holds T s := ⟨_, hholds⟩
  have htrue : AllSteps (step T) (fun _ _ => True) s ops :=
    allSteps_of_forall (P := fun _ => True) fun _ _ => trivial
  have hstep : ∀ s op, (∃ c : Inventory V, c.Holds T s) → True →
      ∃ s', step T s op = some s' ∧ ∃ c : Inventory V, c.Holds T s' := by
    rintro s op ⟨c, hc⟩ -
    obtain ⟨r, s', c', -, hstep, -, hs'⟩ := exists_step hT hc op
    exact ⟨s', hstep, c', hs'⟩
  refine ⟨s, hs, (sizeCounts_iff hT hholds).mpr rfl, ?_, ?_⟩
  · obtain ⟨s', hrun, -⟩ := exists_run_of_allSteps hstep hI htrue
    exact ⟨s', hrun⟩
  · refine allSteps_iff (I := fun s => ∃ c : Inventory V, c.Holds T s) (fun s op hI hC _ => ?_) hI
      ((sizeCounts_iff hT hholds).mpr rfl) htrue
    obtain ⟨c, hc⟩ := hI
    obtain ⟨r, s', c', -, hstep, hmoves, hs'⟩ := exists_step hT hc op
    refine ⟨s', hstep, fun _ => ⟨c', hs'⟩, (sizeCounts_iff hT hs').trans ?_⟩
    exact hmoves.counted_iff hT hc ((sizeCounts_iff hT hc).mp hC)

/-- A run with a rehash, with `EraseAfterFindSlot` for a key that is not there and for one that is,
and with `EraseRandom`. -/
def eraseSlotsRun : List (HashTableOp ℤ ℤ) :=
  [.insert 1, .insertWithDuplicate 5, .insert 9, .insert 13, .insert 2, .eraseSlot 7, .extract 1,
    .eraseSlot 9, .eraseRandom, .insert 9, .erase 13]

theorem sizeCounts_iff_eraseSlotsRun : ∃ s, construct = some s
    ∧ (AllSteps (step intKeys) (fun s op => ∀ s', step intKeys s op = some s' → SizeCounts intKeys s')
        s eraseSlotsRun
      ↔ AllSteps (step intKeys) (CountsRemoval intKeys) s eraseSlotsRun) := by
  obtain ⟨s, hs, -, -, h⟩ := sizeCounts_iff_countsRemoval lawfulEqual_int eraseSlotsRun
  exact ⟨s, hs, h⟩

/-- A removal by `EraseAfterFindSlot`. -/
def eraseSlotRun : List (HashTableOp ℤ ℤ) := [.insert 7, .eraseSlot 7]

theorem not_sizeCounts_eraseSlotRun : ∃ s s', construct = some s
    ∧ run (step intKeys) s eraseSlotRun = some s' ∧ ¬ SizeCounts intKeys s' := by
  obtain ⟨s, hs, hholds⟩ := exists_holds intKeys
  obtain ⟨r₁, s₁, c₁, -, hstep₁, hmoves₁, hs₁⟩ := exists_step lawfulEqual_int hholds (.insert 7)
  obtain ⟨r₂, s₂, c₂, -, hstep₂, hmoves₂, hs₂⟩ := exists_step lawfulEqual_int hs₁ (.eraseSlot 7)
  refine ⟨s, s₂, hs, run_cons.mpr ⟨s₁, hstep₁, run_cons.mpr ⟨s₂, hstep₂, rfl⟩⟩, fun hbad => ?_⟩
  have hcount₁ : c₁.Counted :=
    (hmoves₁.counted_iff lawfulEqual_int hholds rfl).mpr ⟨nofun, nofun⟩
  have hcounts := (hmoves₂.counted_iff lawfulEqual_int hs₁ hcount₁).mp
    ((sizeCounts_iff lawfulEqual_int hs₂).mp hbad)
  have habsent := (absent_iff hs₁).mp (hcounts.1 7 rfl)
  obtain ⟨o, ho, rfl, -⟩ := hmoves₁
  cases o with
  | none => exact habsent (0, 7) (by simp [Inventory.insert, Inventory.fresh]) rfl
  | some e => cases ho.1

end HashTable

end Mmkvc
