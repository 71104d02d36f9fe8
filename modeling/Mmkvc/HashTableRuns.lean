/-
# Runs of operations on a `HashTable` or a `HashSet`

The calls on a table as one step function with their results, the same calls on its entries,
and that memory follows the entries.
-/
import Mmkvc.ListTableEntries

namespace Mmkvc

open Slist Tables

variable {K V : Type}

/-- A call on a table.  `eraseSlot` is `FindSlot` with `EraseAfterFindSlot` of the slot that it
returns, if any. -/
inductive HashTableOp (K V : Type) where
  | insert (elem : V)
  | insertWithDuplicate (elem : V)
  | find (key : K)
  | findSlot (key : K)
  | extract (key : K)
  | erase (key : K)
  | eraseSlot (key : K)
  | eraseRandom
  | clear

namespace HashTable

/-- What a call returns: whether it succeeded, and the entry it points to. -/
def call (T : EqualTraits K V) : HashTableOp K V → HashM V (Bool × Option Addr)
  | .insert elem => do
    let p ← insert T elem
    return (p.isSome, p)
  | .insertWithDuplicate elem => do
    let (success, duplicate) ← insertWithDuplicate T elem
    return (success, some duplicate)
  | .find key => do
    let p ← find T key
    return (p.isSome, p)
  | .findSlot key => do
    match ← findSlot T key with
    | some b => return (true, some (← onHeap (front b)))
    | none => return (false, none)
  | .extract key => do
    let p ← extract T key
    return (p.isSome, p)
  | .erase key => do return (0 < (← erase T key), none)
  | .eraseSlot key => do
    match ← findSlot T key with
    | some b => do
      eraseAfterFindSlot b
      return (true, none)
    | none => return (false, none)
  | .eraseRandom => do return (0 < (← eraseRandom T), none)
  | .clear => do
    clear
    return (true, none)

/-- The entry at a pointer. -/
def entryAt (s : HashTable V) (p : Option Addr) : Option (Addr × V) :=
  p.bind fun a => (s.heap.nodes a).map fun n => (a, n.value)

/-- The state after a call. -/
def step (T : EqualTraits K V) (s : HashTable V) (op : HashTableOp K V) : Option (HashTable V) :=
  exec (call T op) s

/-- The result of a call with the entry it points to, `size()` after it, and the state. -/
def answer (T : EqualTraits K V) (s : HashTable V) (op : HashTableOp K V) :
    Option (((Bool × Option (Addr × V)) × ℕ) × HashTable V) :=
  ((call T op).run s).map fun r => (((r.1.1, entryAt r.2 r.1.2), r.2.getSize), r.2)

end HashTable

/-! ## The entries of a table -/

/-- A table by its layout, its entries, the nodes that have been taken out, and the first
address that was never given out. -/
structure Inventory (V : Type) where
  layout : Layout
  entries : Multiset (Addr × V)
  loose : Multiset (Addr × SNode V)
  top : ℕ

namespace Inventory

/-- A new table. -/
def fresh : Inventory V := ⟨Layout.fresh, 0, 0, 0⟩

/-- Memory is as the inventory says. -/
def Holds (T : EqualTraits K V) (c : Inventory V) : HashTable V → Prop :=
  HashTable.Contains T c.layout c.entries c.loose c.top

/-- After an insertion, where `o` is the entry that has the key. -/
def insert (c : Inventory V) (v : V) (o : Option (Addr × V)) : Inventory V :=
  { c with
    layout := if o.isNone then c.layout.start.advance.add else c.layout.start.advance
    entries := if o.isNone then (c.top, v) ::ₘ c.entries else c.entries
    top := if o.isNone then c.top + 1 else c.top }

/-- After a search. -/
def advance (c : Inventory V) : Inventory V := { c with layout := c.layout.advance }

/-- After a removal that leaves the entries `M` and the nodes `H`. -/
def remove (c : Inventory V) (o : Option (Addr × V)) (M : Multiset (Addr × V))
    (H : Multiset (Addr × SNode V)) : Inventory V :=
  { c with
    layout := if o.isSome then c.layout.advance.remove else c.layout.advance
    entries := M
    loose := H }

/-- The entry with a key. -/
def Has (T : EqualTraits K V) (c : Inventory V) (k : K) : Option (Addr × V) → Prop :=
  Lookup T.Equiv T.keyOf k c.entries

/-- **The calls on the entries**, with their results. -/
def Moves (T : EqualTraits K V) (c : Inventory V) (op : HashTableOp K V) (r : Bool × Option Addr)
    (c' : Inventory V) : Prop :=
  match op with
  | .insert v => ∃ o, c.Has T (T.gk v) o ∧ c' = c.insert v o
      ∧ r = (o.isNone, if o.isNone then some c.top else none)
  | .insertWithDuplicate v => ∃ o, c.Has T (T.gk v) o ∧ c' = c.insert v o
      ∧ r = (o.isNone, some ((o.map Prod.fst).getD c.top))
  | .find k | .findSlot k => ∃ o, c.Has T k o ∧ c' = c.advance ∧ r = (o.isSome, o.map Prod.fst)
  | .extract k => ∃ o M, c.Has T k o ∧ c.entries = HashTable.withEntry o M
      ∧ c' = c.remove o M (released o + c.loose) ∧ r = (o.isSome, o.map Prod.fst)
  | .erase k => ∃ o M, c.Has T k o ∧ c.entries = HashTable.withEntry o M
      ∧ c' = c.remove o M c.loose ∧ r = (o.isSome, none)
  | .eraseSlot k => ∃ o M, c.Has T k o ∧ c.entries = HashTable.withEntry o M
      ∧ c' = { c.advance with entries := M } ∧ r = (o.isSome, none)
  | .eraseRandom => ∃ o M, (o = none → c.entries = 0) ∧ c.entries = HashTable.withEntry o M
      ∧ c' = { c.advance with entries := M } ∧ r = (o.isSome, none)
  | .clear => c' = { c with layout := Layout.fresh, entries := 0 } ∧ r = (true, none)

section

variable {T : EqualTraits K V} {c c' : Inventory V} {op : HashTableOp K V} {k : K} {s : HashTable V}

/-- A key has an entry or none. -/
theorem Holds.exists_has (hs : c.Holds T s) (hT : LawfulEqual T) (k : K) : ∃ o, c.Has T k o := by
  obtain ⟨f, hf, hM, -⟩ := hs
  have hlookup := hf.locate_spec hT k
  rw [hM] at hlookup
  exact ⟨_, hlookup⟩

/-- An entry that was found can be set aside. -/
theorem Has.exists_withEntry {o : Option (Addr × V)} (ho : c.Has T k o) :
    ∃ M, c.entries = HashTable.withEntry o M := by
  cases o with
  | none => exact ⟨c.entries, rfl⟩
  | some e => exact Multiset.exists_cons_of_mem ho.1

/-- What the search for a key finds can be named before the call. -/
theorem triple_of_has {α : Type} {p : HashM V α} {Q : α → HashTable V → Prop} (hT : LawfulEqual T)
    (k : K) (h : ∀ o, c.Has T k o → Triple (c.Holds T) p Q) : Triple (c.Holds T) p Q := by
  intro s hs
  obtain ⟨o, ho⟩ := hs.exists_has hT k
  exact h o ho s hs

/-- The entries of the inventory, written otherwise. -/
theorem triple_of_withEntry {α : Type} {p : HashM V α} {Q : α → HashTable V → Prop}
    {M : Multiset (Addr × V)} (hM : c.entries = M)
    (h : Triple (HashTable.Contains T c.layout M c.loose c.top) p Q) : Triple (c.Holds T) p Q := by
  subst hM
  exact h

/-- **Memory follows the entries.** -/
theorem call_spec (hT : LawfulEqual T) (op : HashTableOp K V) :
    Triple (c.Holds T) (HashTable.call T op) fun r s => ∃ c', c.Moves T op r c' ∧ c'.Holds T s := by
  cases op with
  | insert v =>
    refine triple_of_has hT (T.gk v) fun o ho => ?_
    refine Triple.bind_eq (HashTable.insert_spec hT ho)
      (triple_pure fun s hs => ⟨c.insert v o, ⟨o, ho, rfl, ?_⟩, hs⟩)
    cases o <;> rfl
  | insertWithDuplicate v =>
    refine triple_of_has hT (T.gk v) fun o ho => ?_
    exact Triple.bind_eq (HashTable.insertWithDuplicate_spec hT ho)
      (triple_pure fun s hs => ⟨c.insert v o, ⟨o, ho, rfl, rfl⟩, hs⟩)
  | find k =>
    refine triple_of_has hT k fun o ho => ?_
    refine Triple.bind_eq (HashTable.find_spec hT ho)
      (triple_pure fun s hs => ⟨c.advance, ⟨o, ho, rfl, ?_⟩, hs⟩)
    rw [Option.isSome_map]
  | findSlot k =>
    -- the slot is looked up with the entry put to its front
    refine triple_of_has hT k fun o ho => Triple.bind (HashTable.findSlot_spec hT ho) fun x => ?_
    cases o with
    | none =>
      rintro s ⟨rfl, hs⟩
      exact ⟨_, s, rfl, c.advance, ⟨none, ho, rfl, rfl⟩, hs⟩
    | some e =>
      rintro s ⟨b, rfl, hs⟩
      obtain ⟨f, es, hf, hM, hb, hfront, hs⟩ := hs
      have hspec : Triple (HashTable.Holds c.layout.advance f c.loose c.top)
          (do return (true, some (← onHeap (front b))))
          fun r s => ∃ c', c.Moves T (.findSlot k) r c' ∧ c'.Holds T s :=
        Triple.bind_eq (HashTable.onHeap_lists (Lists.front_spec hfront))
          (triple_pure fun s hs => ⟨c.advance, ⟨some e, ho, rfl, rfl⟩, f, hf, hM, hs⟩)
      exact hspec s hs
  | extract k =>
    refine triple_of_has hT k fun o ho => ?_
    obtain ⟨M, hM⟩ := ho.exists_withEntry
    have ho' : Lookup T.Equiv T.keyOf k (HashTable.withEntry o M) o := hM ▸ ho
    refine triple_of_withEntry hM (Triple.bind_eq (HashTable.extract_spec hT ho')
      (triple_pure fun s hs => ⟨c.remove o M (released o + c.loose), ⟨o, M, ho, hM, rfl, ?_⟩, hs⟩))
    rw [Option.isSome_map]
  | erase k =>
    refine triple_of_has hT k fun o ho => ?_
    obtain ⟨M, hM⟩ := ho.exists_withEntry
    have ho' : Lookup T.Equiv T.keyOf k (HashTable.withEntry o M) o := hM ▸ ho
    refine triple_of_withEntry hM (Triple.bind_eq (HashTable.erase_spec hT ho')
      (triple_pure fun s hs => ⟨c.remove o M c.loose, ⟨o, M, ho, hM, rfl, ?_⟩, hs⟩))
    cases o <;> rfl
  | eraseSlot k =>
    refine triple_of_has hT k fun o ho => ?_
    obtain ⟨M, hM⟩ := ho.exists_withEntry
    have ho' : Lookup T.Equiv T.keyOf k (HashTable.withEntry o M) o := hM ▸ ho
    refine triple_of_withEntry hM (Triple.bind (HashTable.findSlot_spec hT ho') fun x => ?_)
    cases o with
    | none =>
      rintro s ⟨rfl, hs⟩
      exact ⟨_, s, rfl, { c.advance with entries := M }, ⟨none, M, ho, hM, rfl, rfl⟩, hs⟩
    | some e =>
      rintro s ⟨b, rfl, hs⟩
      have hspec : Triple (HashTable.Fronts T c.layout.advance (e ::ₘ M) c.loose c.top b e)
          (do
            HashTable.eraseAfterFindSlot b
            return (true, none))
          fun r s => ∃ c', c.Moves T (.eraseSlot k) r c' ∧ c'.Holds T s :=
        Triple.bind (HashTable.eraseAfterFindSlot_spec hT) fun _ => triple_pure fun s hs =>
          ⟨{ c.advance with entries := M }, ⟨some e, M, ho, hM, rfl, rfl⟩, hs⟩
      exact hspec s hs
  | eraseRandom =>
    refine Triple.bind (HashTable.eraseRandom_spec hT) fun x => triple_pure fun s hs => ?_
    -- nothing is erased only where there is no entry
    rcases hs with ⟨rfl, hzero, hs⟩ | ⟨rfl, e, M, hM, hs⟩
    · exact ⟨c.advance, ⟨none, c.entries, fun _ => hzero, rfl, rfl, rfl⟩, hs⟩
    · exact ⟨{ c.advance with entries := M }, ⟨some e, M, nofun, hM, rfl, rfl⟩, hs⟩
  | clear =>
    exact Triple.bind HashTable.clear_contains fun _ => triple_pure fun s hs => ⟨_, ⟨rfl, rfl⟩, hs⟩

end

end Inventory

end Mmkvc
