/-
# Double-linked lists are sequences

A `Deque` is what a list is for: a sequence of nodes, beside nodes that are in no list.
`blist_refines_deque` says that a list goes through the same sequences as the deque does and gives
the same answers, whatever the calls are.
-/
import Mmkvc.BlistOperations
import Mmkvc.Transition

namespace Mmkvc

open Transition

/-- The calls of a list, and the creation of a node at the address that the allocator answers
with. -/
inductive BlistOp (V : Type) where
  | createNode (node : Addr) (value : V)
  | pushFront (node : Addr)
  | pushBack (node : Addr)
  | popFront
  | popBack
  | insertAfter (node newNode : Addr)
  | extract (node : Addr)
  | erase (node : Addr)
  | clear
  deriving DecidableEq, Repr

namespace Blist

variable {V : Type}

/-- A call and what it returns, if anything. -/
def call : BlistOp V → BlistM V (Option ℕ)
  | .createNode node value => do
    createNode node value
    return none
  | .pushFront node => do return some (← pushFront node)
  | .pushBack node => do return some (← pushBack node)
  | .popFront => do return some (← popFront)
  | .popBack => do return some (← popBack)
  | .insertAfter node newNode => do
    insertAfter (some node) newNode
    return none
  | .extract node => do
    extract (some node)
    return none
  | .erase node => do
    erase node
    return none
  | .clear => do
    clear
    return none

def answer (s : Blist V) (op : BlistOp V) : Option (Option ℕ × Blist V) := (call op).run s

end Blist

/-! ## The deque -/

/-- The sequence of a list, and the nodes that are in no list. -/
structure Deque (V : Type) where
  seq : List (Addr × V)
  loose : List (Addr × V)
  deriving DecidableEq, Repr

namespace Deque

variable {V : Type}

def empty : Deque V := ⟨[], []⟩

/-- The value of a node and the others. -/
def take (node : Addr) : List (Addr × V) → Option (V × List (Addr × V))
  | [] => none
  | e :: es => if e.1 = node then some (e.2, es) else (take node es).map fun p => (p.1, e :: p.2)

/-- The sequence with an entry behind a node. -/
def insertBehind (node : Addr) (x : Addr × V) : List (Addr × V) → Option (List (Addr × V))
  | [] => none
  | e :: es => if e.1 = node then some (e :: x :: es) else (insertBehind node x es).map (e :: ·)

/-- An address that the allocator may answer with: not null, and free. -/
def Free (d : Deque V) (node : Addr) : Prop :=
  0 < node ∧ node < 2 ^ 64 ∧ node ∉ (d.seq ++ d.loose).map Prod.fst

instance (d : Deque V) (node : Addr) : Decidable (d.Free node) :=
  inferInstanceAs (Decidable (_ ∧ _ ∧ _))

/-- What a call returns and does, where it may be made: a node that is put into the list is in no
list, one that is taken out or gets a neighbour is in the list, and `Extract` can also be given a
node that is in no list. -/
def step (d : Deque V) : BlistOp V → Option (Option ℕ × Deque V)
  | .createNode node value =>
    if d.Free node then some (none, { d with loose := (node, value) :: d.loose }) else none
  | .pushFront node => (take node d.loose).map fun p => (some 1, ⟨(node, p.1) :: d.seq, p.2⟩)
  | .pushBack node => (take node d.loose).map fun p => (some 1, ⟨d.seq ++ [(node, p.1)], p.2⟩)
  | .popFront => some (some (if d.seq.isEmpty then 0 else 1), { d with seq := d.seq.tail })
  | .popBack => some (some (if d.seq.isEmpty then 0 else 1), { d with seq := d.seq.dropLast })
  | .insertAfter node newNode => do
    let p ← take newNode d.loose
    let seq ← insertBehind node (newNode, p.1) d.seq
    return (none, ⟨seq, p.2⟩)
  | .extract node =>
    match take node d.seq with
    | some p => some (none, ⟨p.2, (node, p.1) :: d.loose⟩)
    | none => if node ∈ d.loose.map Prod.fst then some (none, d) else none
  | .erase node => (take node d.seq).map fun p => (none, { d with seq := p.2 })
  | .clear => some (none, { d with seq := [] })

/-- What is taken stands somewhere in the list, and the others stay in order. -/
theorem eq_append_of_take {node : Addr} {es fs : List (Addr × V)} {v : V}
    (h : take node es = some (v, fs)) :
    ∃ zs ys, es = zs ++ (node, v) :: ys ∧ fs = zs ++ ys := by
  induction es generalizing fs with
  | nil => cases h
  | cons e es ih =>
    rw [take] at h
    split_ifs at h with he
    · obtain ⟨rfl, rfl⟩ := Prod.mk.inj (Option.some.inj h)
      exact ⟨[], es, by rw [← he]; rfl, rfl⟩
    · obtain ⟨p, hp, heq⟩ := Option.map_eq_some_iff.mp h
      obtain ⟨rfl, rfl⟩ := Prod.mk.inj heq
      obtain ⟨zs, ys, rfl, hfs⟩ := ih hp
      exact ⟨e :: zs, ys, rfl, by rw [hfs]; rfl⟩

theorem take_self {node : Addr} {v : V} {es : List (Addr × V)} :
    take node ((node, v) :: es) = some (v, es) := if_pos rfl

/-- What is inserted stands behind the entry with the address. -/
theorem eq_append_of_insertBehind {node : Addr} {x : Addr × V} {es fs : List (Addr × V)}
    (h : insertBehind node x es = some fs) :
    ∃ zs w ys, es = (zs ++ [(node, w)]) ++ ys ∧ fs = (zs ++ [(node, w)]) ++ x :: ys := by
  induction es generalizing fs with
  | nil => cases h
  | cons e es ih =>
    rw [insertBehind] at h
    split_ifs at h with he
    · obtain rfl := Option.some.inj h
      exact ⟨[], e.2, es, by rw [← he]; rfl, by rw [← he]; rfl⟩
    · obtain ⟨gs, hgs, rfl⟩ := Option.map_eq_some_iff.mp h
      obtain ⟨zs, w, ys, rfl, rfl⟩ := ih hgs
      exact ⟨e :: zs, w, ys, rfl, rfl⟩

end Deque

namespace Blist

variable {V : Type} {s : Blist V} {d : Deque V}

/-! ## The lists of a deque -/

/-- The nodes that are in no list. -/
def looseCells (es : List (Addr × V)) : Multiset (Addr × BNode V) :=
  (es : Multiset (Addr × V)).map fun e => (e.1, ⟨e.2, none, none⟩)

/-- The list is in the state that the deque is in. -/
structure Represents (s : Blist V) (d : Deque V) : Prop where
  holds : Holds d.seq (looseCells d.loose) s
  range : ∀ e ∈ d.seq ++ d.loose, 0 < e.1 ∧ e.1 < 2 ^ 64

/-- The nodes of a list are at the addresses of its entries. -/
theorem cells_map_fst {p n : Option Addr} {es : List (Addr × V)} :
    (cells p es n).map Prod.fst = (es.map Prod.fst : List Addr) := by
  induction es generalizing p with
  | nil => rfl
  | cons e es ih => rw [cells_cons, Multiset.map_add, ih]; rfl

theorem looseCells_map_fst {es : List (Addr × V)} :
    (looseCells es).map Prod.fst = (es.map Prod.fst : List Addr) := by
  rw [looseCells, Multiset.map_map, ← Multiset.map_coe]
  rfl

/-- A loose entry that is taken is a node without links. -/
theorem looseCells_take {node : Addr} {es fs : List (Addr × V)} {v : V}
    (h : Deque.take node es = some (v, fs)) :
    looseCells es = {(node, ⟨v, none, none⟩)} + looseCells fs := by
  obtain ⟨zs, ys, rfl, rfl⟩ := Deque.eq_append_of_take h
  rw [looseCells, looseCells, ← Multiset.coe_add, ← Multiset.coe_add, ← Multiset.cons_coe,
    Multiset.map_add, Multiset.map_add, Multiset.map_cons, ← Multiset.singleton_add,
    add_left_comm]

/-- There are fewer nodes than addresses. -/
theorem length_lt_of_range {es : List (Addr × V)} (hnodup : (es.map Prod.fst).Nodup)
    (hrange : ∀ e ∈ es, 0 < e.1 ∧ e.1 < 2 ^ 64) : es.length < 2 ^ 64 := by
  have hsub : (es.map Prod.fst).toFinset ⊆ Finset.Ioo 0 (2 ^ 64) := by
    intro a ha
    obtain ⟨e, he, rfl⟩ := List.mem_map.mp (List.mem_toFinset.mp ha)
    exact Finset.mem_Ioo.mpr (hrange e he)
  have hcard := Finset.card_le_card hsub
  rw [List.toFinset_card_of_nodup hnodup, List.length_map, Nat.card_Ioo] at hcard
  omega

namespace Represents

theorem nodup (h : Represents s d) : ((d.seq ++ d.loose).map Prod.fst).Nodup := by
  have hnodup := h.holds.sat.nodup
  rwa [Multiset.map_add, cells_map_fst, looseCells_map_fst, Multiset.coe_add, ← List.map_append,
    Multiset.coe_nodup] at hnodup

theorem length_lt (h : Represents s d) : (d.seq ++ d.loose).length < 2 ^ 64 :=
  length_lt_of_range h.nodup h.range

theorem seq_length_lt (h : Represents s d) : d.seq.length < 2 ^ 64 := by
  have hlt := h.length_lt
  rw [List.length_append] at hlt
  omega

/-- A call that leaves no nodes but those there were. -/
theorem of_triple (h : Represents s d) {op : BlistOp V} {b : Option ℕ} {d' : Deque V}
    (hcall : Triple (Holds d.seq (looseCells d.loose)) (call op)
      fun r s' => r = b ∧ Holds d'.seq (looseCells d'.loose) s')
    (hsub : d'.seq ++ d'.loose ⊆ d.seq ++ d.loose) :
    ∃ s', Blist.answer s op = some (b, s') ∧ Represents s' d' := by
  obtain ⟨_, s', hrun, rfl, hs'⟩ := hcall s h.holds
  exact ⟨s', hrun, hs', fun e he => h.range e (hsub he)⟩

/-- A new node joins the loose ones. -/
theorem createNode (h : Represents s d) {node : Addr} {v : V} (hfree : d.Free node) :
    ∃ s', Blist.answer s (.createNode node v) = some (none, s')
      ∧ Represents s' { d with loose := (node, v) :: d.loose } := by
  obtain ⟨hpos, hlt, hnew⟩ := hfree
  have hcells : node ∉ (cells (last d.seq) d.seq none + looseCells d.loose).map Prod.fst := by
    rwa [Multiset.map_add, cells_map_fst, looseCells_map_fst, Multiset.coe_add, ← List.map_append]
  have hcall : Triple (Holds d.seq (looseCells d.loose)) (call (.createNode node v))
      fun r s' => r = none ∧ Holds d.seq (looseCells ((node, v) :: d.loose)) s' := by
    refine Triple.bind (createNode_spec hcells) fun _ => triple_pure fun s hs => ⟨rfl, ?_⟩
    rw [add_left_comm] at hs
    rwa [Holds, looseCells_take (Deque.take_self)]
  obtain ⟨_, s', hrun, rfl, hs'⟩ := hcall s h.holds
  refine ⟨s', hrun, hs', fun e he => ?_⟩
  rcases List.mem_append.mp he with he | he
  · exact h.range e (List.mem_append_left _ he)
  · rcases List.mem_cons.mp he with rfl | he
    · exact ⟨hpos, hlt⟩
    · exact h.range e (List.mem_append_right _ he)

/-- A loose node becomes the front of the sequence. -/
theorem pushFront (h : Represents s d) {node : Addr} {v : V} {loose : List (Addr × V)}
    (htake : Deque.take node d.loose = some (v, loose)) :
    ∃ s', Blist.answer s (.pushFront node) = some (some 1, s')
      ∧ Represents s' ⟨(node, v) :: d.seq, loose⟩ := by
  obtain ⟨zs, ys, hloose, rfl⟩ := Deque.eq_append_of_take htake
  have hlt := h.length_lt
  refine h.of_triple ?_ ?_
  · rw [looseCells_take htake]
    refine Triple.bind_eq (pushFront_spec ?_) (triple_pure fun s hs => ⟨rfl, hs⟩)
    rw [hloose, List.length_append, List.length_append, List.length_cons] at hlt
    omega
  · rw [hloose]
    grind

/-- A loose node becomes the end of the sequence. -/
theorem pushBack (h : Represents s d) {node : Addr} {v : V} {loose : List (Addr × V)}
    (htake : Deque.take node d.loose = some (v, loose)) :
    ∃ s', Blist.answer s (.pushBack node) = some (some 1, s')
      ∧ Represents s' ⟨d.seq ++ [(node, v)], loose⟩ := by
  obtain ⟨zs, ys, hloose, rfl⟩ := Deque.eq_append_of_take htake
  have hlt := h.length_lt
  refine h.of_triple ?_ ?_
  · rw [looseCells_take htake]
    refine Triple.bind_eq (pushBack_spec ?_) (triple_pure fun s hs => ⟨rfl, hs⟩)
    rw [hloose, List.length_append, List.length_append, List.length_cons] at hlt
    omega
  · rw [hloose]
    grind

/-- The front of the sequence goes, if there is one. -/
theorem popFront (h : Represents s d) :
    ∃ s', Blist.answer s .popFront = some (some (popped d.seq), s')
      ∧ Represents s' { d with seq := d.seq.tail } :=
  h.of_triple (Triple.bind_eq (popFront_spec h.seq_length_lt) (triple_pure fun _ hs => ⟨rfl, hs⟩))
    (List.append_subset.mpr ⟨fun _ he => List.mem_append_left _ (List.mem_of_mem_tail he),
      List.subset_append_right _ _⟩)

/-- The end of the sequence goes, if there is one. -/
theorem popBack (h : Represents s d) :
    ∃ s', Blist.answer s .popBack = some (some (popped d.seq), s')
      ∧ Represents s' { d with seq := d.seq.dropLast } :=
  h.of_triple (Triple.bind_eq (popBack_spec h.seq_length_lt) (triple_pure fun _ hs => ⟨rfl, hs⟩))
    (List.append_subset.mpr ⟨fun _ he => List.mem_append_left _ (List.mem_of_mem_dropLast he),
      List.subset_append_right _ _⟩)

/-- A loose node is inserted behind a node of the sequence. -/
theorem insertAfter (h : Represents s d) {node newNode : Addr} {v : V}
    {seq loose : List (Addr × V)} (htake : Deque.take newNode d.loose = some (v, loose))
    (hseq : Deque.insertBehind node (newNode, v) d.seq = some seq) :
    ∃ s', Blist.answer s (.insertAfter node newNode) = some (none, s')
      ∧ Represents s' ⟨seq, loose⟩ := by
  have hlt := h.length_lt
  have hcells := looseCells_take htake
  obtain ⟨zs, ys, hloose, rfl⟩ := Deque.eq_append_of_take htake
  obtain ⟨us, w, vs, hd, rfl⟩ := Deque.eq_append_of_insertBehind hseq
  refine h.of_triple ?_ ?_
  · rw [hcells, hd]
    have hlen : (zs ++ (newNode, v) :: ys).length = zs.length + ys.length + 1 := by
      rw [List.length_append, List.length_cons, add_assoc]
    rw [hloose, hd, List.length_append, hlen] at hlt
    exact Triple.bind (insertAfter_spec last_concat (by omega)) fun _ =>
      triple_pure fun s hs => ⟨rfl, hs⟩
  · rw [hloose, hd]
    grind

/-- A node of the list is taken out. -/
theorem extract (h : Represents s d) {node : Addr} {v : V} {seq : List (Addr × V)}
    (htake : Deque.take node d.seq = some (v, seq)) :
    ∃ s', Blist.answer s (.extract node) = some (none, s')
      ∧ Represents s' ⟨seq, (node, v) :: d.loose⟩ := by
  have hlt := h.seq_length_lt
  obtain ⟨zs, ys, hseq, rfl⟩ := Deque.eq_append_of_take htake
  refine h.of_triple ?_ ?_
  · rw [hseq] at hlt ⊢
    refine Triple.bind (extract_spec hlt) fun _ => triple_pure fun s hs => ⟨rfl, ?_⟩
    rwa [looseCells_take Deque.take_self]
  · rw [hseq]
    grind

/-- A node of the sequence is removed. -/
theorem erase (h : Represents s d) {node : Addr} {v : V} {seq : List (Addr × V)}
    (htake : Deque.take node d.seq = some (v, seq)) :
    ∃ s', Blist.answer s (.erase node) = some (none, s')
      ∧ Represents s' { d with seq := seq } := by
  have hlt := h.seq_length_lt
  obtain ⟨zs, ys, hseq, rfl⟩ := Deque.eq_append_of_take htake
  refine h.of_triple ?_ ?_
  · rw [hseq] at hlt ⊢
    exact Triple.bind (erase_spec hlt) fun _ => triple_pure fun s hs => ⟨rfl, hs⟩
  · rw [hseq]
    grind

theorem clear (h : Represents s d) : ∃ s', Blist.answer s .clear = some (none, s')
    ∧ Represents s' { d with seq := [] } :=
  h.of_triple (Triple.bind (clear_spec h.seq_length_lt) fun _ => triple_pure fun _ hs => ⟨rfl, hs⟩)
    (List.subset_append_right _ _)

/-- A node that is in no list is left there. -/
theorem extract_loose (h : Represents s d) {node : Addr} {v : V} (hnode : (node, v) ∈ d.loose) :
    (Blist.extract (some node)).run s = some ((), s) := by
  have hcell : (node, ⟨v, none, none⟩) ∈ looseCells d.loose :=
    Multiset.mem_map.mpr ⟨(node, v), Multiset.mem_coe.mpr hnode, rfl⟩
  exact Blist.extract_loose (h.holds.sat.cell _ (Multiset.mem_add.mpr (Or.inr hcell))) rfl

/-- **One call.**  The list answers as the deque does. -/
theorem answer (h : Represents s d) {op : BlistOp V} {b : Option ℕ} {d' : Deque V}
    (hstep : d.step op = some (b, d')) :
    ∃ s', Blist.answer s op = some (b, s') ∧ Represents s' d' := by
  cases op with
  | createNode node value =>
    rw [Deque.step] at hstep
    split_ifs at hstep with hfree
    obtain ⟨rfl, rfl⟩ := Prod.mk.inj (Option.some.inj hstep)
    exact h.createNode hfree
  | pushFront node =>
    obtain ⟨p, hp, heq⟩ := Option.map_eq_some_iff.mp hstep
    obtain ⟨rfl, rfl⟩ := Prod.mk.inj heq
    exact h.pushFront hp
  | pushBack node =>
    obtain ⟨p, hp, heq⟩ := Option.map_eq_some_iff.mp hstep
    obtain ⟨rfl, rfl⟩ := Prod.mk.inj heq
    exact h.pushBack hp
  | popFront =>
    obtain ⟨rfl, rfl⟩ := Prod.mk.inj (Option.some.inj hstep)
    exact h.popFront
  | popBack =>
    obtain ⟨rfl, rfl⟩ := Prod.mk.inj (Option.some.inj hstep)
    exact h.popBack
  | insertAfter node newNode =>
    obtain ⟨p, hp, hrest⟩ := Option.bind_eq_some_iff.mp hstep
    obtain ⟨seq, hseq, heq⟩ := Option.bind_eq_some_iff.mp hrest
    obtain ⟨rfl, rfl⟩ := Prod.mk.inj (Option.some.inj heq)
    exact h.insertAfter hp hseq
  | extract node =>
    rw [Deque.step] at hstep
    split at hstep
    · rename_i p hp
      obtain ⟨rfl, rfl⟩ := Prod.mk.inj (Option.some.inj hstep)
      exact h.extract hp
    · split_ifs at hstep with hmem
      obtain ⟨rfl, rfl⟩ := Prod.mk.inj (Option.some.inj hstep)
      obtain ⟨e, he, rfl⟩ := List.mem_map.mp hmem
      exact ⟨s, run_bind_eq (h.extract_loose he) rfl, h⟩
  | erase node =>
    obtain ⟨p, hp, heq⟩ := Option.map_eq_some_iff.mp hstep
    obtain ⟨rfl, rfl⟩ := Prod.mk.inj heq
    exact h.erase hp
  | clear =>
    obtain ⟨rfl, rfl⟩ := Prod.mk.inj (Option.some.inj hstep)
    exact h.clear

/-- **A sequence of calls.**  The list gives the answers of the deque. -/
theorem outputs (h : Represents s d) {ops : List (BlistOp V)} {bs : List (Option ℕ)} {d' : Deque V}
    (hrun : Transition.outputs Deque.step d ops = some (bs, d')) :
    ∃ s', Transition.outputs Blist.answer s ops = some (bs, s') ∧ Represents s' d' :=
  outputs_of_simulates (R := Represents)
    (fun _ d op _ _ hs (hstep : Deque.step d op = _) => hs.answer hstep) h hrun

end Represents

theorem represents_new : Represents (new : Blist V) Deque.empty where
  holds := ⟨by simpa [looseCells, Deque.empty, new] using Sat.empty, rfl, rfl⟩
  range := nofun

/-! ## The links -/

/-- The links of a list `es`: the header is its first node; a node links on to the next one, the
last one to nothing; a node links back to the one before it, the first one to the last. -/
structure Linked (s : Blist V) (es : List (Addr × V)) : Prop where
  header : s.header = first es
  node : ∀ zs e ys, es = zs ++ e :: ys →
    s.nodes e.1 = some ⟨e.2, (last zs).or (last es), first ys⟩

/-- The node of an entry points to the entries beside it. -/
theorem mem_cells {p n : Option Addr} {zs ys : List (Addr × V)} {e : Addr × V} :
    (e.1, ⟨e.2, (last zs).or p, (first ys).or n⟩) ∈ cells p (zs ++ e :: ys) n := by
  rw [cells_append, cells_cons]
  exact Multiset.mem_add.mpr (Or.inr (Multiset.mem_add.mpr (Or.inl (Multiset.mem_singleton_self _))))

/-- The nodes of the list are linked in the order of the sequence. -/
theorem Represents.linked (h : Represents s d) : Linked s d.seq where
  header := h.holds.header
  node zs e ys heq := by
    have hcell : (e.1, ⟨e.2, (last zs).or (last d.seq), (first ys).or none⟩)
        ∈ cells (last d.seq) d.seq none := by
      rw [heq]
      exact mem_cells
    rw [h.holds.sat.cell _ (Multiset.mem_add.mpr (Or.inl hcell)), Option.or_none]

/-- **A list is a deque.**  Along every sequence of calls that a deque allows, a list gives the
answers of the deque, has its sequence with every link in place, and counts its nodes; a node that
has been taken out stays out when it is extracted again. -/
theorem blist_refines_deque {ops : List (BlistOp V)} {bs : List (Option ℕ)}
    (h : outputs Deque.step Deque.empty ops = some (bs, d)) :
    ∃ s : Blist V, outputs answer new ops = some (bs, s) ∧ Linked s d.seq
      ∧ s.count = d.seq.length
      ∧ ∀ node v, (node, v) ∈ d.loose → (extract (some node)).run s = some ((), s) := by
  obtain ⟨s, hrun, hs⟩ := Represents.outputs represents_new h
  exact ⟨s, hrun, hs.linked, hs.holds.count, fun node v hnode => hs.extract_loose hnode⟩

/-- Two nodes are pushed, the first is extracted twice and pushed again. -/
theorem blist_refines_deque_again : ∃ s : Blist ℤ,
    outputs answer new [.createNode 1 10, .createNode 2 20, .pushBack 1, .pushBack 2, .extract 1,
      .extract 1, .pushBack 1] = some ([none, none, some 1, some 1, none, none, some 1], s)
      ∧ Linked s [(2, 20), (1, 10)] ∧ s.count = 2
      ∧ ∀ node v, (node, v) ∈ ([] : List (Addr × ℤ)) →
        (extract (some node)).run s = some ((), s) :=
  blist_refines_deque (d := ⟨[(2, 20), (1, 10)], []⟩) (by decide)

end Blist

end Mmkvc
