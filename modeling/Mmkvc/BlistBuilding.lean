/-
# Three ways to build a list (`algo/blist.h`)

The constructor from an initializer list links its nodes itself and does not count them, and
`InsertAfter` on an empty list follows a null pointer.  `builds_alike_iff` says that both build what
`PushBack` builds only where there is nothing to build.
-/
import Mmkvc.BlistRuns

namespace Mmkvc

open Transition

namespace Blist

variable {V : Type}

/-! ## The source -/

/-- The loop of the constructor. -/
def initLoop : Addr → List (Addr × V) → BlistM V Addr
  | prev, [] => return prev
  | prev, e :: es => do
    createNode e.1 e.2
    setNext prev (some e.1)
    setPrev e.1 (some prev)
    initLoop e.1 es

/-- The constructor from an initializer list; each value has the address of its node with it. -/
def initList : List (Addr × V) → BlistM V Unit
  | [] => return ()
  | e :: es => do
    createNode e.1 e.2
    putHeader (some e.1)
    let prev ← initLoop e.1 es
    setPrev (← deref (← getHeader)) (some prev)

/-- `BackNode`. -/
def backNode : BlistM V (Option Addr) := do return (← load (← deref (← getHeader))).prev

/-- `InsertAfter` at the tail, for each value. -/
def insertTail : List (Addr × V) → BlistM V Unit
  | [] => return ()
  | e :: es => do
    createNode e.1 e.2
    insertAfter (← backNode) e.1
    insertTail es

/-- `InsertAfter` behind no node, and then at the tail. -/
def insertList : List (Addr × V) → BlistM V Unit
  | [] => return ()
  | e :: es => do
    createNode e.1 e.2
    insertAfter none e.1
    insertTail es

/-- `PushBack`, for each value. -/
def pushList : List (Addr × V) → BlistM V Unit
  | [] => return ()
  | e :: es => do
    createNode e.1 e.2
    let _ ← pushBack e.1
    pushList es

/-! ## What is built -/

/-- Addresses as the allocator gives them to the nodes of a list: not null, no two the same. -/
structure Allocated (es : List (Addr × V)) : Prop where
  nodup : (es.map Prod.fst).Nodup
  range : ∀ e ∈ es, 0 < e.1 ∧ e.1 < 2 ^ 64

/-- Two programs build lists of the values `es` that have the same sequence, links and size, and
answer every later sequence of calls alike. -/
def Alike (p q : BlistM V Unit) (es : List (Addr × V)) : Prop :=
  ∃ s t, p.run new = some ((), s) ∧ q.run new = some ((), t)
    ∧ (∃ fs, Linked s fs ∧ Linked t fs) ∧ s.count = t.count
    ∧ ∀ ops bs d, outputs Deque.step ⟨es, []⟩ ops = some (bs, d) →
      ∃ bs' s' t', outputs answer s ops = some (bs', s') ∧ outputs answer t ops = some (bs', t')

/-- All three ways build the same. -/
def BuildsAlike (es : List (Addr × V)) : Prop :=
  Alike (initList es) (pushList es) es ∧ Alike (insertList es) (pushList es) es

variable {es zs : List (Addr × V)} {p hdr : Option Addr} {cnt : ℕ}

/-- An entry that comes later is not among the first ones. -/
theorem notMem_cells {e : Addr × V} (hnodup : ((zs ++ e :: es).map Prod.fst).Nodup) :
    e.1 ∉ (cells p zs none).map Prod.fst := by
  rw [cells_map_fst, Multiset.mem_coe]
  rw [List.map_append, List.map_cons, List.nodup_middle, List.nodup_cons] at hnodup
  exact fun hmem => hnodup.1 (List.mem_append_left _ hmem)

/-- The loop makes the chain longer; its first node does not link back yet. -/
theorem initLoop_spec (zs : List (Addr × V)) {g : Addr × V}
    (hnodup : ((zs ++ g :: es).map Prod.fst).Nodup) :
    Triple (BlistMem (cells p (zs ++ [g]) none) hdr cnt) (initLoop g.1 es)
      fun r s => last (g :: es) = some r ∧ BlistMem (cells p (zs ++ g :: es) none) hdr cnt s := by
  induction es generalizing zs g with
  | nil => exact triple_pure fun s hs => ⟨rfl, hs⟩
  | cons e es ih =>
    have hnodup' : (((zs ++ [g]) ++ e :: es).map Prod.fst).Nodup := by
      rwa [List.append_assoc, List.singleton_append]
    refine Triple.bind (createNode_spec (notMem_cells hnodup')) fun _ => ?_
    rw [add_comm]
    refine Triple.bind (setNext_last_spec last_concat) fun _ => ?_
    rw [add_comm]
    refine Triple.bind modifyNode_spec fun _ => ?_
    have hchain : cells p ((zs ++ [g]) ++ [e]) none
        = cells p (zs ++ [g]) (some e.1) + {(e.1, ⟨e.2, some g.1, none⟩)} := by
      refine cells_concat.trans ?_
      rw [last_concat, Option.some_or]
    rw [add_comm, ← hchain]
    refine (ih _ hnodup').post fun r s hs => ⟨hs.1, ?_⟩
    have hs' := hs.2
    rwa [List.append_assoc, List.singleton_append] at hs'

/-- The constructor links the nodes and does not count them. -/
theorem initList_spec (h : Allocated es) :
    Triple (BlistMem 0 none 0) (initList es)
      fun _ => BlistMem (cells (last es) es none) (first es) 0 := by
  cases es with
  | nil => exact triple_pure fun s hs => hs
  | cons e es =>
    refine Triple.bind (createNode_spec (Multiset.notMem_zero _)) fun _ => ?_
    refine Triple.bind putHeader_spec fun _ => ?_
    refine Triple.bind (initLoop_spec [] (p := none) h.nodup) fun r => ?_
    refine Triple.of_pre (C := last (e :: es) = some r) (fun hr => ?_) fun s hs => hs.1
    refine Triple.pre (getHeader_bind (deref_bind ?_)) fun s hs => hs.2
    rw [hr, List.nil_append, ← add_zero (cells none _ _), ← add_zero (cells (some r) _ _)]
    exact setPrev_first_spec rfl

/-- `PushBack` builds the list and counts its nodes. -/
theorem pushList_spec (zs : List (Addr × V)) (hnodup : ((zs ++ es).map Prod.fst).Nodup)
    (hlt : (zs ++ es).length < 2 ^ 64) :
    Triple (Holds zs 0) (pushList es) fun _ => Holds (zs ++ es) 0 := by
  induction es generalizing zs with
  | nil => exact triple_pure fun s hs => by rwa [List.append_nil]
  | cons e es ih =>
    have hmid : zs ++ e :: es = (zs ++ [e]) ++ es := by rw [List.append_assoc]; rfl
    have hlt' : zs.length + 1 < 2 ^ 64 := by
      rw [List.length_append, List.length_cons] at hlt
      omega
    have hnew : e.1 ∉ (cells (last zs) zs none + 0).map Prod.fst := by
      rw [add_zero]
      exact notMem_cells hnodup
    refine Triple.bind (createNode_spec hnew) fun _ => ?_
    rw [add_left_comm]
    refine Triple.bind_eq (pushBack_spec hlt') ?_
    rw [hmid] at hnodup hlt ⊢
    exact ih _ hnodup hlt

/-- The list that the constructor builds has every link, and no size. -/
theorem exists_initList (h : Allocated es) :
    ∃ s, (initList es).run new = some ((), s) ∧ Linked s es ∧ s.count = 0 := by
  obtain ⟨_, s, hrun, hs⟩ := initList_spec h new ⟨Sat.empty, rfl, rfl⟩
  refine ⟨s, hrun, ⟨hs.header, fun zs e ys heq => ?_⟩, hs.count⟩
  have hcell : (e.1, ⟨e.2, (last zs).or (last es), (first ys).or none⟩)
      ∈ cells (last es) es none := by
    rw [heq]
    exact mem_cells
  rw [hs.sat.cell _ hcell, Option.or_none]

/-- The entries are pushed one after the other. -/
theorem exists_pushList (h : Allocated es) :
    ∃ s, (pushList es).run new = some ((), s) ∧ Linked s es ∧ s.count = es.length := by
  obtain ⟨_, s, hrun, hs⟩ := pushList_spec [] h.nodup
    (length_lt_of_range h.nodup h.range) new represents_new.holds
  have hrep : Represents s ⟨es, []⟩ := ⟨hs, by simpa using h.range⟩
  exact ⟨s, hrun, hrep.linked, hs.count⟩

/-- A value is inserted behind no node. -/
theorem insertList_cons (e : Addr × V) (es : List (Addr × V)) :
    (insertList (e :: es)).run new = none := rfl

/-- Both programs make an empty list. -/
theorem alike_nil {p q : BlistM V Unit} (hp : p.run new = some ((), new))
    (hq : q.run new = some ((), new)) : Alike p q ([] : List (Addr × V)) := by
  refine ⟨new, new, hp, hq, ⟨[], represents_new.linked, represents_new.linked⟩, rfl, ?_⟩
  intro ops bs d hrun
  obtain ⟨s, hs, -⟩ := represents_new.outputs hrun
  exact ⟨bs, s, s, hs, hs⟩

/-- **When the three ways agree.**  The constructor builds what `PushBack` does, and so does
`InsertAfter`, only of no values. -/
theorem builds_alike_iff (h : Allocated es) :
    (BuildsAlike es ↔ es = [])
      ∧ (Alike (initList es) (pushList es) es ↔ es = [])
      ∧ (Alike (insertList es) (pushList es) es ↔ es = []) := by
  have hinit : Alike (initList es) (pushList es) es ↔ es = [] := by
    constructor
    · rintro ⟨s, t, hs, ht, -, hcount, -⟩
      obtain ⟨s', hs', -, hzero⟩ := exists_initList h
      obtain ⟨t', ht', -, hlen⟩ := exists_pushList h
      obtain rfl : s = s' := (Prod.mk.inj (Option.some.inj (hs.symm.trans hs'))).2
      obtain rfl : t = t' := (Prod.mk.inj (Option.some.inj (ht.symm.trans ht'))).2
      rw [hzero, hlen] at hcount
      exact List.length_eq_zero_iff.mp hcount.symm
    · rintro rfl
      exact alike_nil rfl rfl
  have hinsert : Alike (insertList es) (pushList es) es ↔ es = [] := by
    constructor
    · rintro ⟨s, t, hs, -⟩
      cases es with
      | nil => rfl
      | cons e es =>
        rw [insertList_cons] at hs
        cases hs
    · rintro rfl
      exact alike_nil rfl rfl
  refine ⟨⟨fun hboth => hinit.mp hboth.1, fun hnil => ?_⟩, hinit, hinsert⟩
  exact ⟨hinit.mpr hnil, hinsert.mpr hnil⟩

/-- With one value the three ways differ. -/
theorem builds_alike_iff_one : ¬ BuildsAlike [((1 : Addr), (10 : ℤ))]
    ∧ ¬ Alike (initList [((1 : Addr), (10 : ℤ))]) (pushList [(1, 10)]) [(1, 10)] := by
  have h : Allocated [((1 : Addr), (10 : ℤ))] := ⟨by decide, by decide⟩
  exact ⟨fun hboth => List.cons_ne_nil _ _ ((builds_alike_iff h).1.mp hboth),
    fun hinit => List.cons_ne_nil _ _ ((builds_alike_iff h).2.1.mp hinit)⟩

/-- On the list that the constructor builds of one value, the first pop follows a null pointer. -/
theorem not_builds_alike : ¬ ∀ es : List (Addr × ℤ), Allocated es → BuildsAlike es := by
  intro h
  obtain ⟨⟨s, t, hs, ht, -, -, hlater⟩, -⟩ := h [(1, 10)] ⟨by decide, by decide⟩
  obtain ⟨bs, s', t', hpop, -⟩ := hlater [.popFront] [some 1] ⟨[], []⟩ rfl
  have hstuck : ((initList [((1 : Addr), (10 : ℤ))]).run new).bind
      (fun p => outputs answer p.2 [.popFront]) = none := rfl
  rw [hs, Option.bind_some, hpop] at hstuck
  cases hstuck

end Blist

end Mmkvc
