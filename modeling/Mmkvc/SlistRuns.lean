/-
# Runs on several lists (`algo/slist.h`)

Nodes move: `ExtractFront` and `ExtractNodeIf` hand a node out to the caller, who gives it to
another list with `EmplaceFrontNode` or drops it.  `Chains` is the lists as sequences together
with the nodes that callers hold.  `slist_outputs_chains_eq` says that the lists in memory are these
sequences in every run, and that memory has no other nodes.
-/
import Mmkvc.SlistCopy
import Mmkvc.Transition

namespace Mmkvc

namespace Slist

variable {ι V : Type} [DecidableEq ι]

/-! ## The rest of the source -/

/-- The loop of `GetSize`. -/
def getSizeLoop : ℕ → Option Addr → ℕ → SlistM ι V ℕ
  | _, none, ret => return ret
  | 0, some _, _ => failure
  | fuel + 1, some node, ret => do getSizeLoop fuel (← load node).next (ret + 1)

/-- `GetSize`. -/
protected def getSize (b : ι) : SlistM ι V ℕ := do getSizeLoop ((← bound) + 1) (← header b) 0

/-- `EraseIf`. -/
def eraseIf (b : ι) (pred : V → Bool) : SlistM ι V ℕ := do
  match ← extractNodeIf b pred with
  | some node => do
    dropNode node
    return 1
  | none => return 0

/-- The move constructor, of a list `b` from a list `c`. -/
def moveConstruct (b c : ι) : SlistM ι V Unit := do
  setHeader b (← header c)
  setHeader c none

end Slist

/-- A call.  The lists of `insertAfter` and `eraseAfter` are those of their iterators; `swap` is
also the move assignment, and `clear` the destructor. -/
inductive SlistOp (ι V : Type) where
  | createNode (value : V)
  | dropNode (node : Addr)
  | emplaceFront (b : ι) (value : V)
  | emplaceFrontNode (b : ι) (node : Addr)
  | extractFront (b : ι)
  | popFront (b : ι)
  | searchIf (b : ι) (pred : V → Bool)
  | extractNodeIf (b : ι) (pred : V → Bool)
  | eraseIf (b : ι) (pred : V → Bool)
  | insertAfter (b : ι) (pos : Addr) (value : V)
  | eraseAfter (b : ι) (pos : Addr)
  | getSize (b : ι)
  | swap (b c : ι)
  | moveConstruct (b c : ι)
  | clear (b : ι)

namespace Slist

variable {ι V : Type} [DecidableEq ι]

/-- What a call returns: the node it gives, and a number. -/
protected def call : SlistOp ι V → SlistM ι V (Option Addr × ℕ)
  | .createNode value => do return (some (← createNode value), 0)
  | .dropNode node => do
    dropNode node
    return (none, 0)
  | .emplaceFront b value => do
    emplaceFront b value
    return (none, 0)
  | .emplaceFrontNode b node => do
    emplaceFrontNode b node
    return (none, 0)
  | .extractFront b => do return (some (← extractFront b), 0)
  | .popFront b => do
    popFront b
    return (none, 0)
  | .searchIf b pred => do return (← searchNodeIf b pred, 0)
  | .extractNodeIf b pred => do return (← extractNodeIf b pred, 0)
  | .eraseIf b pred => do return (none, ← eraseIf b pred)
  | .insertAfter _ pos value => do
    insertAfterNode pos value
    return (none, 0)
  | .eraseAfter _ pos => do
    eraseAfterNode pos
    return (none, 0)
  | .getSize b => do return (none, ← Slist.getSize b)
  | .swap b c => do
    swap b c
    return (none, 0)
  | .moveConstruct b c => do
    moveConstruct b c
    return (none, 0)
  | .clear b => do
    clear b
    return (none, 0)

end Slist

/-- The memory with empty lists. -/
def SlistHeap.bare {ι V : Type} : SlistHeap ι V := ⟨fun _ => none, 0, fun _ => none⟩

/-! ## The lists as sequences -/

/-- The entries of the lists, the nodes that callers hold, and the address of the next new
node. -/
structure Chains (ι V : Type) where
  lists : ι → List (Addr × V)
  held : List (Addr × V)
  top : Addr

namespace Chains

open Slist

variable {ι V : Type} [DecidableEq ι]

def bare : Chains ι V := ⟨fun _ => [], [], 0⟩

/-- The entry at an address, and the others. -/
def take (a : Addr) : List (Addr × V) → Option ((Addr × V) × List (Addr × V))
  | [] => none
  | e :: es => if e.1 = a then some (e, es) else (take a es).map fun r => (r.1, e :: r.2)

/-- What follows the entry at an address is changed. -/
def behind (a : Addr) (f : List (Addr × V) → Option (List (Addr × V))) :
    List (Addr × V) → Option (List (Addr × V))
  | [] => none
  | e :: es => (if e.1 = a then f es else behind a f es).map (e :: ·)

/-- Another sequence for a list. -/
def put (g : Chains ι V) (b : ι) (es held : List (Addr × V)) (top : Addr) : Chains ι V :=
  ⟨Function.update g.lists b es, held, top⟩

/-- The sequences of two lists are exchanged. -/
def exchange (g : Chains ι V) (b c : ι) : Chains ι V :=
  { g with lists := Function.update (Function.update g.lists b (g.lists c)) c (g.lists b) }

/-- The calls on the sequences.  A call fails where its precondition does not hold: it needs an
entry and there is none, a node is given that the caller does not hold, an iterator is not in the
list or is at its end, or a list is constructed over one that has nodes. -/
def call (g : Chains ι V) : SlistOp ι V → Option ((Option Addr × ℕ) × Chains ι V)
  | .createNode v =>
    some ((some g.top, 0), { g with held := (g.top, v) :: g.held, top := g.top + 1 })
  | .dropNode a => (take a g.held).map fun r => ((none, 0), { g with held := r.2 })
  | .emplaceFront b v => some ((none, 0), g.put b ((g.top, v) :: g.lists b) g.held (g.top + 1))
  | .emplaceFrontNode b a =>
    (take a g.held).map fun r => ((none, 0), g.put b (r.1 :: g.lists b) r.2 g.top)
  | .extractFront b =>
    match g.lists b with
    | [] => none
    | e :: es => some ((some e.1, 0), g.put b es (e :: g.held) g.top)
  | .popFront b =>
    match g.lists b with
    | [] => none
    | _ :: es => some ((none, 0), g.put b es g.held g.top)
  | .searchIf b pred => some (((found pred (g.lists b)).map Prod.fst, 0), g)
  | .extractNodeIf b pred => some (((found pred (g.lists b)).map Prod.fst, 0),
      g.put b (without pred (g.lists b)) ((found pred (g.lists b)).toList ++ g.held) g.top)
  | .eraseIf b pred => some ((none, (found pred (g.lists b)).toList.length),
      g.put b (without pred (g.lists b)) g.held g.top)
  | .insertAfter b pos v => (behind pos (fun es => some ((g.top, v) :: es)) (g.lists b)).map
      fun es => ((none, 0), g.put b es g.held (g.top + 1))
  | .eraseAfter b pos => (behind pos List.tail? (g.lists b)).map
      fun es => ((none, 0), g.put b es g.held g.top)
  | .getSize b => some ((none, (g.lists b).length), g)
  | .swap b c => some ((none, 0), g.exchange b c)
  | .moveConstruct b c =>
    if (g.lists b).isEmpty then some ((none, 0), g.exchange b c) else none
  | .clear b => some ((none, 0), g.put b [] g.held g.top)

/-! ### Taking and changing -/

section

variable {a : Addr} {f : List (Addr × V) → Option (List (Addr × V))} {e : Addr × V}
  {es es' : List (Addr × V)}

/-- The nodes of entries that callers hold: they point nowhere. -/
def loose (es : List (Addr × V)) : Multiset (Addr × SNode V) :=
  (es.map fun e => (e.1, ⟨e.2, none⟩) : List (Addr × SNode V))

theorem loose_cons : loose (e :: es) = {(e.1, ⟨e.2, none⟩)} + loose es :=
  rfl

theorem loose_append (es es' : List (Addr × V)) : loose (es ++ es') = loose es + loose es' := by
  unfold loose
  rw [List.map_append, Multiset.coe_add]

theorem loose_toList (o : Option (Addr × V)) : loose o.toList = released o := by
  cases o <;> rfl

/-- A node that is taken is at the address, and without links. -/
theorem loose_of_take (h : take a es = some (e, es')) :
    e.1 = a ∧ loose es = {(e.1, ⟨e.2, none⟩)} + loose es' := by
  induction es generalizing es' with
  | nil => cases h
  | cons x es ih =>
    rw [take] at h
    split_ifs at h with hx
    · obtain ⟨rfl, rfl⟩ := Prod.mk.inj (Option.some.inj h)
      exact ⟨hx, rfl⟩
    · obtain ⟨r, hr, heq⟩ := Option.map_eq_some_iff.mp h
      obtain ⟨rfl, rfl⟩ := Prod.mk.inj heq
      obtain ⟨ha, hloose⟩ := ih hr
      refine ⟨ha, ?_⟩
      rw [loose_cons, loose_cons, hloose, add_left_comm]

/-- What is changed is behind the entry with the address. -/
theorem exists_of_behind (h : behind a f es = some es') :
    ∃ pre v post post', es = pre ++ (a, v) :: post ∧ f post = some post'
      ∧ es' = pre ++ (a, v) :: post' := by
  induction es generalizing es' with
  | nil => cases h
  | cons x es ih =>
    obtain ⟨out, hout, rfl⟩ := Option.map_eq_some_iff.mp h
    split_ifs at hout with hx
    · subst hx
      exact ⟨[], x.2, es, out, rfl, hout, rfl⟩
    · obtain ⟨pre, v, post, post', rfl, hf, rfl⟩ := ih hout
      exact ⟨x :: pre, v, post, post', rfl, hf, rfl⟩

end

/-! ### A change behind an entry -/

section

variable {e : Addr × V} {es fs : List (Addr × V)} {M : Multiset (Addr × SNode V)} {hd : ι → Option Addr}
  {top : Addr} {a : Addr} {v w : V} {pred : V → Bool} {b c : ι}

/-- The nodes before the entry at `a`. -/
def stretch (a : Addr) : List (Addr × V) → Multiset (Addr × SNode V)
  | [] => 0
  | e :: es => {(e.1, ⟨e.2, some ((first es).getD a)⟩)} + stretch a es

theorem first_append (es : List (Addr × V)) (a : Addr) (v : V) (fs : List (Addr × V)) :
    first (es ++ (a, v) :: fs) = some ((first es).getD a) := by
  cases es <;> rfl

/-- They do not depend on what follows. -/
theorem cells_append (es : List (Addr × V)) (a : Addr) (v : V) (fs : List (Addr × V)) :
    cells (es ++ (a, v) :: fs) = stretch a es + cells ((a, v) :: fs) := by
  induction es with
  | nil => exact (zero_add _).symm
  | cons e es ih => rw [List.cons_append, Slist.cells_cons, ih, first_append, stretch, add_assoc]

omit [DecidableEq ι] in
/-- A new node is linked behind the entry at the address. -/
theorem insertAfter_spec : Triple (SlistMem (cells (es ++ (a, v) :: fs) + M) hd top)
    (insertAfterNode a w : SlistM ι V Unit)
    fun _ => SlistMem (cells (es ++ (a, v) :: (top, w) :: fs) + M) hd (top + 1) := by
  have hpre : cells (es ++ (a, v) :: fs) + M
      = {(a, ⟨v, first fs⟩)} + (stretch a es + (cells fs + M)) := by
    rw [cells_append, Slist.cells_node]
    abel
  have hpost : cells (es ++ (a, v) :: (top, w) :: fs) + M
      = {(a, ⟨v, some top⟩)} + ({(top, ⟨w, first fs⟩)} + (stretch a es + (cells fs + M))) := by
    rw [cells_append, Slist.cells_node, Slist.cells_node, first_cons]
    abel
  rw [hpre, hpost]
  exact Slist.insertAfterNode_spec

omit [DecidableEq ι] in
/-- The node behind the entry at the address is given back. -/
theorem eraseAfter_spec : Triple (SlistMem (cells (es ++ (a, v) :: e :: fs) + M) hd top)
    (eraseAfterNode a : SlistM ι V Unit)
    fun _ => SlistMem (cells (es ++ (a, v) :: fs) + M) hd top := by
  rw [cells_append, cells_append, add_assoc (stretch a es), add_left_comm (stretch a es),
    add_assoc (stretch a es), add_left_comm (stretch a es)]
  exact Slist.eraseAfterNode_spec

/-! ### The calls of this module -/

omit [DecidableEq ι] in
/-- The loop counts the entries. -/
theorem getSizeLoop_spec {fuel ret : ℕ} (hfuel : es.length ≤ fuel) :
    Triple (SlistMem (cells es + M) hd top) (getSizeLoop fuel (first es) ret : SlistM ι V ℕ)
      fun r s => r = es.length + ret ∧ SlistMem (cells es + M) hd top s := by
  induction es generalizing M fuel ret with
  | nil =>
    rw [first_nil, getSizeLoop, List.length_nil, zero_add]
    exact triple_pure fun s hs => ⟨rfl, hs⟩
  | cons e es ih =>
    obtain ⟨fuel, rfl⟩ := Nat.exists_eq_add_one_of_ne_zero
      (Nat.ne_of_gt (Nat.lt_of_lt_of_le es.length.succ_pos hfuel))
    rw [first_cons, getSizeLoop, Slist.cells_cons, add_assoc, List.length_cons, add_assoc, add_comm 1 ret]
    refine Slist.load_bind (n := ⟨e.2, first es⟩) (by simp) ?_
    rw [add_left_comm]
    exact ih (Nat.le_of_succ_le_succ hfuel)

omit [DecidableEq ι] in
/-- `GetSize` counts the entries. -/
theorem getSize_spec (hb : hd b = first es) :
    Triple (SlistMem (cells es + M) hd top) (Slist.getSize b : SlistM ι V ℕ)
      fun r s => r = es.length ∧ SlistMem (cells es + M) hd top s := by
  refine Slist.bound_bind (Slist.header_bind ?_)
  rw [hb]
  exact Triple.of_pre (fun hle => getSizeLoop_spec (Nat.le_succ_of_le hle)) fun s hs => Slist.length_le hs

/-- The first entry that satisfies the predicate is given back. -/
theorem eraseIf_spec (hb : hd b = first es) :
    Triple (SlistMem (cells es + M) hd top) (eraseIf b pred)
      fun r s => r = (found pred es).toList.length ∧ SlistMem (cells (without pred es) + M)
        (Function.update hd b (first (without pred es))) top s := by
  refine Triple.bind_eq (Slist.extractNodeIf_spec hb) ?_
  cases found pred es with
  | none =>
    refine triple_pure fun s hs => ⟨rfl, ?_⟩
    rwa [released, zero_add] at hs
  | some e =>
    rw [released, add_left_comm]
    exact Triple.bind Slist.dropNode_spec fun _ => triple_pure fun s hs => ⟨rfl, hs⟩

/-- An empty list takes the nodes of another one. -/
theorem moveConstruct_spec (hb : hd b = none) :
    Triple (SlistMem M hd top) (moveConstruct b c : SlistM ι V Unit)
      fun _ => SlistMem M (Function.update (Function.update hd b (hd c)) c (hd b)) top := by
  rw [hb]
  exact Slist.header_bind (Triple.bind Slist.setHeader_spec fun _ => Slist.setHeader_spec)

end

/-! ### Memory -/

section

variable [Fintype ι] {g g' : Chains ι V} {b c : ι} {es held : List (Addr × V)} {top : Addr}
  {s : SlistHeap ι V}

/-- The pointers to the first nodes. -/
def headers (g : Chains ι V) (b : ι) : Option Addr := first (g.lists b)

/-- The nodes of all lists but one. -/
def others (g : Chains ι V) (b : ι) : Multiset (Addr × SNode V) :=
  ∑ c ∈ Finset.univ.erase b, cells (g.lists c)

/-- Memory has the nodes of the lists and those that callers hold, and no others. -/
def Holds (g : Chains ι V) : SlistHeap ι V → Prop :=
  SlistMem (∑ b, cells (g.lists b) + loose g.held) g.headers g.top

/-- One list and the others. -/
theorem sum_cells (g : Chains ι V) (b : ι) :
    ∑ c, cells (g.lists c) = cells (g.lists b) + g.others b :=
  (Finset.add_sum_erase _ _ (Finset.mem_univ b)).symm

/-- One list comes into focus. -/
theorem holds_eq (g : Chains ι V) (b : ι) :
    g.Holds = SlistMem (cells (g.lists b) + (g.others b + loose g.held)) g.headers g.top := by
  unfold Holds
  rw [g.sum_cells b, add_assoc]

omit [Fintype ι] in
theorem put_lists_self : (g.put b es held top).lists b = es :=
  Function.update_self _ _ _

omit [Fintype ι] in
theorem put_lists_of_ne (hc : c ≠ b) : (g.put b es held top).lists c = g.lists c :=
  Function.update_of_ne hc _ _

/-- A list does not belong to the others. -/
theorem others_put : (g.put b es held top).others b = g.others b := by
  refine Finset.sum_congr rfl fun c hc => ?_
  rw [put_lists_of_ne (Finset.ne_of_mem_erase hc)]

omit [Fintype ι] in
theorem headers_put : (g.put b es held top).headers = Function.update g.headers b (first es) :=
  funext fun c => Function.apply_update (fun _ es => first es) g.lists b es c

/-- It goes back. -/
theorem holds_put : (g.put b es held top).Holds
    = SlistMem (cells es + (g.others b + loose held)) (Function.update g.headers b (first es)) top := by
  rw [holds_eq _ b, others_put, headers_put, put_lists_self]
  rfl

/-- The same, where its first node stays. -/
theorem holds_put_of_first (hfirst : first es = first (g.lists b)) : (g.put b es held top).Holds
    = SlistMem (cells es + (g.others b + loose held)) g.headers top := by
  rw [holds_put, hfirst]
  congr 1
  exact Function.update_eq_self b g.headers

omit [DecidableEq ι] in
/-- One node more in the hands of a caller. -/
theorem holds_hold {e : Addr × V} : Holds { g with held := e :: g.held, top := top }
    = SlistMem ({(e.1, ⟨e.2, none⟩)} + (∑ b, cells (g.lists b) + loose g.held)) g.headers top := by
  unfold Holds
  rw [loose_cons, add_left_comm]
  rfl

/-- Memory after two lists have exchanged their entries. -/
theorem holds_exchange : (g.exchange b c).Holds = SlistMem (∑ b, cells (g.lists b) + loose g.held)
    (Function.update (Function.update g.headers b (g.headers c)) c (g.headers b)) g.top := by
  have hlists : (g.exchange b c).lists = g.lists ∘ Equiv.swap c b :=
    (Equiv.comp_swap_eq_update c b g.lists).symm
  have hheaders : (g.exchange b c).headers = g.headers ∘ Equiv.swap c b := by
    funext i
    exact congrArg first (congrFun hlists i)
  have hsum : ∑ i, cells ((g.exchange b c).lists i) = ∑ i, cells (g.lists i) := by
    rw [hlists]
    exact Equiv.sum_comp (Equiv.swap c b) fun i => cells (g.lists i)
  unfold Holds
  rw [hsum, hheaders, Equiv.comp_swap_eq_update]
  rfl

omit [DecidableEq ι] in
/-- The empty memory holds empty lists. -/
theorem holds_bare : (bare : Chains ι V).Holds SlistHeap.bare := by
  refine ⟨?_, rfl, rfl, fun _ _ => rfl⟩
  rw [show ∑ b : ι, cells ((bare : Chains ι V).lists b) = 0 from Finset.sum_eq_zero fun _ _ => rfl]
  exact Sat.empty

/-- **Memory follows the sequences.** -/
theorem call_spec {op : SlistOp ι V} {r : Option Addr × ℕ} (h : g.call op = some (r, g')) :
    Triple g.Holds (Slist.call op) fun x s => x = r ∧ g'.Holds s := by
  -- each call is one operation with its result repacked; it acts on one list and leaves the others
  have hdone {P : SlistHeap ι V → Prop} {x : Option Addr × ℕ} :
      Triple P (pure x : SlistM ι V _) fun y s => y = x ∧ P s :=
    triple_pure fun s hs => ⟨rfl, hs⟩
  cases op with
  | createNode v =>
    obtain ⟨rfl, rfl⟩ := Prod.mk.inj (Option.some.inj h)
    rw [holds_hold]
    exact Triple.bind_eq Slist.createNode_spec hdone
  | dropNode a =>
    obtain ⟨⟨e, es⟩, htake, heq⟩ := Option.map_eq_some_iff.mp h
    obtain ⟨rfl, rfl⟩ := Prod.mk.inj heq
    obtain ⟨rfl, hloose⟩ := loose_of_take htake
    unfold Holds
    rw [hloose, add_left_comm]
    exact Triple.bind Slist.dropNode_spec fun _ => hdone
  | emplaceFront b v =>
    obtain ⟨rfl, rfl⟩ := Prod.mk.inj (Option.some.inj h)
    rw [g.holds_eq b, holds_put]
    exact Triple.bind (Slist.emplaceFront_spec rfl) fun _ => hdone
  | emplaceFrontNode b a =>
    obtain ⟨⟨e, es⟩, htake, heq⟩ := Option.map_eq_some_iff.mp h
    obtain ⟨rfl, rfl⟩ := Prod.mk.inj heq
    obtain ⟨rfl, hloose⟩ := loose_of_take htake
    rw [g.holds_eq b, holds_put, hloose, add_left_comm (g.others b), add_left_comm (cells _)]
    exact Triple.bind (Slist.emplaceFrontNode_spec rfl) fun _ => hdone
  | extractFront b =>
    cases hes : g.lists b with
    | nil =>
      rw [call, hes] at h
      cases h
    | cons e es =>
      rw [call, hes] at h
      obtain ⟨rfl, rfl⟩ := Prod.mk.inj (Option.some.inj h)
      have hb : g.headers b = some e.1 := congrArg first hes
      rw [g.holds_eq b, holds_put, hes, loose_cons, add_left_comm (g.others b), add_left_comm (cells es)]
      exact Triple.bind_eq (Slist.extractFront_spec hb) hdone
  | popFront b =>
    cases hes : g.lists b with
    | nil =>
      rw [call, hes] at h
      cases h
    | cons e es =>
      rw [call, hes] at h
      obtain ⟨rfl, rfl⟩ := Prod.mk.inj (Option.some.inj h)
      have hb : g.headers b = some e.1 := congrArg first hes
      rw [g.holds_eq b, holds_put, hes]
      exact Triple.bind (Slist.popFront_spec hb) fun _ => hdone
  | searchIf b pred =>
    obtain ⟨rfl, rfl⟩ := Prod.mk.inj (Option.some.inj h)
    rw [g.holds_eq b]
    exact Triple.bind_eq (Slist.searchNodeIf_spec rfl) hdone
  | extractNodeIf b pred =>
    obtain ⟨rfl, rfl⟩ := Prod.mk.inj (Option.some.inj h)
    rw [g.holds_eq b, holds_put, loose_append, loose_toList, add_left_comm (g.others b)]
    exact Triple.bind_eq (Slist.extractNodeIf_spec rfl) hdone
  | eraseIf b pred =>
    obtain ⟨rfl, rfl⟩ := Prod.mk.inj (Option.some.inj h)
    rw [g.holds_eq b, holds_put]
    exact Triple.bind_eq (eraseIf_spec rfl) hdone
  | insertAfter b pos v =>
    obtain ⟨es, hbehind, heq⟩ := Option.map_eq_some_iff.mp h
    obtain ⟨rfl, rfl⟩ := Prod.mk.inj heq
    obtain ⟨pre, w, post, post', hes, hpost, rfl⟩ := exists_of_behind hbehind
    obtain rfl := Option.some.inj hpost
    -- the header of the list stays, since the entry at the address does
    rw [g.holds_eq b, holds_put_of_first (by rw [hes, first_append, first_append]), hes]
    exact Triple.bind insertAfter_spec fun _ => hdone
  | eraseAfter b pos =>
    obtain ⟨es, hbehind, heq⟩ := Option.map_eq_some_iff.mp h
    obtain ⟨rfl, rfl⟩ := Prod.mk.inj heq
    obtain ⟨pre, w, post, post', hes, hpost, rfl⟩ := exists_of_behind hbehind
    rw [g.holds_eq b, holds_put_of_first (by rw [hes, first_append, first_append]), hes]
    cases post with
    | nil => cases hpost
    | cons e post =>
      obtain rfl := Option.some.inj hpost
      exact Triple.bind eraseAfter_spec fun _ => hdone
  | getSize b =>
    obtain ⟨rfl, rfl⟩ := Prod.mk.inj (Option.some.inj h)
    rw [g.holds_eq b]
    exact Triple.bind_eq (getSize_spec rfl) hdone
  | swap b c =>
    obtain ⟨rfl, rfl⟩ := Prod.mk.inj (Option.some.inj h)
    rw [holds_exchange]
    exact Triple.bind Slist.swap_spec fun _ => hdone
  | moveConstruct b c =>
    rw [call] at h
    split_ifs at h with hempty
    obtain ⟨rfl, rfl⟩ := Prod.mk.inj (Option.some.inj h)
    have hb : g.headers b = none := congrArg first (List.isEmpty_iff.mp hempty)
    rw [holds_exchange]
    exact Triple.bind (moveConstruct_spec hb) fun _ => hdone
  | clear b =>
    obtain ⟨rfl, rfl⟩ := Prod.mk.inj (Option.some.inj h)
    rw [g.holds_eq b, holds_put, Slist.cells_nil, zero_add]
    exact Triple.bind (Slist.clear_spec rfl) fun _ => hdone

/-- Each list is in memory as its sequence, the nodes that callers hold point nowhere, no node is
in two places, and there is no other node. -/
structure InMemory (g : Chains ι V) (s : SlistHeap ι V) : Prop where
  header : ∀ b, s.headers b = first (g.lists b)
  node : ∀ b, ∀ c ∈ cells (g.lists b), s.nodes c.1 = some c.2
  held : ∀ e ∈ g.held, s.nodes e.1 = some ⟨e.2, none⟩
  once : ((∑ b, (g.lists b : Multiset (Addr × V)) + g.held).map Prod.fst).Nodup
  only : ∀ a, s.nodes a ≠ none → a ∈ (∑ b, (g.lists b : Multiset (Addr × V)) + g.held).map Prod.fst

omit [DecidableEq ι] in
/-- The addresses of all lists are those of each. -/
theorem map_fst_sum {β : Type} (f : ι → Multiset (Addr × β)) :
    (∑ b, f b).map Prod.fst = ∑ b, (f b).map Prod.fst :=
  map_sum (Multiset.mapAddMonoidHom Prod.fst) f Finset.univ

omit [DecidableEq ι] in
/-- All nodes are at the addresses of the entries. -/
theorem map_fst_cells (g : Chains ι V) : (∑ b, cells (g.lists b) + loose g.held).map Prod.fst
    = (∑ b, (g.lists b : Multiset (Addr × V)) + g.held).map Prod.fst := by
  have hloose : (loose g.held).map Prod.fst = (g.held : Multiset (Addr × V)).map Prod.fst := by
    unfold loose
    rw [Multiset.map_coe, Multiset.map_coe, List.map_map]
    rfl
  have hsum : ∑ b, (cells (g.lists b)).map Prod.fst
      = ∑ b, (g.lists b : Multiset (Addr × V)).map Prod.fst :=
    Finset.sum_congr rfl fun b _ => Slist.cells_map_fst (g.lists b)
  rw [Multiset.map_add, Multiset.map_add, map_fst_sum, map_fst_sum, hloose, hsum]

omit [DecidableEq ι] in
/-- Each list is in memory from its header on. -/
theorem Holds.inMemory (hs : g.Holds s) : g.InMemory s where
  header b := congrFun hs.headers b
  node b c hc := hs.sat.cell c (Multiset.mem_add.mpr (Or.inl
    (Multiset.mem_sum.mpr ⟨b, Finset.mem_univ b, hc⟩)))
  held e he := hs.sat.cell (e.1, ⟨e.2, none⟩) (Multiset.mem_add.mpr (Or.inr
    (Multiset.mem_coe.mpr (List.mem_map.mpr ⟨e, he, rfl⟩))))
  once := by
    rw [← map_fst_cells]
    exact hs.sat.nodup
  only a ha := by
    rw [← map_fst_cells]
    by_contra hmem
    exact ha (hs.sat.rest a hmem)

end

end Chains

/-- **The lists are sequences.**  In every run of calls on lists that share a memory, in which
each call has what it needs, the calls give the nodes and the numbers that they give on
sequences, and in the end memory has the nodes of the sequences and those that callers hold:
no node is lost, none is in two lists, and none is left over. -/
theorem slist_outputs_chains_eq {ι V : Type} [DecidableEq ι] [Fintype ι] {ops : List (SlistOp ι V)}
    {rs : List (Option Addr × ℕ)} {g : Chains ι V}
    (h : Transition.outputs Chains.call Chains.bare ops = some (rs, g)) :
    ∃ s, Transition.outputs (fun s op => (Slist.call op).run s) SlistHeap.bare ops = some (rs, s)
      ∧ g.InMemory s := by
  have hstep : ∀ (s : SlistHeap ι V) (g : Chains ι V) op r g', g.Holds s → g.call op = some (r, g') →
      ∃ s', (Slist.call op).run s = some (r, s') ∧ g'.Holds s' := by
    intro s g op r g' hs hcall
    obtain ⟨x, s', hrun, rfl, hs'⟩ := Chains.call_spec hcall s hs
    exact ⟨s', hrun, hs'⟩
  obtain ⟨s, hrun, hs⟩ := Transition.outputs_of_simulates hstep Chains.holds_bare h
  exact ⟨s, hrun, hs.inMemory⟩

/-- A node moves from one list to the other, which is then changed behind it. -/
def movingRun : List (SlistOp Bool ℤ) :=
  [.emplaceFront true 1, .emplaceFront true 2, .extractNodeIf true (· == 1),
    .emplaceFrontNode false 0, .insertAfter false 0 7, .insertAfter false 0 8, .eraseAfter false 0,
    .swap false true, .getSize true, .extractFront true, .dropNode 0, .eraseIf false (· == 2)]

theorem slist_outputs_chains_movingRun : ∃ rs g s,
    Transition.outputs Chains.call Chains.bare movingRun = some (rs, g)
      ∧ Transition.outputs (fun s op => (Slist.call op).run s) SlistHeap.bare movingRun
        = some (rs, s)
      ∧ g.InMemory s := by
  obtain ⟨rs, g, h⟩ : ∃ rs g, Transition.outputs Chains.call Chains.bare movingRun
      = some (rs, g) := ⟨_, _, rfl⟩
  obtain ⟨s, hs⟩ := slist_outputs_chains_eq h
  exact ⟨rs, g, s, h, hs⟩

end Mmkvc
