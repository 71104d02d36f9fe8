/-
# What the operations of a list do

`SlistMem M hd top` says that memory is the nodes `M` with the headers `hd`.  Each operation
of a list takes the nodes of that list and leaves the others `M` as they are.
-/
import Mmkvc.Slist

namespace Mmkvc

variable {ι V : Type}

/-- Memory with the nodes `M`, the headers `hd`, and the first address `top` that was never
given out. -/
structure SlistMem (M : Multiset (Addr × SNode V)) (hd : ι → Option Addr) (top : ℕ)
    (s : SlistHeap ι V) : Prop where
  sat : Sat s.nodes M
  headers : s.headers = hd
  next : s.next = top
  fresh : ∀ a, top ≤ a → s.nodes a = none

namespace Slist

/-! ## Lists -/

/-- The nodes of a list. -/
def cells : List (Addr × V) → Multiset (Addr × SNode V)
  | [] => 0
  | e :: es => {(e.1, ⟨e.2, first es⟩)} + cells es

/-- The entry that a search finds. -/
def found (pred : V → Bool) (es : List (Addr × V)) : Option (Addr × V) := es.find? fun e => pred e.2

/-- The list without the entry that a search finds. -/
def without (pred : V → Bool) (es : List (Addr × V)) : List (Addr × V) := es.eraseP fun e => pred e.2

/-- The node of an entry that has been taken out. -/
def released : Option (Addr × V) → Multiset (Addr × SNode V)
  | none => 0
  | some e => {(e.1, ⟨e.2, none⟩)}

section

variable {e : Addr × V} {es : List (Addr × V)} {pred : V → Bool}

@[simp] theorem cells_nil : cells ([] : List (Addr × V)) = 0 := rfl

theorem cells_cons : cells (e :: es) = {(e.1, ⟨e.2, first es⟩)} + cells es := rfl

/-- A list has as many nodes as entries. -/
theorem card_cells (es : List (Addr × V)) : Multiset.card (cells es) = es.length := by
  induction es with
  | nil => rfl
  | cons e es ih =>
    rw [cells_cons, Multiset.card_add, ih, Multiset.card_singleton, List.length_cons, add_comm]

/-- The nodes of a list are its entries. -/
theorem cells_map_fst (es : List (Addr × V)) :
    (cells es).map Prod.fst = (es : Multiset (Addr × V)).map Prod.fst := by
  induction es with
  | nil => rfl
  | cons e es ih =>
    rw [cells_cons, Multiset.map_add, ih, ← Multiset.cons_coe, Multiset.map_cons]
    rfl

/-- The node of an entry points to the next one. -/
theorem mem_cells_append (pre post : List (Addr × V)) (e : Addr × V) :
    (e.1, ⟨e.2, first post⟩) ∈ cells (pre ++ e :: post) := by
  induction pre with
  | nil => exact Multiset.mem_add.mpr (Or.inl (Multiset.mem_singleton_self _))
  | cons e' pre ih => exact Multiset.mem_add.mpr (Or.inr ih)

/-- An entry is in its node. -/
theorem exists_mem_cells (he : e ∈ es) : ∃ next, (e.1, ⟨e.2, next⟩) ∈ cells es := by
  induction es with
  | nil => cases he
  | cons e' es ih =>
    rw [cells_cons]
    rcases List.mem_cons.mp he with rfl | he
    · exact ⟨first es, Multiset.mem_add.mpr (Or.inl (Multiset.mem_singleton_self _))⟩
    · obtain ⟨next, hnext⟩ := ih he
      exact ⟨next, Multiset.mem_add.mpr (Or.inr hnext)⟩

@[simp] theorem found_nil : found pred ([] : List (Addr × V)) = none := rfl

theorem found_cons_pos (h : pred e.2 = true) : found pred (e :: es) = some e :=
  List.find?_cons_of_pos h

theorem found_cons_neg (h : ¬ pred e.2 = true) : found pred (e :: es) = found pred es :=
  List.find?_cons_of_neg h

theorem mem_of_found (h : found pred es = some e) : e ∈ es ∧ pred e.2 = true :=
  ⟨List.mem_of_find?_eq_some h, List.find?_some (p := fun e : Addr × V => pred e.2) h⟩

theorem ne_of_found (h : found pred es = none) : ∀ e ∈ es, ¬ pred e.2 = true :=
  fun e he => by simpa using List.find?_eq_none.mp h e he

@[simp] theorem without_nil : without pred ([] : List (Addr × V)) = [] := rfl

theorem without_cons_pos (h : pred e.2 = true) : without pred (e :: es) = es :=
  List.eraseP_cons_of_pos h

/-- A first entry that does not satisfy the predicate stays. -/
theorem without_cons_neg (h : ¬ pred e.2 = true) : without pred (e :: es) = e :: without pred es :=
  List.eraseP_cons_of_neg h

/-- The entry that is found, and the others. -/
theorem coe_without (pred : V → Bool) (es : List (Addr × V)) : (es : Multiset (Addr × V))
    = (found pred es).elim 0 (fun e => {e}) + (without pred es : Multiset (Addr × V)) := by
  induction es with
  | nil => rfl
  | cons e es ih =>
    by_cases h : pred e.2 = true
    · rw [found_cons_pos h, without_cons_pos h]
      exact (Multiset.singleton_add e (es : Multiset (Addr × V))).symm
    · rw [found_cons_neg h, without_cons_neg h, ← Multiset.cons_coe, ← Multiset.cons_coe,
        Multiset.add_cons, ← ih]

/-- If nothing is found, nothing is removed. -/
theorem without_of_found_eq_none (h : found pred es = none) : without pred es = es :=
  List.eraseP_of_forall_not (ne_of_found h)

end

variable {M : Multiset (Addr × SNode V)} {hd : ι → Option Addr} {top : ℕ} {b : ι}
  {a : Addr} {v : V} {n : SNode V} {es : List (Addr × V)} {pred : V → Bool} {β : Type}
  {Q : β → SlistHeap ι V → Prop}

/-! ## Single steps -/

/-- Reading a node that is there. -/
theorem load_bind {p : SNode V → SlistM ι V β} (hn : (a, n) ∈ M)
    (h : Triple (SlistMem M hd top) (p n) Q) : Triple (SlistMem M hd top) (load a >>= p) Q := by
  refine Triple.bind_eq (a := n) (fun s hs => ⟨n, s, ?_, rfl, hs⟩) h
  change (s.nodes a).map _ = _
  rw [hs.sat.cell _ hn]
  rfl

/-- Reading the header of a list. -/
theorem header_bind {p : Option Addr → SlistM ι V β} (h : Triple (SlistMem M hd top) (p (hd b)) Q) :
    Triple (SlistMem M hd top) (header b >>= p) Q :=
  Triple.bind_eq (a := hd b) (fun s hs => ⟨s.headers b, s, rfl, congrFun hs.headers b, hs⟩) h

/-- Reading how many addresses were given out. -/
theorem bound_bind {p : ℕ → SlistM ι V β} (h : Triple (SlistMem M hd top) (p top) Q) :
    Triple (SlistMem M hd top) (bound >>= p) Q :=
  Triple.bind_eq (a := top) (fun s hs => ⟨s.next, s, rfl, hs.next, hs⟩) h

/-- A node is changed where it is, and no other. -/
theorem modifyNode_spec {g : SNode V → SNode V} :
    Triple (SlistMem ({(a, n)} + M) hd top) (modifyNode a g)
      fun _ => SlistMem ({(a, g n)} + M) hd top := by
  intro s hs
  have hread : s.nodes a = some n :=
    hs.sat.cell _ (Multiset.mem_add.mpr (Or.inl (Multiset.mem_singleton_self _)))
  refine ⟨(), { s with nodes := Function.update s.nodes a (some (g n)) }, ?_,
    ⟨hs.sat.write, hs.headers, hs.next, fun x hx => ?_⟩⟩
  · change (s.nodes a).map _ = _
    rw [hread]
    rfl
  · have hne : x ≠ a := by
      rintro rfl
      rw [hs.fresh x hx] at hread
      cases hread
    exact (Function.update_of_ne hne _ _).trans (hs.fresh x hx)

/-- A new node is in no list. -/
theorem createNode_spec : Triple (SlistMem M hd top) (createNode v : SlistM ι V Addr)
    fun r s => r = top ∧ SlistMem ({(top, ⟨v, none⟩)} + M) hd (top + 1) s := by
  intro s hs
  refine ⟨s.next, _, rfl, hs.next, ⟨?_, hs.headers, congrArg (· + 1) hs.next, fun b hb => ?_⟩⟩
  · rw [hs.next]
    exact hs.sat.alloc (hs.fresh top le_rfl)
  · have hlt : top < b := hb
    refine (Function.update_of_ne ?_ _ _).trans (hs.fresh b hlt.le)
    rw [hs.next]
    exact hlt.ne'

/-- A node is given back. -/
theorem dropNode_spec : Triple (SlistMem ({(a, n)} + M) hd top) (dropNode a)
    fun _ => SlistMem M hd top := by
  intro s hs
  have hread : s.nodes a = some n :=
    hs.sat.cell _ (Multiset.mem_add.mpr (Or.inl (Multiset.mem_singleton_self _)))
  refine ⟨(), { s with nodes := Function.update s.nodes a none }, ?_,
    ⟨hs.sat.dealloc, hs.headers, hs.next, fun x hx => ?_⟩⟩
  · change (s.nodes a).map _ = _
    rw [hread]
    rfl
  · by_cases hxa : x = a
    · exact hxa ▸ Function.update_self _ _ _
    · exact (Function.update_of_ne hxa _ _).trans (hs.fresh x hx)

/-- A list has no more nodes than addresses were given out. -/
theorem length_le {s : SlistHeap ι V} (hs : SlistMem (cells es + M) hd top s) : es.length ≤ top := by
  have hcard := hs.sat.card_le hs.fresh
  rw [Multiset.card_add, card_cells] at hcard
  omega

/-! ## Search -/

/-- The search returns the node of the first entry that satisfies the predicate.  The induction is
on the list, which the fuel must cover. -/
theorem searchLoop_spec {fuel : ℕ} (hfuel : es.length ≤ fuel) :
    Triple (SlistMem (cells es + M) hd top) (searchLoop pred fuel (first es))
      fun r s => r = (found pred es).map Prod.fst ∧ SlistMem (cells es + M) hd top s := by
  induction es generalizing M fuel with
  | nil =>
    rw [first_nil, searchLoop]
    exact triple_pure fun s hs => ⟨rfl, hs⟩
  | cons e es ih =>
    obtain ⟨fuel, rfl⟩ := Nat.exists_eq_add_one_of_ne_zero
      (Nat.ne_of_gt (Nat.lt_of_lt_of_le es.length.succ_pos hfuel))
    rw [first_cons, searchLoop, cells_cons, add_assoc]
    refine load_bind (n := ⟨e.2, first es⟩) (by simp) (Triple.ite (fun hpred => ?_) fun hpred => ?_)
    · exact triple_pure fun s hs => ⟨by rw [found_cons_pos hpred]; rfl, hs⟩
    · rw [found_cons_neg hpred, add_left_comm]
      exact ih (Nat.le_of_succ_le_succ hfuel)

/-- `SearchNodeIf` on a list that its header points to. -/
theorem searchNodeIf_spec (hb : hd b = first es) :
    Triple (SlistMem (cells es + M) hd top) (searchNodeIf b pred)
      fun r s => r = (found pred es).map Prod.fst ∧ SlistMem (cells es + M) hd top s := by
  refine bound_bind (header_bind ?_)
  rw [hb]
  exact Triple.of_pre (fun hle => searchLoop_spec (Nat.le_succ_of_le hle)) fun s hs => length_le hs

/-- The loop goes on with the rest of the list. -/
theorem extractLoop_spec {fuel : ℕ} (hfuel : es.length < fuel) :
    Triple (SlistMem (cells ((a, v) :: es) + M) hd top) (extractLoop pred fuel a)
      fun r s => r = (found pred es).map Prod.fst
        ∧ SlistMem (cells ((a, v) :: without pred es) + (released (found pred es) + M)) hd top s := by
  induction es generalizing a v M fuel with
  | nil =>
    obtain ⟨fuel, rfl⟩ := Nat.exists_eq_add_one_of_ne_zero (Nat.ne_of_gt hfuel)
    rw [extractLoop, cells_cons, add_assoc]
    refine load_bind (n := ⟨v, none⟩) (by simp) (triple_pure fun s hs => ⟨rfl, ?_⟩)
    rw [found_nil, without_nil, cells_cons, add_assoc, released, zero_add]
    exact hs
  | cons e es ih =>
    obtain ⟨fuel, rfl⟩ := Nat.exists_eq_add_one_of_ne_zero (Nat.ne_of_gt (Nat.zero_lt_of_lt hfuel))
    rw [extractLoop, cells_cons, first_cons, add_assoc]
    refine load_bind (n := ⟨v, some e.1⟩) (by simp) ?_
    refine load_bind (n := ⟨e.2, first es⟩) (by simp [cells_cons])
      (Triple.ite (fun hpred => ?_) fun hpred => ?_)
    · rw [found_cons_pos hpred, without_cons_pos hpred]
      refine Triple.bind modifyNode_spec fun _ => ?_
      rw [cells_cons, add_assoc, add_left_comm]
      refine Triple.bind modifyNode_spec fun _ => triple_pure fun s hs => ⟨rfl, ?_⟩
      rw [cells_cons, released, add_assoc, add_left_comm (cells es), add_left_comm]
      exact hs
    · rw [found_cons_neg hpred, without_cons_neg hpred, add_left_comm]
      refine (ih (Nat.lt_of_succ_lt_succ hfuel)).post fun r s hs => ⟨hs.1, ?_⟩
      rw [cells_cons, first_cons, add_assoc, add_left_comm]
      have hafter := hs.2
      rwa [add_left_comm (released (found pred es))] at hafter

variable [DecidableEq ι]

/-- A header is set, and nothing else. -/
theorem setHeader_spec {p : Option Addr} : Triple (SlistMem M hd top) (setHeader b p)
    fun _ => SlistMem M (Function.update hd b p) top := by
  intro s hs
  refine ⟨(), _, rfl, hs.sat, ?_, hs.next, hs.fresh⟩
  exact congrArg (fun h => Function.update h b p) hs.headers

/-! ## The front -/

/-- A node in no list becomes the front. -/
theorem emplaceFrontNode_spec (hb : hd b = first es) :
    Triple (SlistMem ({(a, ⟨v, none⟩)} + (cells es + M)) hd top) (emplaceFrontNode b a)
      fun _ => SlistMem (cells ((a, v) :: es) + M) (Function.update hd b (some a)) top := by
  unfold emplaceFrontNode
  refine header_bind ?_
  rw [hb, cells_cons, add_assoc]
  cases es with
  | nil => exact setHeader_spec
  | cons e es => exact Triple.bind modifyNode_spec fun _ => setHeader_spec

/-- A new node with the value becomes the front. -/
theorem emplaceFront_spec (hb : hd b = first es) :
    Triple (SlistMem (cells es + M) hd top) (emplaceFront b v : SlistM ι V Unit)
      fun _ => SlistMem (cells ((top, v) :: es) + M) (Function.update hd b (some top)) (top + 1) := by
  unfold emplaceFront
  exact Triple.bind_eq createNode_spec (emplaceFrontNode_spec hb)

/-- The front is taken out of the list and left unlinked. -/
theorem extractFront_spec (hb : hd b = some a) :
    Triple (SlistMem (cells ((a, v) :: es) + M) hd top) (extractFront b)
      fun r s => r = a
        ∧ SlistMem ({(a, ⟨v, none⟩)} + (cells es + M)) (Function.update hd b (first es)) top s := by
  unfold extractFront
  refine header_bind ?_
  rw [hb, cells_cons, add_assoc]
  refine load_bind (n := ⟨v, first es⟩) (by simp) (Triple.bind setHeader_spec fun _ => ?_)
  exact Triple.bind modifyNode_spec fun _ => triple_pure fun s hs => ⟨rfl, hs⟩

/-- The front is taken out and given back. -/
theorem popFront_spec (hb : hd b = some a) :
    Triple (SlistMem (cells ((a, v) :: es) + M) hd top) (popFront b)
      fun _ => SlistMem (cells es + M) (Function.update hd b (first es)) top :=
  Triple.bind_eq (extractFront_spec hb) dropNode_spec

/-! ## Removal -/

/-- The first entry that satisfies the predicate is taken out of the list and left unlinked. -/
theorem extractNodeIf_spec (hb : hd b = first es) :
    Triple (SlistMem (cells es + M) hd top) (extractNodeIf b pred)
      fun r s => r = (found pred es).map Prod.fst
        ∧ SlistMem (cells (without pred es) + (released (found pred es) + M))
            (Function.update hd b (first (without pred es))) top s := by
  unfold extractNodeIf
  refine header_bind ?_
  rw [hb]
  cases es with
  | nil =>
    refine triple_pure fun s hs => ⟨rfl, ?_⟩
    rw [without_nil, found_nil, released, zero_add, ← hb, Function.update_eq_self]
    exact hs
  | cons e es =>
    rw [first_cons] at hb ⊢
    refine load_bind (n := ⟨e.2, first es⟩) (by simp [cells_cons])
      (Triple.ite (fun hpred => ?_) fun hpred => ?_)
    · rw [found_cons_pos hpred, without_cons_pos hpred, cells_cons, add_assoc]
      refine Triple.bind setHeader_spec fun _ => Triple.bind modifyNode_spec fun _ =>
        triple_pure fun s hs => ⟨rfl, ?_⟩
      rw [add_left_comm]
      exact hs
    · rw [found_cons_neg hpred, without_cons_neg hpred, first_cons, ← hb, Function.update_eq_self]
      refine bound_bind (Triple.of_pre (fun hle => extractLoop_spec ?_) fun s hs => length_le hs)
      have hlen : es.length + 1 ≤ top := hle
      omega

/-! ## Clearing -/

/-- The loop takes out the front until the list is empty. -/
theorem clearLoop_spec {fuel : ℕ} (hfuel : es.length < fuel) (hb : hd b = first es) :
    Triple (SlistMem (cells es + M) hd top) (clearLoop b fuel)
      fun _ => SlistMem M (Function.update hd b none) top := by
  induction es generalizing hd fuel with
  | nil =>
    obtain ⟨fuel, rfl⟩ := Nat.exists_eq_add_one_of_ne_zero (Nat.ne_of_gt hfuel)
    rw [clearLoop]
    refine header_bind ?_
    rw [hb]
    refine triple_pure fun s hs => ?_
    rw [cells_nil, zero_add] at hs
    rwa [← first_nil (V := V), ← hb, Function.update_eq_self]
  | cons e es ih =>
    obtain ⟨fuel, rfl⟩ := Nat.exists_eq_add_one_of_ne_zero (Nat.ne_of_gt (Nat.zero_lt_of_lt hfuel))
    rw [clearLoop]
    refine header_bind ?_
    rw [hb, cells_cons, add_assoc]
    refine load_bind (n := ⟨e.2, first es⟩) (by simp) ?_
    refine Triple.bind dropNode_spec fun _ => Triple.bind setHeader_spec fun _ => ?_
    refine (ih (Nat.lt_of_succ_lt_succ hfuel) (Function.update_self ..)).post fun _ s hs => ?_
    rwa [Function.update_idem] at hs

/-- `Clear` gives all nodes back. -/
theorem clear_spec (hb : hd b = first es) :
    Triple (SlistMem (cells es + M) hd top) (clear b)
      fun _ => SlistMem M (Function.update hd b none) top :=
  bound_bind (Triple.of_pre (fun hle => clearLoop_spec (Nat.lt_succ_of_le hle) hb)
    fun _ hs => length_le hs)

end Slist

end Mmkvc
