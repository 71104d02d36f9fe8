/-
# What the operations of a double-linked list do

A segment of a list is a chain of nodes linked both ways, with a given link back from its first
node and a given link on from its last one.  A list is a segment whose first node links back to
its last.  Each operation cuts the list where it works, sets the links there and joins the
pieces again.
-/
import Mmkvc.Blist

namespace Mmkvc

namespace Blist

variable {V : Type}

/-! ## Segments -/

/-- The pointer to the last entry. -/
def last (es : List (Addr × V)) : Option Addr := es.getLast?.map Prod.fst

/-- The nodes of a segment between the links `p` and `n`. -/
def cells (p : Option Addr) : List (Addr × V) → Option Addr → Multiset (Addr × BNode V)
  | [], _ => 0
  | e :: es, n => {(e.1, ⟨e.2, p, (first es).or n⟩)} + cells (some e.1) es n

section

variable {p q n : Option Addr} {e : Addr × V} {es fs : List (Addr × V)}

@[simp] theorem last_nil : last ([] : List (Addr × V)) = none := rfl

@[simp] theorem last_append_cons : last (es ++ e :: fs) = last (e :: fs) := by
  simp [last, List.getLast?_append, List.getLast?_cons]

@[simp] theorem last_concat : last (es ++ [e]) = some e.1 := by simp [last]

@[simp] theorem last_cons_cons {f : Addr × V} : last (f :: e :: es) = last (e :: es) := rfl

@[simp] theorem last_singleton : last [e] = some e.1 := rfl

theorem first_append : first (es ++ fs) = (first es).or (first fs) := by
  cases es <;> rfl

@[simp] theorem cells_nil : cells p ([] : List (Addr × V)) n = 0 := rfl

theorem cells_cons :
    cells p (e :: es) n = {(e.1, ⟨e.2, p, (first es).or n⟩)} + cells (some e.1) es n := rfl

/-- A list falls into two, each of which has the other's end for its neighbour. -/
theorem cells_append : cells p (es ++ fs) n
    = cells p es ((first fs).or n) + cells ((last es).or p) fs n := by
  induction es generalizing p with
  | nil => simp
  | cons e es ih =>
    rw [List.cons_append, cells_cons, ih, cells_cons, ← add_assoc]
    congr 2
    · cases es <;> simp [first]
    · cases es using List.reverseRecOn with
      | nil => rfl
      | append_singleton es f => rw [last_concat, ← List.cons_append, last_concat]; rfl

/-- The last node of a segment. -/
theorem cells_concat : cells p (es ++ [e]) n
    = cells p es (some e.1) + {(e.1, ⟨e.2, (last es).or p, n⟩)} := by
  rw [cells_append, cells_cons, cells_nil, first_cons, first_nil, add_zero]
  rfl

/-- A list with a first entry. -/
theorem exists_cons_of_first {f : Addr} (hf : first es = some f) :
    ∃ v es', es = (f, v) :: es' := by
  cases es with
  | nil => cases hf
  | cons e es => exact ⟨e.2, es, by rw [← Option.some.inj hf]⟩

/-- A list with a last entry. -/
theorem exists_concat_of_last {g : Addr} (hg : last es = some g) :
    ∃ v es', es = es' ++ [(g, v)] := by
  cases es using List.reverseRecOn with
  | nil => cases hg
  | append_singleton es e =>
    rw [last_concat] at hg
    exact ⟨e.2, es, by rw [← Option.some.inj hg]⟩

end

theorem exists_last (e : Addr × V) (es : List (Addr × V)) : ∃ g, last (e :: es) = some g :=
  ⟨_, by rw [last, List.getLast?_eq_some_getLast (List.cons_ne_nil e es)]; rfl⟩

/-- Memory with the nodes `M`, and the members. -/
structure BlistMem (M : Multiset (Addr × BNode V)) (hdr : Option Addr) (cnt : ℕ)
    (s : Blist V) : Prop where
  sat : Sat s.nodes M
  header : s.header = hdr
  count : s.count = cnt

/-- The list `es`, and the nodes `M` that are not in it. -/
def Holds (es : List (Addr × V)) (M : Multiset (Addr × BNode V)) : Blist V → Prop :=
  BlistMem (cells (last es) es none + M) (first es) es.length

variable {M : Multiset (Addr × BNode V)} {hdr p q m : Option Addr} {cnt : ℕ} {a f g : Addr} {v : V}
  {n : BNode V} {es : List (Addr × V)} {β : Type} {Q : β → Blist V → Prop}

/-! ## Single steps -/

/-- Reading a node that is there. -/
theorem load_bind {k : BNode V → BlistM V β} (hn : (a, n) ∈ M)
    (h : Triple (BlistMem M hdr cnt) (k n) Q) : Triple (BlistMem M hdr cnt) (load a >>= k) Q := by
  refine Triple.bind_eq (a := n) (fun s hs => ⟨n, s, ?_, rfl, hs⟩) h
  change (s.nodes a).map _ = _
  rw [hs.sat.cell _ hn]
  rfl

theorem getHeader_bind {k : Option Addr → BlistM V β} (h : Triple (BlistMem M hdr cnt) (k hdr) Q) :
    Triple (BlistMem M hdr cnt) (getHeader >>= k) Q :=
  Triple.bind_eq (a := hdr) (fun s hs => ⟨s.header, s, rfl, hs.header, hs⟩) h

theorem getCount_bind {k : ℕ → BlistM V β} (h : Triple (BlistMem M hdr cnt) (k cnt) Q) :
    Triple (BlistMem M hdr cnt) (getCount >>= k) Q :=
  Triple.bind_eq (a := cnt) (fun s hs => ⟨s.count, s, rfl, hs.count, hs⟩) h

theorem deref_bind {P : Blist V → Prop} {k : Addr → BlistM V β} (h : Triple P (k a) Q) :
    Triple P (deref (some a) >>= k) Q := h

/-- An assertion that holds changes nothing. -/
theorem guard_spec {P : Blist V → Prop} {c : Prop} [Decidable c] (hc : c) :
    Triple P (guard c : BlistM V Unit) fun _ => P := by
  rw [guard, if_pos hc]
  exact triple_pure fun s hs => hs

/-- An assertion that holds can be passed. -/
theorem guard_bind {P : Blist V → Prop} {c : Prop} [Decidable c] {k : Unit → BlistM V β} (hc : c)
    (h : Triple P (k ()) Q) : Triple P (guard c >>= k) Q := by
  rw [guard, if_pos hc]
  exact h

theorem putHeader_spec : Triple (BlistMem M hdr cnt) (putHeader p)
    fun _ => BlistMem M p cnt := fun _ hs => ⟨(), _, rfl, hs.sat, rfl, hs.count⟩

theorem putCount_spec {c : ℕ} : Triple (BlistMem M hdr cnt) (putCount c)
    fun _ => BlistMem M hdr c := fun _ hs => ⟨(), _, rfl, hs.sat, hs.header, rfl⟩

/-- The count goes up, if there is room for it in 64 bits. -/
theorem incCount_spec (hlt : cnt + 1 < 2 ^ 64) : Triple (BlistMem M hdr cnt) incCount
    fun _ => BlistMem M hdr (cnt + 1) := by
  refine getCount_bind ?_
  rw [Nat.mod_eq_of_lt hlt]
  exact putCount_spec

/-- The count goes down. -/
theorem decCount_spec (hlt : cnt < 2 ^ 64) : Triple (BlistMem M hdr (cnt + 1)) decCount
    fun _ => BlistMem M hdr cnt := by
  refine getCount_bind ?_
  have hwrap : cnt + 1 + (2 ^ 64 - 1) = cnt + 2 ^ 64 := by omega
  rw [hwrap, Nat.add_mod_right, Nat.mod_eq_of_lt hlt]
  exact putCount_spec

/-- A node is changed where it is, and no other. -/
theorem modifyNode_spec {g : BNode V → BNode V} :
    Triple (BlistMem ({(a, n)} + M) hdr cnt) (modifyNode a g)
      fun _ => BlistMem ({(a, g n)} + M) hdr cnt := by
  intro s hs
  have hread : s.nodes a = some n :=
    hs.sat.cell _ (Multiset.mem_add.mpr (Or.inl (Multiset.mem_singleton_self _)))
  refine ⟨(), { s with nodes := Function.update s.nodes a (some (g n)) }, ?_,
    hs.sat.write, hs.header, hs.count⟩
  change (s.nodes a).map _ = _
  rw [hread]
  rfl

/-- A new node is in no list; its address must be free. -/
theorem createNode_spec (ha : a ∉ M.map Prod.fst) : Triple (BlistMem M hdr cnt) (createNode a v)
    fun _ => BlistMem ({(a, ⟨v, none, none⟩)} + M) hdr cnt := by
  intro s hs
  have hfree : s.nodes a = none := hs.sat.rest a ha
  refine ⟨(), { s with nodes := Function.update s.nodes a (some ⟨v, none, none⟩) }, ?_,
    hs.sat.alloc hfree, hs.header, hs.count⟩
  show createNode a v s = _
  unfold createNode
  rw [hfree]

/-- A node is given back. -/
theorem dropNode_spec : Triple (BlistMem ({(a, n)} + M) hdr cnt) (dropNode a)
    fun _ => BlistMem M hdr cnt := by
  intro s hs
  have hread : s.nodes a = some n :=
    hs.sat.cell _ (Multiset.mem_add.mpr (Or.inl (Multiset.mem_singleton_self _)))
  refine ⟨(), { s with nodes := Function.update s.nodes a none }, ?_, hs.sat.dealloc, hs.header,
    hs.count⟩
  change (s.nodes a).map _ = _
  rw [hread]
  rfl

/-! ## The ends of a segment -/

/-- Reading the first node of a stretch: it points back to what is in front of the stretch. -/
theorem load_first_bind {k : BNode V → BlistM V β} (hf : first es = some f)
    (h : ∀ v next, Triple (BlistMem (cells p es q + M) hdr cnt) (k ⟨v, p, next⟩) Q) :
    Triple (BlistMem (cells p es q + M) hdr cnt) (load f >>= k) Q := by
  obtain ⟨v, es', rfl⟩ := exists_cons_of_first hf
  exact load_bind (n := ⟨v, p, (first es').or q⟩) (by simp [cells_cons]) (h v _)

/-- Reading the last node of a stretch: it points forward to what is behind the stretch. -/
theorem load_last_bind {k : BNode V → BlistM V β} (hg : last es = some g)
    (h : ∀ v prev, Triple (BlistMem (cells p es q + M) hdr cnt) (k ⟨v, prev, q⟩) Q) :
    Triple (BlistMem (cells p es q + M) hdr cnt) (load g >>= k) Q := by
  obtain ⟨v, es', rfl⟩ := exists_concat_of_last hg
  exact load_bind (n := ⟨v, (last es').or p, q⟩) (by simp [cells_concat]) (h v _)

/-- The backward link of the first node is set. -/
theorem setPrev_first_spec (hf : first es = some f) :
    Triple (BlistMem (cells p es q + M) hdr cnt) (setPrev f m)
      fun _ => BlistMem (cells m es q + M) hdr cnt := by
  obtain ⟨v, es', rfl⟩ := exists_cons_of_first hf
  rw [cells_cons, cells_cons, add_assoc, add_assoc]
  exact modifyNode_spec

/-- The forward link of the last node is set. -/
theorem setNext_last_spec (hg : last es = some g) :
    Triple (BlistMem (cells p es q + M) hdr cnt) (setNext g m)
      fun _ => BlistMem (cells p es m + M) hdr cnt := by
  obtain ⟨v, es', rfl⟩ := exists_concat_of_last hg
  rw [cells_concat, cells_concat, add_assoc, add_assoc, add_left_comm, add_left_comm (cells _ _ _)]
  exact modifyNode_spec

/-! ## Pushes -/

/-- A single node becomes the list; it points back to itself. -/
theorem setHeader_spec : Triple (BlistMem ({(a, ⟨v, p, none⟩)} + M) hdr cnt) (setHeader (some a))
    fun _ => BlistMem ({(a, ⟨v, some a, none⟩)} + M) (some a) cnt := by
  refine Triple.bind putHeader_spec fun _ => getHeader_bind (deref_bind ?_)
  refine Triple.bind modifyNode_spec fun _ => load_bind (n := ⟨v, some a, none⟩) (by simp) ?_
  exact guard_spec rfl

/-- A push on an empty list. -/
theorem prePush_nil {body : Addr → BlistM V ℕ} :
    Triple (Holds [] ({(a, ⟨v, none, none⟩)} + M)) (prePush a body)
      fun r s => r = 1 ∧ Holds [(a, v)] M s := by
  refine getHeader_bind ?_
  rw [cells_nil, zero_add]
  refine Triple.bind setHeader_spec fun _ => Triple.bind putCount_spec fun _ => ?_
  refine triple_pure fun s hs => ⟨rfl, ?_⟩
  rwa [Holds, cells_cons, cells_nil, add_zero]

/-- A push on a list that is not empty runs the body with the front. -/
theorem prePush_cons {body : Addr → BlistM V ℕ} {Q : ℕ → Blist V → Prop} (hlt : cnt < 2 ^ 64)
    (h : Triple (BlistMem M (some f) cnt) (body f) Q) :
    Triple (BlistMem M (some f) cnt) (prePush a body) Q := by
  refine getHeader_bind (getCount_bind ?_)
  have hle : ¬ cnt > maxSize := Nat.not_lt.mpr (Nat.le_sub_one_of_lt hlt)
  rw [if_neg hle]
  exact h

/-- A node in no list becomes the front. -/
theorem pushFront_spec (hlt : es.length + 1 < 2 ^ 64) :
    Triple (Holds es ({(a, ⟨v, none, none⟩)} + M)) (pushFront a)
      fun r s => r = 1 ∧ Holds ((a, v) :: es) M s := by
  cases es with
  | nil => exact prePush_nil
  | cons e es =>
    refine prePush_cons (Nat.lt_of_succ_lt hlt) ?_
    rw [add_left_comm]
    refine Triple.bind modifyNode_spec fun _ => ?_
    rw [add_left_comm]
    refine load_first_bind rfl fun w next => ?_
    rw [add_left_comm]
    refine Triple.bind modifyNode_spec fun _ => ?_
    rw [add_left_comm]
    refine Triple.bind (setPrev_first_spec rfl) fun _ => ?_
    refine Triple.bind putHeader_spec fun _ => Triple.bind (incCount_spec hlt) fun _ => ?_
    refine triple_pure fun s hs => ⟨rfl, ?_⟩
    rw [Holds, cells_cons, last_cons_cons, add_assoc, add_left_comm]
    exact hs

/-- A node in no list becomes the last. -/
theorem pushBack_spec (hlt : es.length + 1 < 2 ^ 64) :
    Triple (Holds es ({(a, ⟨v, none, none⟩)} + M)) (pushBack a)
      fun r s => r = 1 ∧ Holds (es ++ [(a, v)]) M s := by
  cases es with
  | nil => exact prePush_nil
  | cons e es =>
    obtain ⟨g, hg⟩ := exists_last e es
    refine prePush_cons (Nat.lt_of_succ_lt hlt) ?_
    refine load_first_bind rfl fun _ _ => ?_
    rw [add_left_comm]
    refine Triple.bind modifyNode_spec fun _ => ?_
    rw [add_left_comm]
    refine load_first_bind rfl fun _ _ => ?_
    rw [hg]
    refine deref_bind (Triple.bind (setNext_last_spec hg) fun _ => ?_)
    refine Triple.bind (setPrev_first_spec rfl) fun _ => ?_
    refine load_bind (n := ⟨v, some g, none⟩) (by simp) (guard_bind rfl ?_)
    refine Triple.bind (incCount_spec hlt) fun _ => triple_pure fun s hs => ⟨rfl, ?_⟩
    rw [Holds, cells_concat, last_concat, hg, add_assoc, List.length_append]
    exact hs

/-! ## Insertion -/

/-- What follows an inserted node, or the header, links back to it. -/
theorem linkBack_spec {zs ys : List (Addr × V)} (hf : first zs = some f) :
    Triple (BlistMem (cells (last (zs ++ ys)) zs (first ys) + (cells p ys none + M)) (some f) cnt)
      (linkBack (first ys) a)
      fun _ => BlistMem (cells (last ((a, v) :: ys)) zs (first ys) + (cells (some a) ys none + M))
        (some f) cnt := by
  cases ys with
  | nil => exact getHeader_bind (deref_bind (setPrev_first_spec hf))
  | cons y ys =>
    rw [last_append_cons, last_cons_cons, add_left_comm, add_left_comm _ (cells (some a) _ _)]
    exact setPrev_first_spec rfl

/-- A node in no list is linked behind another one, which may be the last. -/
theorem insertAfter_spec {zs ys : List (Addr × V)} (hg : last zs = some g)
    (hlt : (zs ++ ys).length + 1 < 2 ^ 64) :
    Triple (Holds (zs ++ ys) ({(a, ⟨v, none, none⟩)} + M)) (insertAfter (some g) a)
      fun _ => Holds (zs ++ (a, v) :: ys) M := by
  obtain ⟨f, hf⟩ : ∃ f, first zs = some f := by
    cases zs with
    | nil => cases hg
    | cons e zs => exact ⟨e.1, rfl⟩
  have hcut : cells (last (zs ++ ys)) (zs ++ ys) none + ({(a, ⟨v, none, none⟩)} + M)
      = cells (last (zs ++ ys)) zs (first ys)
        + ({(a, ⟨v, none, none⟩)} + (cells (some g) ys none + M)) := by
    rw [cells_append, hg, Option.or_none, Option.some_or, add_assoc, add_left_comm (cells _ ys _)]
  have hjoin : cells (last (zs ++ (a, v) :: ys)) (zs ++ (a, v) :: ys) none + M
      = cells (last ((a, v) :: ys)) zs (some a)
        + (cells (some a) ys none + ({(a, ⟨v, some g, first ys⟩)} + M)) := by
    rw [cells_append, cells_cons, last_append_cons, hg, first_cons, Option.or_none, Option.some_or,
      Option.or_none, add_assoc, add_assoc, add_left_comm {_}]
  have hfirst : ∀ us : List (Addr × V), first (zs ++ us) = some f := fun us => by
    rw [first_append, hf, Option.some_or]
  have hlen : (zs ++ (a, v) :: ys).length = (zs ++ ys).length + 1 := by
    rw [List.length_append, List.length_cons, ← add_assoc, ← List.length_append]
  rw [Holds, hcut, hfirst]
  refine load_last_bind hg fun w prev => ?_
  rw [add_left_comm]
  refine Triple.bind modifyNode_spec fun _ => Triple.bind modifyNode_spec fun _ => ?_
  have hswap : ∀ (A B C D : Multiset (Addr × BNode V)), A + (B + (C + D)) = B + (C + (A + D)) :=
    fun A B C D => by ac_rfl
  rw [hswap]
  refine Triple.bind (linkBack_spec (v := v) hf) fun _ => ?_
  refine Triple.bind (setNext_last_spec hg) fun _ => (incCount_spec hlt).post fun _ s hs => ?_
  rw [Holds, hjoin, hfirst, hlen]
  exact hs

/-! ## Pops -/

theorem prePop_nil {body : Addr → BlistM V ℕ} :
    Triple (Holds [] M) (prePop body) fun r s => r = 0 ∧ Holds [] M s :=
  getHeader_bind (triple_pure fun _ hs => ⟨rfl, hs⟩)

/-- A pop of the only entry gives its node back. -/
theorem prePop_singleton {e : Addr × V} {body : Addr → BlistM V ℕ} :
    Triple (Holds [e] M) (prePop body) fun r s => r = 1 ∧ Holds [] M s := by
  refine getHeader_bind (getCount_bind ?_)
  rw [if_pos List.length_singleton, cells_cons, cells_nil, add_zero]
  refine Triple.bind dropNode_spec fun _ => Triple.bind putHeader_spec fun _ => ?_
  refine Triple.bind putCount_spec fun _ => triple_pure fun s hs => ⟨rfl, ?_⟩
  rwa [Holds, cells_nil, zero_add]

/-- A pop of two entries or more runs the body with the front. -/
theorem prePop_cons {body : Addr → BlistM V ℕ} {Q : ℕ → Blist V → Prop} (hne : cnt ≠ 1)
    (h : Triple (BlistMem M (some f) cnt) (body f) Q) :
    Triple (BlistMem M (some f) cnt) (prePop body) Q := by
  refine getHeader_bind (getCount_bind ?_)
  rw [if_neg hne]
  exact h

/-- What a pop answers. -/
def popped (es : List (Addr × V)) : ℕ := if es.isEmpty then 0 else 1

/-- The front is taken out and given back, if there is one. -/
theorem popFront_spec (hlt : es.length < 2 ^ 64) :
    Triple (Holds es M) popFront fun r s => r = popped es ∧ Holds es.tail M s := by
  match es with
  | [] => exact prePop_nil
  | [e] => exact prePop_singleton
  | e :: f :: es =>
    refine prePop_cons (by simp) ?_
    rw [cells_cons, add_assoc]
    refine load_bind (n := ⟨e.2, last (e :: f :: es), some f.1⟩) (by simp) (deref_bind ?_)
    refine load_bind (n := ⟨e.2, last (e :: f :: es), some f.1⟩) (by simp) ?_
    rw [add_left_comm]
    refine Triple.bind (setPrev_first_spec rfl) fun _ => ?_
    rw [add_left_comm]
    refine Triple.bind dropNode_spec fun _ => Triple.bind putHeader_spec fun _ => ?_
    refine Triple.bind (decCount_spec (Nat.lt_of_succ_lt hlt)) fun _ => ?_
    exact triple_pure fun s hs => ⟨rfl, hs⟩

/-- The last entry is taken out and given back, if there is one. -/
theorem popBack_spec (hlt : es.length < 2 ^ 64) :
    Triple (Holds es M) popBack fun r s => r = popped es ∧ Holds es.dropLast M s := by
  cases es using List.reverseRecOn with
  | nil => exact prePop_nil
  | append_singleton es e =>
    match es with
    | [] => exact prePop_singleton
    | d :: ds =>
      obtain ⟨g, hg⟩ := exists_last d ds
      have hne : (d :: ds ++ [e]).length ≠ 1 := by simp
      have hpopped : popped (d :: ds ++ [e]) = 1 := rfl
      rw [hpopped, List.dropLast_concat]
      refine prePop_cons hne ?_
      rw [last_concat, cells_concat, hg, add_assoc]
      refine load_first_bind rfl fun _ _ => deref_bind ?_
      refine load_bind (n := ⟨e.2, some g, none⟩) (by simp) (deref_bind ?_)
      refine Triple.bind (setNext_last_spec hg) fun _ => ?_
      refine load_bind (n := ⟨e.2, some g, none⟩) (by simp) ?_
      refine Triple.bind (setPrev_first_spec rfl) fun _ => ?_
      rw [add_left_comm]
      refine Triple.bind dropNode_spec fun _ => ?_
      rw [List.length_append] at hlt ⊢
      refine Triple.bind (decCount_spec (Nat.lt_of_succ_lt hlt)) fun _ => ?_
      refine triple_pure fun s hs => ⟨rfl, ?_⟩
      rwa [Holds, hg]

/-! ## Extraction -/

/-- The next node links back to the one before. -/
theorem relinkBack_next (hf : first es = some f) :
    Triple (BlistMem (cells p es q + M) hdr cnt) (relinkBack ⟨v, m, some f⟩)
      fun _ => BlistMem (cells m es q + M) hdr cnt := setPrev_first_spec hf

/-- The only node links back to itself. -/
theorem relinkBack_sole {w : V} :
    Triple (BlistMem ({(a, ⟨w, some a, none⟩)} + M) (some a) cnt) (relinkBack ⟨v, m, none⟩)
      fun _ => BlistMem ({(a, ⟨w, m, none⟩)} + M) (some a) cnt := by
  refine getHeader_bind (deref_bind ?_)
  refine load_bind (n := ⟨w, some a, none⟩) (by simp) (deref_bind ?_)
  exact load_bind (n := ⟨w, some a, none⟩) (by simp) (guard_bind rfl modifyNode_spec)

/-- The first node links back to the one before the last. -/
theorem relinkBack_tail {w : V} (hf : first es = some f) :
    Triple (BlistMem ({(a, ⟨w, p, none⟩)} + (cells (some a) es q + M)) (some f) cnt)
      (relinkBack ⟨v, m, none⟩)
      fun _ => BlistMem ({(a, ⟨w, p, none⟩)} + (cells m es q + M)) (some f) cnt := by
  refine getHeader_bind (deref_bind ?_)
  rw [add_left_comm, add_left_comm _ (cells m _ _)]
  refine load_first_bind hf fun _ _ => deref_bind ?_
  exact load_bind (n := ⟨w, p, none⟩) (by simp) (guard_bind rfl (setPrev_first_spec hf))

/-- The header is the node that is taken out. -/
theorem relinkNext_head : Triple (BlistMem M (some a) cnt) (relinkNext a n)
    fun _ => BlistMem M n.next cnt := by
  refine getHeader_bind ?_
  rw [if_pos rfl]
  exact putHeader_spec

/-- The node before it links to the next one. -/
theorem relinkNext_behind {zs : List (Addr × V)} (hg : last zs = some g) (hne : f ≠ a) :
    Triple (BlistMem (cells p zs q + M) (some f) cnt) (relinkNext a ⟨v, some g, m⟩)
      fun _ => BlistMem (cells p zs m + M) (some f) cnt := by
  refine getHeader_bind ?_
  rw [if_neg fun h => hne (Option.some.inj h)]
  exact deref_bind (setNext_last_spec hg)

/-- The last steps of `Extract`. -/
theorem unlink_spec (hlt : cnt < 2 ^ 64) :
    Triple (BlistMem ({(a, n)} + M) hdr (cnt + 1))
      (do
        setNext a none
        setPrev a none
        decCount) fun _ => BlistMem ({(a, ⟨n.value, none, none⟩)} + M) hdr cnt :=
  Triple.bind modifyNode_spec fun _ => Triple.bind modifyNode_spec fun _ => decCount_spec hlt

/-- The first node of a segment beside another node. -/
theorem first_ne_of_sat {s : Addr → Option (BNode V)} {z : Addr × V} {zs : List (Addr × V)}
    (hs : Sat s ({(a, n)} + (cells p (z :: zs) q + M))) : z.1 ≠ a :=
  (hs.ne_of_mem (y := (z.1, ⟨z.2, p, (first zs).or q⟩)) (Multiset.mem_singleton_self _)
    (by simp [cells_cons])).symm

/-- A node is taken out of the list, wherever it stands, and left unlinked. -/
theorem extract_spec {zs ys : List (Addr × V)} {e : Addr × V}
    (hlt : (zs ++ e :: ys).length < 2 ^ 64) :
    Triple (Holds (zs ++ e :: ys) M) (extract (some e.1))
      fun _ => Holds (zs ++ ys) ({(e.1, ⟨e.2, none, none⟩)} + M) := by
  obtain ⟨l, hl⟩ := exists_last e ys
  have hlen : (zs ++ e :: ys).length = (zs ++ ys).length + 1 := by
    rw [List.length_append, List.length_cons, ← add_assoc, ← List.length_append]
  -- the node, what is in front of it and what is behind it
  have hcut : cells (last (zs ++ e :: ys)) (zs ++ e :: ys) none + M
      = {(e.1, ⟨e.2, (last zs).or (some l), first ys⟩)}
        + (cells (some l) zs (some e.1) + (cells (some e.1) ys none + M)) := by
    rw [last_append_cons, hl, cells_append, cells_cons, first_cons, Option.or_none,
      Option.or_none]
    ac_rfl
  rw [hlen] at hlt
  rw [Holds, hcut, hlen]
  obtain ⟨g, hg⟩ : ∃ g, (last zs).or (some l) = some g := by cases last zs <;> simp
  rw [hg]
  refine load_bind (n := ⟨e.2, some g, first ys⟩) (by simp) ?_
  rw [if_neg (by simp)]
  refine load_bind (n := ⟨e.2, some g, first ys⟩) (by simp) ?_
  -- in each of the four cases the neighbours are linked first and the node is unlinked at the end
  have hdone : ∀ {L : Multiset (Addr × BNode V)} {n : BNode V}, n.value = e.2 →
      L = cells (last (zs ++ ys)) (zs ++ ys) none + M →
      Triple (BlistMem ({(e.1, n)} + L) (first (zs ++ ys)) ((zs ++ ys).length + 1))
        (do
          setNext e.1 none
          setPrev e.1 none
          decCount) fun _ => Holds (zs ++ ys) ({(e.1, ⟨e.2, none, none⟩)} + M) := by
    rintro _ n hn rfl
    refine (unlink_spec (Nat.lt_of_succ_lt hlt)).post fun _ s hs => ?_
    rwa [Holds, add_left_comm, ← hn]
  cases ys with
  | nil =>
    obtain rfl : l = e.1 := (Option.some.inj hl).symm
    cases zs with
    | nil =>
      obtain rfl : g = e.1 := (Option.some.inj hg).symm
      refine Triple.bind relinkBack_sole fun _ => ?_
      refine load_bind (n := ⟨e.2, some e.1, none⟩) (by simp) ?_
      exact Triple.bind relinkNext_head fun _ => hdone rfl (by simp)
    | cons z zs =>
      have hg' : last (z :: zs) = some g := by
        obtain ⟨g', hg'⟩ := exists_last z zs
        rwa [hg', Option.some_or, ← hg'] at hg
      refine Triple.of_pre (fun hne => ?_) fun s hs => first_ne_of_sat hs.sat
      refine Triple.bind (relinkBack_tail rfl) fun _ => ?_
      refine load_bind (n := ⟨e.2, some g, none⟩) (by simp) ?_
      rw [add_left_comm]
      refine Triple.bind (relinkNext_behind hg' hne) fun _ => ?_
      rw [add_left_comm]
      refine hdone rfl ?_
      rw [List.append_nil, hg', cells_nil, zero_add]
  | cons y ys =>
    have hl' : last (y :: ys) = some l := hl
    rw [add_left_comm (cells (some l) _ _), add_left_comm {_}]
    refine Triple.bind (relinkBack_next rfl) fun _ => ?_
    refine load_bind (n := ⟨e.2, some g, some y.1⟩) (by simp) ?_
    cases zs with
    | nil =>
      obtain rfl : g = l := (Option.some.inj hg).symm
      refine Triple.bind relinkNext_head fun _ => ?_
      rw [add_left_comm]
      refine hdone rfl ?_
      rw [List.nil_append, hl', cells_nil, zero_add]
    | cons z zs =>
      have hg' : last (z :: zs) = some g := by
        obtain ⟨g', hg'⟩ := exists_last z zs
        rwa [hg', Option.some_or, ← hg'] at hg
      have hrest : ∀ (A B C : Multiset (Addr × BNode V)), A + (B + (C + M)) = B + (C + (A + M)) :=
        fun A B C => by ac_rfl
      rw [hrest]
      refine Triple.of_pre (fun hne => ?_) fun s hs => first_ne_of_sat hs.sat
      rw [add_left_comm]
      refine Triple.bind (relinkNext_behind hg' hne) fun _ => ?_
      rw [add_left_comm]
      refine hdone rfl ?_
      rw [cells_append, last_append_cons, hl', hg', add_assoc]
      rfl

/-- A node that is not in a list is left alone. -/
theorem extract_loose {s : Blist V} (hn : s.nodes a = some n) (hprev : n.prev = none) :
    (extract (some a)).run s = some ((), s) := by
  have hload : (load a : BlistM V (BNode V)).run s = some (n, s) := by
    change (s.nodes a).map _ = _
    rw [hn]
    rfl
  refine run_bind_eq hload ?_
  rw [hprev]
  rfl

/-- A node is taken out of the list and given back. -/
theorem erase_spec {zs ys : List (Addr × V)} {e : Addr × V}
    (hlt : (zs ++ e :: ys).length < 2 ^ 64) :
    Triple (Holds (zs ++ e :: ys) M) (erase e.1) fun _ => Holds (zs ++ ys) M := by
  refine Triple.bind (extract_spec hlt) fun _ => ?_
  rw [Holds, add_left_comm]
  exact dropNode_spec

/-! ## Clearing -/

/-- The loop gives back the nodes from the front on. -/
theorem clearLoop_spec {fuel : ℕ} (hfuel : es.length < fuel) :
    Triple (BlistMem (cells p es none + M) (first es) cnt) (clearLoop fuel)
      fun _ => BlistMem M none cnt := by
  induction es generalizing p fuel with
  | nil =>
    obtain ⟨fuel, rfl⟩ := Nat.exists_eq_add_one_of_ne_zero (Nat.ne_of_gt hfuel)
    rw [cells_nil, zero_add]
    exact getHeader_bind (triple_pure fun _ hs => hs)
  | cons e es ih =>
    obtain ⟨fuel, rfl⟩ := Nat.exists_eq_add_one_of_ne_zero (Nat.ne_of_gt (Nat.zero_lt_of_lt hfuel))
    refine getHeader_bind ?_
    rw [cells_cons, Option.or_none, add_assoc]
    refine load_bind (n := ⟨e.2, p, first es⟩) (by simp) (Triple.bind dropNode_spec fun _ => ?_)
    exact Triple.bind putHeader_spec fun _ => ih (Nat.lt_of_succ_lt_succ hfuel)

/-- `Clear` leaves an empty list and no node of it. -/
theorem clear_spec (hlt : es.length < 2 ^ 64) :
    Triple (Holds es M) clear fun _ => Holds [] M := by
  refine Triple.bind (clearLoop_spec hlt) fun _ => putCount_spec.post fun _ s hs => ?_
  rwa [Holds, cells_nil, zero_add]

end Blist

end Mmkvc
