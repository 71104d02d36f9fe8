/-
# The operations of `AvlTreeBase` on a tree in memory

Each operation, on a memory that holds a tree and other cells beside it, does not get
stuck, gives the result and leaves the tree that `SearchTree` says, and leaves the
cells beside it as they are.
-/
import Mmkvc.AvlSimulation
import Mmkvc.SearchTree

namespace Mmkvc

open AvlM AvlUtil AvlTreeBase LinkedTree

variable {ι K V : Type} [DecidableEq ι]

/-- The count of a tree goes up and down. -/
def Rest.increase (root : ι) (e : Rest ι) : Rest ι :=
  { e with counts := Function.update e.counts root (e.counts root + 1) }

def Rest.decrease (root : ι) (e : Rest ι) : Rest ι :=
  { e with counts := Function.update e.counts root (e.counts root - 1) }

def Rest.reset (root : ι) (e : Rest ι) : Rest ι :=
  { e with counts := Function.update e.counts root 0 }

/-- An address has been given out. -/
def Rest.advance (e : Rest ι) : Rest ι := { e with next := e.next + 1 }

section

variable {root : ι} {M N : Multiset (Addr × AvlNode V)} {p : Option Addr} {e : Rest ι}
  {a x : Addr} {n : AvlNode V} {β : Type} {R : β → AvlHeap ι V → Prop}
  {T : AvlTraits K V} {key : K} {c : Place V} {t l r : LinkedTree V} {h : ℕ} {v : V} {fuel : ℕ}

/-! ## Nodes and counts -/

/-- A new node has the height of a leaf and is in no tree. -/
theorem createNode_spec : Triple (At root M p e) (createNode v)
    fun a s => a = e.next ∧ At root ({(e.next, ⟨none, none, none, 1, v⟩)} + M) p e.advance s := by
  intro s hs
  refine ⟨s.next, _, rfl, hs.next, ⟨?_, hs.roots, ?_, hs.counts, ?_⟩⟩
  · rw [hs.next]
    exact hs.sat.alloc (hs.fresh e.next le_rfl)
  · exact congrArg (· + 1) hs.next
  · intro b hb
    have hlt : e.next < b := hb
    refine (Function.update_of_ne ?_ _ _).trans (hs.fresh b hlt.le)
    rw [hs.next]
    exact hlt.ne'

/-- A node is given back. -/
theorem dropNode_spec : Triple (At root ({(a, n)} + M) p e) (dropNode a)
    fun _ => At root M p e := by
  intro s hs
  have hread : s.nodes a = some n :=
    hs.sat.cell _ (Multiset.mem_add.mpr (Or.inl (Multiset.mem_singleton_self _)))
  refine ⟨(), { s with nodes := Function.update s.nodes a none }, ?_,
    ⟨hs.sat.dealloc, hs.roots, hs.next, hs.counts, ?_⟩⟩
  · change (s.nodes a).map _ = _
    rw [hread]
    rfl
  · intro b hb
    change Function.update s.nodes a none b = none
    by_cases hba : b = a
    · rw [hba, Function.update_self]
    · exact (Function.update_of_ne hba _ _).trans (hs.fresh b hb)

/-- The count of one tree is set. -/
theorem setCount_spec (k : BitVec 64) : Triple (At root M p e) (setCount root k)
    fun _ => At root M p { e with counts := Function.update e.counts root k } := by
  intro s hs
  refine ⟨(), _, rfl, ⟨hs.sat, hs.roots, hs.next, ?_, hs.fresh⟩⟩
  exact congrArg (fun counts => Function.update counts root k) hs.counts

/-- Reading the count of a tree. -/
theorem getCount_bind {f : BitVec 64 → AvlM ι V β}
    (h : Triple (At root M p e) (f (e.counts root)) R) :
    Triple (At root M p e) (getCount root >>= f) R :=
  Triple.bind_eq (a := e.counts root)
    (fun s hs => ⟨s.counts root, s, rfl, congrFun hs.counts root, hs⟩) h

theorem increaseCount_spec : Triple (At root M p e) (increaseCount root)
    fun _ => At root M p (e.increase root) := getCount_bind (setCount_spec _)

theorem decreaseCount_spec : Triple (At root M p e) (decreaseCount root)
    fun _ => At root M p (e.decrease root) := getCount_bind (setCount_spec _)

/-! ## Search -/

/-- The search goes down to where the key is, or would be. -/
theorem findLoop_spec {q : Option Addr} (ht : t.cells q ⊆ M) (hfuel : t.inorder.length ≤ fuel) :
    Triple (At root M p e) (findLoop T key fuel t.root)
      fun r s => r = (locate T key stop c t).2.root ∧ At root M p e s := by
  induction t generalizing q c fuel with
  | nil => cases fuel <;> exact triple_pure fun s hs => ⟨rfl, hs⟩
  | node a h v l r ihl ihr =>
    rw [inorder_node, List.length_append, List.length_cons] at hfuel
    cases fuel with
    | zero => exact absurd hfuel (by omega)
    | succ fuel =>
      rw [root_node, findLoop]
      refine load_bind (n := ⟨q, l.root, r.root, h, v⟩) (ht (by simp [LinkedTree.cells])) ?_
      rw [locate, side]
      refine Triple.ite (fun hgt => ?_) fun hngt => Triple.ite (fun hlt => ?_) fun hnlt => ?_
      · rw [if_pos hgt]
        exact ihl (Multiset.Subset.trans (left_cells_subset q) ht) (by omega)
      · rw [if_neg hngt, if_pos hlt]
        exact ihr (Multiset.Subset.trans (right_cells_subset q) ht) (by omega)
      · rw [if_neg hngt, if_neg hnlt]
        exact triple_pure fun s hs => ⟨rfl, hs⟩

/-- The number of nodes is below the bound of the loops. -/
theorem length_le_of_focus {s : AvlHeap ι V} (hs : Focus root N e c t s) :
    t.inorder.length + c.length ≤ e.next := by
  have hcard := hs.card_le
  have hlength := Place.length_le_card t.root c
  rw [Multiset.card_add, Multiset.card_add, card_cells] at hcard
  omega

/-- `FindNode` returns the node of an entry with the key, if there is one. -/
theorem findNode_spec : Triple (Focus root N e [] t) (findNode T root key)
    fun r s => r = find T key t ∧ Focus root N e [] t s := by
  refine Triple.of_pre (fun hlength => ?_) fun s hs => length_le_of_focus hs
  refine bound_bind (getRoot_bind ?_)
  refine findLoop_spec (q := none) (fun x hx => ?_) (by omega)
  exact Multiset.mem_add.mpr (Or.inl (Multiset.mem_add.mpr (Or.inl hx)))

/-! ## The way down of an insertion -/

/-- The slot that points to a place. -/
def slotOf (root : ι) : Place V → Slot ι
  | [] => .root root
  | f :: _ => .child f.addr f.dir

/-- Where the way down ends, by the place and the subtree there. -/
def descentOf (root : ι) : Place V × LinkedTree V → Descent ι
  | (c, nil) => .free (slotOf root c) (Place.parent c)
  | (_, node a _ _ _ _) => .found a

/-- The slot of a place points to the subtree there. -/
theorem readSlot_bind {f : Option Addr → AvlM ι V β}
    (hf : Triple (Focus root N e c t) (f t.root) R) :
    Triple (Focus root N e c t) (readSlot (slotOf root c) >>= f) R := by
  cases c with
  | nil => exact getRoot_bind hf
  | cons f c =>
    rw [slotOf, readSlot, bind_assoc]
    refine load_bind (n := (f.cell (Place.parent c) t.root).2)
      (by simp [Frame.cell, Place.cells]) ?_
    rw [pure_bind, Frame.cell, AvlNode.child_ofSides]
    exact hf

/-- The search for a slot goes down as `locate` does, if it treats an entry with the key alike. -/
theorem descend_spec {onEq : Addr → AvlM ι V (Option Dir)}
    {onEq' : LinkedTree V → LinkedTree V → Option Dir}
    (hEq : ∀ c a h v l r, Triple (Focus root N e c (node a h v l r)) (onEq a)
      fun d s => d = onEq' l r ∧ Focus root N e c (node a h v l r) s)
    (hfuel : t.inorder.length < fuel) :
    Triple (Focus root N e c t) (descend T key onEq fuel (slotOf root c) (Place.parent c))
      fun r s => r = descentOf root (locate T key onEq' c t) ∧ Focus root N e c t s := by
  induction t generalizing c fuel with
  | nil =>
    cases fuel with
    | zero => exact absurd hfuel (Nat.not_lt_zero _)
    | succ fuel =>
      rw [descend]
      exact readSlot_bind (triple_pure fun s hs => ⟨rfl, hs⟩)
  | node a h v l r ihl ihr =>
    rw [inorder_node, List.length_append, List.length_cons] at hfuel
    cases fuel with
    | zero => exact absurd hfuel (Nat.not_lt_zero _)
    | succ fuel =>
      -- the two subtrees, each at the place below the node
      have hleft := @ihl (⟨.left, a, h, v, r⟩ :: c) fuel (by omega)
      have hright := @ihr (⟨.right, a, h, v, l⟩ :: c) fuel (by omega)
      rw [focus_cons] at hleft hright
      rw [descend]
      refine readSlot_bind ?_
      refine load_bind (n := ⟨Place.parent c, l.root, r.root, h, v⟩)
        (by simp [LinkedTree.cells]) ?_
      rw [locate, side]
      refine Triple.ite (fun hgt => ?_) fun hngt => Triple.ite (fun hlt => ?_) fun hnlt => ?_
      · rw [if_pos hgt]
        exact hleft
      · rw [if_neg hngt, if_pos hlt]
        exact hright
      · rw [if_neg hngt, if_neg hnlt]
        refine Triple.bind_eq (hEq c a h v l r) ?_
        rcases onEq' l r with _ | _ | _
        · exact triple_pure fun s hs => ⟨rfl, hs⟩
        · exact hleft
        · exact hright

theorem stop_spec : Triple (Focus root N e c (node a h v l r)) (return none : AvlM ι V (Option Dir))
    fun d s => d = stop l r ∧ Focus root N e c (node a h v l r) s :=
  triple_pure fun _ hs => ⟨rfl, hs⟩

/-- A node without children is linked to a free slot. -/
theorem linkSlot_spec (hleft : n.left = none) (hright : n.right = none) :
    Triple (Focus root ({(x, n)} + N) e c nil) (linkSlot (slotOf root c) x (Place.parent c))
      fun _ => Focus root N e c (node x n.height n.value nil nil) := by
  have hn : ({ n with parent := Place.parent c } : AvlNode V)
      = ⟨Place.parent c, none, none, n.height, n.value⟩ := by
    rw [hleft, hright]
  cases c with
  | nil =>
    refine Triple.bind setRoot_spec fun _ => ?_
    refine (modify_spec (n := n) (N := N) ?_ hn).post fun _ s hs => hs.congr ?_
    · simp [Place.cells]
    · simp [LinkedTree.cells, Place.cells]
  | cons f c =>
    refine Triple.bind (modify_spec (n := (f.cell (Place.parent c) none).2)
      (k := (f.cell (Place.parent c) (some x)).2) (N := {(x, n)} + (f.other.cells (some f.addr)
        + Place.cells (some f.addr) c + N)) ?_ (by cases hd : f.dir <;>
          simp [Frame.cell, AvlNode.ofSides, AvlNode.setChild, hd])) fun _ => ?_
    · rw [cells_nil, root_nil, Place.cells, Frame.cell]
      abel
    · refine (modify_spec (n := n) (N := {f.cell (Place.parent c) (some x)}
        + (f.other.cells (some f.addr) + Place.cells (some f.addr) c + N)) ?_ hn).post
          fun _ s hs => hs.congr ?_
      · simp only [Frame.cell]
        abel
      · rw [LinkedTree.cells, cells_nil, root_node, Place.cells, root_nil, add_zero, add_zero]
        abel

/-! ## Insertion -/

/-- What becomes of the rest when an insertion has put a node in: the shortcut for a tree of
one node does not count it. -/
def restAfter (root : ι) (t : LinkedTree V) (e : Rest ι) : Rest ι :=
  match t with
  | nil => e.increase root
  | node _ _ _ l r => if l.root = none ∧ r.root = none then e else e.increase root

@[simp] theorem restAfter_next : (restAfter root t e).next = e.next := by
  unfold restAfter
  split
  · rfl
  · split_ifs <;> rfl

@[simp] theorem restAfter_roots : (restAfter root t e).roots = e.roots := by
  unfold restAfter
  split
  · rfl
  · split_ifs <;> rfl

/-- What an insertion leaves, by the entry it found. -/
def Inserted (root : ι) (M N : Multiset (Addr × AvlNode V)) (e e' : Rest ι) (t : LinkedTree V)
    (out : Option Addr × LinkedTree V) (s : AvlHeap ι V) : Prop :=
  match out.1 with
  | none => Focus root N (restAfter root t e') [] out.2 s
  | some _ => Focus root (M + N) e [] t s

/-- A search does not move the tree. -/
theorem focus_locate (T : AvlTraits K V) (key : K)
    (onEq : LinkedTree V → LinkedTree V → Option Dir) (t : LinkedTree V) :
    Focus root N e [] t
      = Focus root N e (locate T key onEq [] t).1 (locate T key onEq [] t).2 := by
  rw [focus_plug (c := (locate T key onEq [] t).1), plug_locate, Place.plug_nil]

/-- `getNode` makes the node `x` without links, with the contents of `n`, out of the cells
`M`. -/
def Gets (root : ι) (M : Multiset (Addr × AvlNode V)) (e e' : Rest ι) (x : Addr) (n : AvlNode V)
    (getNode : AvlM ι V Addr) : Prop :=
  ∀ p A, Triple (At root (M + A) p e) getNode fun a s => a = x ∧ At root ({(x, n)} + A) p e' s

/-- A node is got beside a tree, which stays as it is. -/
theorem Gets.focus {getNode : AvlM ι V Addr} {e' : Rest ι}
    (hget : Gets root M e e' x n getNode) :
    Triple (Focus root (M + N) e c t) getNode
      fun a s => a = x ∧ Focus root ({(x, n)} + N) e' c t s := by
  refine Triple.perm (N := M + (t.cells (Place.parent c) + Place.cells t.root c + N)) (by abel)
    ((hget _ _).post fun a s hs => ⟨hs.1, hs.2.congr (by abel)⟩)

/-- The end of an insertion: the node is linked and the way up repaired. -/
theorem link_spec {dup : Option Addr} (hleft : n.left = none)
    (hright : n.right = none) :
    Triple (Focus root ({(x, n)} + N) e c nil)
      (do
        linkSlot (slotOf root c) x (Place.parent c)
        insertFixup root ((← bound) + 1) (Place.parent c)
        increaseCount root
        return (true, dup))
      fun r s => r = (true, dup) ∧ Focus root N (e.increase root) []
        (insertUp c (node x n.height n.value nil nil)) s := by
  refine Triple.bind (linkSlot_spec hleft hright) fun _ => ?_
  refine Triple.of_pre (fun hlength => ?_) fun s hs => length_le_of_focus hs
  refine bound_bind (Triple.bind (insertFixup_spec (by omega)) fun _ => ?_)
  exact Triple.bind increaseCount_spec fun _ => triple_pure fun s hs => ⟨rfl, hs⟩

/-- **The common part of the insertions.** -/
theorem insertNode_spec {getNode : AvlM ι V Addr} {onOnly : Addr → AvlM ι V Addr} {dup : Bool}
    {e' : Rest ι} (hlinks : n.left = none ∧ n.right = none ∧ n.parent = none)
    (hget : Gets root M e e' x n getNode)
    (honly : dup = true → ∀ a h v, t = node a h v nil nil → T.cmp key (T.gk v) = 0 → ∀ p A,
      Triple (At root A p e) (onOnly a) fun r s => r = a ∧ At root A p e s) :
    Triple (Focus root (M + N) e [] t) (insertNode T root key getNode onOnly dup)
      fun r s => let out := insertNew T key x n.height n.value t
        r = (out.1.isNone, if dup then some (out.1.getD x) else none)
          ∧ Inserted root M N e e' t out s := by
  obtain ⟨hleft, hright, hparent⟩ := hlinks
  unfold insertNode
  refine getRoot_bind ?_
  cases t with
  | nil =>
    refine Triple.bind_eq hget.focus (Triple.bind setRoot_spec fun _ =>
      Triple.bind increaseCount_spec fun _ => triple_pure fun s hs => ⟨rfl, ?_⟩)
    refine hs.congr ?_
    obtain ⟨np, nl, nr, nh, nv⟩ := n
    obtain ⟨rfl, rfl, rfl⟩ : nl = none ∧ nr = none ∧ np = none := ⟨hleft, hright, hparent⟩
    simp [LinkedTree.cells, Place.cells, insertNew]
  | node a h v l r =>
    refine load_bind (n := ⟨none, l.root, r.root, h, v⟩) (by simp [LinkedTree.cells]) ?_
    rw [insertNew]
    -- the shortcut for a tree of one node does not count the new one
    by_cases hsingle : l.root = none ∧ r.root = none
    · have hrest : restAfter root (node a h v l r) e' = e' := if_pos hsingle
      rw [if_pos hsingle, if_pos hsingle]
      rw [root_eq_none, root_eq_none] at hsingle
      obtain ⟨rfl, rfl⟩ := hsingle
      have hlink : ∀ d : Dir, Triple (Focus root (M + N) e [] (node a h v nil nil))
          (do
            let node ← getNode
            linkSlot (.child a d) node (some a)
            return (true, if dup then some node else none))
          fun r s => r = (true, if dup then some x else none) ∧ Focus root N e' []
            (join d a h v (node x n.height n.value nil nil) nil) s := by
        intro d
        have hplace : Focus root (M + N) e [] (node a h v nil nil)
            = Focus root (M + N) e [⟨d, a, h, v, nil⟩] nil := by
          rw [focus_cons, Frame.fill]
          cases d <;> rfl
        rw [hplace]
        refine Triple.bind_eq hget.focus (Triple.bind (linkSlot_spec hleft hright) fun _ =>
          triple_pure fun s hs => ⟨rfl, ?_⟩)
        rwa [focus_cons] at hs
      refine Triple.ite (fun hgt => ?_) fun hngt => Triple.ite (fun hlt => ?_) fun hnlt => ?_
      · rw [if_pos hgt]
        exact (hlink .right).post fun r s hs => ⟨hs.1, hrest.symm ▸ hs.2⟩
      · rw [if_neg hngt, if_pos hlt]
        exact (hlink .left).post fun r s hs => ⟨hs.1, hrest.symm ▸ hs.2⟩
      · rw [if_neg hngt, if_neg hnlt]
        cases dup with
        | false => exact triple_pure fun s hs => ⟨rfl, hs⟩
        | true =>
          have heq : T.cmp key (T.gk v) = 0 := le_antisymm (not_lt.mp hngt) (not_lt.mp hnlt)
          exact Triple.bind_eq (honly rfl a h v rfl heq _ _) (triple_pure fun s hs => ⟨rfl, hs⟩)
    · have hrest : restAfter root (node a h v l r) e' = e'.increase root := if_neg hsingle
      rw [if_neg hsingle, if_neg hsingle]
      clear honly
      generalize node a h v l r = t at hrest ⊢
      -- the fuel of the descent is enough, as there are no more nodes than addresses
      refine Triple.of_pre (C := t.inorder.length ≤ e.next) (fun hlength => ?_) fun s hs =>
        length_le_of_focus (c := []) hs
      refine bound_bind (Triple.bind_eq (descend_spec (c := [])
        (fun c a h v l r => stop_spec) (by omega)) ?_)
      · have hplace : Focus root (M + N) e [] t = _ := focus_locate T key stop t
        generalize hz : locate T key stop [] t = z at hplace ⊢
        obtain ⟨c, s⟩ := z
        cases s with
        | nil =>
          rw [hplace]
          refine Triple.bind_eq hget.focus ((link_spec hleft hright).post fun r s hs => ⟨hs.1, ?_⟩)
          change Focus root N (restAfter root t e') [] _ s
          rw [hrest]
          exact hs.2
        | node b hb vb lb rb => exact triple_pure fun s hs => ⟨rfl, hs⟩

/-- `CreateNode` makes a node out of nothing. -/
theorem gets_createNode :
    Gets root 0 e e.advance e.next ⟨none, none, none, 1, v⟩ (createNode v) := by
  intro p A
  rw [zero_add]
  exact createNode_spec

/-- A node that is given is there. -/
theorem gets_node : Gets root {(x, n)} e e x n (return x) :=
  fun _ _ => triple_pure fun _ hs => ⟨rfl, hs⟩

/-- `InsertWithDuplicate`. -/
theorem insertWithDuplicate_spec {dup : Bool} :
    Triple (Focus root N e [] t) (insertWithDuplicate T root v dup)
      fun r s => let out := insertNew T (T.gk v) e.next 1 v t
        r = (out.1.isNone, if dup then some (out.1.getD e.next) else none)
          ∧ Inserted root 0 N e e.advance t out s := by
  have hspec : Triple (Focus root (0 + N) e [] t) (insertWithDuplicate T root v dup)
      fun r s => let out := insertNew T (T.gk v) e.next 1 v t
        r = (out.1.isNone, if dup then some (out.1.getD e.next) else none)
          ∧ Inserted root 0 N e e.advance t out s :=
    insertNode_spec (n := ⟨none, none, none, 1, v⟩) ⟨rfl, rfl, rfl⟩ gets_createNode
      fun _ _ _ _ _ _ _ _ => triple_pure fun _ hs => ⟨rfl, hs⟩
  rwa [zero_add] at hspec

/-- `Insert`. -/
theorem insert_spec : Triple (Focus root N e [] t) (AvlTreeBase.insert T root v)
    fun r s => let out := insertNew T (T.gk v) e.next 1 v t
      r = out.1.isNone ∧ Inserted root 0 N e e.advance t out s :=
  Triple.bind insertWithDuplicate_spec fun _ => triple_pure fun _ hs =>
    ⟨congrArg Prod.fst hs.1, hs.2⟩

/-- `PushWithDuplicate` of a node without links.  With a pointer for the duplicate it must not be
for the key of the only entry. -/
theorem pushWithDuplicate_spec {dup : Bool}
    (hlinks : n.left = none ∧ n.right = none ∧ n.parent = none)
    (honly : dup = true → ∀ a h v, t = node a h v nil nil → T.cmp (T.gk n.value) (T.gk v) ≠ 0) :
    Triple (Focus root ({(x, n)} + N) e [] t) (pushWithDuplicate T root x dup)
      fun r s => let out := insertNew T (T.gk n.value) x n.height n.value t
        r = (out.1.isNone, if dup then some (out.1.getD x) else none)
          ∧ Inserted root {(x, n)} N e e t out s := by
  unfold pushWithDuplicate
  exact load_bind (n := n) (by simp) (insertNode_spec hlinks gets_node fun hdup a h v ht heq =>
    absurd heq (honly hdup a h v ht))

/-- `Push` of a node without links. -/
theorem push_spec (hlinks : n.left = none ∧ n.right = none ∧ n.parent = none) :
    Triple (Focus root ({(x, n)} + N) e [] t) (push T root x)
      fun r s => let out := insertNew T (T.gk n.value) x n.height n.value t
        r = out.1.isNone ∧ Inserted root {(x, n)} N e e t out s :=
  Triple.bind (pushWithDuplicate_spec hlinks nofun) fun _ => triple_pure fun _ hs =>
    ⟨congrArg Prod.fst hs.1, hs.2⟩

/-- The side that `PushEq` takes. -/
theorem lowerSide_spec : Triple (Focus root N e c (node a h v l r)) (AvlTreeBase.lowerSide a)
    fun d s => d = LinkedTree.lowerSide l r ∧ Focus root N e c (node a h v l r) s := by
  have hmem : ((a, ⟨Place.parent c, l.root, r.root, h, v⟩) : Addr × AvlNode V)
      ∈ (node a h v l r).cells (Place.parent c) + Place.cells (some a) c + N := by
    simp [LinkedTree.cells]
  have hin : ∀ {A : Multiset (Addr × AvlNode V)}, A ⊆ (node a h v l r).cells (Place.parent c) →
      A ⊆ (node a h v l r).cells (Place.parent c) + Place.cells (some a) c + N :=
    fun hA x hx => Multiset.mem_add.mpr (Or.inl (Multiset.mem_add.mpr (Or.inl (hA hx))))
  refine childHeight_bind hmem rfl (hin (left_cells_subset _)) ?_
  refine childHeight_bind hmem rfl (hin (right_cells_subset _)) ?_
  exact triple_pure fun s hs => ⟨rfl, hs⟩

/-- `PushEq` of a node without links. -/
theorem pushEq_spec (hlinks : n.left = none ∧ n.right = none ∧ n.parent = none) :
    Triple (Focus root ({(x, n)} + N) e [] t) (pushEq T root x)
      fun _ s => Focus root N (e.increase root) [] (insertEqNew T x n.height n.value t) s := by
  obtain ⟨hleft, hright, hparent⟩ := hlinks
  unfold pushEq
  refine getRoot_bind ?_
  cases t with
  | nil =>
    refine Triple.bind setRoot_spec fun _ => increaseCount_spec.post fun _ s hs => hs.congr ?_
    obtain ⟨np, nl, nr, nh, nv⟩ := n
    obtain ⟨rfl, rfl, rfl⟩ : nl = none ∧ nr = none ∧ np = none := ⟨hleft, hright, hparent⟩
    simp [LinkedTree.cells, Place.cells, insertEqNew, locate, insertUp]
  | node a h v l r =>
    change Triple (Focus root ({(x, n)} + N) e [] (node a h v l r)) _ _
    dsimp only [Place.top_nil, root_node]
    generalize node a h v l r = t
    refine load_bind (n := n) (by simp) ?_
    refine Triple.of_pre (C := t.inorder.length ≤ e.next) (fun hlength => ?_) fun s hs =>
      length_le_of_focus (c := []) hs
    refine bound_bind (Triple.bind_eq (descend_spec (c := [])
      (fun c a h v l r => lowerSide_spec) (by omega)) ?_)
    have hplace : Focus root ({(x, n)} + N) e [] t = _ :=
      focus_locate T (T.gk n.value) LinkedTree.lowerSide t
    have hend := locate_lower_end T (T.gk n.value) [] t
    unfold insertEqNew
    generalize locate T (T.gk n.value) LinkedTree.lowerSide [] t = z at hplace hend ⊢
    obtain ⟨c, s⟩ := z
    dsimp only at hend
    subst hend
    rw [hplace]
    refine Triple.bind (linkSlot_spec hleft hright) fun _ => ?_
    refine Triple.of_pre (fun hlength' => ?_) fun s hs => length_le_of_focus hs
    exact bound_bind (Triple.bind (insertFixup_spec (by omega)) fun _ => increaseCount_spec)

/-- `InsertEq`. -/
theorem insertEq_spec : Triple (Focus root N e [] t) (insertEq T root v)
    fun _ s => Focus root N (e.advance.increase root) [] (insertEqNew T e.next 1 v t) s := by
  unfold insertEq
  refine Triple.bind_eq (a := e.next) ?_ (pushEq_spec (n := ⟨none, none, none, 1, v⟩)
    ⟨rfl, rfl, rfl⟩)
  have hget : Gets root 0 e e.advance e.next ⟨none, none, none, 1, v⟩ (createNode v) :=
    gets_createNode
  have hfocus := hget.focus (N := N) (c := []) (t := t)
  rwa [zero_add] at hfocus

/-! ## Removal -/

/-- `_Erase` takes out the root of the subtree and repairs what is above it. -/
theorem eraseRoutine_spec : Triple (Focus root N e c (node a h v l r)) (eraseRoutine root a)
    fun _ => Focus root N (e.decrease root) [] (eraseAt c (node a h v l r)) := by
  refine Triple.bind erase_spec fun _ => Triple.exists_pre fun n => ?_
  refine Triple.of_pre (fun _ => ?_) fun s hs => hs.1
  refine Triple.pre (P := Focus root ({(a, n)} + N) e [] (eraseAt c (node a h v l r))) ?_
    fun s hs => hs.2.2
  refine Triple.bind (Triple.perm (N := {(a, n)} + ((eraseAt c (node a h v l r)).cells none
    + Place.cells (eraseAt c (node a h v l r)).root [] + N)) ?_ dropNode_spec) fun _ =>
      decreaseCount_spec
  rw [Place.parent_nil]
  abel

/-- `EraseNode`. -/
theorem eraseNode_spec : Triple (Focus root N e c (node a h v l r)) (eraseNode root (some a))
    fun q s => q = true ∧ Focus root N (e.decrease root) [] (eraseAt c (node a h v l r)) s :=
  Triple.bind eraseRoutine_spec fun _ => triple_pure fun _ hs => ⟨rfl, hs⟩

/-- What `Erase(key)` leaves, by the entry it found. -/
theorem eraseKey_spec : Triple (Focus root N e [] t) (AvlTreeBase.eraseKey T root key)
    fun r s => let out := LinkedTree.eraseKey T key t
      r = out.1.isSome ∧ Focus root N (if out.1.isSome then e.decrease root else e) [] out.2 s := by
  refine Triple.bind_eq findNode_spec ?_
  have hplace : Focus root N e [] t = _ := focus_locate T key stop t
  unfold find LinkedTree.eraseKey
  generalize locate T key stop [] t = z at hplace ⊢
  obtain ⟨c, s⟩ := z
  cases s with
  | nil => exact triple_pure fun s hs => ⟨rfl, hs⟩
  | node a h v l r =>
    rw [hplace]
    exact Triple.bind eraseRoutine_spec fun _ => triple_pure fun s hs => ⟨rfl, hs⟩

/-- The nodes beside a tree when one has been taken out of it. -/
def extracted (out : Option (Addr × ℕ × V)) (N : Multiset (Addr × AvlNode V)) :
    Multiset (Addr × AvlNode V) :=
  match out with
  | none => N
  | some (a, h, v) => {(a, ⟨none, none, none, h, v⟩)} + N

/-- The nodes beside a tree are those there were and the one taken out. -/
theorem extracted_add (out : Option (Addr × ℕ × V)) :
    extracted out (M + N) = M + extracted out N := by
  cases out with
  | none => rfl
  | some x => exact add_left_comm _ _ _

/-- `Extract(key)`: the node comes out without links. -/
theorem extract_spec : Triple (Focus root N e [] t) (extract T root key)
    fun r s => let out := LinkedTree.eraseKey T key t
      r = out.1.map (·.1)
        ∧ Focus root (extracted out.1 N) (if out.1.isSome then e.decrease root else e) [] out.2 s := by
  refine Triple.bind_eq findNode_spec ?_
  have hplace : Focus root N e [] t = _ := focus_locate T key stop t
  unfold find LinkedTree.eraseKey
  generalize locate T key stop [] t = z at hplace ⊢
  obtain ⟨c, s⟩ := z
  cases s with
  | nil => exact triple_pure fun s hs => ⟨rfl, hs⟩
  | node a h v l r =>
    rw [hplace]
    refine Triple.bind erase_spec fun _ => Triple.exists_pre fun n => ?_
    refine Triple.of_pre (C := n.value = v ∧ n.height = h) (fun hn => ?_)
      fun s hs => ⟨hs.1, hs.2.1⟩
    refine Triple.pre (P := Focus root ({(a, n)} + N) e [] (eraseAt c (node a h v l r))) ?_
      fun s hs => hs.2.2
    dsimp only [extracted]
    generalize eraseAt c (node a h v l r) = t'
    obtain ⟨rfl, rfl⟩ := hn
    refine Triple.bind decreaseCount_spec fun _ => Triple.bind (modify_spec (n := n)
      (N := t'.cells none + Place.cells t'.root [] + N) ?_ rfl) fun _ =>
      triple_pure fun s hs => ⟨rfl, hs.congr ?_⟩
    · rw [Place.parent_nil]
      abel
    · rw [Place.parent_nil]
      abel

end

end Mmkvc
