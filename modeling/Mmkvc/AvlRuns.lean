/-
# Runs of operations on an AVL tree

Any sequence of insertions, removals and `Clear` on an empty `AvlTreeBase` leaves a
search tree with consistent parent links that is balanced by the true heights.  What
the operations maintain allows for the tree of two nodes whose root stores a height
that is too small.
-/
import Mmkvc.AvlReuse
import Mmkvc.Transition

namespace Mmkvc

open AvlM AvlUtil AvlTreeBase LinkedTree

variable {ι K V : Type} [DecidableEq ι]

/-! ## Trees read from memory -/

/-- Memory holds the tree, each child with a link to its parent and the root with the link
`parent`. -/
def Represents (nodes : Addr → Option (AvlNode V)) : Option Addr → LinkedTree V → Prop
  | _, nil => True
  | parent, node a h v l r => nodes a = some ⟨parent, l.root, r.root, h, v⟩
      ∧ Represents nodes (some a) l ∧ Represents nodes (some a) r

/-- The nodes that a root pointer leads to. -/
inductive Member (s : AvlHeap ι V) (root : ι) : Addr → Prop where
  | root {a : Addr} : s.roots root = some a → Member s root a
  | child {a b : Addr} {n : AvlNode V} (d : Dir) :
    Member s root a → s.nodes a = some n → n.child d = some b → Member s root b

section

variable {root : ι} {N : Multiset (Addr × AvlNode V)} {e : Rest ι} {t : LinkedTree V}
  {s : AvlHeap ι V} {a : Addr}

/-- Nodes in memory are linked as a tree. -/
theorem represents_of_cells {nodes : Addr → Option (AvlNode V)} {p : Option Addr}
    (h : ∀ x ∈ t.cells p, nodes x.1 = some x.2) : Represents nodes p t := by
  induction t generalizing p with
  | nil => trivial
  | node a hh v l r ihl ihr =>
    refine ⟨h (a, ⟨p, l.root, r.root, hh, v⟩) (by simp [LinkedTree.cells]), ?_, ?_⟩
    · exact ihl fun x hx => h x (left_cells_subset p hx)
    · exact ihr fun x hx => h x (right_cells_subset p hx)

/-- A tree is what memory has at its root pointer. -/
theorem Represents.eq {nodes : Addr → Option (AvlNode V)} {t t' : LinkedTree V}
    {p : Option Addr} (h : Represents nodes p t) (h' : Represents nodes p t')
    (hroot : t.root = t'.root) : t = t' := by
  induction t generalizing p t' with
  | nil =>
    cases t' with
    | nil => rfl
    | node a' hh' v' l' r' => cases hroot
  | node a hh v l r ihl ihr =>
    cases t' with
    | nil => cases hroot
    | node a' hh' v' l' r' =>
      obtain rfl := Option.some.inj hroot
      obtain ⟨hcell, hl, hr⟩ := h
      obtain ⟨hcell', hl', hr'⟩ := h'
      obtain ⟨-, hleft, hright, rfl, rfl⟩ := AvlNode.mk.inj (Option.some.inj (hcell.symm.trans hcell'))
      rw [ihl hl hl' hleft, ihr hr hr' hright]

/-- A tree in memory is linked from its root pointer on. -/
theorem represents_of_focus (hs : Focus root N e [] t s) :
    s.roots root = t.root ∧ Represents s.nodes none t := by
  constructor
  · rw [hs.roots, Function.update_self]
    rfl
  · exact represents_of_cells fun x hx =>
      hs.sat.cell x (Multiset.mem_add.mpr (Or.inl (Multiset.mem_add.mpr (Or.inl hx))))

/-- A member has a place in the tree. -/
theorem Member.exists_place (hs : Focus root N e [] t s) (hmem : Member s root a) :
    ∃ c h v l r, t = Place.plug c (node a h v l r) := by
  induction hmem with
  | root hroot =>
    rw [(represents_of_focus hs).1] at hroot
    cases t with
    | nil => cases hroot
    | node b h v l r =>
      obtain rfl := Option.some.inj hroot
      exact ⟨[], h, v, l, r, rfl⟩
  | child d hmem hread hchild ih =>
    rename_i a b n
    obtain ⟨c, h, v, l, r, rfl⟩ := ih
    rw [← focus_plug] at hs
    have hcell := hs.sat.cell (a, ⟨Place.parent c, l.root, r.root, h, v⟩)
      (by simp [LinkedTree.cells])
    obtain rfl := Option.some.inj (hread.symm.trans hcell)
    cases d with
    | left =>
      change l.root = some b at hchild
      obtain ⟨b', h', v', x, y, rfl⟩ := exists_join .left (by simp [hchild] : l.root ≠ none)
      obtain rfl := Option.some.inj hchild
      exact ⟨⟨.left, a, h, v, r⟩ :: c, h', v', x, y, rfl⟩
    | right =>
      change r.root = some b at hchild
      obtain ⟨b', h', v', x, y, rfl⟩ := exists_join .left (by simp [hchild] : r.root ≠ none)
      obtain rfl := Option.some.inj hchild
      exact ⟨⟨.right, a, h, v, l⟩ :: c, h', v', x, y, rfl⟩

end

/-! ## Nodes in no tree -/

/-- The values of the nodes `L`. -/
def ValuesOf (L : Multiset (Addr × AvlNode V)) (held : Addr → Option V) : Prop :=
  ∀ a v, held a = some v ↔ ∃ n, (a, n) ∈ L ∧ n.value = v

section

variable {L : Multiset (Addr × AvlNode V)} {held : Addr → Option V} {a : Addr} {n : AvlNode V}

/-- A node more is a value more. -/
theorem ValuesOf.insert (h : ValuesOf L held) (hnodup : (({(a, n)} + L).map Prod.fst).Nodup) :
    ValuesOf ({(a, n)} + L) (Function.update held a (some n.value)) := by
  rw [Multiset.singleton_add, Multiset.map_cons, Multiset.nodup_cons] at hnodup
  intro x w
  rw [Multiset.singleton_add]
  by_cases hx : x = a
  · subst hx
    rw [Function.update_self]
    constructor
    · intro hw
      exact ⟨n, Multiset.mem_cons_self _ _, Option.some.inj hw⟩
    · rintro ⟨n', hn', rfl⟩
      rcases Multiset.mem_cons.mp hn' with heq | hmem
      · rw [(Prod.mk.inj heq).2]
      · exact absurd (Multiset.mem_map_of_mem Prod.fst hmem) hnodup.1
  · rw [Function.update_of_ne hx, h x w]
    constructor
    · rintro ⟨n', hn', hw⟩
      exact ⟨n', Multiset.mem_cons_of_mem hn', hw⟩
    · rintro ⟨n', hn', hw⟩
      rcases Multiset.mem_cons.mp hn' with heq | hmem
      · exact absurd (Prod.mk.inj heq).1 hx
      · exact ⟨n', hmem, hw⟩

/-- A node less is a value less. -/
theorem ValuesOf.erase (h : ValuesOf ({(a, n)} + L) held)
    (hnodup : (({(a, n)} + L).map Prod.fst).Nodup) :
    ValuesOf L (Function.update held a none) := by
  rw [Multiset.singleton_add, Multiset.map_cons, Multiset.nodup_cons] at hnodup
  intro x w
  by_cases hx : x = a
  · subst hx
    rw [Function.update_self]
    constructor
    · nofun
    · rintro ⟨n', hn', -⟩
      exact absurd (Multiset.mem_map_of_mem Prod.fst hn') hnodup.1
  · rw [Function.update_of_ne hx, h x w, Multiset.singleton_add]
    constructor
    · rintro ⟨n', hn', hw⟩
      rcases Multiset.mem_cons.mp hn' with heq | hmem
      · exact absurd (Prod.mk.inj heq).1 hx
      · exact ⟨n', hmem, hw⟩
    · rintro ⟨n', hn', hw⟩
      exact ⟨n', Multiset.mem_cons_of_mem hn', hw⟩

end

/-! ## Operations and runs -/

/-- A call on the tree. -/
inductive AvlOp (K V : Type) where
  | insert (value : V)
  | insertWithDuplicate (value : V) (duplicate : Bool)
  | insertEq (value : V)
  | erase (key : K)
  | eraseNode (node : Addr)
  | clear

/-- The memory after a call on the one tree there is. -/
def avlStep (T : AvlTraits K V) (s : AvlHeap Unit V) : AvlOp K V → Option (AvlHeap Unit V)
  | .insert value => exec (AvlTreeBase.insert T () value) s
  | .insertWithDuplicate value duplicate => exec (insertWithDuplicate T () value duplicate) s
  | .insertEq value => exec (insertEq T () value) s
  | .erase key => exec (AvlTreeBase.eraseKey T () key) s
  | .eraseNode a => exec (eraseNode () (some a)) s
  | .clear => exec (clear ()) s

/-- The memory with an empty tree. -/
def AvlHeap.empty : AvlHeap Unit V := ⟨fun _ => none, 0, fun _ => none, fun _ => 0⟩

/-- What the operations maintain; `strict` where no two entries have equivalent keys. -/
def AvlInv (T : AvlTraits K V) (strict : Prop) (s : AvlHeap Unit V) : Prop :=
  ∃ t e, Focus () 0 e [] t s ∧ t.Avl ∧ t.inorder.Pairwise T.le
    ∧ (strict → t.inorder.Pairwise T.lt)

section

variable {T : AvlTraits K V} {strict : Prop} {s : AvlHeap Unit V} {t : LinkedTree V}

/-- The empty memory holds an empty tree. -/
theorem focus_empty : Focus () 0 ⟨fun _ => none, 0, fun _ => 0⟩ [] (nil : LinkedTree V)
    AvlHeap.empty := by
  refine ⟨Sat.empty, ?_, rfl, rfl, fun _ _ => rfl⟩
  funext i
  simp [AvlHeap.empty]

theorem avlInv_empty : AvlInv T strict AvlHeap.empty :=
  ⟨nil, _, focus_empty, Or.inl trivial, List.Pairwise.nil, fun _ => List.Pairwise.nil⟩

/-- What an operation makes of the tree `t`; `x` is the address of the next new node. -/
def Makes (T : AvlTraits K V) (x : Addr) (t : LinkedTree V) : AvlOp K V → LinkedTree V → Prop
  | .insert v, t' | .insertWithDuplicate v _, t' => t' = (insertNew T (T.gk v) x 1 v t).2
  | .insertEq v, t' => t' = insertEqNew T x 1 v t
  | .erase key, t' => t' = (LinkedTree.eraseKey T key t).2
  | .eraseNode a, t' => ∃ c h v l r, t = Place.plug c (node a h v l r)
      ∧ t' = eraseAt c (node a h v l r)
  | .clear, t' => t' = nil

/-- An insertion leaves its tree, whether it found the key or not. -/
theorem exists_focus_of_inserted {e e' : Rest Unit} {key : K} {x : Addr} {h : ℕ} {v : V}
    (hs : Inserted () 0 0 e e' t (insertNew T key x h v t) s) :
    ∃ e'', Focus () 0 e'' [] (insertNew T key x h v t).2 s := by
  unfold Inserted at hs
  cases hout : (insertNew T key x h v t).1 with
  | none =>
    rw [hout] at hs
    exact ⟨_, hs⟩
  | some a =>
    rw [hout] at hs
    rw [insertNew_of_some (by simp [hout])]
    exact ⟨e, hs⟩

/-- **Each operation does not get stuck** and leaves a tree, whatever the comparator. -/
theorem avlStep_makes {op : AvlOp K V} {e : Rest Unit} (hs : Focus () 0 e [] t s)
    (hmem : ∀ a, op = .eraseNode a → Member s () a) :
    ∃ s' t' e', avlStep T s op = some s' ∧ Makes T e.next t op t' ∧ Focus () 0 e' [] t' s' := by
  cases op with
  | insert value =>
    obtain ⟨s', hrun, r, -, hs'⟩ := (insert_spec (T := T)).exec_eq hs
    obtain ⟨e', hs'⟩ := exists_focus_of_inserted hs'
    exact ⟨s', _, e', hrun, rfl, hs'⟩
  | insertWithDuplicate value duplicate =>
    obtain ⟨s', hrun, r, -, hs'⟩ := (insertWithDuplicate_spec (T := T)).exec_eq hs
    obtain ⟨e', hs'⟩ := exists_focus_of_inserted hs'
    exact ⟨s', _, e', hrun, rfl, hs'⟩
  | insertEq value =>
    obtain ⟨s', hrun, r, hs'⟩ := (insertEq_spec (T := T)).exec_eq hs
    exact ⟨s', _, _, hrun, rfl, hs'⟩
  | erase key =>
    obtain ⟨s', hrun, r, -, hs'⟩ := (eraseKey_spec (T := T)).exec_eq hs
    exact ⟨s', _, _, hrun, rfl, hs'⟩
  | eraseNode a =>
    obtain ⟨c, h, v, l, r, rfl⟩ := (hmem a rfl).exists_place hs
    rw [← focus_plug] at hs
    obtain ⟨s', hrun, q, -, hs'⟩ := eraseNode_spec.exec_eq hs
    exact ⟨s', _, _, hrun, ⟨c, h, v, l, r, rfl, rfl⟩, hs'⟩
  | clear =>
    obtain ⟨s', hrun, r, hs'⟩ := clear_spec.exec_eq hs
    exact ⟨s', _, _, hrun, rfl, hs'⟩

section

variable {x : Addr} {t' : LinkedTree V} {op : AvlOp K V}

/-- Every operation keeps the heights in order. -/
theorem Makes.avl (h : Makes T x t op t') (hAvl : t.Avl) : t'.Avl := by
  cases op with
  | insert value | insertWithDuplicate value duplicate =>
    rw [show t' = _ from h]
    exact hAvl.insertNew
  | insertEq value =>
    rw [show t' = _ from h]
    exact hAvl.insertEqNew
  | erase key =>
    rw [show t' = _ from h]
    exact hAvl.eraseKey
  | eraseNode a =>
    obtain ⟨c, h, v, l, r, rfl, rfl⟩ := h
    exact hAvl.eraseAt
  | clear =>
    obtain rfl : t' = nil := h
    exact Or.inl trivial

/-- Every operation keeps the order of the keys. -/
theorem Makes.sorted (h : Makes T x t op t') (hT : LawfulCompare T.cmp)
    (hle : t.inorder.Pairwise T.le) : t'.inorder.Pairwise T.le := by
  cases op with
  | insert value | insertWithDuplicate value duplicate =>
    rw [show t' = _ from h]
    exact sorted_insertNew hT hle x 1 value
  | insertEq value =>
    rw [show t' = _ from h]
    exact sorted_insertEqNew hT hle x 1 value
  | erase key =>
    rw [show t' = _ from h]
    exact hle.sublist (sublist_eraseKey T key t)
  | eraseNode a =>
    obtain ⟨c, h, v, l, r, rfl, rfl⟩ := h
    exact hle.sublist sublist_eraseAt
  | clear =>
    obtain rfl : t' = nil := h
    exact List.Pairwise.nil

/-- Every operation but `InsertEq` keeps the keys different. -/
theorem Makes.increasing (h : Makes T x t op t') (hT : LawfulCompare T.cmp)
    (hop : ∀ v, op ≠ .insertEq v) (hlt : t.inorder.Pairwise T.lt) : t'.inorder.Pairwise T.lt := by
  cases op with
  | insert value | insertWithDuplicate value duplicate =>
    rw [show t' = _ from h]
    exact strict_insertNew hT hlt x 1 value
  | insertEq value => exact absurd rfl (hop value)
  | erase key =>
    rw [show t' = _ from h]
    exact hlt.sublist (sublist_eraseKey T key t)
  | eraseNode a =>
    obtain ⟨c, h, v, l, r, rfl, rfl⟩ := h
    exact hlt.sublist sublist_eraseAt
  | clear =>
    obtain rfl : t' = nil := h
    exact List.Pairwise.nil

end

/-- **Each operation maintains the invariant.** -/
theorem avlStep_spec (hT : LawfulCompare T.cmp) {op : AvlOp K V} (hs : AvlInv T strict s)
    (hmem : ∀ a, op = .eraseNode a → Member s () a)
    (hstrict : strict → ∀ v, op ≠ .insertEq v) :
    ∃ s', avlStep T s op = some s' ∧ AvlInv T strict s' := by
  obtain ⟨t, e, hfocus, hAvl, hle, hlt⟩ := hs
  obtain ⟨s', t', e', hrun, hmakes, hs'⟩ := avlStep_makes (T := T) hfocus hmem
  refine ⟨s', hrun, t', e', hs', hmakes.avl hAvl, hmakes.sorted hT hle, fun h => ?_⟩
  exact hmakes.increasing hT (hstrict h) (hlt h)

/-- **Every sequence of operations leaves a balanced search tree.**  The operations do not
get stuck as long as `EraseNode` is called on members; the keys are in order, strictly if
`InsertEq` was not used; parents and children are linked both ways; and the true heights of
the two subtrees of every node differ by one at most. -/
theorem avl_run_balanced (hT : LawfulCompare T.cmp) (ops : List (AvlOp K V))
    (hmem : Transition.AllSteps (avlStep T) (fun s op => ∀ a, op = .eraseNode a → Member s () a)
      AvlHeap.empty ops) :
    ∃ s, Transition.run (avlStep T) AvlHeap.empty ops = some s ∧ ∃ t : LinkedTree V,
      s.roots () = t.root ∧ Represents s.nodes none t ∧ t.inorder.Pairwise T.le
        ∧ ((∀ op ∈ ops, ∀ v, op ≠ .insertEq v) → t.inorder.Pairwise T.lt) ∧ t.HeightBalanced := by
  have hsteps := hmem.and (Transition.allSteps_of_forall fun op hop => hop)
  obtain ⟨s, hrun, t, e, hfocus, hAvl, hle, hlt⟩ := Transition.exists_run_of_allSteps
    (I := AvlInv T (∀ op ∈ ops, ∀ v, op ≠ .insertEq v)) (fun s op hs hop =>
      avlStep_spec hT hs hop.1 fun hstrict => hstrict op hop.2) avlInv_empty hsteps
  obtain ⟨hroot, hrep⟩ := represents_of_focus hfocus
  exact ⟨s, hrun, t, hroot, hrep, hle, hlt, hAvl.heightBalanced⟩

/-- Where no `EraseNode` is called there is nothing to ask of it. -/
theorem members_of_no_eraseNode {ops : List (AvlOp K V)} (h : ∀ op ∈ ops, ∀ a, op ≠ .eraseNode a) :
    Transition.AllSteps (avlStep T) (fun s op => ∀ a, op = .eraseNode a → Member s () a) s ops :=
  (Transition.allSteps_of_forall h).imp (I := fun _ => True) (fun _ _ _ _ _ _ => trivial)
    (fun _ _ _ hop a ha => absurd ha (hop a)) trivial

/-- Integers as their own keys. -/
def intTraits : AvlTraits ℤ ℤ := ⟨fun x y => x - y, id⟩

theorem lawfulCompare_int : LawfulCompare intTraits.cmp where
  swap x y := by
    change x - y < 0 ↔ 0 < y - x
    omega
  trans x y z := by
    change x - y ≤ 0 → y - z ≤ 0 → x - z ≤ 0
    omega

/-- A run in which the root of a tree of two nodes is removed.  It ends with two entries of the same
key. -/
def intRun : List (AvlOp ℤ ℤ) :=
  [.insert 1, .insertWithDuplicate 2 true, .eraseNode 0, .insertEq 2, .clear, .insertEq 5,
    .insertEq 5, .insert 3, .erase 3]

theorem avl_run_balanced_intRun : ∃ s, Transition.run (avlStep intTraits) AvlHeap.empty intRun
    = some s ∧ ∃ t : LinkedTree ℤ, s.roots () = t.root ∧ Represents s.nodes none t
      ∧ t.inorder.Pairwise intTraits.le
      ∧ ((∀ op ∈ intRun, ∀ v, op ≠ .insertEq v) → t.inorder.Pairwise intTraits.lt)
      ∧ t.HeightBalanced := by
  refine avl_run_balanced lawfulCompare_int intRun ?_
  refine ⟨nofun, fun s h1 => ?_⟩
  obtain rfl := Option.some.inj h1
  refine ⟨nofun, fun s h2 => ?_⟩
  obtain rfl := Option.some.inj h2
  refine ⟨fun a ha => ?_, fun s _ => Transition.AllSteps.imp (I := fun _ => True)
    (P := fun _ op => ∀ a, op ≠ .eraseNode a) (fun _ _ _ _ _ _ => trivial)
    (fun _ _ _ hop a ha => absurd ha (hop a)) trivial (Transition.allSteps_of_forall (by simp))⟩
  obtain rfl := AvlOp.eraseNode.inj ha
  exact Member.root rfl

end

end Mmkvc
