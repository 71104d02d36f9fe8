/-
# The balance of trees that share nodes

A node that `Extract` takes out keeps the height it had, and `Push` and `PushEq` put it in
below all others without setting it.  As long as the nodes that are put in have the height of
a leaf, every tree stays balanced by the true heights.  With another height the way up of a
later insertion stops too early.
-/
import Mmkvc.AvlGrove

namespace Mmkvc

open AvlM AvlTreeBase LinkedTree

variable {ι K V : Type} [DecidableEq ι]

/-- A member is an entry, with the value in its node. -/
theorem Member.exists_node {root : ι} {N : Multiset (Addr × AvlNode V)} {e : Rest ι}
    {t : LinkedTree V} {s : AvlHeap ι V} {a : Addr} (hs : Focus root N e [] t s)
    (ha : Member s root a) : ∃ n, s.nodes a = some n ∧ (a, n.value) ∈ t.inorder := by
  obtain ⟨c, h, v, l, r, rfl⟩ := ha.exists_place hs
  have hmem : (a, v) ∈ (Place.plug c (node a h v l r)).inorder := by
    rw [Place.inorder_plug]
    simp
  obtain ⟨n, hn, rfl⟩ := exists_mem_cells none hmem
  exact ⟨n, hs.sat.cell _ (Multiset.mem_add.mpr (Or.inl (Multiset.mem_add.mpr (Or.inl hn)))), hmem⟩

/-- The tree has an entry with the key. -/
def HasKey (T : AvlTraits K V) (s : AvlHeap ι V) (i : ι) (key : K) : Prop :=
  ∃ a n, Member s i a ∧ s.nodes a = some n ∧ T.cmp (T.gk n.value) key = 0

/-- A node that is put in has the height of a leaf. -/
def LinksLeaf (T : AvlTraits K V) (s : AvlHeap ι V) (op : ι × TreeCall K V) : Prop :=
  ∀ a n, s.nodes a = some n → n.height ≠ 1 →
    op.2 ≠ .pushEq a ∧ (op.2 = .push a → HasKey T s op.1 (T.gk n.value))

/-- The true heights of the two subtrees of each node of each tree differ by at most 1. -/
def AllBalanced (s : AvlHeap ι V) : Prop :=
  ∀ i, ∃ t : LinkedTree V, s.roots i = t.root ∧ Represents s.nodes none t ∧ t.HeightBalanced

namespace Grove

variable {T : AvlTraits K V} {g g' : Grove ι V} {i : ι} {op : TreeCall K V} {r : Bool × Option Addr}

/-- A call keeps the balance of its tree if the nodes it puts in have the height of a leaf. -/
theorem Moves.avl (h : g.Moves T i op r g') (hop : op ≠ .extractRoot)
    (hpush : ∀ a n, op = .push a → (a, n) ∈ g.loose →
      n.height = 1 ∨ (g.inserted T i a n.height n.value).1 ≠ none)
    (hpushEq : ∀ a n, op = .pushEq a → (a, n) ∈ g.loose → n.height = 1) (hAvl : (g.trees i).Avl) :
    (g'.trees i).Avl := by
  cases h with
  | insert v | insertWithDuplicate v =>
    rw [planted_trees_self]
    exact hAvl.insertNew
  | insertEq v =>
    rw [replace_trees_self]
    exact hAvl.insertEqNew
  | push a n L hL =>
    rw [planted_trees_self]
    rcases hpush a n rfl (by simp [hL]) with hheight | hfound
    · unfold inserted
      rw [hheight]
      exact hAvl.insertNew
    · rw [inserted, insertNew_of_some hfound]
      exact hAvl
  | pushEq a n L hL =>
    rw [replace_trees_self, hpushEq a n rfl (by simp [hL])]
    exact hAvl.insertEqNew
  | find key => exact hAvl
  | erase key | extract key =>
    unfold cut
    rw [replace_trees_self]
    exact hAvl.eraseKey
  | eraseNode c a h v l r ht =>
    rw [ht] at hAvl
    rw [replace_trees_self]
    exact hAvl.eraseAt
  | extractRoot_nil ht | extractRoot d a h v near ht => exact absurd rfl hop
  | reuseAllNodes | clear =>
    rw [replace_trees_self]
    exact Or.inl trivial

/-- Sorted and balanced trees. -/
structure Balanced (T : AvlTraits K V) (g : Grove ι V) : Prop where
  good : g.Good
  sorted : ∀ i, (g.trees i).inorder.Pairwise T.le
  avl : ∀ i, (g.trees i).Avl

variable [Fintype ι] {s : AvlHeap ι V} {key : K}

/-- An insertion finds a key that is there. -/
theorem inserted_ne_none (hT : LawfulCompare T.cmp) (hs : g.Holds s)
    (hsorted : (g.trees i).inorder.Pairwise T.le) {a : Addr} {h : ℕ} {v : V}
    (hkey : HasKey T s i (T.gk v)) : (g.inserted T i a h v).1 ≠ none := by
  intro hnone
  obtain ⟨b, m, hmem, hm, heq⟩ := hkey
  obtain ⟨m', hm', hentry⟩ := hmem.exists_node (hs.focus i)
  obtain rfl := Option.some.inj (hm.symm.trans hm')
  rcases insertNew_outcome hT hsorted a h v with ⟨-, L, R, hent, -, hL, hR⟩ | ⟨c, w, hsome, -⟩
  · rw [hent, List.mem_append] at hentry
    rcases hentry with hentry | hentry
    · exact (hL _ hentry).ne heq
    · exact (hR _ hentry).ne' heq
  · rw [inserted, hsome] at hnone
    cases hnone

/-- **Each call keeps the trees balanced** if the nodes that are put in have the height of a
leaf. -/
theorem Balanced.step (hT : LawfulCompare T.cmp) (hs : g.Holds s) (hg : g.Balanced T)
    (hpush : PushesLoose s (i, op)) (herase : ErasesMember s (i, op)) (hop : op ≠ .extractRoot)
    (hleaf : LinksLeaf T s (i, op)) :
    ∃ s', ∃ g' : Grove ι V, groveStep T s (i, op) = some s' ∧ g'.Holds s' ∧ g'.Balanced T := by
  obtain ⟨r, s', g', -, hstep, hmoves, hs', hgood⟩ := hs.step (T := T) hg.good
    (hs.allows hpush herase fun h => absurd h hop)
  have hAvl : (g'.trees i).Avl :=
    hmoves.avl hop (fun a n ha hn => ?_) (fun a n ha hn => ?_) (hg.avl i)
  · exact ⟨s', g', hstep, hs', hgood, hmoves.forall_trees (P := fun t => t.inorder.Pairwise T.le)
      hg.sorted (hmoves.sorted hT (hg.sorted i)), hmoves.forall_trees hg.avl hAvl⟩
  · by_cases hheight : n.height = 1
    · exact Or.inl hheight
    · exact Or.inr (inserted_ne_none hT hs (hg.sorted i)
        ((hleaf a n (hs.node_eq hn) hheight).2 ha))
  · by_contra hheight
    exact (hleaf a n (hs.node_eq hn) hheight).1 ha

end Grove

/-! ## Runs -/

section

variable [Fintype ι] {T : AvlTraits K V}

/-- **Trees that share nodes stay balanced** along every run in which each node that `Push` or
`PushEq` puts in has the height of a leaf. -/
theorem grove_run_balanced (hT : LawfulCompare T.cmp) (ops : List (ι × TreeCall K V))
    (hops : ∀ op ∈ ops, op.2 ≠ .extractRoot)
    (hpush : Transition.AllSteps (groveStep T) PushesLoose AvlHeap.bare ops)
    (herase : Transition.AllSteps (groveStep T) ErasesMember AvlHeap.bare ops)
    (hleaf : Transition.AllSteps (groveStep T) (LinksLeaf T) AvlHeap.bare ops) :
    ∃ s, Transition.run (groveStep T) AvlHeap.bare ops = some s ∧ AllBalanced s := by
  have hsteps := ((hpush.and herase).and hleaf).and (Transition.allSteps_of_forall hops)
  have hbare : ∃ g : Grove ι V, g.Holds AvlHeap.bare ∧ g.Balanced T :=
    ⟨Grove.bare, Grove.holds_bare, nofun, fun _ => List.Pairwise.nil, fun _ => Or.inl trivial⟩
  obtain ⟨s, hrun, g, hs, hg⟩ := Transition.exists_run_of_allSteps
    (I := fun s => ∃ g : Grove ι V, g.Holds s ∧ g.Balanced T) (fun s op ⟨g, hs, hg⟩ hop => by
      obtain ⟨s', g', hstep, hs', hg'⟩ := hg.step hT hs hop.1.1.1 hop.1.1.2 hop.2 hop.1.2
      exact ⟨s', hstep, g', hs', hg'⟩) hbare hsteps
  refine ⟨s, hrun, fun i => ?_⟩
  obtain ⟨hroot, hrep⟩ := hs.represents i
  exact ⟨_, hroot, hrep, (hg.avl i).heightBalanced⟩

end

/-- The height of the node that a call is given to put in. -/
def pushedHeight (s : AvlHeap ι V) : ι × TreeCall K V → Option ℕ
  | (_, .push a) | (_, .pushEq a) => (s.nodes a).map AvlNode.height
  | _ => some 1

omit [DecidableEq ι] in
/-- A call that is given a node with the height of a leaf links one. -/
theorem linksLeaf_of_pushedHeight {T : AvlTraits K V} {s : AvlHeap ι V} {op : ι × TreeCall K V}
    (h : pushedHeight s op = some 1) : LinksLeaf T s op := by
  obtain ⟨i, op⟩ := op
  intro a n hn hheight
  constructor
  · rintro rfl
    rw [pushedHeight, hn] at h
    exact hheight (Option.some.inj h)
  · rintro rfl
    rw [pushedHeight, hn] at h
    exact absurd (Option.some.inj h) hheight

/-- Leaves move from one tree to another and back. -/
def leafRun : List (Bool × TreeCall ℤ ℤ) :=
  [(true, .insert 1), (true, .insert 2), (true, .insert 3), (false, .insert 3), (true, .extract 3),
    (false, .push 2), (true, .pushEq 2), (true, .extract 1), (false, .push 0), (true, .erase 2)]

theorem grove_run_balanced_leafRun : ∃ s,
    Transition.run (groveStep intTraits) AvlHeap.bare leafRun = some s ∧ AllBalanced s := by
  have hheight : Transition.AllSteps (groveStep intTraits) (fun s op => pushedHeight s op = some 1)
      AvlHeap.bare leafRun := by
    decide +kernel
  exact grove_run_balanced lawfulCompare_int leafRun (by simp [leafRun]) (by decide +kernel)
    (erasesMember_of_no_eraseNode (by simp [leafRun]))
    (hheight.imp (I := fun _ => True) (fun _ _ _ _ _ _ => trivial)
      (fun _ _ _ h => linksLeaf_of_pushedHeight h) trivial)

/-- The root of a tree of four nodes is taken out and put into the empty tree. -/
def staleRun : List (Unit × TreeCall ℤ ℤ) :=
  [.insert 1, .insert 2, .insert 3, .insert 4, .extract 2, .erase 1, .erase 3, .erase 4, .push 1,
    .insert 3, .insert 4].map fun op => ((), op)

/-- The height 3 of the node is right by accident when the third node is inserted. -/
theorem push_stale_unbalanced : ∃ s, ∃ t : LinkedTree ℤ,
    Transition.AllSteps (groveStep intTraits) PushesLoose AvlHeap.bare staleRun
      ∧ Transition.run (groveStep intTraits) AvlHeap.bare staleRun = some s
      ∧ s.roots () = t.root ∧ Represents s.nodes none t ∧ ¬ t.HeightBalanced := by
  have hcalc : (Transition.run (groveStep intTraits) AvlHeap.bare staleRun).map
      (fun s => (s.roots (), s.nodes 1, s.nodes 4, s.nodes 5))
      = some (some 1, some ⟨none, none, some 4, 3, 2⟩, some ⟨some 1, none, some 5, 2, 3⟩,
        some ⟨some 4, none, none, 1, 4⟩) := by
    decide +kernel
  obtain ⟨s, hrun, hs⟩ := Option.map_eq_some_iff.mp hcalc
  obtain ⟨hroot, h1, h4, h5⟩ : _ ∧ _ ∧ _ ∧ _ := by simpa only [Prod.mk.injEq] using hs
  refine ⟨s, node 1 3 2 nil (node 4 2 3 nil (node 5 1 4 nil nil)), by decide +kernel, hrun, hroot,
    ⟨h1, trivial, h4, trivial, h5, trivial, trivial⟩, ?_⟩
  simp [HeightBalanced, calculateHeight, AvlUtil.avlMax]

end Mmkvc
