/-
# Several trees in one memory

Nodes move between the trees of a memory: `Extract` and `ReuseAllNodes` take them out of one
tree and `Push` puts them into another.  A grove is the trees by their names together with
the nodes that are in no tree.  One tree comes into focus and goes back, so each call on it
does what `SearchTree` says and leaves the others as they are.
-/
import Mmkvc.AvlExtractRoot

namespace Mmkvc

open AvlM AvlTreeBase LinkedTree

variable {ι K V : Type} [DecidableEq ι]

/-! ## Calls -/

/-- A call on a tree. -/
inductive TreeCall (K V : Type) where
  | insert (value : V)
  | insertWithDuplicate (value : V)
  | insertEq (value : V)
  | push (node : Addr)
  | pushEq (node : Addr)
  | find (key : K)
  | erase (key : K)
  | eraseNode (node : Addr)
  | extract (key : K)
  | extractRoot
  | reuseAllNodes
  | clear

/-- What a call on the tree `i` returns: whether it succeeded, and the entry it points to.  The
callback of `ReuseAllNodes` keeps the nodes. -/
def callTree (T : AvlTraits K V) (i : ι) : TreeCall K V → AvlM ι V (Bool × Option Addr)
  | .insert value => do return (← AvlTreeBase.insert T i value, none)
  | .insertWithDuplicate value => insertWithDuplicate T i value true
  | .insertEq value => do
    insertEq T i value
    return (true, none)
  | .push a => do return (← push T i a, none)
  | .pushEq a => do
    pushEq T i a
    return (true, none)
  | .find key => do
    let p ← findNode T i key
    return (p.isSome, p)
  | .erase key => do return (← AvlTreeBase.eraseKey T i key, none)
  | .eraseNode a => do return (← eraseNode i (some a), none)
  | .extract key => do
    let p ← extract T i key
    return (p.isSome, p)
  | .extractRoot => do
    let p ← extractRoot i
    return (p.isSome, p)
  | .reuseAllNodes => do
    reuseAllNodes i fun _ => return ()
    return (true, none)
  | .clear => do
    clear i
    return (true, none)

/-- The memory after a call on one of the trees. -/
def groveStep (T : AvlTraits K V) (s : AvlHeap ι V) (op : ι × TreeCall K V) : Option (AvlHeap ι V) :=
  exec (callTree T op.1 op.2) s

/-- The memory with empty trees. -/
def AvlHeap.bare : AvlHeap ι V := ⟨fun _ => none, 0, fun _ => none, fun _ => 0⟩

/-- A node that is in no tree: it has no links, and no root pointer leads to it. -/
def AvlHeap.Loose (s : AvlHeap ι V) (a : Addr) : Prop :=
  (∃ n, s.nodes a = some n ∧ n.left = none ∧ n.right = none ∧ n.parent = none)
    ∧ ∀ i, s.roots i ≠ some a

/-- `Push` and `PushEq` are called with a node that is in no tree. -/
def PushesLoose (s : AvlHeap ι V) (op : ι × TreeCall K V) : Prop :=
  ∀ a, op.2 = .push a ∨ op.2 = .pushEq a → s.Loose a

/-- `EraseNode` is called with a node of the tree. -/
def ErasesMember (s : AvlHeap ι V) (op : ι × TreeCall K V) : Prop :=
  ∀ a, op.2 = .eraseNode a → Member s op.1 a

/-- Where no `EraseNode` is called there is nothing to ask of it. -/
theorem erasesMember_of_no_eraseNode {T : AvlTraits K V} {s : AvlHeap ι V}
    {ops : List (ι × TreeCall K V)} (h : ∀ op ∈ ops, ∀ a, op.2 ≠ .eraseNode a) :
    Transition.AllSteps (groveStep T) ErasesMember s ops :=
  (Transition.allSteps_of_forall h).imp (I := fun _ => True) (fun _ _ _ _ _ _ => trivial)
    (fun _ _ _ hop a ha => absurd ha (hop a)) trivial

section

variable [Fintype ι]

instance AvlHeap.decidableLoose (s : AvlHeap ι V) (a : Addr) : Decidable (s.Loose a) :=
  have : Decidable (∃ n, s.nodes a = some n
      ∧ n.left = none ∧ n.right = none ∧ n.parent = none) :=
    match h : s.nodes a with
    | none => isFalse (by rintro ⟨n, hn, -⟩; cases hn)
    | some n => decidable_of_iff (n.left = none ∧ n.right = none ∧ n.parent = none)
        ⟨fun hn => ⟨n, rfl, hn⟩, fun ⟨_, hn, hlinks⟩ => Option.some.inj hn ▸ hlinks⟩
  inferInstanceAs (Decidable (_ ∧ _))

instance decidablePushesLoose (s : AvlHeap ι V) :
    ∀ op : ι × TreeCall K V, Decidable (PushesLoose s op)
  | (_, .push a) => decidable_of_iff (s.Loose a)
      ⟨fun h _ ha => (TreeCall.push.inj (ha.resolve_right nofun)) ▸ h, fun h => h a (Or.inl rfl)⟩
  | (_, .pushEq a) => decidable_of_iff (s.Loose a)
      ⟨fun h _ ha => (TreeCall.pushEq.inj (ha.resolve_left nofun)) ▸ h, fun h => h a (Or.inr rfl)⟩
  | (_, .insert _) | (_, .insertWithDuplicate _) | (_, .insertEq _) | (_, .find _) | (_, .erase _)
  | (_, .eraseNode _) | (_, .extract _) | (_, .extractRoot) | (_, .reuseAllNodes) | (_, .clear) =>
    isTrue fun _ ha => ha.elim nofun nofun

end

/-! ## The trees -/

/-- Trees by their names, the nodes that are in no tree, the counts, and the first address that
was never given out. -/
structure Grove (ι V : Type) where
  trees : ι → LinkedTree V
  loose : Multiset (Addr × AvlNode V)
  counts : ι → BitVec 64
  top : ℕ

/-- The nodes that `ReuseAllNodes` hands out. -/
def spares (es : List (Addr × V)) : Multiset (Addr × AvlNode V) :=
  (es.map fun e => (e.1, ⟨none, none, none, 0, e.2⟩) : List (Addr × AvlNode V))

namespace Grove

/-- What a grove has beside the nodes. -/
def rest (g : Grove ι V) : Rest ι := ⟨fun i => (g.trees i).root, g.top, g.counts⟩

/-- Empty trees. -/
def bare : Grove ι V := ⟨fun _ => nil, 0, fun _ => 0, 0⟩

/-- Another tree at a name, and what a call left beside it. -/
def replace (g : Grove ι V) (i : ι) (t : LinkedTree V) (e : Rest ι) (L : Multiset (Addr × AvlNode V)) :
    Grove ι V := ⟨Function.update g.trees i t, L, e.counts, e.next⟩

@[simp] theorem replace_trees_self {g : Grove ι V} {i : ι} {t : LinkedTree V} {e : Rest ι}
    {L : Multiset (Addr × AvlNode V)} : (g.replace i t e L).trees i = t := Function.update_self _ _ _

theorem replace_trees_of_ne {g : Grove ι V} {i j : ι} {t : LinkedTree V} {e : Rest ι}
    {L : Multiset (Addr × AvlNode V)} (hj : j ≠ i) : (g.replace i t e L).trees j = g.trees j :=
  Function.update_of_ne hj _ _

/-- A tree is what it was. -/
theorem replace_same {g : Grove ι V} {i : ι} : g.replace i (g.trees i) g.rest g.loose = g := by
  unfold replace
  rw [Function.update_eq_self]
  rfl

/-- What an insertion of the entry `v` as the node `x` makes of a tree. -/
def inserted (T : AvlTraits K V) (g : Grove ι V) (i : ι) (x : Addr) (h : ℕ) (v : V) :
    Option Addr × LinkedTree V := insertNew T (T.gk v) x h v (g.trees i)

/-- The grove after an insertion, if it put a node in. -/
def planted (g : Grove ι V) (i : ι) (out : Option Addr × LinkedTree V) (e : Rest ι)
    (L : Multiset (Addr × AvlNode V)) : Grove ι V :=
  if out.1.isNone then g.replace i out.2 (restAfter i (g.trees i) e) L else g

/-- What a removal makes of a tree. -/
def erased (T : AvlTraits K V) (g : Grove ι V) (i : ι) (key : K) :
    Option (Addr × ℕ × V) × LinkedTree V := LinkedTree.eraseKey T key (g.trees i)

/-- The grove after a removal. -/
def cut (g : Grove ι V) (i : ι) (out : Option (Addr × ℕ × V) × LinkedTree V)
    (L : Multiset (Addr × AvlNode V)) : Grove ι V :=
  g.replace i out.2 (if out.1.isSome then g.rest.decrease i else g.rest) L

/-- **The calls on the trees**, with their results. -/
inductive Moves (T : AvlTraits K V) (g : Grove ι V) (i : ι) :
    TreeCall K V → Bool × Option Addr → Grove ι V → Prop where
  | insert (v : V) : Moves T g i (.insert v) ((g.inserted T i g.top 1 v).1.isNone, none)
      (g.planted i (g.inserted T i g.top 1 v) g.rest.advance g.loose)
  | insertWithDuplicate (v : V) : Moves T g i (.insertWithDuplicate v)
      ((g.inserted T i g.top 1 v).1.isNone, some ((g.inserted T i g.top 1 v).1.getD g.top))
      (g.planted i (g.inserted T i g.top 1 v) g.rest.advance g.loose)
  | insertEq (v : V) : Moves T g i (.insertEq v) (true, none)
      (g.replace i (insertEqNew T g.top 1 v (g.trees i)) (g.rest.advance.increase i) g.loose)
  | push (a : Addr) (n : AvlNode V) (L : Multiset (Addr × AvlNode V)) : g.loose = {(a, n)} + L →
      Moves T g i (.push a) ((g.inserted T i a n.height n.value).1.isNone, none)
        (g.planted i (g.inserted T i a n.height n.value) g.rest L)
  | pushEq (a : Addr) (n : AvlNode V) (L : Multiset (Addr × AvlNode V)) : g.loose = {(a, n)} + L →
      Moves T g i (.pushEq a) (true, none)
        (g.replace i (insertEqNew T a n.height n.value (g.trees i)) (g.rest.increase i) L)
  | find (key : K) : Moves T g i (.find key)
      ((LinkedTree.find T key (g.trees i)).isSome, LinkedTree.find T key (g.trees i)) g
  | erase (key : K) : Moves T g i (.erase key) ((g.erased T i key).1.isSome, none)
      (g.cut i (g.erased T i key) g.loose)
  | eraseNode (c : Place V) (a : Addr) (h : ℕ) (v : V) (l r : LinkedTree V) :
      g.trees i = Place.plug c (node a h v l r) → Moves T g i (.eraseNode a) (true, none)
        (g.replace i (eraseAt c (node a h v l r)) (g.rest.decrease i) g.loose)
  | extract (key : K) : Moves T g i (.extract key)
      ((g.erased T i key).1.isSome, (g.erased T i key).1.map (·.1))
      (g.cut i (g.erased T i key) (extracted (g.erased T i key).1 g.loose))
  | extractRoot_nil : g.trees i = nil → Moves T g i .extractRoot (false, none) g
  | extractRoot (d : Dir) (a : Addr) (h : ℕ) (v : V) (near : LinkedTree V) :
      g.trees i = join d a h v near nil → Moves T g i .extractRoot (true, some a)
        (g.replace i near g.rest ({(a, ⟨none, none, none, h, v⟩)} + g.loose))
  | reuseAllNodes : Moves T g i .reuseAllNodes (true, none)
      (g.replace i nil (g.rest.reset i) (spares (g.trees i).postorder + g.loose))
  | clear : Moves T g i .clear (true, none) (g.replace i nil (g.rest.reset i) g.loose)

/-! ### The trees after a call -/

section

variable {T : AvlTraits K V} {g g' : Grove ι V} {i j : ι} {op : TreeCall K V} {r : Bool × Option Addr}
  {e : Rest ι} {L : Multiset (Addr × AvlNode V)} {x : Addr} {h : ℕ} {v : V}

/-- An insertion leaves its tree, whether it put the node in or not. -/
@[simp] theorem planted_trees_self : (g.planted i (g.inserted T i x h v) e L).trees i
    = (g.inserted T i x h v).2 := by
  unfold planted
  split_ifs with hnone
  · exact replace_trees_self
  · exact (insertNew_of_some fun hout => hnone (Option.isNone_iff_eq_none.mpr hout)).symm

/-- An insertion into one tree leaves the others as they are. -/
theorem planted_trees_of_ne {out : Option Addr × LinkedTree V} (hj : j ≠ i) :
    (g.planted i out e L).trees j = g.trees j := by
  unfold planted
  split_ifs
  · exact replace_trees_of_ne hj
  · rfl

/-- The other trees stay as they are. -/
theorem Moves.trees_of_ne (h : g.Moves T i op r g') (hj : j ≠ i) : g'.trees j = g.trees j := by
  cases h with
  | insert v | insertWithDuplicate v | push a n L hL => exact planted_trees_of_ne hj
  | find key | extractRoot_nil ht => rfl
  | _ => exact replace_trees_of_ne hj

/-- A call keeps a property of the trees if it keeps it for its own tree. -/
theorem Moves.forall_trees {P : LinkedTree V → Prop} (h : g.Moves T i op r g') (hP : ∀ j, P (g.trees j))
    (hi : P (g'.trees i)) (j : ι) : P (g'.trees j) := by
  by_cases hj : j = i
  · rw [hj]
    exact hi
  · rw [h.trees_of_ne hj]
    exact hP j

/-- A call keeps the order of the entries. -/
theorem Moves.sorted (h : g.Moves T i op r g') (hT : LawfulCompare T.cmp)
    (hle : (g.trees i).inorder.Pairwise T.le) : (g'.trees i).inorder.Pairwise T.le := by
  cases h with
  | insert v | insertWithDuplicate v | push a n L hL =>
    rw [planted_trees_self]
    exact sorted_insertNew hT hle _ _ _
  | insertEq v | pushEq a n L hL =>
    rw [replace_trees_self]
    exact sorted_insertEqNew hT hle _ _ _
  | find key | extractRoot_nil ht => exact hle
  | erase key | extract key =>
    unfold cut
    rw [replace_trees_self]
    exact hle.sublist (sublist_eraseKey T key _)
  | eraseNode c a h v l r ht =>
    rw [ht] at hle
    rw [replace_trees_self]
    exact hle.sublist sublist_eraseAt
  | extractRoot d a h v near ht =>
    rw [ht, inorder_join] at hle
    rw [replace_trees_self]
    cases d with
    | left => exact (List.pairwise_append.mp hle).1
    | right => exact (List.pairwise_cons.mp (List.pairwise_append.mp hle).2.1).2
  | reuseAllNodes | clear =>
    rw [replace_trees_self]
    exact List.Pairwise.nil

end

/-- The nodes in no tree have no links. -/
def Good (g : Grove ι V) : Prop :=
  ∀ x ∈ g.loose, x.2.left = none ∧ x.2.right = none ∧ x.2.parent = none

/-- A call is on nodes that the grove has where the call wants them. -/
structure Allows (g : Grove ι V) (i : ι) (op : TreeCall K V) : Prop where
  push : ∀ a, op = .push a ∨ op = .pushEq a → ∃ n, (a, n) ∈ g.loose
  eraseNode : ∀ a, op = .eraseNode a → ∃ c h v l r, g.trees i = Place.plug c (node a h v l r)
  extractRoot : op = .extractRoot → g.trees i = nil ∨ ∃ d a h v near,
    g.trees i = join d a h v near nil

variable {T : AvlTraits K V} {g g' : Grove ι V} {i : ι} {op : TreeCall K V} {r : Bool × Option Addr}

theorem Good.subset {L : Multiset (Addr × AvlNode V)} {t : LinkedTree V} {e : Rest ι} (hg : g.Good)
    (hL : L ⊆ g.loose) : (g.replace i t e L).Good := fun x hx => hg x (hL hx)

/-- Nodes without links may join the loose ones. -/
theorem Good.add {M : Multiset (Addr × AvlNode V)} {t : LinkedTree V} {e : Rest ι} (hg : g.Good)
    (hM : ∀ x ∈ M, x.2.left = none ∧ x.2.right = none ∧ x.2.parent = none) :
    (g.replace i t e (M + g.loose)).Good := by
  intro x hx
  rcases Multiset.mem_add.mp hx with hx | hx
  · exact hM x hx
  · exact hg x hx

/-- The loose nodes that an insertion leaves are without links. -/
theorem Good.planted {out : Option Addr × LinkedTree V} {L : Multiset (Addr × AvlNode V)} {e : Rest ι}
    (hg : g.Good) (hL : L ⊆ g.loose) : (g.planted i out e L).Good := by
  unfold Grove.planted
  split_ifs
  · exact hg.subset hL
  · exact hg

omit [DecidableEq ι] in
/-- What is left of the loose nodes was there before. -/
theorem subset_of_loose {L M : Multiset (Addr × AvlNode V)} (h : g.loose = M + L) : L ⊆ g.loose := by
  intro x hx
  rw [h]
  exact Multiset.mem_add.mpr (Or.inr hx)

/-- The nodes in no tree stay without links. -/
theorem Moves.good (h : g.Moves T i op r g') (hg : g.Good) : g'.Good := by
  cases h with
  | insert v | insertWithDuplicate v => exact hg.planted (Multiset.Subset.refl _)
  | push a n L hL => exact hg.planted (subset_of_loose hL)
  | pushEq a n L hL => exact hg.subset (subset_of_loose hL)
  | find key | extractRoot_nil ht => exact hg
  | insertEq v | erase key | eraseNode c a h v l r ht | clear => exact hg.subset (Multiset.Subset.refl _)
  | extract key =>
    unfold cut
    cases (g.erased T i key).1 with
    | none => exact hg.subset (Multiset.Subset.refl _)
    | some x => exact hg.add (by simp)
  | extractRoot d a h v near ht => exact hg.add (by simp)
  | reuseAllNodes =>
    refine hg.add fun x hx => ?_
    obtain ⟨e, -, rfl⟩ := List.mem_map.mp hx
    exact ⟨rfl, rfl, rfl⟩

/-! ## Memory -/

section

variable [Fintype ι] {s : AvlHeap ι V} {a : Addr} {t : LinkedTree V} {e : Rest ι}
  {L : Multiset (Addr × AvlNode V)}

/-- Memory holds the trees and the nodes beside them. -/
structure Holds (g : Grove ι V) (s : AvlHeap ι V) : Prop where
  sat : Sat s.nodes (∑ i, (g.trees i).cells none + g.loose)
  roots : s.roots = fun i => (g.trees i).root
  next : s.next = g.top
  counts : s.counts = g.counts
  fresh : ∀ a, g.top ≤ a → s.nodes a = none

/-- The cells of all trees but one. -/
def others (g : Grove ι V) (i : ι) : Multiset (Addr × AvlNode V) :=
  ∑ j ∈ Finset.univ.erase i, (g.trees j).cells none

theorem sum_cells (g : Grove ι V) (i : ι) :
    ∑ j, (g.trees j).cells none = (g.trees i).cells none + g.others i :=
  (Finset.add_sum_erase _ _ (Finset.mem_univ i)).symm

theorem others_replace : (g.replace i t e L).others i = g.others i := by
  refine Finset.sum_congr rfl fun j hj => ?_
  rw [replace_trees_of_ne (Finset.ne_of_mem_erase hj)]

/-- One tree comes into focus. -/
theorem Holds.focus (hs : g.Holds s) (i : ι) :
    Focus i (g.others i + g.loose) g.rest [] (g.trees i) s := by
  refine ⟨?_, ?_, hs.next, hs.counts, hs.fresh⟩
  · have hsat := hs.sat
    rw [g.sum_cells i] at hsat
    rw [Place.parent_nil, Place.cells, add_zero, ← add_assoc]
    exact hsat
  · rw [hs.roots, Place.top_nil]
    exact (Function.update_eq_self i _).symm

/-- It goes back. -/
theorem Holds.of_focus (hroots : e.roots = g.rest.roots) (hs : Focus i (g.others i + L) e [] t s) :
    (g.replace i t e L).Holds s := by
  refine ⟨?_, ?_, hs.next, hs.counts, hs.fresh⟩
  · have hsat := hs.sat
    rw [Place.parent_nil, Place.cells, add_zero, ← add_assoc] at hsat
    rw [(g.replace i t e L).sum_cells i, others_replace, replace_trees_self]
    exact hsat
  · rw [hs.roots, hroots, Place.top_nil]
    funext j
    exact (Function.apply_update (fun _ t => LinkedTree.root t) g.trees i t j).symm

/-- The memory after an insertion into one of the trees. -/
theorem Holds.of_inserted {out : Option Addr × LinkedTree V} {M : Multiset (Addr × AvlNode V)}
    (hroots : e.roots = g.rest.roots) (hloose : g.loose = M + L)
    (hs : Inserted i M (g.others i + L) g.rest e (g.trees i) out s) : (g.planted i out e L).Holds s := by
  unfold Inserted at hs
  unfold planted
  cases hout : out.1 with
  | none =>
    rw [hout] at hs
    exact Holds.of_focus (by rw [restAfter_roots, hroots]) hs
  | some x =>
    rw [hout] at hs
    have hself : (g.replace i (g.trees i) g.rest g.loose).Holds s := by
      refine Holds.of_focus rfl (hs.congr ?_)
      rw [hloose]
      abel
    rwa [replace_same] at hself

omit [Fintype ι] in
/-- `ReuseAllNodes` hands out every node without links and with height 0. -/
theorem reuse_spec {N : Multiset (Addr × AvlNode V)} : Triple (Focus i N e [] t)
    (reuseAllNodes i fun _ => return ())
    fun _ => Focus i (spares t.postorder + N) (e.reset i) [] nil := by
  have hcb : Hands i t.postorder (fun done N' e' => N' = spares done + N ∧ e' = e)
      (fun _ => return ()) := by
    rintro done _ _ M p a v - ⟨rfl, rfl⟩
    refine triple_pure fun s hs => ⟨_, _, ⟨rfl, rfl⟩, hs.congr ?_⟩
    have hspares : spares (done ++ [(a, v)]) = {(a, ⟨none, none, none, 0, v⟩)} + spares done := by
      unfold spares
      rw [List.map_append, ← Multiset.coe_add]
      exact add_comm _ _
    rw [hspares]
    abel
  refine (reuseAllNodes_spec hcb ⟨by simp [spares], rfl⟩).post fun _ s hs => ?_
  obtain ⟨N', e', ⟨rfl, rfl⟩, hs⟩ := hs
  exact hs

/-- **Memory follows the trees.** -/
theorem call_spec (hg : g.Good) (hallow : g.Allows i op) :
    Triple g.Holds (callTree T i op) fun r s => ∃ g', g.Moves T i op r g' ∧ g'.Holds s := by
  -- a call works on one tree; the other trees and the loose nodes are beside it
  suffices hsuff : Triple (Focus i (g.others i + g.loose) g.rest [] (g.trees i)) (callTree T i op)
      fun r s => ∃ g', g.Moves T i op r g' ∧ g'.Holds s from hsuff.pre fun s hs => hs.focus i
  cases op with
  | insert v =>
    refine Triple.bind insert_spec fun r => triple_pure fun s hs => ?_
    rw [hs.1]
    exact ⟨_, .insert v, Holds.of_inserted rfl (zero_add _).symm hs.2⟩
  | insertWithDuplicate v =>
    refine insertWithDuplicate_spec.post fun r s hs => ?_
    rw [hs.1]
    exact ⟨_, .insertWithDuplicate v, Holds.of_inserted rfl (zero_add _).symm hs.2⟩
  | insertEq v =>
    exact Triple.bind insertEq_spec fun r => triple_pure fun s hs =>
      ⟨_, .insertEq v, Holds.of_focus rfl hs⟩
  | push a =>
    obtain ⟨n, hn⟩ := hallow.push a (Or.inl rfl)
    obtain ⟨L, hL⟩ := Multiset.exists_cons_of_mem hn
    rw [← Multiset.singleton_add] at hL
    have hlinks := hg (a, n) hn
    refine Triple.bind ((push_spec (N := g.others i + L) hlinks).pre fun s hs => hs.congr ?_)
      fun r => triple_pure fun s hs => ?_
    · rw [hL]
      abel
    · rw [hs.1]
      exact ⟨_, .push a n L hL, Holds.of_inserted rfl hL hs.2⟩
  | pushEq a =>
    obtain ⟨n, hn⟩ := hallow.push a (Or.inr rfl)
    obtain ⟨L, hL⟩ := Multiset.exists_cons_of_mem hn
    rw [← Multiset.singleton_add] at hL
    have hlinks := hg (a, n) hn
    refine Triple.bind ((pushEq_spec (N := g.others i + L) hlinks).pre fun s hs => hs.congr ?_)
      fun r => triple_pure fun s hs => ⟨_, .pushEq a n L hL, Holds.of_focus rfl hs⟩
    rw [hL]
    abel
  | find key =>
    refine Triple.bind findNode_spec fun p => triple_pure fun s hs => ?_
    rw [hs.1]
    have hself := Holds.of_focus rfl hs.2
    rw [replace_same] at hself
    exact ⟨_, .find key, hself⟩
  | erase key =>
    refine Triple.bind eraseKey_spec fun q => triple_pure fun s hs => ?_
    rw [hs.1]
    refine ⟨_, .erase key, Holds.of_focus ?_ hs.2⟩
    split_ifs <;> rfl
  | eraseNode a =>
    obtain ⟨c, h, v, l, r, ht⟩ := hallow.eraseNode a rfl
    rw [ht, ← focus_plug]
    refine Triple.bind eraseNode_spec fun q => triple_pure fun s hs => ?_
    rw [hs.1]
    exact ⟨_, .eraseNode c a h v l r ht, Holds.of_focus rfl hs.2⟩
  | extract key =>
    refine Triple.bind extract_spec fun p => triple_pure fun s hs => ?_
    rw [hs.1, Option.isSome_map]
    refine ⟨_, .extract key, Holds.of_focus ?_ (hs.2.congr (congrArg _ (extracted_add _)))⟩
    split_ifs <;> rfl
  | extractRoot =>
    -- only an empty tree or one with a free side has its root extracted
    rcases hallow.extractRoot rfl with hnil | ⟨d, a, h, v, near, ht⟩
    · rw [hnil]
      refine Triple.bind extractRoot_nil fun p => triple_pure fun s hs => ?_
      rw [hs.1]
      have hself := Holds.of_focus rfl hs.2
      rw [← hnil, replace_same] at hself
      exact ⟨_, .extractRoot_nil hnil, hself⟩
    · rw [ht]
      refine Triple.bind extractRoot_single fun p => triple_pure fun s hs => ?_
      rw [hs.1]
      exact ⟨_, .extractRoot d a h v near ht, Holds.of_focus rfl (hs.2.congr (by abel))⟩
  | reuseAllNodes =>
    exact Triple.bind reuse_spec fun _ => triple_pure fun s hs =>
      ⟨_, .reuseAllNodes, Holds.of_focus rfl (hs.congr (by abel))⟩
  | clear =>
    exact Triple.bind clear_spec fun _ => triple_pure fun s hs => ⟨_, .clear, Holds.of_focus rfl hs⟩

omit [DecidableEq ι] in
/-- The empty memory holds empty trees. -/
theorem holds_bare : (bare : Grove ι V).Holds AvlHeap.bare := by
  refine ⟨?_, rfl, rfl, rfl, fun _ _ => rfl⟩
  rw [show ∑ i : ι, ((bare : Grove ι V).trees i).cells none = 0 from Finset.sum_eq_zero fun _ _ => rfl]
  exact Sat.empty

theorem Holds.represents (hs : g.Holds s) (i : ι) :
    s.roots i = (g.trees i).root ∧ Represents s.nodes none (g.trees i) :=
  represents_of_focus (hs.focus i)

omit [DecidableEq ι] in
/-- A node that is in no tree is beside the trees. -/
theorem Holds.exists_loose (hs : g.Holds s) (ha : s.Loose a) : ∃ n, (a, n) ∈ g.loose := by
  obtain ⟨⟨n, hn, -, -, hparent⟩, hroots⟩ := ha
  refine ⟨n, ?_⟩
  rcases Multiset.mem_add.mp (hs.sat.mem_of_eq hn) with hcell | hcell
  · obtain ⟨i, -, hcell⟩ := Multiset.mem_sum.mp hcell
    exact absurd ((congrFun hs.roots i).trans (root_of_mem_cells hcell hparent)) (hroots i)
  · exact hcell

omit [DecidableEq ι] in
theorem Holds.node_eq {n : AvlNode V} (hs : g.Holds s) (hn : (a, n) ∈ g.loose) : s.nodes a = some n :=
  hs.sat.cell (a, n) (Multiset.mem_add.mpr (Or.inr hn))

/-- What is asked of a call in memory. -/
theorem Holds.allows (hs : g.Holds s) (hpush : PushesLoose s (i, op)) (herase : ErasesMember s (i, op))
    (hextract : op = .extractRoot → g.trees i = nil ∨ ∃ d a h v near,
      g.trees i = join d a h v near nil) : g.Allows i op where
  push a ha := hs.exists_loose (hpush a ha)
  eraseNode a ha := (herase a ha).exists_place (hs.focus i)
  extractRoot := hextract

/-- **A call in memory is one on the trees.** -/
theorem Holds.step (hs : g.Holds s) (hg : g.Good) (hallow : g.Allows i op) : ∃ r s' g',
    (callTree T i op).run s = some (r, s') ∧ groveStep T s (i, op) = some s' ∧ g.Moves T i op r g'
      ∧ g'.Holds s' ∧ g'.Good := by
  obtain ⟨r, s', hrun, g', hmoves, hs'⟩ := call_spec (T := T) hg hallow s hs
  exact ⟨r, s', g', hrun, by rw [groveStep, exec, hrun]; rfl, hmoves, hs', hmoves.good hg⟩

end

end Grove

end Mmkvc
