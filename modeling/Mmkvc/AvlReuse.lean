/-
# Handing out the nodes of a tree

`ReuseAllNodes` has no stack: it goes down to a leaf, cuts it off, hands it to the callback and
climbs to its parent, while the tree gets smaller and the callback does with the node what it
likes.  The loop is followed with a note of each node that it works on.
`reuseAllNodes_hands_out` says that each node is handed out once, after those below it, cut
off and without links, and that the loop never comes back to it.
-/
import Mmkvc.AvlOperations

namespace Mmkvc

open AvlM AvlUtil AvlTreeBase

variable {ι V : Type} [DecidableEq ι]

/-! ## The loop with notes -/

/-- The loop of `ReuseAllNodes`, with a note of each node that it reads or writes. -/
def reuseLoopNoting {σ : Type} (note : Addr → σ → σ) (nodeCb : Addr → σ → AvlM ι V σ) :
    ℕ → Addr → σ → AvlM ι V σ
  | 0, _, _ => failure
  | fuel + 1, node, st => do
    let n ← load node
    let st := note node st
    match n.left, n.right with
    | some left, _ => reuseLoopNoting note nodeCb fuel left st
    | none, some right => reuseLoopNoting note nodeCb fuel right st
    | none, none => do
      modifyNode node fun n => { n with left := none, parent := none, right := none }
      modifyNode node fun n => { n with height := 0 }
      match n.parent with
      | none => nodeCb node st
      | some parent => do
        replaceChild parent node none
        let st ← nodeCb node (note parent st)
        reuseLoopNoting note nodeCb fuel parent st

/-- `ReuseAllNodes`, with the same notes. -/
def reuseAllNodesNoting {σ : Type} (root : ι) (note : Addr → σ → σ)
    (nodeCb : Addr → σ → AvlM ι V σ) (st : σ) : AvlM ι V σ := do
  let st ← match ← getRoot root with
    | none => pure st
    | some node => reuseLoopNoting note nodeCb (2 * (← bound) + 1) node st
  setRoot root none
  setCount root 0
  return st

open LinkedTree

/-! ## The entries beside a place -/

/-- The entries above and beside a place. -/
def Place.others (c : Place V) : Multiset (Addr × V) := c.before + c.after

/-- Around a place there are the node above and its other subtree, and what is around them. -/
theorem Place.others_cons (f : Frame V) (c : Place V) :
    Place.others (f :: c) = {(f.addr, f.value)} + f.other.inorder + c.others := by
  unfold Place.others
  rw [Place.before, Place.after]
  cases f.dir with
  | left =>
    change (c.before : Multiset (Addr × V)) + ↑((f.addr, f.value) :: f.other.inorder ++ c.after) = _
    rw [List.cons_append, ← Multiset.cons_coe, ← Multiset.coe_add, ← Multiset.singleton_add]
    abel
  | right =>
    change ((c.before ++ f.other.inorder ++ [(f.addr, f.value)] : List (Addr × V))
      : Multiset (Addr × V)) + ↑c.after = _
    rw [← Multiset.coe_add, ← Multiset.coe_add, Multiset.coe_singleton]
    abel

/-- The nodes around a place are at the addresses of the entries around it. -/
theorem Place.cells_map_fst (c : Place V) (p : Option Addr) :
    (c.cells p).map Prod.fst = c.others.map Prod.fst := by
  induction c generalizing p with
  | nil => rfl
  | cons f c ih =>
    rw [Place.cells, Place.others_cons, Multiset.map_add, Multiset.map_add, ih,
      LinkedTree.cells_map_fst, ← Multiset.map_coe, Multiset.map_add, Multiset.map_add,
      Multiset.map_singleton,
      Multiset.map_singleton]
    rfl

/-- A node has a link to an address. -/
def AvlNode.LinksTo (n : AvlNode V) (b : Addr) : Prop :=
  n.left = some b ∨ n.right = some b ∨ n.parent = some b

/-- The links of a tree lead to its nodes, but for the link of the root to its parent. -/
theorem LinkedTree.mem_of_linksTo {t : LinkedTree V} {p : Option Addr} {x : Addr × AvlNode V}
    {b : Addr} (hx : x ∈ t.cells p) (hb : x.2.LinksTo b) :
    b ∈ (t.cells p).map Prod.fst ∨ p = some b := by
  induction t generalizing p with
  | nil => cases hx
  | node a h v l r ihl ihr =>
    have hroot : ∀ {u : LinkedTree V}, u.root = some b → b ∈ (u.cells (some a)).map Prod.fst := by
      intro u hu
      obtain ⟨n, hn, -, -⟩ := mem_cells_of_root (p := some a) hu
      exact Multiset.mem_map_of_mem Prod.fst hn
    rw [LinkedTree.cells] at hx ⊢
    rw [Multiset.map_add, Multiset.map_add, Multiset.map_singleton, Multiset.mem_add,
      Multiset.mem_add, Multiset.mem_singleton]
    rcases Multiset.mem_add.mp hx with hx | hx
    · rcases Multiset.mem_add.mp hx with hx | hx
      · obtain rfl := Multiset.mem_singleton.mp hx
        rcases hb with hb | hb | hb
        · exact Or.inl (Or.inl (Or.inr (hroot hb)))
        · exact Or.inl (Or.inr (hroot hb))
        · exact Or.inr hb
      · rcases ihl hx with hmem | hpar
        · exact Or.inl (Or.inl (Or.inr hmem))
        · exact Or.inl (Or.inl (Or.inl (Option.some.inj hpar).symm))
    · rcases ihr hx with hmem | hpar
      · exact Or.inl (Or.inr hmem)
      · exact Or.inl (Or.inl (Or.inl (Option.some.inj hpar).symm))

/-- The links beside a place lead to the nodes beside it, but for the link to the place. -/
theorem Place.mem_of_linksTo {c : Place V} {hole : Option Addr} {x : Addr × AvlNode V} {b : Addr}
    (hx : x ∈ c.cells hole) (hb : x.2.LinksTo b) :
    b ∈ (c.cells hole).map Prod.fst ∨ hole = some b := by
  induction c generalizing hole with
  | nil => cases hx
  | cons f c ih =>
    have hroot : ∀ {u : LinkedTree V}, u.root = some b →
        b ∈ (u.cells (some f.addr)).map Prod.fst := by
      intro u hu
      obtain ⟨n, hn, -, -⟩ := mem_cells_of_root (p := some f.addr) hu
      exact Multiset.mem_map_of_mem Prod.fst hn
    rw [Place.cells] at hx ⊢
    rw [Multiset.map_add, Multiset.map_add, Multiset.map_singleton, Multiset.mem_add,
      Multiset.mem_add, Multiset.mem_singleton]
    rcases Multiset.mem_add.mp hx with hx | hx
    · rcases Multiset.mem_add.mp hx with hx | hx
      · obtain rfl := Multiset.mem_singleton.mp hx
        have hside : hole = some b ∨ f.other.root = some b ∨ Place.parent c = some b := by
          unfold AvlNode.LinksTo Frame.cell AvlNode.ofSides at hb
          cases hd : f.dir <;> simp only [hd] at hb
          · exact hb
          · exact Or.elim hb (fun h => Or.inr (Or.inl h)) (Or.imp_right Or.inr)
        rcases hside with hb | hb | hb
        · exact Or.inr hb
        · exact Or.inl (Or.inl (Or.inr (hroot hb)))
        · cases c with
          | nil => cases hb
          | cons f' c =>
            obtain ⟨n, hn⟩ := Place.exists_mem_cells (some f.addr) (f := f') List.mem_cons_self
            rw [← Option.some.inj hb]
            exact Or.inl (Or.inr (Multiset.mem_map_of_mem Prod.fst hn))
      · rcases LinkedTree.mem_of_linksTo hx hb with hmem | hpar
        · exact Or.inl (Or.inl (Or.inr hmem))
        · exact Or.inl (Or.inl (Or.inl (Option.some.inj hpar).symm))
    · rcases ih hx with hmem | hpar
      · exact Or.inl (Or.inr hmem)
      · exact Or.inl (Or.inl (Or.inl (Option.some.inj hpar).symm))

/-! ## What the loop does -/

section

variable {σ : Type}

omit [DecidableEq ι] in
/-- Without notes it is the loop as it is. -/
theorem reuseLoopNoting_id (nodeCb : Addr → σ → AvlM ι V σ) (fuel : ℕ) (a : Addr) (st : σ) :
    reuseLoopNoting (fun _ st => st) nodeCb fuel a st = reuseLoopWith nodeCb fuel a st := by
  induction fuel generalizing a st with
  | zero => rfl
  | succ fuel ih =>
    rw [reuseLoopNoting, reuseLoopWith]
    refine bind_congr fun n => ?_
    cases n.left with
    | some left => exact ih left st
    | none =>
      cases n.right with
      | some right => exact ih right st
      | none =>
        refine bind_congr fun _ => bind_congr fun _ => ?_
        cases n.parent with
        | none => rfl
        | some parent => exact bind_congr fun _ => bind_congr fun st' => ih parent st'

/-- Without notes it is `ReuseAllNodes` as it is. -/
theorem reuseAllNodesNoting_id (root : ι) (nodeCb : Addr → σ → AvlM ι V σ) (st : σ) :
    reuseAllNodesNoting root (fun _ st => st) nodeCb st = reuseAllNodesWith root nodeCb st := by
  refine bind_congr fun top => ?_
  cases top with
  | none => rfl
  | some a => exact bind_congr fun _ => by rw [reuseLoopNoting_id]

/-- A callback that is handed the nodes of the entries `all` in turn.  The node has no links, and
what is left of the tree is the nodes beside a place where nothing is. -/
def HandsAt (root : ι) (all : List (Addr × V))
    (J : List (Addr × V) → σ → Multiset (Addr × AvlNode V) → Rest ι → Prop)
    (nodeCb : Addr → σ → AvlM ι V σ) : Prop :=
  ∀ done st N e c p a v, done ++ [(a, v)] <+: all → J done st N e →
    c.others + ((done ++ [(a, v)] : List (Addr × V)) : Multiset (Addr × V)) = all →
    Triple (At root ({(a, ⟨none, none, none, 0, v⟩)} + (Place.cells none c + N)) p e) (nodeCb a st)
      fun st' s => ∃ N' e', J (done ++ [(a, v)]) st' N' e' ∧ At root (Place.cells none c + N') p e' s

/-- The account `J` is kept by a note of a node that was not handed out. -/
def Notes (J : List (Addr × V) → σ → Multiset (Addr × AvlNode V) → Rest ι → Prop)
    (note : Addr → σ → σ) : Prop :=
  ∀ done st N e a, a ∉ done.map Prod.fst → J done st N e → J done (note a st) N e

/-- What the loop goes on with when it is done with a subtree. -/
def resumeNoting (note : Addr → σ → σ) (nodeCb : Addr → σ → AvlM ι V σ) (fuel : ℕ) :
    Place V → σ → AvlM ι V σ
  | [], st => return st
  | f :: _, st => reuseLoopNoting note nodeCb fuel f.addr st

variable {root : ι} {N : Multiset (Addr × AvlNode V)} {e : Rest ι} {a : Addr} {c : Place V}
  {t l r : LinkedTree V} {h : ℕ} {v : V} {fuel : ℕ} {st : σ}
  {J : List (Addr × V) → σ → Multiset (Addr × AvlNode V) → Rest ι → Prop} {note : Addr → σ → σ}
  {nodeCb : Addr → σ → AvlM ι V σ} {done all : List (Addr × V)} {S : σ → AvlHeap ι V → Prop}

/-- An entry of the tree that is left was not handed out. -/
theorem notMem_done {M : Multiset (Addr × V)} {x : Addr × V} (hnodup : (all.map Prod.fst).Nodup)
    (hacc : M + done = all) (hx : x ∈ M) : x.1 ∉ done.map Prod.fst := by
  have hmap := congrArg (Multiset.map Prod.fst) hacc
  rw [Multiset.map_add, Multiset.map_coe, Multiset.map_coe] at hmap
  have hsum : (M.map Prod.fst + (done.map Prod.fst : List Addr)).Nodup := by
    rw [hmap]
    exact Multiset.coe_nodup.mpr hnodup
  exact fun hmem => Multiset.disjoint_left.mp (Multiset.nodup_add.mp hsum).2.2
    (Multiset.mem_map_of_mem Prod.fst hx) (Multiset.mem_coe.mpr hmem)

/-- The nodes of a tree in memory have different addresses. -/
theorem nodup_postorder {p : Option Addr} {M : Multiset (Addr × AvlNode V)} {s : AvlHeap ι V}
    (hs : At root (t.cells none + M + N) p e s) : (t.postorder.map Prod.fst).Nodup := by
  have hnodup := hs.sat.nodup
  rw [Multiset.map_add, Multiset.map_add, LinkedTree.cells_map_fst, add_assoc,
    Multiset.nodup_add, Multiset.coe_nodup] at hnodup
  exact (t.postorder_perm_inorder.map Prod.fst).nodup_iff.mpr hnodup.1

/-- A leaf is unlinked and handed out. -/
theorem reuseLoopNoting_leaf (hcb : HandsAt root all J nodeCb) (hnote : Notes J note)
    (hnodup : (all.map Prod.fst).Nodup) (hall : done ++ [(a, v)] <+: all)
    (hacc : c.others + ((done ++ [(a, v)] : List (Addr × V)) : Multiset (Addr × V)) = all)
    (hJ : J done st N e)
    (hgo : ∀ st' N' e', J (done ++ [(a, v)]) st' N' e' →
      Triple (At root (Place.cells none c + N') (Place.top (some a) c) e')
        (resumeNoting note nodeCb fuel c st') S) :
    Triple (Focus root N e c (node a h v nil nil)) (reuseLoopNoting note nodeCb (fuel + 1) a st) S := by
  have hgo' : ∀ st', Triple (fun s => ∃ N' e', J (done ++ [(a, v)]) st' N' e'
      ∧ At root (Place.cells none c + N') (Place.top (some a) c) e' s)
      (resumeNoting note nodeCb fuel c st') S := fun st' =>
    Triple.exists_pre fun N' => Triple.exists_pre fun e' =>
      Triple.of_pre (fun hJ' => (hgo st' N' e' hJ').pre fun s hs => hs.2) fun s hs => hs.1
  have hacc' : (c.others + {(a, v)}) + (done : Multiset (Addr × V)) = all := by
    rw [← hacc, ← Multiset.coe_add, Multiset.coe_singleton]
    abel
  have hnoted : J done (note a st) N e :=
    hnote done st N e a (notMem_done (x := (a, v)) hnodup hacc' (by simp)) hJ
  rw [reuseLoopNoting]
  refine load_bind (n := ⟨Place.parent c, none, none, h, v⟩) (by simp [LinkedTree.cells]) ?_
  refine modify_bind (Place.cells (some a) c + N) ⟨Place.parent c, none, none, h, v⟩
    ⟨none, none, none, h, v⟩ ?_ rfl ?_
  · rw [LinkedTree.cells, cells_nil, root_nil, root_node]
    abel
  refine modify_bind _ _ ⟨none, none, none, 0, v⟩ rfl rfl ?_
  cases c with
  | nil =>
    refine Triple.post (hcb done _ N e [] _ a v hall hnoted hacc) fun st' s hs => ?_
    obtain ⟨N', e', hJ', hs⟩ := hs
    obtain ⟨_, s', hrun, hS⟩ := hgo st' N' e' hJ' s hs
    cases hrun
    exact hS
  | cons f c =>
    have hparent : f.addr ∉ done.map Prod.fst :=
      notMem_done (x := (f.addr, f.value)) hnodup hacc' (by rw [Place.others_cons]; simp)
    refine Triple.bind (Triple.perm (add_assoc _ _ _).symm (replaceChild_spec _)) fun _ => ?_
    refine Triple.bind (Triple.perm (add_assoc _ _ _) (hcb done _ N e (f :: c) _ a v hall
      (hnote done _ N e f.addr hparent hnoted) hacc)) hgo'

/-- The place below a node that has lost a child. -/
theorem focus_nil (f : Frame V) (x : Addr) :
    At root (Place.cells none (f :: c) + N) (Place.top (some x) (f :: c)) e
      = Focus root N e (f :: c) nil := by
  unfold Focus
  rw [cells_nil, root_nil, zero_add]
  rfl

/-- **The loop of `ReuseAllNodes` hands out the nodes of a subtree**, each after its own
subtrees, and goes on above it. -/
theorem reuseLoopNoting_spec (hcb : HandsAt root all J nodeCb) (hnote : Notes J note)
    (hnodup : (all.map Prod.fst).Nodup) (ht : t.root = some a) (hall : done ++ t.postorder <+: all)
    (hacc : c.others + ((done ++ t.postorder : List (Addr × V)) : Multiset (Addr × V)) = all)
    (hJ : J done st N e)
    (hgo : ∀ st' N' e', J (done ++ t.postorder) st' N' e' →
      Triple (At root (Place.cells none c + N') (Place.top (some a) c) e')
        (resumeNoting note nodeCb fuel c st') S) :
    Triple (Focus root N e c t) (reuseLoopNoting note nodeCb (t.rounds + fuel) a st) S := by
  induction t generalizing a c done st N e fuel with
  | nil => cases ht
  | node a' h v l r ihl ihr =>
    obtain rfl := Option.some.inj ht
    -- without a left subtree
    have hright : ∀ (done : List (Addr × V)) (st : σ) (N : Multiset (Addr × AvlNode V)) (e : Rest ι),
        done ++ r.postorder ++ [(a', v)] <+: all →
        c.others + ((done ++ r.postorder ++ [(a', v)] : List (Addr × V)) : Multiset (Addr × V)) = all →
        J done st N e →
        (∀ st' N' e', J (done ++ r.postorder ++ [(a', v)]) st' N' e' →
          Triple (At root (Place.cells none c + N') (Place.top (some a') c) e')
            (resumeNoting note nodeCb fuel c st') S) →
        Triple (Focus root N e c (node a' h v nil r))
          (reuseLoopNoting note nodeCb ((if r.root = none then 0 else r.rounds + 1) + 1 + fuel) a' st)
          S := by
      intro done st N e hall hacc hJ hgo
      cases hr : r.root with
      | none =>
        obtain rfl := root_eq_none.mp hr
        rw [if_pos rfl, show 0 + 1 + fuel = fuel + 1 by omega]
        rw [postorder, List.append_nil] at hall hgo hacc
        exact reuseLoopNoting_leaf hcb hnote hnodup hall hacc hJ hgo
      | some b =>
        have hacc' : Place.others (⟨.right, a', h, v, nil⟩ :: c)
            + ((done ++ r.postorder : List (Addr × V)) : Multiset (Addr × V)) = all := by
          rw [← hacc, Place.others_cons, ← Multiset.coe_add _ [(a', v)], Multiset.coe_singleton,
            inorder_nil, Multiset.coe_nil]
          abel
        have hnoted : J done (note a' st) N e :=
          hnote done st N e a' (fun hmem => notMem_done (x := (a', v)) hnodup hacc'
            (by rw [Place.others_cons]; simp) (by simp [hmem])) hJ
        rw [if_neg (by simp), show r.rounds + 1 + 1 + fuel = r.rounds + (fuel + 1) + 1 by omega,
          reuseLoopNoting]
        refine load_bind (n := ⟨Place.parent c, none, r.root, h, v⟩)
          (by simp [LinkedTree.cells]) ?_
        rw [hr]
        refine Triple.pre (P := Focus root N e (⟨.right, a', h, v, nil⟩ :: c) r) ?_
          fun s hs => by rw [focus_cons]; exact hs
        refine ihr hr ((List.prefix_append _ _).trans hall) hacc' hnoted fun st' N' e' hJ' => ?_
        rw [focus_nil, focus_cons]
        exact reuseLoopNoting_leaf hcb hnote hnodup hall hacc hJ' hgo
    rw [postorder, List.append_assoc, ← List.append_assoc done] at hall hgo hacc
    rw [← List.append_assoc] at hall hacc
    rw [rounds]
    cases hl : l.root with
    | none =>
      obtain rfl := root_eq_none.mp hl
      rw [if_pos rfl, Nat.zero_add]
      rw [postorder, List.append_nil] at hall hgo hacc
      exact hright done st N e hall hacc hJ (by simpa only [List.append_assoc] using hgo)
    | some b =>
      have hacc' : Place.others (⟨.left, a', h, v, r⟩ :: c)
          + ((done ++ l.postorder : List (Addr × V)) : Multiset (Addr × V)) = all := by
        have hperm : (r.postorder : Multiset (Addr × V)) = r.inorder :=
          Multiset.coe_eq_coe.mpr r.postorder_perm_inorder
        rw [← hacc, Place.others_cons, ← Multiset.coe_add _ [(a', v)], Multiset.coe_singleton,
          ← Multiset.coe_add _ r.postorder, hperm]
        abel
      have hnoted : J done (note a' st) N e :=
        hnote done st N e a' (fun hmem => notMem_done (x := (a', v)) hnodup hacc'
          (by rw [Place.others_cons]; simp) (by simp [hmem])) hJ
      rw [if_neg (by simp), show l.rounds + 1 + (if r.root = none then 0 else r.rounds + 1) + 1
        + fuel = l.rounds + ((if r.root = none then 0 else r.rounds + 1) + 1 + fuel) + 1 by omega,
        reuseLoopNoting]
      refine load_bind (n := ⟨Place.parent c, l.root, r.root, h, v⟩)
        (by simp [LinkedTree.cells]) ?_
      rw [hl]
      refine Triple.pre (P := Focus root N e (⟨.left, a', h, v, r⟩ :: c) l) ?_
        fun s hs => by rw [focus_cons]; exact hs
      refine ihl hl ?_ hacc' hnoted fun st' N' e' hJ' => ?_
      · rw [List.append_assoc] at hall
        exact (List.prefix_append _ _).trans hall
      · rw [focus_nil, focus_cons]
        refine hright _ st' N' e' hall hacc hJ' fun st'' N'' e'' hJ'' => hgo st'' N'' e'' ?_
        rwa [List.append_assoc] at hJ''

/-- **`ReuseAllNodes` hands out every node once and leaves the tree empty.** -/
theorem reuseAllNodesNoting_spec (hcb : HandsAt root t.postorder J nodeCb) (hnote : Notes J note)
    (hJ : J [] st N e) :
    Triple (Focus root N e [] t) (reuseAllNodesNoting root note nodeCb st)
      fun st' s => ∃ N' e', J t.postorder st' N' e' ∧ Focus root N' (e'.reset root) [] nil s := by
  have hend : ∀ p st' N' e', J t.postorder st' N' e' → Triple (At root N' p e')
      (do setRoot root none; setCount root 0; return st')
      fun st' s => ∃ N' e', J t.postorder st' N' e' ∧ Focus root N' (e'.reset root) [] nil s := by
    intro p st' N' e' hJ'
    refine Triple.bind setRoot_spec fun _ => Triple.bind (setCount_spec 0) fun _ =>
      triple_pure fun s hs => ?_
    exact ⟨N', e', hJ', hs.congr (by simp [Place.cells])⟩
  refine getRoot_bind ?_
  rw [Place.top_nil]
  cases ht : t.root with
  | none =>
    obtain rfl := root_eq_none.mp ht
    exact (hend none st N e hJ).pre fun s hs => hs.congr (by simp [Place.cells])
  | some a =>
    have hrounds := rounds_le t
    rw [if_neg (by simp [ht])] at hrounds
    refine Triple.of_pre (C := t.inorder.length ≤ e.next ∧ (t.postorder.map Prod.fst).Nodup)
      (fun hpre => ?_) fun s hs => ⟨length_le_of_focus (c := []) (ht ▸ hs), nodup_postorder hs⟩
    obtain ⟨hlength, hnodup⟩ := hpre
    have hloop : Triple (Focus root N e [] t) (reuseLoopNoting note nodeCb (2 * e.next + 1) a st)
        fun st' s => ∃ N' e', J t.postorder st' N' e' ∧ At root N' (some a) e' s := by
      rw [show 2 * e.next + 1 = t.rounds + (2 * e.next + 1 - t.rounds) by omega]
      exact reuseLoopNoting_spec hcb hnote hnodup ht (List.prefix_refl _) (zero_add _) hJ
        fun st' N' e' hJ' => triple_pure fun s hs => ⟨N', e', hJ', hs.congr (zero_add _)⟩
    refine bound_bind (Triple.bind (hloop.pre fun s hs => by
      unfold Focus
      rw [ht]
      exact hs) fun st' => ?_)
    exact Triple.exists_pre fun N' => Triple.exists_pre fun e' => Triple.of_pre
      (fun hJ' => (hend (some a) st' N' e' hJ').pre fun s hs => hs.2) fun s hs => hs.1

/-! ## Callbacks that do not look at the tree -/

/-- A callback that is handed the nodes of the entries `all` in turn, each without links, and
of which `J` keeps account: the entries it was handed, and what it left beside the tree. -/
def Hands (root : ι) (all : List (Addr × V))
    (J : List (Addr × V) → Multiset (Addr × AvlNode V) → Rest ι → Prop)
    (nodeCb : Addr → AvlM ι V Unit) : Prop :=
  ∀ done N e M p a v, done ++ [(a, v)] <+: all → J done N e →
    Triple (At root ({(a, ⟨none, none, none, 0, v⟩)} + (M + N)) p e) (nodeCb a)
      fun _ s => ∃ N' e', J (done ++ [(a, v)]) N' e' ∧ At root (M + N') p e' s

/-- The same for a callback with a state. -/
def HandsWith {σ : Type} (root : ι) (all : List (Addr × V))
    (J : List (Addr × V) → σ → Multiset (Addr × AvlNode V) → Rest ι → Prop)
    (nodeCb : Addr → σ → AvlM ι V σ) : Prop :=
  ∀ done st N e M p a v, done ++ [(a, v)] <+: all → J done st N e →
    Triple (At root ({(a, ⟨none, none, none, 0, v⟩)} + (M + N)) p e) (nodeCb a st)
      fun st' s => ∃ N' e', J (done ++ [(a, v)]) st' N' e' ∧ At root (M + N') p e' s

/-- **`ReuseAllNodes` hands out every node once and leaves the tree empty.** -/
theorem reuseAllNodesWith_spec (hcb : HandsWith root t.postorder J nodeCb) (hJ : J [] st N e) :
    Triple (Focus root N e [] t) (reuseAllNodesWith root nodeCb st)
      fun st' s => ∃ N' e', J t.postorder st' N' e' ∧ Focus root N' (e'.reset root) [] nil s := by
  rw [← reuseAllNodesNoting_id]
  exact reuseAllNodesNoting_spec (fun done st N e c p a v hall hJ _ =>
    hcb done st N e (Place.cells none c) p a v hall hJ) (fun _ _ _ _ _ _ hJ => hJ) hJ

/-- `ClearApply` takes the values in post-order. -/
theorem clearApplyWith_spec {cb : V → σ → σ} :
    Triple (Focus root N e [] t) (clearApplyWith root cb st)
      fun st' s => st' = t.postorder.foldl (fun st x => cb x.2 st) st
        ∧ Focus root N (e.reset root) [] nil s := by
  have hcb : HandsWith root t.postorder
      (fun done st' N' e' => st' = done.foldl (fun st x => cb x.2 st) st ∧ N' = N ∧ e' = e)
      fun node st => do
        let st := cb (← load node).value st
        dropNode (V := V) node
        return st := by
    rintro done _ _ _ M p a v - ⟨rfl, rfl, rfl⟩
    refine load_bind (n := ⟨none, none, none, 0, v⟩) (by simp) ?_
    refine Triple.bind dropNode_spec fun _ => triple_pure fun s hs => ⟨_, _, ⟨?_, rfl, rfl⟩, hs⟩
    rw [List.foldl_append]
    rfl
  refine (reuseAllNodesWith_spec hcb ⟨rfl, rfl, rfl⟩).post fun st' s hs => ?_
  obtain ⟨N', e', ⟨hst, rfl, rfl⟩, hs⟩ := hs
  exact ⟨hst, hs⟩

end

/-! ### Callbacks without a state -/

section

variable {root : ι} {N : Multiset (Addr × AvlNode V)} {e : Rest ι} {t : LinkedTree V}
  {J : List (Addr × V) → Multiset (Addr × AvlNode V) → Rest ι → Prop}
  {nodeCb : Addr → AvlM ι V Unit}

omit [DecidableEq ι] in
/-- A callback without a state of its own is one whose state has nothing in it. -/
theorem reuseLoop_eq (nodeCb : Addr → AvlM ι V Unit) (fuel : ℕ) (a : Addr) :
    reuseLoop nodeCb fuel a = reuseLoopWith (fun a _ => nodeCb a) fuel a () := by
  induction fuel generalizing a with
  | zero => rfl
  | succ fuel ih =>
    rw [reuseLoop, reuseLoopWith]
    refine bind_congr fun n => ?_
    cases n.left with
    | some left => exact ih left
    | none =>
      cases n.right with
      | some right => exact ih right
      | none =>
        refine bind_congr fun _ => bind_congr fun _ => ?_
        cases n.parent with
        | none => rfl
        | some parent => exact bind_congr fun _ => bind_congr fun _ => ih parent

/-- The same for the whole traversal. -/
theorem reuseAllNodes_eq (root : ι) (nodeCb : Addr → AvlM ι V Unit) :
    reuseAllNodes root nodeCb = reuseAllNodesWith root (fun a _ => nodeCb a) () := by
  refine bind_congr fun top => ?_
  cases top with
  | none => rfl
  | some a => exact bind_congr fun _ => by rw [reuseLoop_eq]; rfl

/-- Every node is handed out, in postorder, and an empty tree is left. -/
theorem reuseAllNodes_spec (hcb : Hands root t.postorder J nodeCb) (hJ : J [] N e) :
    Triple (Focus root N e [] t) (reuseAllNodes root nodeCb)
      fun _ s => ∃ N' e', J t.postorder N' e' ∧ Focus root N' (e'.reset root) [] nil s := by
  rw [reuseAllNodes_eq]
  exact reuseAllNodesWith_spec (J := fun done _ => J done) (fun done _ => hcb done) hJ

/-- `Clear`. -/
theorem clear_spec : Triple (Focus root N e [] t) (clear root)
    fun _ => Focus root N (e.reset root) [] nil := by
  have hcb : Hands root t.postorder (fun _ N' e' => N' = N ∧ e' = e) (dropNode (V := V)) := by
    rintro done _ _ M p a v - ⟨rfl, rfl⟩
    exact dropNode_spec.post fun _ s hs => ⟨_, _, ⟨rfl, rfl⟩, hs⟩
  refine (reuseAllNodes_spec hcb ⟨rfl, rfl⟩).post fun _ s hs => ?_
  obtain ⟨N', e', ⟨rfl, rfl⟩, hs⟩ := hs
  exact hs

/-- `ClearApply` with nothing to note. -/
theorem clearApply_eq : clearApply root (fun _ => return ())
    = (clearApplyWith root (fun _ st => st) () : AvlM ι V Unit) := by
  refine (reuseAllNodes_eq root _).trans (congrArg (reuseAllNodesWith root · ()) ?_)
  funext node _
  refine bind_congr fun n => ?_
  rw [pure_bind]
  exact bind_pure_unit.symm

end

end Mmkvc
