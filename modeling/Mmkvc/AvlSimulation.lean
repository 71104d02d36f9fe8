/-
# The functions of `avl_util.h` do to memory what their counterparts do to trees

`Focus root F e c t` says that memory holds a tree with the subtree `t` at the place
`c`, the cells `F` beside it, and that the rest is as in `e`.  Each function of
`AvlUtil` takes such a state to the state that its counterpart of `AvlShape` says.
-/
import Mmkvc.AvlShape
import Mmkvc.AvlTreeBase

namespace Mmkvc

open AvlM AvlUtil LinkedTree

variable {ι V : Type} [DecidableEq ι]

/-- What is beside the nodes of a tree and its root pointer. -/
structure Rest (ι : Type) where
  roots : ι → Option Addr
  next : ℕ
  counts : ι → BitVec 64

/-- The nodes in memory are `M`, the root pointer is `p`, the rest is as in `e`. -/
structure At (root : ι) (M : Multiset (Addr × AvlNode V)) (p : Option Addr) (e : Rest ι)
    (s : AvlHeap ι V) : Prop where
  sat : Sat s.nodes M
  roots : s.roots = Function.update e.roots root p
  next : s.next = e.next
  counts : s.counts = e.counts
  fresh : ∀ a, e.next ≤ a → s.nodes a = none

section

variable {root : ι} {M N : Multiset (Addr × AvlNode V)} {p q : Option Addr} {e : Rest ι}
  {a : Addr} {n k : AvlNode V} {g : AvlNode V → AvlNode V} {β : Type}
  {R : β → AvlHeap ι V → Prop}

theorem At.congr {s : AvlHeap ι V} (h : At root M p e s) (hM : M = N) : At root N p e s :=
  hM ▸ h

/-- The order in which the cells are listed does not matter. -/
theorem Triple.perm {α : Type} {x : AvlM ι V α} {Q : α → AvlHeap ι V → Prop} (hM : M = N)
    (h : Triple (At root N p e) x Q) : Triple (At root M p e) x Q :=
  h.pre fun _ hs => hs.congr hM

/-! ## Reading and writing one node -/

/-- Reading a node that is there. -/
theorem load_bind {f : AvlNode V → AvlM ι V β} (hmem : (a, n) ∈ M)
    (h : Triple (At root M p e) (f n) R) : Triple (At root M p e) (load a >>= f) R := by
  refine Triple.bind_eq (a := n) ?_ h
  intro s hs
  refine ⟨n, s, ?_, rfl, hs⟩
  change (s.nodes a).map _ = _
  rw [hs.sat.cell _ hmem]
  rfl

/-- A node is changed where it is, and no other. -/
theorem modify_spec (hM : M = {(a, n)} + N) (hk : g n = k) :
    Triple (At root M p e) (modifyNode a g) fun _ => At root ({(a, k)} + N) p e := by
  subst hM hk
  intro s hs
  have hread : s.nodes a = some n :=
    hs.sat.cell _ (Multiset.mem_add.mpr (Or.inl (Multiset.mem_singleton_self _)))
  refine ⟨(), { s with nodes := Function.update s.nodes a (some (g n)) }, ?_,
    ⟨hs.sat.write, hs.roots, hs.next, hs.counts, ?_⟩⟩
  · change (s.nodes a).map _ = _
    rw [hread]
    rfl
  · intro b hb
    have hne : b ≠ a := by
      rintro rfl
      rw [hs.fresh b hb] at hread
      cases hread
    exact (Function.update_of_ne hne _ _).trans (hs.fresh b hb)

/-- A program goes on behind the change of a node. -/
theorem modify_bind {f : Unit → AvlM ι V β} (N : Multiset (Addr × AvlNode V))
    (n k : AvlNode V) (hM : M = {(a, n)} + N) (hk : g n = k)
    (h : Triple (At root ({(a, k)} + N) p e) (f ()) R) :
    Triple (At root M p e) (modifyNode a g >>= f) R :=
  (modify_spec hM hk).bind fun _ => h

omit [DecidableEq ι] in
theorem deref_bind {P : AvlHeap ι V → Prop} {f : Addr → AvlM ι V β} (hp : p = some a)
    (h : Triple P (f a) R) : Triple P (deref p >>= f) R := by
  subst hp
  exact Triple.bind_eq (a := a) (fun s hs => ⟨a, s, rfl, rfl, hs⟩) h

/-- Reading the root pointer. -/
theorem getRoot_bind {f : Option Addr → AvlM ι V β} (h : Triple (At root M p e) (f p) R) :
    Triple (At root M p e) (getRoot root >>= f) R := by
  refine Triple.bind_eq (a := p) ?_ h
  intro s hs
  refine ⟨s.roots root, s, rfl, ?_, hs⟩
  rw [hs.roots, Function.update_self]

/-- The root pointer is set, and no other. -/
theorem setRoot_spec :
    Triple (At root M p e) (setRoot root q) fun _ => At root M q e := by
  intro s hs
  refine ⟨(), _, rfl, ⟨hs.sat, ?_, hs.next, hs.counts, hs.fresh⟩⟩
  change Function.update s.roots root q = _
  rw [hs.roots, Function.update_idem]

theorem bound_bind {f : ℕ → AvlM ι V β} (h : Triple (At root M p e) (f e.next) R) :
    Triple (At root M p e) (bound >>= f) R :=
  Triple.bind_eq (a := e.next) (fun s hs => ⟨s.next, s, rfl, hs.next, hs⟩) h

/-! ## Children and heights -/

variable {d : Dir} {t near far : LinkedTree V} {h : ℕ} {v : V} {c : Place V}

/-- A subtree gets another parent. -/
theorem setParent_spec (p' q' : Option Addr) :
    Triple (At root (t.cells p' + N) p e) (setParent t.root q')
      fun _ => At root (t.cells q' + N) p e := by
  cases t with
  | nil => exact triple_pure fun _ hs => hs
  | node b hb vb l r =>
    refine Triple.post (modify_spec (n := ⟨p', l.root, r.root, hb, vb⟩)
      (N := l.cells (some b) + r.cells (some b) + N) ?_ rfl) fun _ _ hs => hs.congr ?_
    · rw [LinkedTree.cells]
      abel
    · rw [LinkedTree.cells]
      abel

/-- The height of a subtree is the one that is stored in its root. -/
theorem heightOf_bind {q : Option Addr} {f : ℕ → AvlM ι V β} (ht : t.cells q ⊆ M)
    (hf : Triple (At root M p e) (f t.height) R) :
    Triple (At root M p e) (heightOf t.root >>= f) R := by
  cases t with
  | nil => exact Triple.bind_eq (a := 0) (triple_pure fun _ hs => ⟨rfl, hs⟩) hf
  | node b hb vb l r =>
    obtain ⟨n, hmem, -, hheight⟩ := mem_cells_of_root (p := q) (t := node b hb vb l r) rfl
    refine Triple.bind_eq (a := hb) ?_ hf
    refine load_bind (ht hmem) (triple_pure fun _ hs => ⟨hheight, hs⟩)

/-- The height of a child is the one that is stored in it. -/
theorem childHeight_bind {r : Option Addr} {f : ℕ → AvlM ι V β} (hmem : (a, n) ∈ M)
    (hchild : n.child d = t.root) (ht : t.cells r ⊆ M)
    (hf : Triple (At root M p e) (f t.height) R) :
    Triple (At root M p e) (childHeight d a >>= f) R := by
  have hspec : Triple (At root M p e) (childHeight d a)
      fun x s => x = t.height ∧ At root M p e s := by
    refine load_bind hmem ?_
    rw [hchild]
    have hget := heightOf_bind (R := fun x s => x = t.height ∧ At root M p e s)
      (f := pure) ht (triple_pure fun _ hs => ⟨rfl, hs⟩)
    rwa [bind_pure] at hget
  exact hspec.bind_eq hf

/-! ## Rotations -/

/-- The link from a node to the place below it is the one that is replaced. -/
theorem replaceChild_spec {f : Frame V} (n : AvlNode V) :
    Triple (At root ({(a, n)} + Place.cells (some a) (f :: c) + N) p e)
      (replaceChild f.addr a q) fun _ => At root ({(a, n)} + Place.cells q (f :: c) + N) p e := by
  have hcells : ∀ r, {(a, n)} + Place.cells r (f :: c) + N = {f.cell (Place.parent c) r}
      + (f.other.cells (some f.addr) + Place.cells (some f.addr) c + ({(a, n)} + N)) := by
    intro r
    rw [Place.cells]
    abel
  refine Triple.perm (hcells _) ?_
  refine Triple.post (Q := fun _ => At root ({f.cell (Place.parent c) q}
    + (f.other.cells (some f.addr) + Place.cells (some f.addr) c + ({(a, n)} + N))) p e) ?_
    fun _ _ hs => hs.congr (hcells q).symm
  -- the node is not the other child
  refine Triple.of_pre (C := f.other.root ≠ some a) ?_ ?_
  · intro hother
    refine load_bind (n := (f.cell (Place.parent c) (some a)).2) (by simp [Frame.cell]) ?_
    cases hd : f.dir with
    | left =>
      rw [if_pos (by simp [Frame.cell, AvlNode.ofSides, hd])]
      refine modify_spec (n := (f.cell (Place.parent c) (some a)).2) rfl ?_
      simp [Frame.cell, AvlNode.ofSides, AvlNode.setChild, hd]
    | right =>
      rw [if_neg (by simpa [Frame.cell, AvlNode.ofSides, hd] using hother)]
      refine modify_spec (n := (f.cell (Place.parent c) (some a)).2) rfl ?_
      simp [Frame.cell, AvlNode.ofSides, AvlNode.setChild, hd]
  · intro s hs hroot
    obtain ⟨n', hmem, -, -⟩ := mem_cells_of_root (p := some f.addr) hroot
    have hsat := hs.sat
    rw [show ∀ A B C D : Multiset (Addr × AvlNode V), A + (B + C + (D + N)) = D + (B + (A + C + N))
      from fun A B C D => by abel] at hsat
    exact hsat.ne_of_mem (Multiset.mem_singleton_self _) (Multiset.mem_add.mpr (Or.inl hmem)) rfl

/-- A child of the node above the place is replaced, or the root pointer if there is none. -/
theorem childPlace_spec (n : AvlNode V) :
    Triple (At root ({(a, n)} + Place.cells (some a) c + N) (Place.top (some a) c) e)
      (childPlace a q (Place.parent c) root)
      fun _ => At root ({(a, n)} + Place.cells q c + N) (Place.top q c) e := by
  cases c with
  | nil => exact setRoot_spec
  | cons f c => exact replaceChild_spec n

/-- Memory holds the tree `t` at the place `c`, and `N` beside it. -/
def Focus (root : ι) (N : Multiset (Addr × AvlNode V)) (e : Rest ι) (c : Place V)
    (t : LinkedTree V) : AvlHeap ι V → Prop :=
  At root (t.cells (Place.parent c) + Place.cells t.root c + N) (Place.top t.root c) e

/-- The place may be looked at one node higher. -/
theorem focus_cons (f : Frame V) :
    Focus root N e (f :: c) t = Focus root N e c (f.fill t) := by
  unfold Focus
  rw [Frame.fill, cells_join, root_join, Place.cells, Place.parent_cons, Place.top_cons, Frame.cell]
  congr 1
  abel

/-- A rotation around a node. -/
theorem rotate_spec {b : Addr} {hb : ℕ} {vb : V} {x y z : LinkedTree V} :
    Triple (Focus root N e c (join d a h v x (join d b hb vb y z))) (rotate d a root)
      fun r s => r = b ∧ Focus root N e c (join d b hb vb (join d a h v x y) z) s := by
  -- the cells of the two nodes, of the inner subtree and of the rest
  have hstart : (join d a h v x (join d b hb vb y z)).cells (Place.parent c)
      + Place.cells (some a) c + N
      = {(a, .ofSides d (Place.parent c) x.root (some b) h v)}
        + ({(b, .ofSides d (some a) y.root z.root hb vb)} + (y.cells (some b)
          + (x.cells (some a) + z.cells (some b) + Place.cells (some a) c + N))) := by
    rw [cells_join, cells_join, root_join]
    abel
  unfold Focus
  rw [root_join, hstart]
  generalize hrest : x.cells (some a) + z.cells (some b) + Place.cells (some a) c + N = rest
  refine load_bind (n := .ofSides d (Place.parent c) x.root (some b) h v) (by simp) ?_
  refine deref_bind AvlNode.child_opp_ofSides ?_
  refine load_bind (n := .ofSides d (some a) y.root z.root hb vb) (by simp) ?_
  rw [AvlNode.child_ofSides]
  refine modify_bind _ _ (.ofSides d (Place.parent c) x.root y.root h v) rfl
    (by cases d <;> rfl) ?_
  refine Triple.bind (Triple.perm (N := y.cells (some b) + ({(a, _)} + ({(b, _)} + rest)))
    (by abel) (setParent_spec (some b) (some a))) fun _ => ?_
  refine modify_bind ({(a, _)} + (y.cells (some a) + rest)) _
    (.ofSides d (some a) (some a) z.root hb vb) (by abel) (by cases d <;> rfl) ?_
  refine modify_bind _ _ (.ofSides d (Place.parent c) (some a) z.root hb vb) rfl
    (by cases d <;> rfl) ?_
  refine modify_bind ({(b, _)} + (y.cells (some a) + rest)) _
    (.ofSides d (some b) x.root y.root h v) (by abel) (by cases d <;> rfl) ?_
  rw [AvlNode.parent_ofSides]
  subst hrest
  refine Triple.bind (Triple.perm (N := {(a, .ofSides d (some b) x.root y.root h v)}
    + Place.cells (some a) c + ({(b, .ofSides d (Place.parent c) (some a) z.root hb vb)}
      + (y.cells (some a) + (x.cells (some a) + z.cells (some b) + N)))) (by abel)
    (childPlace_spec _)) fun _ => triple_pure fun s hs => ⟨rfl, ?_⟩
  rw [root_join]
  refine hs.congr ?_
  rw [cells_join, cells_join, root_join]
  abel

/-! ## Repairs -/

/-- The stored height of a node becomes one more than that of its higher subtree. -/
theorem updateHeight_node {par : Option Addr} {l r : LinkedTree V} :
    Triple (At root ((node a h v l r).cells par + N) p e) (updateHeight a)
      fun _ => At root ((node a (max l.height r.height + 1) v l r).cells par + N) p e := by
  have hl : l.cells (some a) ⊆ (node a h v l r).cells par + N := fun x hx => by
    rw [LinkedTree.cells]
    simp [hx]
  have hr : r.cells (some a) ⊆ (node a h v l r).cells par + N := fun x hx => by
    rw [LinkedTree.cells]
    simp [hx]
  have hmem : (a, ⟨par, l.root, r.root, h, v⟩) ∈ (node a h v l r).cells par + N := by
    rw [LinkedTree.cells]
    simp
  refine childHeight_bind hmem rfl hl (childHeight_bind hmem rfl hr ?_)
  rw [avlMax_eq_max]
  refine (modify_spec (n := ⟨par, l.root, r.root, h, v⟩)
    (N := l.cells (some a) + r.cells (some a) + N) ?_ rfl).post fun _ _ hs => hs.congr ?_
  · rw [LinkedTree.cells, add_assoc, add_assoc, add_assoc]
  · rw [LinkedTree.cells, add_assoc, add_assoc, add_assoc]

/-- The same for a node of any direction. -/
theorem updateHeight_spec {par : Option Addr} {x y : LinkedTree V} :
    Triple (At root ((join d a h v x y).cells par + N) p e) (updateHeight a)
      fun _ => At root ((mk d a v x y).cells par + N) p e := by
  cases d with
  | left => exact updateHeight_node
  | right =>
    rw [mk, max_comm]
    exact updateHeight_node

/-- The heights of a node and of its child on the side `d` are updated. -/
theorem updateHeights_bind {b : Addr} {hb : ℕ} {vb : V} {d' : Dir} {x y z : LinkedTree V}
    {f : Unit → AvlM ι V β}
    (hf : Triple (Focus root N e c (mk d b vb (mk d' a v x y) z)) (f ()) R) :
    Triple (Focus root N e c (join d b hb vb (join d' a h v x y) z))
      (load b >>= fun n => deref (n.child d) >>= fun q => updateHeight q >>= fun _ =>
        updateHeight b >>= f) R := by
  have hstart : ∀ t : LinkedTree V, t.root = some a → (join d b hb vb t z).cells (Place.parent c)
      + Place.cells (some b) c + N
      = t.cells (some b) + ({(b, .ofSides d (Place.parent c) (some a) z.root hb vb)}
        + z.cells (some b) + Place.cells (some b) c + N) := by
    intro t ht
    rw [cells_join, ht]
    abel
  unfold Focus
  rw [root_join, hstart _ root_join]
  refine load_bind (n := .ofSides d (Place.parent c) (some a) z.root hb vb) (by simp) ?_
  refine deref_bind AvlNode.child_ofSides (Triple.bind updateHeight_spec fun _ => ?_)
  refine Triple.perm (N := (join d b hb vb (mk d' a v x y) z).cells (Place.parent c)
    + (Place.cells (some b) c + N)) ?_ (updateHeight_spec.bind fun _ => ?_)
  · rw [← hstart _ root_mk, add_assoc]
  · refine Triple.pre hf fun s hs => ?_
    unfold Focus
    rw [root_mk]
    exact hs.congr (add_assoc _ _ _).symm

/-- The last rotation of a repair. -/
theorem lift_spec {b : Addr} {hb : ℕ} {vb : V} {outer inner : LinkedTree V} :
    Triple (Focus root N e c (join d a h v (join d b hb vb outer inner) far))
      (do
        let node ← rotate d.opp a root
        updateHeight (← deref ((← load node).child d.opp))
        updateHeight node
        return node)
      fun r s => r = b ∧ Focus root N e c (mk d b vb outer (mk d a v inner far)) s := by
  rw [← join_opp (h := h), ← join_opp (h := hb)]
  refine Triple.bind_eq rotate_spec (updateHeights_bind (triple_pure fun s hs => ⟨rfl, ?_⟩))
  rwa [mk_opp, mk_opp] at hs

/-- The repair of a node whose child on the side `d` is too high: one rotation or two. -/
theorem fixupHeavy_spec (hheavy : near.height ≠ 0) :
    Triple (Focus root N e c (join d a h v near far)) (AvlUtil.fixupHeavy d a root)
      fun r s => some r = (LinkedTree.fixupHeavy d a v near far).root
        ∧ Focus root N e c (LinkedTree.fixupHeavy d a v near far) s := by
  have hnear : near.root ≠ none := by
    intro hroot
    cases near with
    | nil => exact hheavy rfl
    | node _ _ _ _ _ => cases hroot
  obtain ⟨b, hb, vb, outer, inner, rfl⟩ := exists_join d hnear
  unfold AvlUtil.fixupHeavy
  refine load_bind (n := .ofSides d (Place.parent c) (some b) far.root h v)
    (by simp [cells_join]) ?_
  refine deref_bind AvlNode.child_ofSides ?_
  refine childHeight_bind (n := .ofSides d (some a) outer.root inner.root hb vb) (t := outer)
    (r := some b) (by simp [cells_join]) AvlNode.child_ofSides
    (fun x hx => by simp [cells_join, hx]) ?_
  refine childHeight_bind (n := .ofSides d (some a) outer.root inner.root hb vb) (t := inner)
    (r := some b) (by simp [cells_join]) AvlNode.child_opp_ofSides
    (fun x hx => by simp [cells_join, hx]) ?_
  by_cases hlt : outer.height < inner.height
  · -- the inner grandchild comes up first
    have hinner : inner.root ≠ none := by
      intro hroot
      cases inner with
      | nil => exact absurd hlt (Nat.not_lt_zero _)
      | node _ _ _ _ _ => cases hroot
    obtain ⟨m, hm, vm, y, z, rfl⟩ := exists_join d hinner
    rw [height_join] at hlt
    rw [← join_opp (h := hm), fixupHeavy_double hlt, join_opp, height_join, if_pos hlt, root_mk]
    have hframe : ∀ t : LinkedTree V, Focus root N e c (join d a h v t far)
        = Focus root N e (⟨d, a, h, v, far⟩ :: c) t := fun t =>
      (focus_cons ⟨d, a, h, v, far⟩).symm
    refine Triple.pre (P := Focus root N e (⟨d, a, h, v, far⟩ :: c)
      (join d b hb vb outer (join d m hm vm y z))) ?_ fun s hs => by rw [← hframe]; exact hs
    refine Triple.bind_eq rotate_spec (updateHeights_bind ?_)
    rw [← hframe]
    exact lift_spec.post fun r s hs => ⟨congrArg some hs.1, hs.2⟩
  · rw [if_neg hlt, fixupHeavy_single hlt, root_mk]
    exact lift_spec.post fun r s hs => ⟨congrArg some hs.1, hs.2⟩

/-- The balance factor says whether a node is repaired, and on which side. -/
theorem fixupHeavySide_spec {bf : ℤ}
    (hbf : bf = d.pick (near.height : ℤ) far.height - d.pick (far.height : ℤ) near.height) :
    Triple (Focus root N e c (mk d a v near far)) (fixupHeavySide bf a root)
      fun r s => some r = (rebalance d a v near far).root
        ∧ Focus root N e c (rebalance d a v near far) s := by
  unfold rebalance
  have hheavy : ∀ (d' : Dir) (near far : LinkedTree V), near.height ≠ 0 →
      Triple (Focus root N e c (join d' a (max near.height far.height + 1) v near far))
        (AvlUtil.fixupHeavy d' a root) fun r s =>
          some r = (LinkedTree.fixupHeavy d' a v near far).root
            ∧ Focus root N e c (LinkedTree.fixupHeavy d' a v near far) s :=
    fun _ _ _ hne => fixupHeavy_spec hne
  have hnear := hheavy d near far
  have hfar := hheavy d.opp far near
  rw [join_opp, max_comm] at hfar
  unfold fixupHeavySide
  cases d with
  | left =>
    simp only [Dir.pick] at hbf
    refine Triple.ite (fun hle => ?_) fun hnle => Triple.ite (fun hle => ?_) fun hnle' => ?_
    · rw [if_pos (by omega)]
      exact hnear (by omega)
    · rw [if_neg (by omega), if_pos (by omega)]
      exact hfar (by omega)
    · rw [if_neg (by omega), if_neg (by omega)]
      exact triple_pure fun s hs => ⟨root_mk.symm, hs⟩
  | right =>
    simp only [Dir.pick] at hbf
    refine Triple.ite (fun hle => ?_) fun hnle => Triple.ite (fun hle => ?_) fun hnle' => ?_
    · rw [if_neg (by omega), if_pos (by omega)]
      exact hfar (by omega)
    · rw [if_pos (by omega)]
      exact hnear (by omega)
    · rw [if_neg (by omega), if_neg (by omega)]
      exact triple_pure fun s hs => ⟨root_mk.symm, hs⟩

theorem focus_plug : Focus root N e c t = Focus root N e [] (Place.plug c t) := by
  induction c generalizing t with
  | nil => rfl
  | cons f c ih => rw [focus_cons, ih, Place.plug_cons]

/-- The parent link of the subtree in focus. -/
theorem load_focus_bind {f : AvlNode V → AvlM ι V β} (hroot : some a = t.root)
    (hf : ∀ n, n.parent = Place.parent c → n.height = t.height →
      Triple (Focus root N e c t) (f n) R) :
    Triple (Focus root N e c t) (load a >>= f) R := by
  obtain ⟨n, hmem, hparent, hheight⟩ := mem_cells_of_root (p := Place.parent c) hroot.symm
  refine load_bind (n := n) ?_ (hf n hparent hheight)
  exact Multiset.mem_add.mpr (Or.inl (Multiset.mem_add.mpr (Or.inl hmem)))

/-- The two heights a loop reads at the node above a place. -/
theorem heights_bind {f : Frame V} {g : ℕ → ℕ → AvlM ι V β}
    (hg : Triple (Focus root N e (f :: c) t)
      (g (f.dir.pick t.height f.other.height) (f.dir.pick f.other.height t.height)) R) :
    Triple (Focus root N e (f :: c) t)
      (childHeight .left f.addr >>= fun lh => childHeight .right f.addr >>= fun rh => g lh rh)
      R := by
  have hmem : f.cell (Place.parent c) t.root ∈ t.cells (some f.addr)
      + Place.cells t.root (f :: c) + N := by simp [Place.cells]
  have ht : t.cells (some f.addr) ⊆ t.cells (some f.addr) + Place.cells t.root (f :: c) + N :=
    fun x hx => by simp [hx]
  have hother : f.other.cells (some f.addr)
      ⊆ t.cells (some f.addr) + Place.cells t.root (f :: c) + N :=
    fun x hx => by simp [Place.cells, hx]
  obtain ⟨dir, a, h, v, other⟩ := f
  cases dir with
  | left => exact childHeight_bind hmem rfl ht (childHeight_bind hmem rfl hother hg)
  | right => exact childHeight_bind hmem rfl hother (childHeight_bind hmem rfl ht hg)

/-- The body of the loops: the new height is stored and the node repaired. -/
theorem repair_bind {f : Frame V} {bf : ℤ} {g : AvlNode V → AvlM ι V β}
    (hbf : bf = f.dir.pick (t.height : ℤ) f.other.height - f.dir.pick (f.other.height : ℤ) t.height)
    (hg : ∀ n, n.parent = Place.parent c → Triple (Focus root N e c
      (rebalance f.dir f.addr f.value t f.other)) (g n) R) :
    Triple (Focus root N e (f :: c) t)
      (modifyNode f.addr (fun n => { n with height := max t.height f.other.height + 1 }) >>= fun _ =>
        fixupHeavySide bf f.addr root >>= fun node => load node >>= g) R := by
  have hstart : ∀ hh : ℕ, (join f.dir f.addr hh f.value t f.other).cells (Place.parent c)
      + Place.cells (some f.addr) c + N
      = {(f.addr, .ofSides f.dir (Place.parent c) t.root f.other.root hh f.value)}
        + (t.cells (some f.addr) + f.other.cells (some f.addr) + Place.cells (some f.addr) c
          + N) := by
    intro hh
    rw [cells_join]
    abel
  rw [focus_cons]
  unfold Focus
  rw [Frame.fill, root_join, hstart]
  refine modify_bind _ _ (.ofSides f.dir (Place.parent c) t.root f.other.root
    (max t.height f.other.height + 1) f.value) rfl (by cases f.dir <;> rfl) ?_
  rw [← hstart]
  refine Triple.pre (P := Focus root N e c (mk f.dir f.addr f.value t f.other)) ?_ fun s hs => ?_
  · refine Triple.bind (fixupHeavySide_spec hbf) fun node => ?_
    refine Triple.of_pre (fun hroot => ?_) fun s hs => hs.1
    exact (load_focus_bind hroot fun n hparent _ => hg n hparent).pre fun s hs => hs.2
  · unfold Focus
    rw [root_mk]
    exact hs

/-- The maximum does not depend on which of the two is on the side `d`. -/
theorem pick_max {α : Type} [LinearOrder α] (d : Dir) (x y : α) :
    max (d.pick x y) (d.pick y x) = max x y := by
  cases d with
  | left => rfl
  | right => exact max_comm _ _

/-- **`_InsertFixup` does what `insertUp` says.** -/
theorem insertFixup_spec {fuel : ℕ} (hfuel : c.length ≤ fuel) :
    Triple (Focus root N e c t) (insertFixup root fuel (Place.parent c))
      fun _ => Focus root N e [] (insertUp c t) := by
  induction c generalizing t fuel with
  | nil =>
    cases fuel <;> exact triple_pure fun _ hs => hs
  | cons f c ih =>
    cases fuel with
    | zero => exact absurd hfuel (Nat.not_succ_le_zero _)
    | succ fuel =>
      rw [Place.parent_cons, insertFixup]
      refine heights_bind ?_
      rw [avlMax_eq_max, pick_max]
      refine load_bind (n := (f.cell (Place.parent c) t.root).2) (by simp [Frame.cell, Place.cells]) ?_
      rw [show (f.cell (Place.parent c) t.root).2.height = f.height from AvlNode.height_ofSides]
      unfold insertUp
      refine Triple.ite (fun hstop => ?_) fun hgo => ?_
      · rw [if_pos hstop]
        rw [← focus_plug]
        exact triple_pure fun s hs => hs
      · rw [if_neg hgo]
        refine repair_bind (by cases f.dir <;> simp [Dir.pick]) fun n hparent => ?_
        rw [hparent]
        exact ih (Nat.le_of_succ_le_succ hfuel)

/-- **`_EraseFixup` does what `eraseUp` says.** -/
theorem eraseFixup_spec {fuel : ℕ} (hfuel : c.length ≤ fuel) :
    Triple (Focus root N e c t) (eraseFixup root fuel (Place.parent c))
      fun _ => Focus root N e [] (eraseUp c t) := by
  induction c generalizing t fuel with
  | nil =>
    cases fuel <;> exact triple_pure fun _ hs => hs
  | cons f c ih =>
    cases fuel with
    | zero => exact absurd hfuel (Nat.not_succ_le_zero _)
    | succ fuel =>
      rw [Place.parent_cons, eraseFixup]
      refine heights_bind ?_
      rw [avlMax_eq_max, pick_max]
      refine load_bind (n := (f.cell (Place.parent c) t.root).2) (by simp [Frame.cell, Place.cells]) ?_
      rw [show (f.cell (Place.parent c) t.root).2.height = f.height from AvlNode.height_ofSides]
      unfold eraseUp
      have hcond : (f.height = max t.height f.other.height + 1
            ∧ -1 ≤ ((f.dir.pick t.height f.other.height : ℕ) : ℤ)
              - (f.dir.pick f.other.height t.height : ℕ)
            ∧ ((f.dir.pick t.height f.other.height : ℕ) : ℤ)
              - (f.dir.pick f.other.height t.height : ℕ) ≤ 1)
          ↔ f.height = max t.height f.other.height + 1
            ∧ t.height ≤ f.other.height + 1 ∧ f.other.height ≤ t.height + 1 := by
        cases f.dir <;> simp only [Dir.pick] <;> omega
      refine Triple.ite (fun hstop => ?_) fun hgo => ?_
      · rw [if_pos (hcond.mp hstop)]
        rw [← focus_plug]
        exact triple_pure fun s hs => hs
      · rw [if_neg fun hstop => hgo (hcond.mpr hstop)]
        refine repair_bind (by cases f.dir <;> simp [Dir.pick]) fun n hparent => ?_
        rw [hparent]
        exact ih (Nat.le_of_succ_le_succ hfuel)

/-! ## Unlinking a node -/

/-- A subtree takes the place of a node. -/
theorem place_bind {f : Unit → AvlM ι V β} (n : AvlNode V) (par : Option Addr)
    (hf : Triple (Focus root ({(a, n)} + N) e c t) (f ()) R) :
    Triple (At root ({(a, n)} + (t.cells par + Place.cells (some a) c + N))
        (Place.top (some a) c) e)
      (childPlace a t.root (Place.parent c) root >>= fun _ =>
        setParent t.root (Place.parent c) >>= f) R := by
  refine Triple.bind (Triple.perm (N := {(a, n)} + Place.cells (some a) c + (t.cells par + N))
    (by abel) (childPlace_spec n)) fun _ => ?_
  refine Triple.perm (N := t.cells par + ({(a, n)} + Place.cells t.root c + N)) (by abel) ?_
  exact Triple.bind (setParent_spec par (Place.parent c)) fun _ =>
    hf.pre fun s hs => hs.congr (by abel)

/-- The way down to the leftmost node of a subtree. -/
theorem leftmost_bind {b : Addr} {hb : ℕ} {vb : V} {l r : LinkedTree V} {par : Option Addr}
    {N : Place V} {fuel : ℕ} {f : Addr → AvlM ι V β}
    (ht : (node b hb vb l r).cells par ⊆ M) (hfuel : l.inorder.length < fuel)
    (hf : Triple (At root M p e) (f (minimum b hb vb l r N).addr) R) :
    Triple (At root M p e) (leftmost fuel b >>= f) R := by
  induction l generalizing b hb vb r par N fuel with
  | nil =>
    cases fuel with
    | zero => exact absurd hfuel (Nat.not_lt_zero _)
    | succ fuel =>
      rw [leftmost, bind_assoc]
      exact load_bind (n := ⟨par, none, r.root, hb, vb⟩)
        (ht (by simp [LinkedTree.cells])) (by simpa [minimum] using hf)
  | node b' hb' vb' l' r' ihl ihr =>
    cases fuel with
    | zero => exact absurd hfuel (Nat.not_lt_zero _)
    | succ fuel =>
      rw [leftmost, bind_assoc]
      refine load_bind (n := ⟨par, some b', r.root, hb, vb⟩)
        (ht (by simp [LinkedTree.cells])) ?_
      refine ihl (fun x (hx : x ∈ (node b' hb' vb' l' r').cells (some b)) => ht ?_) ?_ hf
      · rw [LinkedTree.cells]
        simp [hx]
      · rw [inorder_node, List.length_append, List.length_cons] at hfuel
        omega

/-- The root of a subtree gets another parent. -/
theorem modifyParent_bind {b : Addr} {par q' : Option Addr} {f : Unit → AvlM ι V β}
    (N : Multiset (Addr × AvlNode V)) (ht : t.root = some b) (hM : M = t.cells par + N)
    (hf : Triple (At root (t.cells q' + N) p e) (f ()) R) :
    Triple (At root M p e) (modifyNode b (fun n => { n with parent := q' }) >>= f) R := by
  subst hM
  have hspec : Triple (At root (t.cells par + N) p e) (setParent t.root q')
      fun _ => At root (t.cells q' + N) p e := setParent_spec par q'
  rw [ht] at hspec
  exact hspec.bind fun _ => hf

/-- A place in a place. -/
theorem focus_append (p c : Place V) :
    Focus root N e (p ++ c) t = Focus root N e c (Place.plug p t) := by
  induction p generalizing t with
  | nil => rfl
  | cons f p ih => rw [List.cons_append, focus_cons, ih, Place.plug_cons]

/-- What is left of a node `a` that was unlinked. -/
def Unlinked (root : ι) (N : Multiset (Addr × AvlNode V)) (e : Rest ι) (a : Addr) (h : ℕ) (v : V)
    (c : Place V) (t : LinkedTree V) (s : AvlHeap ι V) : Prop :=
  ∃ n : AvlNode V, n.value = v ∧ n.height = h ∧ Focus root ({(a, n)} + N) e c t s

/-- The root of the right subtree takes the place of a node. -/
theorem replaceByChild_spec {l r : LinkedTree V} {m b : Addr} {vm : V} {hm : ℕ}
    (hl : l.root = some b) :
    Triple (Focus root N e (⟨.right, a, h, v, l⟩ :: c) (node m hm vm nil r))
      (replaceByChild a m b (Place.parent c) h root)
      fun q s => q = some m ∧ Unlinked root N e a h v (⟨.right, m, h, vm, l⟩ :: c) r s := by
  have hstart : (node m hm vm nil r).cells (some a)
      + Place.cells (some m) (⟨.right, a, h, v, l⟩ :: c) + N
      = {(m, ⟨some a, none, r.root, hm, vm⟩)} + ({(a, ⟨Place.parent c, l.root, some m, h, v⟩)}
        + (r.cells (some m) + l.cells (some a) + Place.cells (some a) c + N)) := by
    simp only [LinkedTree.cells, Place.cells, Frame.cell, AvlNode.ofSides, root_nil]
    abel
  refine Triple.perm hstart ?_
  unfold replaceByChild
  generalize hn : (⟨Place.parent c, l.root, some m, h, v⟩ : AvlNode V) = n
  refine modify_bind _ _ ⟨some a, some b, r.root, hm, vm⟩ rfl rfl ?_
  refine modifyParent_bind ({(m, ⟨some a, some b, r.root, hm, vm⟩)} + ({(a, n)}
    + (r.cells (some m) + Place.cells (some a) c + N))) hl (by abel) ?_
  refine modify_bind ({(a, n)} + (l.cells (some m) + r.cells (some m) + Place.cells (some a) c + N))
    _ ⟨Place.parent c, some b, r.root, hm, vm⟩ (by abel) rfl ?_
  refine modify_bind _ _ ⟨Place.parent c, some b, r.root, h, vm⟩ rfl rfl ?_
  refine Triple.perm (N := {(a, n)} + Place.cells (some a) c
    + ({(m, ⟨Place.parent c, some b, r.root, h, vm⟩)} + (l.cells (some m) + r.cells (some m)
      + N))) (by abel) (Triple.bind (childPlace_spec n) fun _ => triple_pure fun s hs => ?_)
  refine ⟨rfl, n, hn ▸ rfl, hn ▸ rfl, ?_⟩
  rw [← hl] at hs
  rw [focus_cons]
  unfold Focus
  rw [Frame.fill, root_join, cells_join]
  refine hs.congr ?_
  simp only [AvlNode.ofSides]
  abel

/-- A lower node takes the place of a node. -/
theorem replaceByLower_spec {l rm : LinkedTree V} {m b : Addr} {vm : V} {hm : ℕ} {f : Frame V}
    {pl : Place V} (hl : l.root = some b) :
    Triple (Focus root N e (f :: pl ++ ⟨.right, a, h, v, l⟩ :: c) (node m hm vm nil rm))
      (replaceByLower a m rm.root (some f.addr) (Place.parent c) h root)
      fun q s => q = some f.addr
        ∧ Unlinked root N e a h v (f :: pl ++ ⟨.right, m, h, vm, l⟩ :: c) rm s := by
  have hstart : (node m hm vm nil rm).cells (some f.addr)
      + Place.cells (some m) (f :: pl ++ ⟨.right, a, h, v, l⟩ :: c) + N
      = {(m, ⟨some f.addr, none, rm.root, hm, vm⟩)} + (rm.cells (some m)
        + Place.cells (some m) (f :: pl ++ ⟨.right, a, h, v, l⟩ :: c) + N) := by
    simp only [LinkedTree.cells, root_nil]
    abel
  refine Triple.perm hstart ?_
  refine place_bind (c := f :: pl ++ ⟨.right, a, h, v, l⟩ :: c) _ (some m) ?_
  -- what is now the right subtree of the node
  obtain ⟨b', hT⟩ : ∃ b', (Place.plug (f :: pl) rm).root = some b' := by
    rw [Place.root_plug]
    exact Place.exists_top _ _
  rw [focus_append]
  generalize hT' : Place.plug (f :: pl) rm = T at hT ⊢
  generalize hn : (⟨Place.parent c, l.root, T.root, h, v⟩ : AvlNode V) = n
  have hnext : T.cells (some a) + Place.cells T.root (⟨.right, a, h, v, l⟩ :: c)
      + ({(m, ⟨some f.addr, none, rm.root, hm, vm⟩)} + N)
      = {(m, ⟨some f.addr, none, rm.root, hm, vm⟩)} + ({(a, n)} + (T.cells (some a)
          + l.cells (some a) + Place.cells (some a) c + N)) := by
    subst hn
    simp only [Place.cells, Frame.cell, AvlNode.ofSides]
    abel
  refine Triple.perm hnext ?_
  refine load_bind (n := n) (by simp) (deref_bind (a := b') (by rw [← hn, ← hT]) ?_)
  refine load_bind (n := n) (by simp) (deref_bind (a := b) (by rw [← hn, ← hl]) ?_)
  refine modify_bind _ _ ⟨some f.addr, none, some b', hm, vm⟩ rfl rfl ?_
  refine modifyParent_bind ({(m, ⟨some f.addr, none, some b', hm, vm⟩)} + ({(a, n)}
    + (l.cells (some a) + Place.cells (some a) c + N))) hT (by abel) ?_
  refine modify_bind ({(a, n)} + (T.cells (some m) + l.cells (some a) + Place.cells (some a) c + N))
    _ ⟨some f.addr, some b, some b', hm, vm⟩ (by abel) rfl ?_
  refine modifyParent_bind ({(m, ⟨some f.addr, some b, some b', hm, vm⟩)} + ({(a, n)}
    + (T.cells (some m) + Place.cells (some a) c + N))) hl (by abel) ?_
  refine modify_bind ({(a, n)} + (T.cells (some m) + l.cells (some m) + Place.cells (some a) c + N))
    _ ⟨some f.addr, some b, some b', h, vm⟩ (by abel) rfl ?_
  refine modify_bind _ _ ⟨Place.parent c, some b, some b', h, vm⟩ rfl rfl ?_
  refine Triple.perm (N := {(a, n)} + Place.cells (some a) c
    + ({(m, ⟨Place.parent c, some b, some b', h, vm⟩)} + (l.cells (some m) + T.cells (some m)
      + N))) (by abel) (Triple.bind (childPlace_spec n) fun _ => triple_pure fun s hs => ?_)
  refine ⟨rfl, n, hn ▸ rfl, hn ▸ rfl, ?_⟩
  rw [focus_append, hT']
  rw [← hl, ← hT] at hs
  rw [focus_cons]
  unfold Focus
  rw [Frame.fill, root_join, cells_join]
  refine hs.congr ?_
  simp only [AvlNode.ofSides]
  abel

theorem At.card_le {s : AvlHeap ι V} (hs : At root M p e s) : Multiset.card M ≤ e.next :=
  hs.sat.card_le hs.fresh

/-- What `_Erase` does where the node has two subtrees. -/
theorem replace_spec {l r : LinkedTree V} {b b' : Addr} {hb' : ℕ} {vb' : V}
    {lb' rb' : LinkedTree V} {m : Minimum V} (hl : l.root = some b)
    (hr : node b' hb' vb' lb' rb' = r) (hm : minimum b' hb' vb' lb' rb' [] = m) :
    Triple (Focus root N e c (node a h v l r))
      (do
        let next ← leftmost ((← bound) + 1) b'
        let n ← load next
        if n.parent = some a then replaceByChild a next b (Place.parent c) h root
        else replaceByLower a next n.right n.parent (Place.parent c) h root)
      fun q s => q = Place.parent (m.place ++ ⟨.right, m.addr, h, m.value, l⟩ :: c)
        ∧ Unlinked root N e a h v (m.place ++ ⟨.right, m.addr, h, m.value, l⟩ :: c) m.right s := by
  refine Triple.of_pre (fun hcard => ?_) fun s hs => hs.card_le
  refine bound_bind (leftmost_bind (N := []) (fun x hx => Multiset.mem_add.mpr (Or.inl
    (Multiset.mem_add.mpr (Or.inl (right_cells_subset _ (hr ▸ hx)))))) ?_ ?_)
  · have hsize := card_cells r (some a)
    rw [← hr, inorder_node, List.length_append] at hsize
    rw [LinkedTree.cells, Multiset.card_add, Multiset.card_add, Multiset.card_add,
      Multiset.card_add, ← hr, hsize] at hcard
    omega
  rw [hm]
  -- the minimum at its place
  have hplug : Place.plug m.place (node m.addr m.height m.value nil m.right) = r := by
    rw [← hm, ← hr]
    exact plug_minimum
  clear hr hm
  obtain ⟨pl, m, hm, vm, rm⟩ := m
  dsimp only at hplug ⊢
  refine Triple.pre (P := Focus root N e (pl ++ ⟨.right, a, h, v, l⟩ :: c)
    (node m hm vm nil rm)) ?_ fun s hs => ?_
  · cases pl with
    | nil =>
      refine load_bind (n := ⟨some a, none, rm.root, hm, vm⟩) (by simp [LinkedTree.cells]) ?_
      rw [if_pos rfl]
      exact replaceByChild_spec hl
    | cons f pl =>
      -- the minimum is the child of another node
      refine Triple.of_pre (C := f.addr ≠ a) (fun hne => ?_) fun s hs => ?_
      · refine load_bind (n := ⟨some f.addr, none, rm.root, hm, vm⟩)
          (by simp [LinkedTree.cells]) ?_
        rw [if_neg (by simpa using hne)]
        exact replaceByLower_spec hl
      · obtain ⟨n, hn⟩ := Place.exists_mem_cells (f := ⟨.right, a, h, v, l⟩) (some f.addr)
          (c := pl ++ ⟨.right, a, h, v, l⟩ :: c) (by simp)
        have hsat := hs.sat
        rw [List.cons_append, Place.cells, show ∀ A B C D : Multiset (Addr × AvlNode V),
          A + (B + C + D) + N = B + (D + (C + A + N)) from fun A B C D => by abel] at hsat
        exact hsat.ne_of_mem (Multiset.mem_singleton_self _) (Multiset.mem_add.mpr (Or.inl hn))
  · rw [focus_append, hplug, focus_cons]
    exact hs

/-- **The unlinking of a node does what `unlink` says**, and leaves the node with its value
and height beside the tree. -/
theorem unlink_spec {l r : LinkedTree V} :
    Triple (Focus root N e c (node a h v l r)) (AvlUtil.unlink a root)
      fun q s => q = Place.parent (LinkedTree.unlink c h l r).1
        ∧ Unlinked root N e a h v (LinkedTree.unlink c h l r).1 (LinkedTree.unlink c h l r).2 s := by
  have hmem : ((a, ⟨Place.parent c, l.root, r.root, h, v⟩) : Addr × AvlNode V)
      ∈ (node a h v l r).cells (Place.parent c) + Place.cells (some a) c + N := by
    simp [LinkedTree.cells]
  unfold AvlUtil.unlink
  refine load_bind hmem ?_
  dsimp only
  have hone : ∀ t : LinkedTree V, (LinkedTree.unlink c h l r) = (c, t) →
      (node a h v l r).cells (Place.parent c)
        = {(a, ⟨Place.parent c, l.root, r.root, h, v⟩)} + t.cells (some a) →
      Triple (Focus root N e c (node a h v l r))
        (do
          childPlace a t.root (Place.parent c) root
          setParent t.root (Place.parent c)
          return Place.parent c)
        fun q s => q = Place.parent (LinkedTree.unlink c h l r).1
          ∧ Unlinked root N e a h v (LinkedTree.unlink c h l r).1
            (LinkedTree.unlink c h l r).2 s := by
    intro t hunlink hcells
    rw [hunlink]
    refine Triple.perm ?_ (place_bind ⟨Place.parent c, l.root, r.root, h, v⟩ (some a)
      (triple_pure fun s hs => ⟨rfl, _, rfl, rfl, hs⟩))
    rw [hcells, root_node]
    abel
  cases l with
  | nil =>
    refine hone r rfl ?_
    rw [LinkedTree.cells, cells_nil]
    abel
  | node b hb vb lb rb =>
    cases r with
    | nil =>
      refine hone (node b hb vb lb rb) rfl ?_
      rw [LinkedTree.cells, cells_nil]
      abel
    | node b' hb' vb' lb' rb' => exact replace_spec rfl rfl rfl

/-- **`_Erase` does what `eraseAt` says.** -/
theorem erase_spec {l r : LinkedTree V} :
    Triple (Focus root N e c (node a h v l r)) (AvlUtil.erase a root)
      fun _ s => Unlinked root N e a h v [] (eraseAt c (node a h v l r)) s := by
  refine Triple.bind unlink_spec fun q => ?_
  refine Triple.of_pre (C := q = _) (fun hq => ?_) fun s hs => hs.1
  subst hq
  rw [eraseAt]
  refine Triple.pre (P := fun s => ∃ n : AvlNode V, (n.value = v ∧ n.height = h)
    ∧ Focus root ({(a, n)} + N) e (LinkedTree.unlink c h l r).1 (LinkedTree.unlink c h l r).2 s)
    (Triple.exists_pre fun n => Triple.of_pre (fun hn => ?_) fun s hs => hs.1) fun s hs => ?_
  · refine Triple.pre (P := Focus root ({(a, n)} + N) e (LinkedTree.unlink c h l r).1
      (LinkedTree.unlink c h l r).2) ?_ fun s hs => hs.2
    refine Triple.of_pre (fun hcard => ?_) fun s hs => hs.card_le
    refine bound_bind ((eraseFixup_spec ?_).post fun _ s hs => ⟨n, hn.1, hn.2, hs⟩)
    have hlength := Place.length_le_card (LinkedTree.unlink c h l r).2.root
      (LinkedTree.unlink c h l r).1
    rw [Multiset.card_add, Multiset.card_add] at hcard
    omega
  · obtain ⟨n, hv, hh, hfocus⟩ := hs.2
    exact ⟨n, ⟨hv, hh⟩, hfocus⟩

end

end Mmkvc
