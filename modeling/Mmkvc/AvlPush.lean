/-
# Pushing a node and inserting its value

`PushWithDuplicate` of a fresh node does what `InsertWithDuplicate` of its value does: the
trees differ in nothing but the address of the new node.  The exception is the tree of one
entry that has the key, where `PushWithDuplicate` reads through a slot that it has not set.
-/
import Mmkvc.AvlRuns

namespace Mmkvc

open AvlM AvlUtil AvlTreeBase LinkedTree

variable {K V : Type}

/-! ## Trees up to addresses -/

namespace LinkedTree

/-- The tree with other addresses. -/
def relabel (f : Addr → Addr) : LinkedTree V → LinkedTree V
  | nil => nil
  | node a h v l r => node (f a) h v (l.relabel f) (r.relabel f)

end LinkedTree

/-- The frame with other addresses. -/
def Frame.relabel (f : Addr → Addr) (g : Frame V) : Frame V :=
  ⟨g.dir, f g.addr, g.height, g.value, g.other.relabel f⟩

namespace LinkedTree

/-- The shape of a tree with its contents and stored heights. -/
def shape (t : LinkedTree V) : LinkedTree V := t.relabel fun _ => 0

variable {f : Addr → Addr} {d : Dir} {a : Addr} {h : ℕ} {v : V} {t near far : LinkedTree V}
  {c : Place V} {T : AvlTraits K V} {key : K}
  {onEq : LinkedTree V → LinkedTree V → Option Dir}

theorem relabel_join : (join d a h v near far).relabel f
    = join d (f a) h v (near.relabel f) (far.relabel f) := by
  cases d <;> rfl

@[simp] theorem height_relabel : (t.relabel f).height = t.height := by
  cases t <;> rfl

theorem root_relabel : (t.relabel f).root = t.root.map f := by
  cases t <;> rfl

theorem relabel_mk : (mk d a v near far).relabel f
    = mk d (f a) v (near.relabel f) (far.relabel f) := by
  rw [mk, relabel_join, mk, height_relabel, height_relabel]

/-- A node is repaired alike under other addresses. -/
theorem relabel_fixupHeavy : (fixupHeavy d a v near far).relabel f
    = fixupHeavy d (f a) v (near.relabel f) (far.relabel f) := by
  induction near using heavy_cases d with
  | hnil => exact relabel_mk
  | hsingle b hb vb outer inner hle =>
    rw [fixupHeavy_single hle, relabel_mk, relabel_mk, relabel_join,
      fixupHeavy_single (by rwa [height_relabel, height_relabel])]
  | hdouble b hb vb outer c hc vc y z hlt =>
    rw [fixupHeavy_double hlt, relabel_mk, relabel_mk, relabel_mk, relabel_join, relabel_join,
      fixupHeavy_double (by rwa [height_relabel])]

/-- A repair, if there is one, is the same under other addresses. -/
theorem relabel_rebalance : (rebalance d a v near far).relabel f
    = rebalance d (f a) v (near.relabel f) (far.relabel f) := by
  unfold rebalance
  rw [height_relabel, height_relabel]
  split_ifs
  · exact relabel_fixupHeavy
  · exact relabel_fixupHeavy
  · exact relabel_mk

/-- A place and the tree in it, under other addresses. -/
theorem relabel_plug : (Place.plug c t).relabel f
    = Place.plug (c.map (Frame.relabel f)) (t.relabel f) := by
  induction c generalizing t with
  | nil => rfl
  | cons g c ih => rw [Place.plug_cons, ih, Frame.fill, relabel_join]; rfl

/-- The fixup of an insertion does not look at addresses. -/
theorem relabel_insertUp : (insertUp c t).relabel f
    = insertUp (c.map (Frame.relabel f)) (t.relabel f) := by
  induction c generalizing t with
  | nil => rfl
  | cons g c ih =>
    have hother : (g.relabel f).other.height = g.other.height := height_relabel
    rw [List.map_cons, insertUp, insertUp, hother, height_relabel]
    change _ = if g.height = _ then _ else _
    split_ifs
    · exact relabel_plug
    · rw [ih, relabel_rebalance]
      rfl

/-- A search that goes by the keys and the heights does not look at addresses. -/
theorem locate_relabel (hEq : ∀ l r, onEq (l.relabel f) (r.relabel f) = onEq l r) :
    locate T key onEq (c.map (Frame.relabel f)) (t.relabel f)
      = ((locate T key onEq c t).1.map (Frame.relabel f), (locate T key onEq c t).2.relabel f) := by
  induction t generalizing c with
  | nil => rfl
  | node a h v l r ihl ihr =>
    have hside : side T key onEq v (l.relabel f) (r.relabel f) = side T key onEq v l r := by
      rw [side, side, hEq]
    rw [relabel, locate, locate, hside]
    rcases side T key onEq v l r with _ | _ | _
    · rfl
    · exact @ihl (⟨.left, a, h, v, r⟩ :: c)
    · exact @ihr (⟨.right, a, h, v, l⟩ :: c)

/-- **An insertion does not look at addresses.** -/
theorem relabel_insertNew {x : Addr} : (insertNew T key x h v t).2.relabel f
    = (insertNew T key (f x) h v (t.relabel f)).2 := by
  cases t with
  | nil => rfl
  | node a h' v' l r =>
    have hleaf : ∀ u : LinkedTree V, (u.relabel f).root = none ↔ u.root = none := by
      intro u
      rw [root_relabel, Option.map_eq_none_iff]
    have hsame : (l.relabel f).root = none ∧ (r.relabel f).root = none
        ↔ l.root = none ∧ r.root = none := and_congr (hleaf l) (hleaf r)
    rw [insertNew, relabel, insertNew]
    by_cases hsingle : l.root = none ∧ r.root = none
    · rw [if_pos hsingle, if_pos (hsame.mpr hsingle)]
      split_ifs <;> rfl
    · rw [if_neg hsingle, if_neg (mt hsame.mp hsingle)]
      have hlocate := @locate_relabel K V f (node a h' v' l r) [] T key stop fun _ _ => rfl
      rw [relabel, List.map_nil] at hlocate
      rw [hlocate]
      generalize locate T key stop [] (node a h' v' l r) = z
      obtain ⟨c, s⟩ := z
      cases s with
      | nil => exact relabel_insertUp
      | node _ _ _ _ _ => rfl

/-- Where the new node is does not matter for the shape. -/
theorem shape_insertNew (x y : Addr) :
    (insertNew T key x h v t).2.shape = (insertNew T key y h v t).2.shape := by
  rw [shape, shape, relabel_insertNew, relabel_insertNew]

/-- What an insertion finds does not depend on where the new node is. -/
theorem insertNew_fst (x y : Addr) : (insertNew T key x h v t).1 = (insertNew T key y h v t).1 := by
  cases t with
  | nil => rfl
  | node a h' v' l r =>
    rw [insertNew, insertNew]
    split_ifs <;> try rfl
    generalize locate T key stop [] (node a h' v' l r) = z
    obtain ⟨c, s⟩ := z
    cases s <;> rfl

end LinkedTree

/-! ## The two insertions side by side -/

/-- The memory with a fresh node at a free address. -/
def AvlHeap.withNode (s : AvlHeap Unit V) (x : Addr) (v : V) : AvlHeap Unit V :=
  { s with
    nodes := Function.update s.nodes x (some ⟨none, none, none, 1, v⟩)
    next := max s.next (x + 1) }

/-- `PushWithDuplicate` of a fresh node `x` with the value and `InsertWithDuplicate` of the value
return the same flag and the corresponding entries, and leave trees of the same shape. -/
def PushAgrees (T : AvlTraits K V) (s : AvlHeap Unit V) (x : Addr) (v : V) : Prop :=
  ∃ flag p q s₁ s₂ t₁ t₂,
    (pushWithDuplicate T () x true).run (s.withNode x v) = some ((flag, some p), s₁)
      ∧ (insertWithDuplicate T () v true).run s = some ((flag, some q), s₂)
      ∧ s₁.roots () = t₁.root ∧ Represents s₁.nodes none t₁
      ∧ s₂.roots () = t₂.root ∧ Represents s₂.nodes none t₂ ∧ t₁.shape = t₂.shape
      ∧ if flag then p = x ∧ s.nodes q = none ∧ (p, v) ∈ t₁.inorder ∧ (q, v) ∈ t₂.inorder
        else p = q ∧ ∃ w, (p, w) ∈ t₁.inorder ∧ (q, w) ∈ t₂.inorder ∧ T.cmp (T.gk w) (T.gk v) = 0

section

variable {T : AvlTraits K V} {s : AvlHeap Unit V} {t : LinkedTree V} {e : Rest Unit} {x : Addr} {v : V}

/-- A fresh node lies beside the tree. -/
theorem focus_withNode (hs : Focus () 0 e [] t s) (hx : s.nodes x = none) :
    Focus () ({(x, ⟨none, none, none, 1, v⟩)} + 0) { e with next := max e.next (x + 1) } [] t
      (s.withNode x v) := by
  refine ⟨?_, hs.roots, ?_, hs.counts, fun a ha => ?_⟩
  · rw [add_zero, add_comm]
    have hsat := hs.sat
    rw [add_zero] at hsat
    exact hsat.alloc hx
  · change max s.next (x + 1) = max e.next (x + 1)
    rw [hs.next]
  · have hle : max e.next (x + 1) ≤ a := ha
    have hne : a ≠ x := by
      rintro rfl
      omega
    exact (Function.update_of_ne hne _ _).trans (hs.fresh a (le_trans (le_max_left _ _) hle))

/-- Memory after an insertion, by the entry it found. -/
theorem represents_of_inserted {M : Multiset (Addr × AvlNode V)} {e' : Rest Unit} {key : K} {h : ℕ}
    (hs : Inserted () M 0 e e' t (insertNew T key x h v t) s) :
    s.roots () = (insertNew T key x h v t).2.root
      ∧ Represents s.nodes none (insertNew T key x h v t).2 := by
  unfold Inserted at hs
  cases hout : (insertNew T key x h v t).1 with
  | none =>
    rw [hout] at hs
    exact represents_of_focus hs
  | some a =>
    rw [hout] at hs
    rw [insertNew_of_some (by rw [hout]; exact Option.some_ne_none a)]
    exact represents_of_focus hs

/-- The one entry of the tree has the key. -/
def OnlyEntryHas (T : AvlTraits K V) (key : K) (t : LinkedTree V) : Prop :=
  ∃ a h w, t = node a h w nil nil ∧ T.cmp key (T.gk w) = 0

/-- `Push` and `Insert` agree, unless the key is that of the only entry. -/
theorem pushAgrees_of_not_only (hT : LawfulCompare T.cmp) (hs : Focus () 0 e [] t s)
    (hsorted : t.inorder.Pairwise T.le) (hx : s.nodes x = none)
    (honly : ¬ OnlyEntryHas T (T.gk v) t) : PushAgrees T s x v := by
  obtain ⟨r₁, s₁, hrun₁, rfl, hs₁⟩ := pushWithDuplicate_spec (T := T) (n := ⟨none, none, none, 1, v⟩)
    ⟨rfl, rfl, rfl⟩ (fun _ a h w ht heq => honly ⟨a, h, w, ht, heq⟩) _ (focus_withNode hs hx)
  obtain ⟨r₂, s₂, hrun₂, rfl, hs₂⟩ := insertWithDuplicate_spec (T := T) (v := v) s hs
  obtain ⟨hroot₁, hrep₁⟩ := represents_of_inserted hs₁
  obtain ⟨hroot₂, hrep₂⟩ := represents_of_inserted hs₂
  have hfst : (insertNew T (T.gk v) x 1 v t).1 = (insertNew T (T.gk v) e.next 1 v t).1 :=
    insertNew_fst x e.next
  dsimp only at hrun₁ hroot₁ hrep₁
  rw [hfst] at hrun₁
  refine ⟨_, _, _, s₁, s₂, _, _, hrun₁, hrun₂, hroot₁, hrep₁, hroot₂, hrep₂, shape_insertNew x e.next,
    ?_⟩
  have hentry : ∀ y, (insertNew T (T.gk v) y 1 v t).1 = none →
      (y, v) ∈ (insertNew T (T.gk v) y 1 v t).2.inorder := by
    intro y hy
    rcases insertNew_outcome hT hsorted y 1 v with ⟨-, L, R, -, hentries, -⟩ | ⟨a, w, hsome, -⟩
    · rw [hentries]
      simp
    · rw [hsome] at hy
      cases hy
  cases hout : (insertNew T (T.gk v) e.next 1 v t).1 with
  | none => exact ⟨rfl, hs.fresh _ le_rfl, hentry x (hfst.trans hout), hentry e.next hout⟩
  | some a =>
    rcases insertNew_outcome hT hsorted e.next 1 v with ⟨hnone, -⟩ | ⟨b, w, hsome, hmem, hkey⟩
    · rw [hnone] at hout
      cases hout
    · rw [hsome] at hout
      obtain rfl := Option.some.inj hout
      refine ⟨rfl, w, ?_, ?_, hkey⟩
      · rw [insertNew_of_some (by rw [hfst, hsome]; exact Option.some_ne_none b)]
        exact hmem
      · rw [hsome]
        exact hmem

/-- For the key of the only entry `PushWithDuplicate` reads through a null slot. -/
theorem pushWithDuplicate_only {a : Addr} {h : ℕ} {w : V} {n : AvlNode V}
    {N : Multiset (Addr × AvlNode V)} (hs : Focus () ({(x, n)} + N) e [] (node a h w nil nil) s)
    (heq : T.cmp (T.gk n.value) (T.gk w) = 0) : (pushWithDuplicate T () x true).run s = none := by
  obtain ⟨hroot, hcell, -⟩ := represents_of_focus hs
  have hnode : (load x).run s = some (n, s) := by
    change (s.nodes x).map _ = _
    rw [hs.sat.cell (x, n) (by simp)]
    rfl
  have htop : (load a).run s = some (⟨none, none, none, h, w⟩, s) := by
    change (s.nodes a).map _ = _
    rw [hcell]
    rfl
  have hget : (getRoot ()).run s = some (some a, s) := congrArg (fun p => some (p, s)) hroot
  simp only [pushWithDuplicate, insertNode, StateT.run_bind, hnode, hget, htop, heq, lt_irrefl,
    Option.bind_eq_bind, Option.bind_some, and_self, if_true, if_false]
  rfl

/-- **Pushing a node agrees with inserting its value**, in a tree reached by any operations, if
and only if the tree is not one of a single entry with the key. -/
theorem avl_push_agrees_iff (hT : LawfulCompare T.cmp) (ops : List (AvlOp K V))
    (hmem : Transition.AllSteps (avlStep T) (fun s op => ∀ a, op = .eraseNode a → Member s () a)
      AvlHeap.empty ops) :
    ∃ s, Transition.run (avlStep T) AvlHeap.empty ops = some s ∧ ∃ t : LinkedTree V,
      s.roots () = t.root ∧ Represents s.nodes none t
        ∧ ∀ v x, s.nodes x = none → (PushAgrees T s x v ↔ ¬ OnlyEntryHas T (T.gk v) t) := by
  obtain ⟨s, hrun, t, e, hs, -, hle, -⟩ := Transition.exists_run_of_allSteps (I := AvlInv T False)
    (fun s op hs hop => avlStep_spec hT hs hop False.elim) avlInv_empty hmem
  obtain ⟨hroot, hrep⟩ := represents_of_focus hs
  refine ⟨s, hrun, t, hroot, hrep, fun v x hx => ⟨?_, pushAgrees_of_not_only hT hs hle hx⟩⟩
  rintro ⟨flag, p, q, s₁, s₂, t₁, t₂, hpush, -⟩ ⟨a, h, w, rfl, heq⟩
  rw [pushWithDuplicate_only (focus_withNode hs hx) heq] at hpush
  cases hpush

end

theorem avl_push_agrees_iff_removal :
    ∃ s, Transition.run (avlStep intTraits) AvlHeap.empty [.insert 2, .insert 1, .erase 2] = some s
      ∧ ∃ t : LinkedTree ℤ, s.roots () = t.root ∧ Represents s.nodes none t
        ∧ ∀ v x, s.nodes x = none → (PushAgrees intTraits s x v ↔ ¬ OnlyEntryHas intTraits v t) :=
  avl_push_agrees_iff lawfulCompare_int [.insert 2, .insert 1, .erase 2]
    (members_of_no_eraseNode (by simp))

/-- A node with the value of the only entry is pushed. -/
theorem pushWithDuplicate_reads_null : ∃ s,
    Transition.run (avlStep intTraits) AvlHeap.empty [.insert 7] = some s ∧ s.nodes 1 = none
      ∧ (pushWithDuplicate intTraits () 1 true).run (s.withNode 1 7) = none := by
  have hcalc : (Transition.run (avlStep intTraits) AvlHeap.empty [.insert 7]).map (fun s =>
      (s.nodes 1).isNone && ((pushWithDuplicate intTraits () 1 true).run (s.withNode 1 7)).isNone)
      = some true := by
    decide +kernel
  obtain ⟨s, hs, hcalc⟩ := Option.map_eq_some_iff.mp hcalc
  obtain ⟨hfree, hstuck⟩ := (Bool.and_eq_true _ _).mp hcalc
  exact ⟨s, hs, Option.isNone_iff_eq_none.mp hfree, Option.isNone_iff_eq_none.mp hstuck⟩

end Mmkvc
