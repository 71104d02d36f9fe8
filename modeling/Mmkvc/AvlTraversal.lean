/-
# Ways through a tree

The successor and the predecessor of a node, found by the links, are its neighbours
among the entries in order.  So iterators meet the entries one after the other, and the
stack of `DoInAll` holds the nodes whose left subtree is being worked on.
-/
import Mmkvc.AvlRuns

namespace Mmkvc

open AvlM AvlUtil AvlTreeBase LinkedTree

variable {ι K V : Type} [DecidableEq ι]

/-! ## The entries in a direction -/

namespace LinkedTree

/-- The entries, in the direction `d`. -/
def toward (d : Dir) (t : LinkedTree V) : List (Addr × V) :=
  match d with
  | .left => t.inorder.reverse
  | .right => t.inorder

variable {d : Dir} {a : Addr} {h : ℕ} {v : V} {t near far : LinkedTree V}

@[simp] theorem toward_nil : (nil : LinkedTree V).toward d = [] := by
  cases d <;> rfl

theorem toward_join : (join d.opp a h v near far).toward d
    = near.toward d ++ (a, v) :: far.toward d := by
  cases d <;> simp [toward, join, Dir.opp]

@[simp] theorem length_toward : (t.toward d).length = t.inorder.length := by
  cases d <;> simp [toward]

theorem length_join (e : Dir) : (join e a h v near far).inorder.length
    = near.inorder.length + far.inorder.length + 1 := by
  cases e <;> simp [join] <;> omega

/-- A tree is built from its subtrees on the one side and on the other. -/
theorem join_induction {motive : LinkedTree V → Prop} (d : Dir) (hnil : motive nil)
    (hjoin : ∀ a h v near far, motive near → motive far → motive (join d a h v near far))
    (t : LinkedTree V) : motive t := by
  induction t with
  | nil => exact hnil
  | node a h v l r ihl ihr =>
    cases d with
    | left => exact hjoin a h v l r ihl ihr
    | right => exact hjoin a h v r l ihr ihl

end LinkedTree

namespace Place

/-- The entries behind the place in the direction `d`, the nearest first. -/
def beyond (d : Dir) (c : Place V) : List (Addr × V) :=
  match d with
  | .left => (before c).reverse
  | .right => after c

variable {d : Dir} {f : Frame V} {c : Place V}

@[simp] theorem beyond_nil : beyond d ([] : Place V) = [] := by
  cases d <;> rfl

/-- The node above a place is behind it if the place is on the side that comes first. -/
theorem beyond_opp (hd : f.dir = d.opp) :
    beyond d (f :: c) = (f.addr, f.value) :: f.other.toward d ++ beyond d c := by
  cases d <;> simp [Dir.opp] at hd <;> simp [beyond, before, after, toward, hd]

theorem beyond_same (hd : f.dir = d) : beyond d (f :: c) = beyond d c := by
  subst hd
  cases hd : f.dir <;> simp [beyond, before, after, hd]

end Place

theorem Dir.eq_or_opp (d e : Dir) : e = d.opp ∨ e = d := by
  cases d <;> cases e <;> simp [Dir.opp]

/-- Every entry has a place, with the entries behind it. -/
theorem exists_place_of_toward {d : Dir} {t : LinkedTree V} {pre post : List (Addr × V)}
    {a : Addr} {v : V} (c : Place V) (ht : t.toward d = pre ++ (a, v) :: post) :
    ∃ c' h near far, Place.plug c t = Place.plug c' (join d.opp a h v near far)
      ∧ far.toward d ++ Place.beyond d c' = post ++ Place.beyond d c := by
  induction t using join_induction d.opp generalizing c pre post with
  | hnil =>
    rw [toward_nil] at ht
    exact absurd ht.symm (by simp)
  | hjoin b h w near far ihnear ihfar =>
    rw [toward_join] at ht
    rcases List.append_eq_append_iff.mp ht with ⟨mid, hpre, hmid⟩ | ⟨mid, hnear, hmid⟩
    · -- at the root or behind it
      rcases List.cons_eq_append_iff.mp hmid with ⟨rfl, hcons⟩ | ⟨mid', rfl, hfar⟩
      · obtain ⟨hroot, rfl⟩ := List.cons.inj hcons
        obtain ⟨rfl, rfl⟩ := Prod.mk.inj hroot
        exact ⟨c, h, near, far, rfl, rfl⟩
      · obtain ⟨c', h', near', far', hplug, hrest⟩ := ihfar (⟨d, b, h, w, near⟩ :: c) hfar
        refine ⟨c', h', near', far', ?_, ?_⟩
        · rw [← hplug, Place.plug_cons, Frame.fill]
          exact congrArg (Place.plug c) join_opp
        · rw [hrest, Place.beyond_same (d := d) rfl]
    · -- before the root
      cases mid with
      | nil =>
        rw [List.nil_append] at hmid
        obtain ⟨hroot, rfl⟩ := List.cons.inj hmid
        obtain ⟨rfl, rfl⟩ := Prod.mk.inj hroot
        exact ⟨c, h, near, far, rfl, rfl⟩
      | cons x mid =>
        obtain ⟨rfl, hpost⟩ := List.cons.inj hmid
        obtain ⟨c', h', near', far', hplug, hrest⟩ := ihnear (⟨d.opp, b, h, w, far⟩ :: c) hnear
        refine ⟨c', h', near', far', ?_, ?_⟩
        · rw [← hplug, Place.plug_cons, Frame.fill]
        · rw [hrest, Place.beyond_opp rfl, hpost]
          simp

section

variable {root : ι} {M N : Multiset (Addr × AvlNode V)} {p q : Option Addr} {e : Rest ι}
  {d : Dir} {a : Addr} {h : ℕ} {v : V} {t near far : LinkedTree V} {c : Place V} {fuel : ℕ}

/-! ## Neighbours in memory -/

/-- Far out on the side that comes first is the first entry. -/
theorem outermost_spec (d : Dir) (hroot : t.root = some a) (ht : t.cells q ⊆ M)
    (hfuel : t.inorder.length ≤ fuel) :
    Triple (At root M p e) (outermost d.opp fuel a)
      fun r s => ((t.toward d).head?).map Prod.fst = some r ∧ At root M p e s := by
  induction t using join_induction d.opp generalizing q a fuel with
  | hnil => cases hroot
  | hjoin b h v near far ihnear ihfar =>
    rw [root_join] at hroot
    obtain rfl := Option.some.inj hroot
    rw [length_join] at hfuel
    cases fuel with
    | zero => omega
    | succ fuel =>
      rw [cells_join] at ht
      rw [outermost]
      refine load_bind (n := .ofSides d.opp q near.root far.root h v) (ht (by simp)) ?_
      rw [AvlNode.child_ofSides, toward_join]
      cases hnear : near.root with
      | none =>
        obtain rfl := root_eq_none.mp hnear
        rw [toward_nil]
        exact triple_pure fun s hs => ⟨rfl, hs⟩
      | some b' =>
        have hcells : near.cells (some b) ⊆ M := fun x hx => ht (by simp [hx])
        refine (ihnear hnear hcells (by omega)).post fun r s hs => ?_
        rw [List.head?_append_of_ne_nil]
        · exact hs
        · intro hempty
          rw [hempty] at hs
          cases hs.1

/-- The pointer to a place is not the pointer to the subtree beside it. -/
theorem Focus.other_ne {f : Frame V} {s : AvlHeap ι V} (hs : Focus root N e (f :: c) t s)
    (ht : t.root = some a) : f.other.root ≠ some a := by
  intro hother
  obtain ⟨n, hmem, -, -⟩ := mem_cells_of_root (p := Place.parent (f :: c)) ht
  obtain ⟨n', hmem', -, -⟩ := mem_cells_of_root (p := some f.addr) hother
  have hsat := hs.sat
  rw [Place.cells, show ∀ A B C D F : Multiset (Addr × AvlNode V),
    A + (B + C + D) + F = A + (C + (B + D + F)) from fun A B C D F => by abel] at hsat
  exact hsat.ne_of_mem hmem (Multiset.mem_add.mpr (Or.inl hmem')) rfl

/-- Up from a subtree to the nearest entry behind it. -/
theorem climb_spec (ht : t.root = some a) (hfuel : c.length < fuel) :
    Triple (Focus root N e c t) (climb d.opp fuel a)
      fun r s => r = ((Place.beyond d c).head?).map Prod.fst ∧ Focus root N e c t s := by
  induction c generalizing t a fuel with
  | nil =>
    cases fuel with
    | zero => exact absurd hfuel (Nat.not_lt_zero _)
    | succ fuel =>
      obtain ⟨n, hmem, hparent, -⟩ := mem_cells_of_root (p := none) ht
      rw [climb]
      refine load_bind (n := n) (by simp [hmem]) ?_
      rw [hparent, Place.beyond_nil]
      exact triple_pure fun s hs => ⟨rfl, hs⟩
  | cons f c ih =>
    cases fuel with
    | zero => exact absurd hfuel (Nat.not_lt_zero _)
    | succ fuel =>
      rw [List.length_cons] at hfuel
      obtain ⟨n, hmem, hparent, -⟩ := mem_cells_of_root (p := some f.addr) ht
      refine Triple.of_pre (C := f.other.root ≠ some a) (fun hother => ?_) fun s hs => hs.other_ne ht
      rw [climb]
      refine load_bind (n := n) (by simp [hmem]) ?_
      rw [hparent]
      refine load_bind (n := (f.cell (Place.parent c) t.root).2) (by simp [Place.cells, Frame.cell]) ?_
      rcases Dir.eq_or_opp d f.dir with hd | hd
      · rw [Frame.cell, hd, AvlNode.child_ofSides, if_pos ht, Place.beyond_opp hd]
        exact triple_pure fun s hs => ⟨rfl, hs⟩
      · have hup := @ih f.addr (f.fill t) fuel root_join (Nat.lt_of_succ_lt_succ hfuel)
        rw [← focus_cons] at hup
        rw [Frame.cell, hd, AvlNode.child_opp_ofSides, if_neg hother, Place.beyond_same hd]
        exact hup

/-- **The next node of a node at a place.** -/
theorem getNeighbour_place :
    Triple (Focus root N e c (join d.opp a h v near far)) (getNeighbour d (some a))
      fun r s => r = ((far.toward d ++ Place.beyond d c).head?).map Prod.fst
        ∧ Focus root N e c (join d.opp a h v near far) s := by
  refine Triple.of_pre (fun hlength => ?_) fun s hs => length_le_of_focus hs
  rw [length_join] at hlength
  refine load_bind (n := .ofSides d.opp (Place.parent c) near.root far.root h v)
    (by simp [cells_join]) ?_
  have hchild : (AvlNode.ofSides d.opp (Place.parent c) near.root far.root h v).child d = far.root := by
    have hopp : (AvlNode.ofSides d.opp (Place.parent c) near.root far.root h v).child d.opp.opp
        = far.root := AvlNode.child_opp_ofSides
    rwa [Dir.opp_opp] at hopp
  rw [hchild]
  cases hfar : far.root with
  | none =>
    obtain rfl := root_eq_none.mp hfar
    rw [toward_nil, List.nil_append]
    exact bound_bind (climb_spec root_join (by omega))
  | some b =>
    refine bound_bind (Triple.bind (outermost_spec (q := some a) d hfar
      (fun x hx => by simp [cells_join, hx]) (by omega)) fun r => triple_pure fun s hs =>
        ⟨?_, hs.2⟩)
    rw [List.head?_append_of_ne_nil]
    · exact hs.1.symm
    · intro hempty
      rw [hempty] at hs
      cases hs.1

/-- **The next node is the next entry.** -/
theorem getNeighbour_spec {pre post : List (Addr × V)} (ht : t.toward d = pre ++ (a, v) :: post) :
    Triple (Focus root N e [] t) (getNeighbour d (some a))
      fun r s => r = post.head?.map Prod.fst ∧ Focus root N e [] t s := by
  obtain ⟨c, h, near, far, hplug, hrest⟩ := exists_place_of_toward [] ht
  rw [Place.plug_nil] at hplug
  rw [Place.beyond_nil, List.append_nil] at hrest
  rw [hplug, ← focus_plug, ← hrest]
  exact getNeighbour_place

/-- The first node in a direction. -/
theorem getEdgeNode_spec : Triple (Focus root N e [] t) (getEdgeNode d.opp t.root)
    fun r s => r = ((t.toward d).head?).map Prod.fst ∧ Focus root N e [] t s := by
  cases ht : t.root with
  | none =>
    obtain rfl := root_eq_none.mp ht
    rw [toward_nil]
    exact triple_pure fun s hs => ⟨rfl, hs⟩
  | some a =>
    refine Triple.of_pre (fun hlength => ?_) fun s hs => length_le_of_focus hs
    refine bound_bind (Triple.bind (outermost_spec (q := none) d ht (fun x hx => by simp [hx])
      (by omega)) fun r => triple_pure fun s hs => ⟨hs.1.symm, hs.2⟩)

/-! ## Iteration -/

/-- No address is used twice in a tree. -/
theorem nodup_of_focus {s : AvlHeap ι V} (hs : Focus root N e [] t s) :
    (t.inorder.map Prod.fst).Nodup := by
  have hnodup := hs.sat.nodup
  rw [Multiset.map_add, Multiset.map_add, Multiset.nodup_add, Multiset.nodup_add] at hnodup
  rw [← Multiset.coe_nodup, ← LinkedTree.cells_map_fst t none]
  exact hnodup.1.1

/-- No node is passed twice. -/
theorem nodup_toward {s : AvlHeap ι V} (hs : Focus root N e [] t s) :
    ((t.toward d).map Prod.fst).Nodup := by
  cases d with
  | left =>
    rw [toward, List.map_reverse, List.nodup_reverse]
    exact nodup_of_focus hs
  | right => exact nodup_of_focus hs

/-- **Iterators meet the entries in order**, from any of them up to another. -/
theorem visit_spec {pre mid post : List (Addr × V)} (ht : t.toward d = pre ++ (mid ++ post))
    (hfuel : mid.length ≤ fuel) :
    Triple (Focus root N e [] t)
      (visit d (post.head?.map Prod.fst) fuel ((mid ++ post).head?.map Prod.fst))
      fun r s => r = mid.map Prod.fst ∧ Focus root N e [] t s := by
  induction mid generalizing pre fuel with
  | nil =>
    have hstop : (visit d (post.head?.map Prod.fst) fuel (([] ++ post).head?.map Prod.fst) :
        AvlM ι V (List Addr)) = return [] := by
      rw [List.nil_append]
      cases fuel <;> exact if_pos rfl
    rw [hstop]
    exact triple_pure fun s hs => ⟨rfl, hs⟩
  | cons x mid ih =>
    cases fuel with
    | zero => exact absurd hfuel (Nat.not_succ_le_zero _)
    | succ fuel =>
      refine Triple.of_pre (C := some x.1 ≠ post.head?.map Prod.fst) (fun hne => ?_) fun s hs => ?_
      · change Triple _ (visit d _ (fuel + 1) (some x.1)) _
        rw [visit, if_neg hne]
        refine deref_bind rfl (Triple.bind_eq (getNeighbour_spec ht) ?_)
        have hrest := @ih fuel (pre ++ [x]) (by rw [ht]; simp) (Nat.le_of_succ_le_succ hfuel)
        refine Triple.bind_eq hrest (triple_pure fun s hs => ⟨rfl, hs⟩)
      · have hnodup := nodup_toward (d := d) hs
        rw [ht] at hnodup
        cases post with
        | nil => nofun
        | cons y post =>
          intro heq
          rw [List.head?_cons, Option.map_some, Option.some.injEq] at heq
          simp [heq, List.nodup_append] at hnodup

/-- From the first node on, all nodes are visited. -/
theorem visit_all_spec :
    Triple (Focus root N e [] t) (visit d none (e.next + 1) ((t.toward d).head?.map Prod.fst))
      fun r s => r = (t.toward d).map Prod.fst ∧ Focus root N e [] t s := by
  refine Triple.of_pre (fun hlength => ?_) fun s hs => length_le_of_focus hs
  have hall : t.toward d = [] ++ (t.toward d ++ []) := by simp
  have hspec : Triple (Focus root N e [] t) (visit d none (e.next + 1) _) _ :=
    visit_spec hall (by rw [length_toward]; omega)
  rwa [List.append_nil] at hspec

theorem visitForward_spec : Triple (Focus root N e [] t) (visitForward root)
    fun r s => r = t.inorder.map Prod.fst ∧ Focus root N e [] t s :=
  getRoot_bind (Triple.bind_eq (getEdgeNode_spec (d := .right)) (bound_bind visit_all_spec))

/-- Backward the nodes are visited in the reverse order. -/
theorem visitBackward_spec : Triple (Focus root N e [] t) (visitBackward root)
    fun r s => r = (t.inorder.map Prod.fst).reverse ∧ Focus root N e [] t s := by
  refine bound_bind (getRoot_bind (Triple.bind_eq (getEdgeNode_spec (d := .left)) ?_))
  refine visit_all_spec.post fun r s hs => ⟨?_, hs.2⟩
  rw [hs.1, toward, List.map_reverse]

/-! ## The stack of `DoInAll` -/

/-- The nodes above a place that have it in their left subtree, the lowest first. -/
def lefts (c : Place V) : List Addr := (c.filter fun f => f.dir = .left).map Frame.addr

/-- Down to the left from a subtree. -/
def leftEnd : Place V → LinkedTree V → Place V
  | c, nil => c
  | c, node a h v l r => leftEnd (⟨.left, a, h, v, r⟩ :: c) l

theorem plug_leftEnd : Place.plug (leftEnd c t) nil = Place.plug c t := by
  induction t generalizing c with
  | nil => rfl
  | node a h v l r ihl ihr => exact ihl

/-- All of the subtree is to the right of its left end. -/
theorem after_leftEnd : Place.after (leftEnd c t) = t.inorder ++ Place.after c := by
  induction t generalizing c with
  | nil => rfl
  | node a h v l r ihl ihr =>
    rw [leftEnd, ihl, Place.after, inorder_node]
    simp

/-- The top of the stack is the next entry, and its right subtree comes after it. -/
theorem exists_next_of_after {x : Addr × V} {rest : List (Addr × V)}
    (hafter : Place.after c = x :: rest) :
    ∃ c' h l r, Place.plug c t = Place.plug c' (node x.1 h x.2 l r)
      ∧ lefts c = x.1 :: lefts c' ∧ r.inorder ++ Place.after c' = rest := by
  induction c generalizing t with
  | nil => cases hafter
  | cons f c ih =>
    cases hd : f.dir with
    | left =>
      rw [Place.after, hd] at hafter
      obtain ⟨rfl, hrest⟩ := List.cons.inj hafter
      refine ⟨c, f.height, t, f.other, ?_, by simp [lefts, hd], hrest⟩
      rw [Place.plug_cons, Frame.fill, hd]
      rfl
    | right =>
      rw [Place.after, hd] at hafter
      obtain ⟨c', h, l, r, hplug, hlefts, hrest⟩ := ih (t := f.fill t) hafter
      exact ⟨c', h, l, r, hplug, by rw [← hlefts]; simp [lefts, hd], hrest⟩

/-- If nothing is to the right of the place, it is in no left subtree. -/
theorem lefts_eq_nil (hafter : Place.after c = []) : lefts c = [] := by
  induction c with
  | nil => rfl
  | cons f c ih =>
    rw [Place.after] at hafter
    cases hd : f.dir with
    | left =>
      rw [hd] at hafter
      cases hafter
    | right =>
      rw [hd] at hafter
      rw [← ih hafter]
      simp [lefts, hd]

/-- The nodes on the way down to the left are pushed on the stack. -/
theorem pushLefts_spec (hfuel : t.inorder.length ≤ fuel) :
    Triple (Focus root N e c t) (pushLefts fuel t.root (lefts c))
      fun r s => r = lefts (leftEnd c t) ∧ Focus root N e c t s := by
  induction t generalizing c fuel with
  | nil => cases fuel <;> exact triple_pure fun s hs => ⟨rfl, hs⟩
  | node a h v l r ihl ihr =>
    rw [inorder_node, List.length_append, List.length_cons] at hfuel
    cases fuel with
    | zero => exact absurd hfuel (by omega)
    | succ fuel =>
      have hleft := @ihl (⟨.left, a, h, v, r⟩ :: c) fuel (by omega)
      rw [focus_cons] at hleft
      exact load_bind (n := ⟨Place.parent c, l.root, r.root, h, v⟩) (by simp [LinkedTree.cells]) hleft

/-- **`DoInAll` applies the callback to what is left**: the subtree and what comes after it. -/
theorem doInAllLoop_spec {β : Type} {cb : V → β → β} {acc : β} {rest : List (Addr × V)}
    (hrest : t.inorder ++ Place.after c = rest) (hfuel : rest.length < fuel) :
    Triple (Focus root N e c t) (doInAllLoop cb fuel t.root (lefts c) acc)
      fun r s => r = rest.foldl (fun acc x => cb x.2 acc) acc
        ∧ Focus root N e [] (Place.plug c t) s := by
  -- by the entries that are left to be visited
  induction rest generalizing c t acc fuel with
  | nil =>
    obtain ⟨ht, hafter⟩ := List.append_eq_nil_iff.mp hrest
    cases t with
    | node a h v l r =>
      rw [inorder_node] at ht
      exact absurd ht (by simp)
    | nil =>
      cases fuel with
      | zero => exact absurd hfuel (Nat.not_lt_zero _)
      | succ fuel =>
        rw [doInAllLoop, if_pos ⟨rfl, lefts_eq_nil hafter⟩, focus_plug]
        exact triple_pure fun s hs => ⟨rfl, hs⟩
  | cons x rest ih =>
    cases fuel with
    | zero => exact absurd hfuel (Nat.not_lt_zero _)
    | succ fuel =>
      rw [← after_leftEnd] at hrest
      obtain ⟨c', h, l, r, hplug, hlefts, hrest'⟩ := exists_next_of_after (t := nil) hrest
      rw [plug_leftEnd] at hplug
      have hne : ¬ (t.root = none ∧ lefts c = []) := by
        rintro ⟨hroot, hstack⟩
        obtain rfl := root_eq_none.mp hroot
        rw [leftEnd, hstack] at hlefts
        cases hlefts
      have hnext := @ih r (⟨.right, x.1, h, x.2, l⟩ :: c') fuel (cb x.2 acc) hrest'
        (Nat.lt_of_succ_lt_succ hfuel)
      rw [focus_cons] at hnext
      refine Triple.of_pre (fun hlength => ?_) fun s hs => length_le_of_focus hs
      rw [doInAllLoop, if_neg hne]
      refine bound_bind (Triple.bind_eq (pushLefts_spec (by omega)) ?_)
      rw [hlefts]
      have hfocus : Focus root N e c t = Focus root N e c' (node x.1 h x.2 l r) := by
        rw [focus_plug, hplug, ← focus_plug]
      rw [hfocus, hplug]
      refine load_bind (n := ⟨Place.parent c', l.root, r.root, h, x.2⟩) (by simp [LinkedTree.cells]) ?_
      exact hnext

/-- **`DoInAll` applies the callback to the entries in order.** -/
theorem doInAll_spec {β : Type} {cb : V → β → β} {acc : β} :
    Triple (Focus root N e [] t) (doInAll root cb acc)
      fun r s => r = t.inorder.foldl (fun acc x => cb x.2 acc) acc ∧ Focus root N e [] t s := by
  refine Triple.of_pre (fun hlength => ?_) fun s hs => length_le_of_focus hs
  exact bound_bind (getRoot_bind (doInAllLoop_spec (c := []) (by simp [Place.after]) (by omega)))

/-! ## Bounds -/

variable {T : AvlTraits K V} {isBehind : ℤ → Bool} {key : K}

/-- Behind an entry that is not before the bound there are no others. -/
def Upward (T : AvlTraits K V) (isBehind : ℤ → Bool) (key : K) (es : List (Addr × V)) : Prop :=
  es.Pairwise fun x y => isBehind (T.cmp (T.gk x.2) key) → isBehind (T.cmp (T.gk y.2) key)

/-- **The search for a bound** ends with the first entry that is not before it, or with the
entry that was kept. -/
theorem boundLoop_spec {track : Option Addr} (hup : Upward T isBehind key t.inorder)
    (ht : t.cells q ⊆ M) (hfuel : t.inorder.length ≤ fuel) :
    Triple (At root M p e) (boundLoop T isBehind key fuel t.root track)
      fun r s => r = ((t.inorder.find? fun x => isBehind (T.cmp (T.gk x.2) key)).map Prod.fst).or
        track ∧ At root M p e s := by
  induction t generalizing q fuel track with
  | nil => cases fuel <;> exact triple_pure fun s hs => ⟨rfl, hs⟩
  | node a h v l r ihl ihr =>
    rw [inorder_node, List.length_append, List.length_cons] at hfuel
    unfold Upward at hup
    rw [inorder_node, List.pairwise_append, List.pairwise_cons] at hup
    obtain ⟨hl, ⟨-, hr⟩, hlv⟩ := hup
    cases fuel with
    | zero => exact absurd hfuel (by omega)
    | succ fuel =>
      rw [root_node, boundLoop]
      refine load_bind (n := ⟨q, l.root, r.root, h, v⟩) (ht (by simp [LinkedTree.cells])) ?_
      rw [inorder_node, List.find?_append]
      refine Triple.ite (fun hv => ?_) fun hv => ?_
      · have hleft := @ihl (some a) fuel (some a) hl
          (Multiset.Subset.trans (left_cells_subset q) ht) (by omega)
        refine hleft.post fun r' s hs => ⟨?_, hs.2⟩
        have hfirst : ((a, v) :: r.inorder).find? (fun x => isBehind (T.cmp (T.gk x.2) key))
            = some (a, v) := List.find?_cons_of_pos hv
        rw [hs.1, hfirst]
        cases l.inorder.find? fun x => isBehind (T.cmp (T.gk x.2) key) <;> rfl
      · have hright := @ihr (some a) fuel track hr
          (Multiset.Subset.trans (right_cells_subset q) ht) (by omega)
        refine hright.post fun r' s hs => ⟨?_, hs.2⟩
        have hnone : (l.inorder.find? fun x => isBehind (T.cmp (T.gk x.2) key)) = none := by
          refine List.find?_eq_none.mpr fun x hx hbehind => hv ?_
          exact hlv x hx (a, v) List.mem_cons_self hbehind
        have hother : ((a, v) :: r.inorder).find? (fun x => isBehind (T.cmp (T.gk x.2) key))
            = r.inorder.find? fun x => isBehind (T.cmp (T.gk x.2) key) := List.find?_cons_of_neg hv
        rw [hs.1, hnone, Option.none_or, hother]

/-- The search for a bound ends with the first entry that is not before it. -/
theorem bound_spec (hup : Upward T isBehind key t.inorder) :
    Triple (Focus root N e [] t) (do boundLoop T isBehind key ((← bound) + 1) (← getRoot root) none)
      fun r s => r = (t.inorder.find? fun x => isBehind (T.cmp (T.gk x.2) key)).map Prod.fst
        ∧ Focus root N e [] t s := by
  refine Triple.of_pre (fun hlength => ?_) fun s hs => length_le_of_focus hs
  have hloop : Triple (Focus root N e [] t) (boundLoop T isBehind key (e.next + 1) t.root none) _ :=
    boundLoop_spec (q := none) hup (fun x hx => by simp [hx]) (by omega)
  refine bound_bind (getRoot_bind (hloop.post fun r s hs => ⟨?_, hs.2⟩))
  rw [hs.1, Option.or_none]

omit [DecidableEq ι] in
/-- Behind an entry that is not less there are no lesser ones. -/
theorem upward_lower (key : K) (hT : LawfulCompare T.cmp) {es : List (Addr × V)}
    (hsorted : es.Pairwise T.le) :
    Upward T (0 ≤ ·) key es := by
  refine hsorted.imp fun {x y} hxy hx => ?_
  rw [decide_eq_true_iff] at hx ⊢
  exact hT.le_swap.mp (hT.trans _ _ _ (hT.le_swap.mpr hx) hxy)

omit [DecidableEq ι] in
/-- Behind an entry that is greater there are only greater ones. -/
theorem upward_upper (key : K) (hT : LawfulCompare T.cmp) {es : List (Addr × V)}
    (hsorted : es.Pairwise T.le) :
    Upward T (0 < ·) key es := by
  refine hsorted.imp fun {x y} hxy hx => ?_
  rw [decide_eq_true_iff] at hx ⊢
  exact (hT.swap _ _).mp (hT.lt_of_lt_of_le ((hT.swap _ _).mpr hx) hxy)

/-- A list whose elements with a property come last. -/
theorem eq_filter_append {α : Type} {test : α → Bool} {l : List α}
    (hup : l.Pairwise fun x y => test x → test y) :
    l = (l.filter fun x => !test x) ++ l.filter test := by
  induction l with
  | nil => rfl
  | cons x l ih =>
    obtain ⟨hx, hl⟩ := List.pairwise_cons.mp hup
    cases htest : test x with
    | false =>
      rw [List.filter_cons_of_pos (by simp [htest]), List.filter_cons_of_neg (by simp [htest]),
        List.cons_append, ← ih hl]
    | true =>
      have hall : ∀ y ∈ l, test y = true := fun y hy => hx y hy htest
      have hnone : (l.filter fun y => !test y) = [] :=
        List.filter_eq_nil_iff.mpr fun y hy => by simp [hall y hy]
      rw [List.filter_cons_of_neg (by simp [htest]), List.filter_cons_of_pos htest, hnone,
        List.filter_eq_self.mpr hall, List.nil_append]

/-- Between the two bounds are the entries with the key. -/
theorem visitRange_bounds_spec (hT : LawfulCompare T.cmp) (hsorted : t.inorder.Pairwise T.le) :
    Triple (Focus root N e [] t)
      (visitRange ((t.inorder.find? fun x => decide (0 ≤ T.cmp (T.gk x.2) key)).map Prod.fst)
        ((t.inorder.find? fun x => decide (0 < T.cmp (T.gk x.2) key)).map Prod.fst))
      fun r s => r = (t.inorder.filter fun x => T.cmp (T.gk x.2) key = 0).map Prod.fst
        ∧ Focus root N e [] t s := by
  have hlower := eq_filter_append (upward_lower key hT hsorted)
  generalize hB : t.inorder.filter (fun x => decide (0 ≤ T.cmp (T.gk x.2) key)) = B at hlower
  have hupper := eq_filter_append
    (upward_upper key hT (hsorted.sublist (hB ▸ List.filter_sublist) : B.Pairwise T.le))
  have hmid : B.filter (fun x => !decide (0 < T.cmp (T.gk x.2) key))
      = t.inorder.filter fun x => T.cmp (T.gk x.2) key = 0 := by
    rw [← hB, List.filter_filter]
    refine List.filter_congr fun x _ => ?_
    rw [← decide_not, ← Bool.decide_and, decide_eq_decide]
    omega
  have hpost : B.filter (fun x => decide (0 < T.cmp (T.gk x.2) key))
      = t.inorder.filter fun x => decide (0 < T.cmp (T.gk x.2) key) := by
    rw [← hB, List.filter_filter]
    refine List.filter_congr fun x _ => ?_
    rw [← Bool.decide_and, decide_eq_decide]
    omega
  rw [hmid, hpost] at hupper
  rw [hupper] at hlower
  refine Triple.of_pre (fun hlength => ?_) fun s hs => length_le_of_focus hs
  have hfilter : (t.inorder.filter fun x => T.cmp (T.gk x.2) key = 0).length ≤ t.inorder.length :=
    List.length_filter_le _ _
  have hvisit : Triple (Focus root N e [] t) (visit .right _ (e.next + 1) _) _ :=
    visit_spec hlower (by omega)
  rw [← hupper, ← hB, List.head?_filter, List.head?_filter] at hvisit
  exact bound_bind hvisit

end

/-! ## Runs -/

section

variable {root : ι} {M : Multiset (Addr × AvlNode V)} {p : Option Addr} {e : Rest ι}
  {s s' : AvlHeap ι V}

/-- There is one memory with given contents. -/
theorem At.unique (h : At root M p e s) (h' : At root M p e s') : s = s' := by
  have hnodes : s.nodes = s'.nodes := by
    funext a
    by_cases ha : a ∈ M.map Prod.fst
    · obtain ⟨x, hx, rfl⟩ := Multiset.mem_map.mp ha
      rw [h.sat.cell x hx, h'.sat.cell x hx]
    · rw [h.sat.rest a ha, h'.sat.rest a ha]
  have hroots := h.roots.trans h'.roots.symm
  have hnext := h.next.trans h'.next.symm
  have hcounts := h.counts.trans h'.counts.symm
  cases s
  cases s'
  rw [AvlHeap.mk.injEq]
  exact ⟨hnodes, hnext, hroots, hcounts⟩

/-- A program that leaves everything as it is. -/
theorem Triple.run_eq {α : Type} {x : AvlM ι V α} {r : α}
    (h : Triple (At root M p e) x fun r' s => r' = r ∧ At root M p e s) (hs : At root M p e s) :
    x.run s = some (r, s) := by
  obtain ⟨r', s', hrun, rfl, hs'⟩ := h s hs
  rw [hs.unique hs']
  rwa [hs.unique hs'] at hrun

end

section

variable {T : AvlTraits K V} {s : AvlHeap Unit V} {t : LinkedTree V} {e : Rest Unit}

/-- Memory holds a tree and nothing beside it. -/
def HoldsTree (s : AvlHeap Unit V) : Prop := ∃ t e, Focus () 0 e [] t s

/-- Each operation leaves a tree, whatever the comparator. -/
theorem avlStep_holdsTree {op : AvlOp K V} (hs : HoldsTree s)
    (hmem : ∀ a, op = .eraseNode a → Member s () a) :
    ∃ s', avlStep T s op = some s' ∧ HoldsTree s' := by
  obtain ⟨t, e, hfocus⟩ := hs
  obtain ⟨s', t', e', hrun, -, hs'⟩ := avlStep_makes (T := T) hfocus hmem
  exact ⟨s', hrun, t', e', hs'⟩

/-- A member is an entry. -/
theorem Member.exists_entry {a : Addr} (hs : Focus () 0 e [] t s) (ha : Member s () a) :
    ∃ v pre post, t.inorder = pre ++ (a, v) :: post := by
  obtain ⟨c, h, v, l, r, rfl⟩ := ha.exists_place hs
  obtain ⟨pre, post, hentries, -⟩ := inorder_plug_eraseAt (c := c) (a := a) (h := h) (v := v) (l := l)
    (r := r)
  exact ⟨v, pre, post, hentries⟩

/-- **The traversals agree.**  After any operations, iterating from the first node gives the
entries in order, each once, iterating back from the last one gives the reverse, the
predecessor of the successor of a node is the node, and `DoInAll` applies its callback to the
entries in the same order. -/
theorem avl_traversals_agree (T : AvlTraits K V) (ops : List (AvlOp K V))
    (hmem : Transition.AllSteps (avlStep T) (fun s op => ∀ a, op = .eraseNode a → Member s () a)
      AvlHeap.empty ops) :
    ∃ s, Transition.run (avlStep T) AvlHeap.empty ops = some s ∧ ∃ t : LinkedTree V,
      s.roots () = t.root ∧ Represents s.nodes none t ∧ (t.inorder.map Prod.fst).Nodup
        ∧ (visitForward ()).run s = some (t.inorder.map Prod.fst, s)
        ∧ (visitBackward ()).run s = some ((t.inorder.map Prod.fst).reverse, s)
        ∧ (∀ a, Member s () a → t.inorder.getLast?.map Prod.fst ≠ some a →
          (do getPrevNode (← getNextNode (some a))).run s = some (some a, s))
        ∧ ∀ (β : Type) (cb : V → β → β) (acc : β), (doInAll () cb acc).run s
          = some (t.inorder.foldl (fun acc x => cb x.2 acc) acc, s) := by
  obtain ⟨s, hrun, t, e, hs⟩ := Transition.exists_run_of_allSteps (I := HoldsTree)
    (fun s op hs hop => avlStep_holdsTree hs hop) ⟨_, _, focus_empty⟩ hmem
  obtain ⟨hroot, hrep⟩ := represents_of_focus hs
  refine ⟨s, hrun, t, hroot, hrep, nodup_of_focus hs, visitForward_spec.run_eq hs,
    visitBackward_spec.run_eq hs, fun a ha hlast => ?_, fun β cb acc => doInAll_spec.run_eq hs⟩
  obtain ⟨v, pre, post, hentries⟩ := ha.exists_entry hs
  cases post with
  | nil =>
    rw [hentries] at hlast
    simp at hlast
  | cons y post =>
    have hback : t.toward .left = post.reverse ++ y :: (a, v) :: pre.reverse := by
      rw [toward, hentries]
      simp
    exact (Triple.bind_eq (getNeighbour_spec (d := .right) hentries)
      (getNeighbour_spec hback)).run_eq hs

/-- A run that leaves four entries with one key, on both sides of each other. -/
def equalRun : List (AvlOp ℤ ℤ) :=
  [.insert 1, .insertEq 2, .insertEq 2, .insert 3, .insertEq 2, .insertEq 2, .erase 1]

theorem avl_traversals_agree_equalRun :
    ∃ s, Transition.run (avlStep intTraits) AvlHeap.empty equalRun = some s ∧ ∃ t : LinkedTree ℤ,
      s.roots () = t.root ∧ Represents s.nodes none t ∧ (t.inorder.map Prod.fst).Nodup
        ∧ (visitForward ()).run s = some (t.inorder.map Prod.fst, s)
        ∧ (visitBackward ()).run s = some ((t.inorder.map Prod.fst).reverse, s)
        ∧ (∀ a, Member s () a → t.inorder.getLast?.map Prod.fst ≠ some a →
          (do getPrevNode (← getNextNode (some a))).run s = some (some a, s))
        ∧ ∀ (β : Type) (cb : ℤ → β → β) (acc : β), (doInAll () cb acc).run s
          = some (t.inorder.foldl (fun acc x => cb x.2 acc) acc, s) :=
  avl_traversals_agree intTraits equalRun (members_of_no_eraseNode (by simp [equalRun]))

/-- **The bounds of a key** are the first entry that is not before it and the first behind it,
and the entries with the key are those from the one up to the other. -/
theorem avl_bounds (hT : LawfulCompare T.cmp) (ops : List (AvlOp K V))
    (hmem : Transition.AllSteps (avlStep T) (fun s op => ∀ a, op = .eraseNode a → Member s () a)
      AvlHeap.empty ops) (key : K) :
    ∃ s, Transition.run (avlStep T) AvlHeap.empty ops = some s ∧ ∃ t : LinkedTree V,
      s.roots () = t.root ∧ Represents s.nodes none t ∧ (t.inorder.map Prod.fst).Nodup
        ∧ (visitForward ()).run s = some (t.inorder.map Prod.fst, s)
        ∧ (lowerBound T () key).run s
          = some ((t.inorder.find? fun x => decide (0 ≤ T.cmp (T.gk x.2) key)).map Prod.fst, s)
        ∧ (upperBound T () key).run s
          = some ((t.inorder.find? fun x => decide (0 < T.cmp (T.gk x.2) key)).map Prod.fst, s)
        ∧ (do visitRange (← lowerBound T () key) (← upperBound T () key)).run s
          = some ((t.inorder.filter fun x => T.cmp (T.gk x.2) key = 0).map Prod.fst, s) := by
  obtain ⟨s, hrun, t, e, hs, -, hle, -⟩ := Transition.exists_run_of_allSteps (I := AvlInv T False)
    (fun s op hs hop => avlStep_spec hT hs hop False.elim) avlInv_empty hmem
  obtain ⟨hroot, hrep⟩ := represents_of_focus hs
  have hlower : Triple (Focus () 0 e [] t) (lowerBound T () key) _ :=
    bound_spec (upward_lower key hT hle)
  have hupper : Triple (Focus () 0 e [] t) (upperBound T () key) _ :=
    bound_spec (upward_upper key hT hle)
  exact ⟨s, hrun, t, hroot, hrep, nodup_of_focus hs, visitForward_spec.run_eq hs, hlower.run_eq hs,
    hupper.run_eq hs,
    (Triple.bind_eq hlower (Triple.bind_eq hupper (visitRange_bounds_spec hT hle))).run_eq hs⟩

theorem avl_bounds_equalRun :
    ∃ s, Transition.run (avlStep intTraits) AvlHeap.empty equalRun = some s ∧ ∃ t : LinkedTree ℤ,
      s.roots () = t.root ∧ Represents s.nodes none t ∧ (t.inorder.map Prod.fst).Nodup
        ∧ (visitForward ()).run s = some (t.inorder.map Prod.fst, s)
        ∧ (lowerBound intTraits () 2).run s
          = some ((t.inorder.find? fun x => decide (0 ≤ x.2 - 2)).map Prod.fst, s)
        ∧ (upperBound intTraits () 2).run s
          = some ((t.inorder.find? fun x => decide (0 < x.2 - 2)).map Prod.fst, s)
        ∧ (do visitRange (← lowerBound intTraits () 2) (← upperBound intTraits () 2)).run s
          = some ((t.inorder.filter fun x => x.2 - 2 = 0).map Prod.fst, s) :=
  avl_bounds lawfulCompare_int equalRun (members_of_no_eraseNode (by simp [equalRun])) 2

end

end Mmkvc
