/-
# What the functions of `avl_util.h` do to a tree

The rebalancing of `AvlUtil` again, on trees in place of memory.  It looks at stored
heights only, whatever they are: the entries stay as they are, from left to right,
and no rotation misses a child.  Where the stored heights are the true ones, the
loops restore the balance.
-/
import Mmkvc.LinkedTree

namespace Mmkvc

open LinkedTree

variable {V : Type}

/-- `_Max` is the maximum. -/
theorem AvlUtil.avlMax_eq_max (x y : ℕ) : avlMax x y = max x y := by
  unfold avlMax
  split_ifs with h
  · exact (max_eq_right h.le).symm
  · exact (max_eq_left (not_lt.mp h)).symm

namespace LinkedTree

/-- A node whose height has been updated. -/
def mk (d : Dir) (a : Addr) (v : V) (near far : LinkedTree V) : LinkedTree V :=
  join d a (max near.height far.height + 1) v near far

/-- The repair of a node whose child on the side `d` is too high. -/
def fixupHeavy (d : Dir) (a : Addr) (v : V) (near far : LinkedTree V) : LinkedTree V :=
  match near with
  | nil => mk d a v nil far
  | node b _ vb l r =>
    let outer := d.pick l r
    match d.opp.pick l r with
    | nil => mk d b vb outer (mk d a v nil far)
    | node c hc vc l' r' =>
      if outer.height < hc then
        mk d c vc (mk d b vb outer (d.pick l' r')) (mk d a v (d.opp.pick l' r') far)
      else mk d b vb outer (mk d a v (node c hc vc l' r') far)

/-- The repair of a node, if it needs one. -/
def rebalance (d : Dir) (a : Addr) (v : V) (near far : LinkedTree V) : LinkedTree V :=
  if far.height + 2 ≤ near.height then fixupHeavy d a v near far
  else if near.height + 2 ≤ far.height then fixupHeavy d.opp a v far near
  else mk d a v near far

/-- `_InsertFixup` from the node above a place. -/
def insertUp : Place V → LinkedTree V → LinkedTree V
  | [], t => t
  | f :: c, t =>
    if f.height = max t.height f.other.height + 1 then Place.plug (f :: c) t
    else insertUp c (rebalance f.dir f.addr f.value t f.other)

/-- `_EraseFixup` from the node above a place. -/
def eraseUp : Place V → LinkedTree V → LinkedTree V
  | [], t => t
  | f :: c, t =>
    if f.height = max t.height f.other.height + 1
        ∧ t.height ≤ f.other.height + 1 ∧ f.other.height ≤ t.height + 1 then
      Place.plug (f :: c) t
    else eraseUp c (rebalance f.dir f.addr f.value t f.other)

/-- The minimum of a tree: its place, its node and the right subtree of the node. -/
structure Minimum (V : Type) where
  place : Place V
  addr : Addr
  height : ℕ
  value : V
  right : LinkedTree V

/-- The way to the minimum of a node's tree below the place `p`. -/
def minimum (a : Addr) (h : ℕ) (v : V) (l r : LinkedTree V) (p : Place V) : Minimum V :=
  match l with
  | nil => ⟨p, a, h, v, r⟩
  | node a' h' v' l' r' => minimum a' h' v' l' r' (⟨.left, a, h, v, r⟩ :: p)

/-- What `_Erase` leaves of a node with the subtrees `l` and `r`: the place and the subtree
from which `_EraseFixup` goes up.  The minimum on the right takes the place of the node. -/
def unlink (c : Place V) (h : ℕ) (l r : LinkedTree V) : Place V × LinkedTree V :=
  match l, r with
  | nil, r => (c, r)
  | l, nil => (c, l)
  | l, node a' h' v' l' r' =>
    let m := minimum a' h' v' l' r' []
    (m.place ++ ⟨.right, m.addr, h, m.value, l⟩ :: c, m.right)

/-- `_Erase` of the root of a tree at a place. -/
def eraseAt (c : Place V) : LinkedTree V → LinkedTree V
  | nil => Place.plug c nil
  | node _ h _ l r => eraseUp (unlink c h l r).1 (unlink c h l r).2

/-! ## Entries -/

section

variable {d : Dir} {a : Addr} {h : ℕ} {v : V} {near far t l r : LinkedTree V} {c : Place V}

/-- The entries of a node whose left subtree is on the side `d`. -/
theorem inorder_join : (join d a h v near far).inorder
    = (d.pick near far).inorder ++ (a, v) :: (d.pick far near).inorder := by
  cases d <;> rfl

/-- The repair by one rotation. -/
theorem fixupHeavy_single {b : Addr} {hb : ℕ} {vb : V} {outer inner : LinkedTree V}
    (hle : ¬ outer.height < inner.height) :
    fixupHeavy d a v (join d b hb vb outer inner) far = mk d b vb outer (mk d a v inner far) := by
  cases inner with
  | nil => cases d <;> rfl
  | node c hc vc l r =>
    rw [height_node] at hle
    cases d <;> simp [fixupHeavy, join, Dir.pick, Dir.opp, hle]

/-- The repair by two rotations. -/
theorem fixupHeavy_double {b c : Addr} {hb hc : ℕ} {vb vc : V} {outer y z : LinkedTree V}
    (hlt : outer.height < hc) :
    fixupHeavy d a v (join d b hb vb outer (join d.opp c hc vc z y)) far
      = mk d c vc (mk d b vb outer y) (mk d a v z far) := by
  cases d <;> simp [fixupHeavy, join, Dir.pick, Dir.opp, hlt]

/-- The two shapes a heavy child can have. -/
theorem heavy_cases {motive : LinkedTree V → Prop} (d : Dir) (hnil : motive nil)
    (hsingle : ∀ b hb vb outer inner, ¬ outer.height < inner.height →
      motive (join d b hb vb outer inner))
    (hdouble : ∀ b hb vb outer c hc vc y z, outer.height < hc →
      motive (join d b hb vb outer (join d.opp c hc vc z y))) (t : LinkedTree V) : motive t := by
  by_cases ht : t.root = none
  · cases t with
    | nil => exact hnil
    | node _ _ _ _ _ => cases ht
  · obtain ⟨b, hb, vb, outer, inner, rfl⟩ := exists_join d ht
    by_cases hlt : outer.height < inner.height
    · have hinner : inner.root ≠ none := by
        intro hroot
        cases inner with
        | nil => exact absurd hlt (Nat.not_lt_zero _)
        | node _ _ _ _ _ => cases hroot
      obtain ⟨c, hc, vc, z, y, rfl⟩ := exists_join d.opp hinner
      exact hdouble b hb vb outer c hc vc y z (by rwa [height_join] at hlt)
    · exact hsingle b hb vb outer inner hlt

/-- The repair of a node keeps the order of the entries. -/
theorem inorder_fixupHeavy :
    (fixupHeavy d a v near far).inorder = (mk d a v near far).inorder := by
  induction near using heavy_cases d with
  | hnil => rfl
  | hsingle b hb vb outer inner hle =>
    rw [fixupHeavy_single hle]
    cases d <;> simp [mk, join]
  | hdouble b hb vb outer c hc vc y z hlt =>
    rw [fixupHeavy_double hlt]
    cases d <;> simp [mk, join, Dir.opp]

theorem inorder_mk (h : ℕ) : (mk d a v near far).inorder = (join d a h v near far).inorder := by
  rw [mk, inorder_join, inorder_join]

/-- A repair, if there is one, keeps the order of the entries. -/
theorem inorder_rebalance (h : ℕ) :
    (rebalance d a v near far).inorder = (join d a h v near far).inorder := by
  unfold rebalance
  split_ifs
  · rw [inorder_fixupHeavy, inorder_mk h]
  · rw [inorder_fixupHeavy, inorder_mk h, join_opp]
  · exact inorder_mk h

theorem inorder_plug_congr {t t' : LinkedTree V} (c : Place V) (h : t.inorder = t'.inorder) :
    (Place.plug c t).inorder = (Place.plug c t').inorder := by
  rw [Place.inorder_plug, Place.inorder_plug, h]

/-- The loop of an insertion keeps the entries. -/
theorem inorder_insertUp : (insertUp c t).inorder = (Place.plug c t).inorder := by
  induction c generalizing t with
  | nil => rfl
  | cons f c ih =>
    unfold insertUp
    split_ifs
    · rfl
    · rw [ih, Place.plug_cons]
      exact inorder_plug_congr c (inorder_rebalance f.height)

/-- The loop of a removal keeps the entries. -/
theorem inorder_eraseUp : (eraseUp c t).inorder = (Place.plug c t).inorder := by
  induction c generalizing t with
  | nil => rfl
  | cons f c ih =>
    unfold eraseUp
    split_ifs
    · rfl
    · rw [ih, Place.plug_cons]
      exact inorder_plug_congr c (inorder_rebalance f.height)

/-- The leftmost node goes back to its place. -/
theorem plug_minimum {p : Place V} :
    let m := minimum a h v l r p
    Place.plug m.place (node m.addr m.height m.value nil m.right)
      = Place.plug p (node a h v l r) := by
  induction l generalizing a h v r p with
  | nil => rfl
  | node a' h' v' l' r' ihl ihr => exact ihl

/-- Nothing is to the left of the minimum. -/
theorem before_minimum {p : Place V} :
    Place.before (minimum a h v l r p).place = Place.before p := by
  induction l generalizing a h v r p with
  | nil => rfl
  | node a' h' v' l' r' ihl ihr => exact ihl

/-- What is to the left of two places, one in the other. -/
theorem before_append (p c : Place V) : Place.before (p ++ c) = Place.before c ++ Place.before p := by
  induction p with
  | nil => simp [Place.before]
  | cons f p ih =>
    rw [List.cons_append]
    cases hd : f.dir <;> simp [Place.before, hd, ih]

/-- What is to the right of two places, one in the other. -/
theorem after_append (p c : Place V) : Place.after (p ++ c) = Place.after p ++ Place.after c := by
  induction p with
  | nil => simp [Place.after]
  | cons f p ih =>
    rw [List.cons_append]
    cases hd : f.dir <;> simp [Place.after, hd, ih]

/-- Unlinking the root of a tree takes its entry away. -/
theorem inorder_unlink : (Place.plug (unlink c h l r).1 (unlink c h l r).2).inorder
    = Place.before c ++ (l.inorder ++ r.inorder) ++ Place.after c := by
  rw [Place.inorder_plug]
  cases l with
  | nil => simp [unlink]
  | node a h' v l' r' =>
    cases r with
    | nil => simp [unlink]
    | node b hb vb lb rb =>
      have hentries := congrArg inorder
        (plug_minimum (a := b) (h := hb) (v := vb) (l := lb) (r := rb) (p := []))
      rw [Place.inorder_plug, before_minimum, Place.plug_nil] at hentries
      rw [← hentries]
      simp [unlink, before_append, after_append, before_minimum, Place.before, Place.after]

/-- **`_Erase` removes the entry of the node and no other.** -/
theorem inorder_eraseAt : (eraseAt c (node a h v l r)).inorder
    = Place.before c ++ (l.inorder ++ r.inorder) ++ Place.after c := by
  rw [eraseAt, inorder_eraseUp, inorder_unlink]

end

/-! ## Balance -/

/-- The stored heights are the true heights, and the tree is balanced. -/
def Balanced : LinkedTree V → Prop
  | nil => True
  | node _ h _ l r => h = max l.height r.height + 1
      ∧ l.height ≤ r.height + 1 ∧ r.height ≤ l.height + 1 ∧ l.Balanced ∧ r.Balanced

/-- A balanced tree of height `n` at the place makes a balanced tree. -/
def Fits : Place V → ℕ → Prop
  | [], _ => True
  | f :: c, n => f.height = max n f.other.height + 1
      ∧ n ≤ f.other.height + 1 ∧ f.other.height ≤ n + 1 ∧ f.other.Balanced ∧ Fits c f.height

section

variable {d : Dir} {a : Addr} {h : ℕ} {v : V} {near far t l r : LinkedTree V} {c : Place V}
  {n : ℕ}

/-- When a node of any direction is balanced. -/
theorem balanced_join : (join d a h v near far).Balanced ↔ h = max near.height far.height + 1
    ∧ near.height ≤ far.height + 1 ∧ far.height ≤ near.height + 1
    ∧ near.Balanced ∧ far.Balanced := by
  cases d with
  | left => rfl
  | right =>
    rw [join, Balanced, max_comm]
    tauto

theorem balanced_mk (hnear : near.Balanced) (hfar : far.Balanced)
    (hle : near.height ≤ far.height + 1) (hge : far.height ≤ near.height + 1) :
    (mk d a v near far).Balanced :=
  balanced_join.mpr ⟨rfl, hle, hge, hnear, hfar⟩

theorem mk_opp : mk d.opp a v far near = mk d a v near far := by
  rw [mk, mk, max_comm, join_opp]

@[simp] theorem root_mk : (mk d a v near far).root = some a := root_join

@[simp] theorem height_mk : (mk d a v near far).height = max near.height far.height + 1 :=
  height_join

/-- A tree is balanced if the place fits the subtree, and the subtree is balanced. -/
theorem balanced_plug : (Place.plug c t).Balanced ↔ Fits c t.height ∧ t.Balanced := by
  induction c generalizing t with
  | nil => simp [Fits]
  | cons f c ih =>
    rw [Place.plug_cons, ih, Frame.fill, height_join, balanced_join, Fits]
    tauto

/-- The repair of a node with a child that is too high by one: the height of the new
root is the child's or one more. -/
theorem balanced_fixupHeavy (hnear : near.Balanced) (hfar : far.Balanced)
    (hheavy : near.height = far.height + 2) : (fixupHeavy d a v near far).Balanced
      ∧ ((fixupHeavy d a v near far).height = near.height
        ∨ (fixupHeavy d a v near far).height = near.height + 1) := by
  induction near using heavy_cases d with
  | hnil => exact absurd hheavy (by rw [height_nil]; omega)
  | hsingle b hb vb outer inner hle =>
    obtain ⟨hheight, hle', hge', houter, hinner⟩ := balanced_join.mp hnear
    rw [height_join] at hheavy ⊢
    rw [fixupHeavy_single hle]
    have hdown : (mk d a v inner far).height = max inner.height far.height + 1 := height_mk
    refine ⟨balanced_mk houter (balanced_mk hinner hfar ?_ ?_) ?_ ?_, ?_⟩
    case refine_5 => rw [height_mk]; omega
    all_goals omega
  | hdouble b hb vb outer c hc vc y z hlt =>
    obtain ⟨hheight, hle', hge', houter, hinner⟩ := balanced_join.mp hnear
    obtain ⟨hheight', hle'', hge'', hz, hy⟩ := balanced_join.mp hinner
    rw [height_join] at hheavy hheight hle' hge' ⊢
    rw [fixupHeavy_double hlt]
    have hdown : (mk d a v z far).height = max z.height far.height + 1 := height_mk
    have hdown' : (mk d b vb outer y).height = max outer.height y.height + 1 := height_mk
    refine ⟨balanced_mk (balanced_mk houter hy ?_ ?_) (balanced_mk hz hfar ?_ ?_) ?_ ?_, ?_⟩
    case refine_7 => rw [height_mk]; omega
    all_goals omega

/-- **`_InsertFixup` restores the balance** after a subtree has grown by one at most. -/
theorem balanced_insertUp (hc : Fits c n) (ht : t.Balanced)
    (hheight : t.height = n ∨ t.height = n + 1) : (insertUp c t).Balanced := by
  induction c generalizing t n with
  | nil => exact ht
  | cons f c ih =>
    obtain ⟨hf, hle, hge, hother, hc⟩ := hc
    unfold insertUp
    split_ifs with hstop
    · rw [balanced_plug, Fits]
      refine ⟨⟨hstop, ?_, ?_, hother, hc⟩, ht⟩ <;> omega
    · unfold rebalance
      split_ifs with hheavy hheavy'
      · obtain ⟨hbal, hh⟩ := balanced_fixupHeavy (d := f.dir) (a := f.addr) (v := f.value)
          ht hother (by omega)
        exact ih hc hbal (by omega)
      · omega
      · have hheight' : (mk f.dir f.addr f.value t f.other).height
            = max t.height f.other.height + 1 := height_mk
        exact ih hc (balanced_mk ht hother (by omega) (by omega)) (by omega)

/-- **`_EraseFixup` restores the balance** after a subtree has shrunk by one at most. -/
theorem balanced_eraseUp (hc : Fits c n) (ht : t.Balanced)
    (hheight : t.height = n ∨ t.height + 1 = n) : (eraseUp c t).Balanced := by
  induction c generalizing t n with
  | nil => exact ht
  | cons f c ih =>
    obtain ⟨hf, hle, hge, hother, hc⟩ := hc
    unfold eraseUp
    split_ifs with hstop
    · rw [balanced_plug, Fits]
      exact ⟨⟨hstop.1, hstop.2.1, hstop.2.2, hother, hc⟩, ht⟩
    · have hshrunk : t.height + 1 = n := by
        rcases hheight with rfl | hshrunk
        · exact absurd ⟨hf, hle, hge⟩ hstop
        · exact hshrunk
      unfold rebalance
      split_ifs with hheavy hheavy'
      · omega
      · obtain ⟨hbal, hh⟩ := balanced_fixupHeavy (d := f.dir.opp) (a := f.addr) (v := f.value)
          hother ht (by omega)
        exact ih hc hbal (by omega)
      · have hheight' : (mk f.dir f.addr f.value t f.other).height
            = max t.height f.other.height + 1 := height_mk
        exact ih hc (balanced_mk ht hother (by omega) (by omega)) (by omega)

/-- Where a place leads through another place. -/
theorem fits_append {p : Place V} (t : LinkedTree V) (ht : t.height = n) :
    Fits (p ++ c) n ↔ Fits p n ∧ Fits c (Place.plug p t).height := by
  induction p generalizing n t with
  | nil => simp [Fits, ht]
  | cons f p ih =>
    have hfill : (f.fill t).height = f.height := height_join
    rw [List.cons_append, Place.plug_cons, Fits, Fits, ih (f.fill t) hfill]
    tauto

/-- **`_Erase` restores the balance.** -/
theorem balanced_eraseAt (hbal : (Place.plug c (node a h v l r)).Balanced) :
    (eraseAt c (node a h v l r)).Balanced := by
  obtain ⟨hc, hheight, hle, hge, hl, hr⟩ := balanced_plug.mp hbal
  rw [height_node] at hc
  rw [eraseAt]
  cases l with
  | nil =>
    rw [height_nil, Nat.zero_max] at hheight
    exact balanced_eraseUp hc hr (Or.inr hheight.symm)
  | node b hb vb lb rb =>
    cases r with
    | nil =>
      rw [height_nil, Nat.max_zero] at hheight
      exact balanced_eraseUp hc hl (Or.inr hheight.symm)
    | node b' hb' vb' lb' rb' =>
      have hplug := plug_minimum (a := b') (h := hb') (v := vb') (l := lb') (r := rb') (p := [])
      dsimp only at hplug
      rw [Place.plug_nil] at hplug
      dsimp only [unlink]
      generalize minimum b' hb' vb' lb' rb' [] = m at hplug
      rw [← hplug, balanced_plug] at hr
      obtain ⟨hplace, hm, -, -, -, hright⟩ := hr
      rw [height_nil] at hm
      refine balanced_eraseUp (n := m.height) ?_ hright (by omega)
      refine (fits_append (node m.addr m.height m.value nil m.right) rfl).mpr ⟨hplace, ?_⟩
      rw [hplug]
      rw [max_comm] at hheight
      exact ⟨hheight, hge, hle, hl, hc⟩

/-! ## The tree of two nodes

The shortcut of an insertion into a tree of one node leaves the height of the root as
it was. -/

/-- Two nodes, both with the stored height 1. -/
def Stale (t : LinkedTree V) : Prop :=
  ∃ d a v b vb, t = join d a 1 v (node b 1 vb nil nil) nil

/-- What the operations of a tree maintain about the heights. -/
def Avl (t : LinkedTree V) : Prop := t.Balanced ∨ t.Stale

theorem Stale.length_inorder (ht : t.Stale) : t.inorder.length = 2 := by
  obtain ⟨d, a, v, b, vb, rfl⟩ := ht
  cases d <;> rfl

/-- There are as many entries as nodes above the place, at least. -/
theorem length_le_inorder_plug : c.length + t.inorder.length ≤ (Place.plug c t).inorder.length := by
  induction c generalizing t with
  | nil => simp
  | cons f c ih =>
    refine le_trans ?_ (ih (t := f.fill t))
    rw [Frame.fill, inorder_join, List.length_append, List.length_cons, List.length_cons]
    cases f.dir <;> simp only [Dir.pick] <;> omega

/-- A third node brings the heights in order. -/
theorem balanced_insertUp_of_stale {x : Addr} {vx : V} (hc : (Place.plug c nil).Stale) :
    (insertUp c (node x 1 vx nil nil)).Balanced := by
  have hlength := hc.length_inorder ▸ length_le_inorder_plug (c := c) (t := nil)
  obtain ⟨d, a, v, b, vb, hplug⟩ := hc
  match c with
  | [] => cases d <;> cases hplug
  | [⟨e, a', h', v', other⟩] =>
    cases d <;> cases e <;> cases hplug
      <;> simp [insertUp, rebalance, mk, Balanced, join]
  | [⟨e, a', h', v', other⟩, ⟨e', a'', h'', v'', other'⟩] =>
    cases d <;> cases e <;> cases e' <;> cases hplug
      <;> simp [insertUp, rebalance, mk, Balanced, join, fixupHeavy, Dir.pick, Dir.opp]
  | _ :: _ :: _ :: _ =>
    simp only [List.length_cons] at hlength
    omega

/-- One node less brings the heights in order. -/
theorem balanced_eraseAt_of_stale (hstale : (Place.plug c (node a h v l r)).Stale) :
    (eraseAt c (node a h v l r)).Balanced := by
  have hlength := hstale.length_inorder ▸ length_le_inorder_plug (c := c) (t := node a h v l r)
  obtain ⟨d, a', v', b, vb, hplug⟩ := hstale
  match c with
  | [] =>
    cases d <;> cases hplug <;> simp [eraseAt, unlink, eraseUp, Balanced]
  | [⟨e, a'', h'', v'', other⟩] =>
    cases d <;> cases e <;> cases hplug
      <;> simp [eraseAt, unlink, eraseUp, Frame.fill, join, Balanced]
  | _ :: _ :: _ =>
    simp only [List.length_cons, inorder_node, List.length_append] at hlength
    omega

/-- The repair behind an insertion of a leaf. -/
theorem Avl.insertUp {x : Addr} {vx : V} (h : (Place.plug c nil).Avl) :
    (insertUp c (node x 1 vx nil nil)).Avl := by
  rcases h with hbal | hstale
  · refine Or.inl (balanced_insertUp (balanced_plug.mp hbal).1 ?_ (Or.inr rfl))
    simp [Balanced]
  · exact Or.inl (balanced_insertUp_of_stale hstale)

/-- The repair behind the removal of a node. -/
theorem Avl.eraseAt (hAvl : (Place.plug c (node a h v l r)).Avl) :
    (eraseAt c (node a h v l r)).Avl := by
  rcases hAvl with hbal | hstale
  · exact Or.inl (balanced_eraseAt hbal)
  · exact Or.inl (balanced_eraseAt_of_stale hstale)

/-- The shortcut. -/
theorem Avl.shortcut {x : Addr} {vx : V} (hAvl : (node a h v nil nil : LinkedTree V).Avl) :
    (join d a h v (node x 1 vx nil nil) nil).Avl := by
  rcases hAvl with hbal | ⟨e, a', v', b, vb, htwo⟩
  · obtain ⟨hheight, -⟩ := hbal
    rw [height_nil] at hheight
    subst hheight
    exact Or.inr ⟨d, a, v, x, vx, rfl⟩
  · cases e <;> cases htwo

/-- `CalculateHeight`. -/
def calculateHeight : LinkedTree V → ℕ
  | nil => 0
  | node _ _ _ l r => 1 + AvlUtil.avlMax l.calculateHeight r.calculateHeight

/-- The true heights of the two subtrees of each node differ by at most 1. -/
def HeightBalanced : LinkedTree V → Prop
  | nil => True
  | node _ _ _ l r => -1 ≤ (l.calculateHeight : ℤ) - r.calculateHeight
      ∧ (l.calculateHeight : ℤ) - r.calculateHeight ≤ 1 ∧ l.HeightBalanced ∧ r.HeightBalanced

/-- Where the heights are right, `CalculateHeight` gives the one that is stored. -/
theorem Balanced.calculateHeight_eq (ht : t.Balanced) : t.calculateHeight = t.height := by
  induction t with
  | nil => rfl
  | node a h v l r ihl ihr =>
    obtain ⟨hheight, -, -, hl, hr⟩ := ht
    rw [calculateHeight, ihl hl, ihr hr, AvlUtil.avlMax_eq_max, height_node, hheight, add_comm]

/-- A tree with right heights that differ by one at most is balanced as it is. -/
theorem Balanced.heightBalanced (ht : t.Balanced) : t.HeightBalanced := by
  induction t with
  | nil => trivial
  | node a h v l r ihl ihr =>
    obtain ⟨-, hle, hge, hl, hr⟩ := ht
    refine ⟨?_, ?_, ihl hl, ihr hr⟩ <;> rw [hl.calculateHeight_eq, hr.calculateHeight_eq] <;> omega

theorem Avl.heightBalanced (ht : t.Avl) : t.HeightBalanced := by
  rcases ht with hbal | ⟨d, a, v, b, vb, rfl⟩
  · exact hbal.heightBalanced
  · cases d <;> simp [join, HeightBalanced, calculateHeight, AvlUtil.avlMax]

end

end LinkedTree

end Mmkvc
