/-
# Trees and places in them, as cells

A `LinkedTree` is what a root pointer leads to: each node with its address and the
height it stores.  A place in a tree is the list of frames from it up to the root,
lowest first.  Both are laid out in memory as cells with parent links.
-/
import Mmkvc.AvlUtil

namespace Mmkvc

variable {V : Type}

/-- A node given by the child on the side `d` and the child on the other side. -/
def AvlNode.ofSides (d : Dir) (parent near far : Option Addr) (h : ℕ) (v : V) : AvlNode V :=
  match d with
  | .left => ⟨parent, near, far, h, v⟩
  | .right => ⟨parent, far, near, h, v⟩

namespace AvlNode

variable {d : Dir} {par near far p : Option Addr} {h : ℕ} {v : V}

@[simp] theorem parent_ofSides : (ofSides d par near far h v).parent = par := by
  cases d <;> rfl

@[simp] theorem height_ofSides : (ofSides d par near far h v).height = h := by
  cases d <;> rfl

@[simp] theorem child_ofSides : (ofSides d par near far h v).child d = near := by
  cases d <;> rfl

@[simp] theorem child_opp_ofSides : (ofSides d par near far h v).child d.opp = far := by
  cases d <;> rfl

end AvlNode

inductive LinkedTree (V : Type) where
  | nil
  | node (a : Addr) (h : ℕ) (v : V) (l r : LinkedTree V)
  deriving DecidableEq, Repr

/-- One of two things, by the side. -/
def Dir.pick {α : Type} (d : Dir) (l r : α) : α :=
  match d with
  | .left => l
  | .right => r

namespace LinkedTree

/-- The pointer to the tree. -/
def root : LinkedTree V → Option Addr
  | nil => none
  | node a _ _ _ _ => some a

/-- The height stored at the root, that of a null pointer being 0. -/
def height : LinkedTree V → ℕ
  | nil => 0
  | node _ h _ _ _ => h

/-- The tree with `near` on the side `d` and `far` on the other side. -/
def join (d : Dir) (a : Addr) (h : ℕ) (v : V) (near far : LinkedTree V) : LinkedTree V :=
  match d with
  | .left => node a h v near far
  | .right => node a h v far near

/-- The entries from left to right. -/
def inorder : LinkedTree V → List (Addr × V)
  | nil => []
  | node a _ v l r => l.inorder ++ (a, v) :: r.inorder

/-- The nodes in memory, the root's parent being `parent`. -/
def cells (parent : Option Addr) : LinkedTree V → Multiset (Addr × AvlNode V)
  | nil => 0
  | node a h v l r =>
    {(a, ⟨parent, l.root, r.root, h, v⟩)} + l.cells (some a) + r.cells (some a)

variable {d : Dir} {a : Addr} {h : ℕ} {v : V} {t l r near far : LinkedTree V}

@[simp] theorem root_nil : (nil : LinkedTree V).root = none := rfl
@[simp] theorem root_node : (node a h v l r).root = some a := rfl
@[simp] theorem height_nil : (nil : LinkedTree V).height = 0 := rfl
@[simp] theorem height_node : (node a h v l r).height = h := rfl
@[simp] theorem inorder_nil : (nil : LinkedTree V).inorder = [] := rfl
@[simp] theorem inorder_node : (node a h v l r).inorder = l.inorder ++ (a, v) :: r.inorder := rfl
@[simp] theorem cells_nil (p : Option Addr) : (nil : LinkedTree V).cells p = 0 := rfl

theorem join_opp : join d.opp a h v far near = join d a h v near far := by
  cases d <;> rfl

@[simp] theorem root_join : (join d a h v near far).root = some a := by
  cases d <;> rfl

@[simp] theorem height_join : (join d a h v near far).height = h := by
  cases d <;> rfl

theorem join_pick : join d a h v (d.pick l r) (d.opp.pick l r) = node a h v l r := by
  cases d <;> rfl

/-- Every tree but the empty one is a node with a subtree on the side `d` and one on the
other side. -/
theorem exists_join (d : Dir) (ht : t.root ≠ none) :
    ∃ a h v near far, t = join d a h v near far := by
  cases t with
  | nil => exact absurd rfl ht
  | node a h v l r => exact ⟨a, h, v, d.pick l r, d.opp.pick l r, join_pick.symm⟩

/-- A tree has its root and the nodes of its subtrees. -/
theorem cells_join (p : Option Addr) : (join d a h v near far).cells p
    = {(a, .ofSides d p near.root far.root h v)} + near.cells (some a) + far.cells (some a) := by
  cases d with
  | left => rfl
  | right =>
    change {(a, _)} + far.cells (some a) + near.cells (some a) = _
    rw [add_right_comm]
    rfl

/-- A tree has a cell for each of its nodes. -/
theorem card_cells (t : LinkedTree V) (p : Option Addr) :
    Multiset.card (t.cells p) = t.inorder.length := by
  induction t generalizing p with
  | nil => rfl
  | node a h v l r ihl ihr =>
    rw [cells, Multiset.card_add, Multiset.card_add, Multiset.card_singleton, ihl, ihr,
      inorder_node, List.length_append, List.length_cons]
    omega

/-- The nodes of a tree are at the addresses of its entries. -/
theorem cells_map_fst (t : LinkedTree V) (p : Option Addr) :
    (t.cells p).map Prod.fst = (t.inorder.map Prod.fst : List Addr) := by
  induction t generalizing p with
  | nil => rfl
  | node a h v l r ihl ihr =>
    rw [cells, Multiset.map_add, Multiset.map_add, ihl, ihr, inorder_node, List.map_append,
      List.map_cons, ← Multiset.coe_add, ← Multiset.cons_coe, Multiset.map_singleton,
      ← Multiset.singleton_add]
    abel

/-- The nodes of the left subtree are nodes of the tree. -/
theorem left_cells_subset (p : Option Addr) :
    l.cells (some a) ⊆ (node a h v l r).cells p := fun x hx => by
  rw [cells]
  simp [hx]

/-- The nodes of the right subtree are nodes of the tree. -/
theorem right_cells_subset (p : Option Addr) :
    r.cells (some a) ⊆ (node a h v l r).cells p := fun x hx => by
  rw [cells]
  simp [hx]

/-- An entry has a cell. -/
theorem exists_mem_cells (p : Option Addr) (hmem : (a, v) ∈ t.inorder) :
    ∃ n, (a, n) ∈ t.cells p ∧ n.value = v := by
  induction t generalizing p with
  | nil => cases hmem
  | node b hb w l r ihl ihr =>
    rw [inorder_node, List.mem_append, List.mem_cons] at hmem
    rcases hmem with hl | heq | hr
    · obtain ⟨n, hn, hv⟩ := ihl (some b) hl
      exact ⟨n, left_cells_subset p hn, hv⟩
    · obtain ⟨rfl, rfl⟩ := Prod.mk.inj heq
      exact ⟨⟨p, l.root, r.root, hb, v⟩, by simp [cells], rfl⟩
    · obtain ⟨n, hn, hv⟩ := ihr (some b) hr
      exact ⟨n, right_cells_subset p hn, hv⟩

/-- A node of a subtree has a parent. -/
theorem parent_ne_none {p : Addr} {n : AvlNode V} (hmem : (a, n) ∈ t.cells (some p)) :
    n.parent ≠ none := by
  induction t generalizing p with
  | nil => cases hmem
  | node b hb w l r ihl ihr =>
    rw [cells, Multiset.mem_add, Multiset.mem_add, Multiset.mem_singleton] at hmem
    rcases hmem with (heq | hl) | hr
    · obtain ⟨rfl, rfl⟩ := Prod.mk.inj heq
      exact Option.some_ne_none p
    · exact ihl hl
    · exact ihr hr

/-- A node without a parent is the root. -/
theorem root_of_mem_cells {n : AvlNode V} (hmem : (a, n) ∈ t.cells none) (hn : n.parent = none) :
    t.root = some a := by
  cases t with
  | nil => cases hmem
  | node b hb w l r =>
    rw [cells, Multiset.mem_add, Multiset.mem_add, Multiset.mem_singleton] at hmem
    rcases hmem with (heq | hl) | hr
    · rw [root_node, (Prod.mk.inj heq).1]
    · exact absurd hn (parent_ne_none hl)
    · exact absurd hn (parent_ne_none hr)

/-- The cell a pointer to a tree leads to. -/
theorem mem_cells_of_root {p : Option Addr} (hroot : t.root = some a) :
    ∃ n, (a, n) ∈ t.cells p ∧ n.parent = p ∧ n.height = t.height := by
  cases t with
  | nil => cases hroot
  | node b h v l r =>
    obtain rfl := Option.some.inj hroot
    refine ⟨⟨p, l.root, r.root, h, v⟩, ?_, rfl, rfl⟩
    rw [cells, add_assoc, Multiset.singleton_add]
    exact Multiset.mem_cons_self _ _

end LinkedTree

open LinkedTree

/-- A node above a place: the side of the place, and the subtree on the other side. -/
structure Frame (V : Type) where
  dir : Dir
  addr : Addr
  height : ℕ
  value : V
  other : LinkedTree V

/-- A place in a tree. -/
abbrev Place (V : Type) := List (Frame V)

namespace Frame

/-- The tree with `t` at the place. -/
def fill (f : Frame V) (t : LinkedTree V) : LinkedTree V :=
  join f.dir f.addr f.height f.value t f.other

/-- The cell of the node, where `hole` is the pointer to the place. -/
def cell (f : Frame V) (parent hole : Option Addr) : Addr × AvlNode V :=
  (f.addr, .ofSides f.dir parent hole f.other.root f.height f.value)

end Frame

namespace Place

/-- The tree with `t` at the place. -/
def plug : Place V → LinkedTree V → LinkedTree V
  | [], t => t
  | f :: c, t => plug c (f.fill t)

/-- The node above the place. -/
def parent : Place V → Option Addr
  | [] => none
  | f :: _ => some f.addr

/-- The root pointer, where `hole` is the pointer to the place. -/
def top (hole : Option Addr) : Place V → Option Addr
  | [] => hole
  | f :: c => top (some f.addr) c

/-- The nodes above and beside the place, where `hole` is the pointer to it. -/
def cells (hole : Option Addr) : Place V → Multiset (Addr × AvlNode V)
  | [] => 0
  | f :: c => {f.cell (parent c) hole} + f.other.cells (some f.addr) + cells (some f.addr) c

/-- The entries to the left of the place and those to the right of it. -/
def before : Place V → List (Addr × V)
  | [] => []
  | f :: c => match f.dir with
    | .left => before c
    | .right => before c ++ f.other.inorder ++ [(f.addr, f.value)]

def after : Place V → List (Addr × V)
  | [] => []
  | f :: c => match f.dir with
    | .left => (f.addr, f.value) :: f.other.inorder ++ after c
    | .right => after c

variable {c : Place V} {f : Frame V}

@[simp] theorem plug_nil (t : LinkedTree V) : plug [] t = t := rfl
@[simp] theorem plug_cons (t : LinkedTree V) : plug (f :: c) t = plug c (f.fill t) := rfl
@[simp] theorem parent_nil : parent ([] : Place V) = none := rfl
@[simp] theorem parent_cons : parent (f :: c) = some f.addr := rfl
@[simp] theorem top_nil (p : Option Addr) : top p ([] : Place V) = p := rfl
@[simp] theorem top_cons (p : Option Addr) : top p (f :: c) = top (some f.addr) c := rfl

/-- The root of the whole tree is at the top of the place. -/
theorem root_plug (c : Place V) (t : LinkedTree V) : (plug c t).root = top t.root c := by
  induction c generalizing t with
  | nil => rfl
  | cons f c ih => rw [plug_cons, ih, Frame.fill, root_join, top_cons]

/-- A place in a tree has a top. -/
theorem exists_top (a : Addr) (c : Place V) : ∃ b, top (some a) c = some b := by
  induction c generalizing a with
  | nil => exact ⟨a, rfl⟩
  | cons f c ih => exact ih f.addr

/-- Each node above the place has a cell. -/
theorem exists_mem_cells (hole : Option Addr) (hf : f ∈ c) : ∃ n, (f.addr, n) ∈ cells hole c := by
  induction c generalizing hole with
  | nil => cases hf
  | cons f' c ih =>
    rw [cells]
    rcases List.mem_cons.mp hf with rfl | hf
    · refine ⟨(f.cell (parent c) hole).2, ?_⟩
      simp [Frame.cell]
    · obtain ⟨n, hn⟩ := ih (some f'.addr) hf
      exact ⟨n, by simp [hn]⟩

/-- There are as many nodes as levels above the place, at least. -/
theorem length_le_card (hole : Option Addr) (c : Place V) :
    c.length ≤ Multiset.card (cells hole c) := by
  induction c generalizing hole with
  | nil => exact Nat.zero_le _
  | cons f c ih =>
    have hle := ih (some f.addr)
    rw [cells, Multiset.card_add, Multiset.card_add, Multiset.card_singleton, List.length_cons]
    omega

/-- The entries of a tree at a place. -/
theorem inorder_plug (c : Place V) (t : LinkedTree V) :
    (plug c t).inorder = before c ++ t.inorder ++ after c := by
  induction c generalizing t with
  | nil => simp [before, after]
  | cons f c ih =>
    rw [plug_cons, ih, Frame.fill]
    cases hd : f.dir <;> simp [before, after, join, hd]

end Place

end Mmkvc
