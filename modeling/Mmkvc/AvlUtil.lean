/-
# AVL trees in memory (`algo/internal/avl_node.h`, `algo/internal/avl_util.h`)

The functions on nodes with parent links that all AVL trees of the repository
share.  Trees live beside each other in one memory, each under the name of its
member `root_`.  A program over them gets stuck where the source would follow a
null or dangling pointer.  `_RotateLeft` and `_RotateRight` are mirror images of
each other, as are the two functions that repair a heavy side, so each pair is one
function of a direction.

Loops are bounded by the number of nodes there can be: addresses are given out in
order, so there are at most `next` of them.
-/
import Mmkvc.Cells
import Mmkvc.Triple

namespace Mmkvc

/-- A side. -/
inductive Dir where
  | left
  | right
  deriving DecidableEq, Repr

/-- The other side. -/
def Dir.opp : Dir → Dir
  | .left => .right
  | .right => .left

@[simp] theorem Dir.opp_opp (d : Dir) : d.opp.opp = d := by
  cases d <;> rfl

/-- `AvlNode<V>`.  Heights are only ever copied, counted up or set to 0 and 1. -/
structure AvlNode (V : Type) where
  parent : Option Addr
  left : Option Addr
  right : Option Addr
  height : ℕ
  value : V
  deriving DecidableEq, Repr

namespace AvlNode

variable {V : Type}

/-- The child on a side. -/
def child (n : AvlNode V) : Dir → Option Addr
  | .left => n.left
  | .right => n.right

/-- `n->left = p` or `n->right = p`. -/
def setChild (n : AvlNode V) (d : Dir) (p : Option Addr) : AvlNode V :=
  match d with
  | .left => { n with left := p }
  | .right => { n with right := p }

end AvlNode

/-- The nodes in memory, the first address that was never given out, and for each tree
the members `root_` of `AvlTreeBase` and `count_` of its derived class `AvlTree`.  The
derived class `AvlList` keeps no count, and nothing reads the one it has here. -/
structure AvlHeap (ι V : Type) where
  nodes : Addr → Option (AvlNode V)
  next : Addr
  roots : ι → Option Addr
  counts : ι → BitVec 64

/-- A program over the trees. -/
abbrev AvlM (ι V : Type) := StateT (AvlHeap ι V) Option

namespace AvlM

variable {ι V : Type} [DecidableEq ι]

/-- Use of a pointer that must not be null. -/
def deref (p : Option Addr) : AvlM ι V Addr := fun s => p.map fun a => (a, s)

/-- The node at an address. -/
def load (a : Addr) : AvlM ι V (AvlNode V) := fun s => (s.nodes a).map fun n => (n, s)

/-- A change of members of the node at an address. -/
def modifyNode (a : Addr) (f : AvlNode V → AvlNode V) : AvlM ι V Unit := fun s =>
  (s.nodes a).map fun n => ((), { s with nodes := Function.update s.nodes a (some (f n)) })

def getRoot (root : ι) : AvlM ι V (Option Addr) := fun s => some (s.roots root, s)

def setRoot (root : ι) (p : Option Addr) : AvlM ι V Unit := fun s =>
  some ((), { s with roots := Function.update s.roots root p })

/-- A bound on the number of nodes. -/
def bound : AvlM ι V ℕ := fun s => some (s.next, s)

/-- `if (p) p->parent = parent`. -/
def setParent (p parent : Option Addr) : AvlM ι V Unit :=
  match p with
  | some a => modifyNode a fun n => { n with parent := parent }
  | none => pure ()

end AvlM

namespace AvlUtil

open AvlM

variable {ι V : Type} [DecidableEq ι]

/-- A slot is the root pointer of a tree or a child pointer of a node. -/
inductive Slot (ι : Type) where
  | root (root : ι)
  | child (a : Addr) (d : Dir)
  deriving DecidableEq, Repr

/-- `slot[0]`. -/
def readSlot : Slot ι → AvlM ι V (Option Addr)
  | .root root => getRoot root
  | .child a d => do return (← load a).child d

/-- `slot[0] = p`. -/
def writeSlot (p : Option Addr) : Slot ι → AvlM ι V Unit
  | .root root => setRoot root p
  | .child a d => modifyNode a fun n => n.setChild d p

/-- `_LinkSlot`. -/
def linkSlot (slot : Slot ι) (node : Addr) (parent : Option Addr) : AvlM ι V Unit := do
  writeSlot (some node) slot
  modifyNode node fun n => { n with parent := parent }

/-- The child link to `oldNode`, the left one if it leads there and else the right one, is
set to `newNode`. -/
def replaceChild (parent oldNode : Addr) (newNode : Option Addr) : AvlM ι V Unit := do
  if (← load parent).left = some oldNode then
    modifyNode parent fun n => n.setChild .left newNode
  else
    modifyNode parent fun n => n.setChild .right newNode

/-- `_ChildPlace`. -/
def childPlace (oldNode : Addr) (newNode parent : Option Addr) (root : ι) : AvlM ι V Unit :=
  match parent with
  | some parent => replaceChild parent oldNode newNode
  | none => setRoot root newNode

/-- A rotation towards the side `d`: the child on the other side takes the place of
`node`, which becomes its child. -/
def rotate (d : Dir) (node : Addr) (root : ι) : AvlM ι V Addr := do
  let n ← load node
  let up ← deref (n.child d.opp)
  let parent := n.parent
  let inner := (← load up).child d
  modifyNode node fun n => n.setChild d.opp inner
  setParent inner (some node)
  modifyNode up fun n => n.setChild d (some node)
  modifyNode up fun n => { n with parent := parent }
  modifyNode node fun n => { n with parent := some up }
  childPlace node (some up) parent root
  return up

/-- `_RotateLeft`. -/
def rotateLeft (node : Addr) (root : ι) : AvlM ι V Addr := rotate .left node root
/-- `_RotateRight`. -/
def rotateRight (node : Addr) (root : ι) : AvlM ι V Addr := rotate .right node root

/-- `p ? p->height : 0`. -/
def heightOf : Option Addr → AvlM ι V ℕ
  | some a => do return (← load a).height
  | none => return 0

/-- `LEFT_HEIGHT(node)` and `RIGHT_HEIGHT(node)`. -/
def childHeight (d : Dir) (node : Addr) : AvlM ι V ℕ := do
  heightOf ((← load node).child d)

/-- `AVL_MAX`. -/
def avlMax (x y : ℕ) : ℕ := if x < y then y else x

/-- `_UpdateHeight`. -/
def updateHeight (node : Addr) : AvlM ι V Unit := do
  let lh ← childHeight .left node
  let rh ← childHeight .right node
  modifyNode node fun n => { n with height := avlMax lh rh + 1 }

/-- The repair of a node whose child on the side `d` is too high. -/
def fixupHeavy (d : Dir) (node : Addr) (root : ι) : AvlM ι V Addr := do
  let child ← deref ((← load node).child d)
  let outer ← childHeight d child
  let inner ← childHeight d.opp child
  if outer < inner then
    let child ← rotate d child root
    updateHeight (← deref ((← load child).child d))
    updateHeight child
  let node ← rotate d.opp node root
  updateHeight (← deref ((← load node).child d.opp))
  updateHeight node
  return node

/-- `_FixupLeftHeavy`. -/
def fixupLeftHeavy (node : Addr) (root : ι) : AvlM ι V Addr := fixupHeavy .left node root
/-- `_FixupRigtHeavy`. -/
def fixupRigtHeavy (node : Addr) (root : ι) : AvlM ι V Addr := fixupHeavy .right node root

/-- The two repairs at a node, by its balance factor. -/
def fixupHeavySide (bf : ℤ) (node : Addr) (root : ι) : AvlM ι V Addr :=
  if 2 ≤ bf then fixupLeftHeavy node root
  else if bf ≤ -2 then fixupRigtHeavy node root
  else return node

/-- The loop of `_InsertFixup`. -/
def insertFixup (root : ι) : ℕ → Option Addr → AvlM ι V Unit
  | _, none => return ()
  | 0, some _ => failure
  | fuel + 1, some node => do
    let lh ← childHeight .left node
    let rh ← childHeight .right node
    let h := avlMax lh rh + 1
    if (← load node).height = h then return ()
    else do
      modifyNode node fun n => { n with height := h }
      let node ← fixupHeavySide ((lh : ℤ) - rh) node root
      insertFixup root fuel (← load node).parent

/-- The loop of `_EraseFixup`: a height that is right does not end it at a node that is
out of balance. -/
def eraseFixup (root : ι) : ℕ → Option Addr → AvlM ι V Unit
  | _, none => return ()
  | 0, some _ => failure
  | fuel + 1, some node => do
    let lh ← childHeight .left node
    let rh ← childHeight .right node
    let h := avlMax lh rh + 1
    let bf := (lh : ℤ) - rh
    if (← load node).height = h ∧ -1 ≤ bf ∧ bf ≤ 1 then return ()
    else do
      modifyNode node fun n => { n with height := h }
      let node ← fixupHeavySide bf node root
      eraseFixup root fuel (← load node).parent

/-- `while ((left = node->left)) node = left;`. -/
def leftmost : ℕ → Addr → AvlM ι V Addr
  | 0, _ => failure
  | fuel + 1, node => do
    match (← load node).left with
    | some left => leftmost fuel left
    | none => return node

/-- The branch of `_Erase` for a minimum `next` that is the right child of `node`. -/
def replaceByChild (node next left : Addr) (parent : Option Addr) (height : ℕ) (root : ι) :
    AvlM ι V (Option Addr) := do
  modifyNode next fun n => { n with left := some left }
  modifyNode left fun n => { n with parent := some next }
  modifyNode next fun n => { n with parent := parent }
  modifyNode next fun n => { n with height := height }
  childPlace node (some next) parent root
  return some next

/-- The branch of `_Erase` for a minimum `next` further down. -/
def replaceByLower (node next : Addr) (nextRight parent2 parent : Option Addr) (height : ℕ)
    (root : ι) : AvlM ι V (Option Addr) := do
  childPlace next nextRight parent2 root
  setParent nextRight parent2
  let right ← deref (← load node).right
  let left ← deref (← load node).left
  modifyNode next fun n => { n with right := some right }
  modifyNode right fun n => { n with parent := some next }
  modifyNode next fun n => { n with left := some left }
  modifyNode left fun n => { n with parent := some next }
  modifyNode next fun n => { n with height := height }
  modifyNode next fun n => { n with parent := parent }
  childPlace node (some next) parent root
  return parent2

/-- The part of `_Erase` before `_EraseFixup`: the node is unlinked, and the lowest node
whose balance may have changed is returned. -/
def unlink (node : Addr) (root : ι) : AvlM ι V (Option Addr) := do
  let oldNode ← load node
  match oldNode.left, oldNode.right with
  | some left, some right => do
    -- the minimum in the right subtree takes the place of the node
    let next ← leftmost ((← bound) + 1) right
    let n ← load next
    if n.parent = some node then
      replaceByChild node next left oldNode.parent oldNode.height root
    else
      replaceByLower node next n.right n.parent oldNode.parent oldNode.height root
  | left, right => do
    let child := left.or right
    childPlace node child oldNode.parent root
    setParent child oldNode.parent
    return oldNode.parent

/-- `_Erase`. -/
def erase (node : Addr) (root : ι) : AvlM ι V Unit := do
  let start ← unlink node root
  eraseFixup root ((← bound) + 1) start

/-! ## The iterator interface -/

/-- `while (node->left) node = node->left;`, or the same on the right. -/
def outermost (d : Dir) : ℕ → Addr → AvlM ι V Addr
  | 0, _ => failure
  | fuel + 1, node => do
    match (← load node).child d with
    | some child => outermost d fuel child
    | none => return node

/-- The last node on a side. -/
def getEdgeNode (d : Dir) : Option Addr → AvlM ι V (Option Addr)
  | none => return none
  | some node => do return some (← outermost d ((← bound) + 1) node)

/-- `_GetFirstNode`. -/
def getFirstNode (node : Option Addr) : AvlM ι V (Option Addr) := getEdgeNode .left node
/-- `_GetLastNode`. -/
def getLastNode (node : Option Addr) : AvlM ι V (Option Addr) := getEdgeNode .right node

/-- The loop that goes up until it comes from the child on the side `d`. -/
def climb (d : Dir) : ℕ → Addr → AvlM ι V (Option Addr)
  | 0, _ => failure
  | fuel + 1, cur => do
    match (← load cur).parent with
    | none => return none
    | some node => do
      if (← load node).child d = some cur then return some node
      else climb d fuel node

/-- The next node in the direction `d`. -/
def getNeighbour (d : Dir) : Option Addr → AvlM ι V (Option Addr)
  | none => return none
  | some node => do
    match (← load node).child d with
    | some child => return some (← outermost d.opp ((← bound) + 1) child)
    | none => climb d.opp ((← bound) + 1) node

/-- `_GetNextNode`. -/
def getNextNode (node : Option Addr) : AvlM ι V (Option Addr) := getNeighbour .right node
/-- `_GetPrevNode`. -/
def getPrevNode (node : Option Addr) : AvlM ι V (Option Addr) := getNeighbour .left node

end AvlUtil

end Mmkvc
