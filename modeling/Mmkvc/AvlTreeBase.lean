/-
# The class `AvlTreeBase` (`algo/internal/avl_tree_base.h`, `avl_tree_base_impl.h`)

Its operations over the trees in a memory.  An operation takes the tree it is called
on by the name of the member `root_`.  A pointer to an entry is the address of its
node.
-/
import Mmkvc.AvlUtil

namespace Mmkvc

/-- The template arguments: the comparator `Compare` and the key `GK` of a value. -/
structure AvlTraits (K V : Type) where
  cmp : K → K → ℤ
  gk : V → K

namespace AvlTreeBase

open AvlM AvlUtil

variable {ι K V : Type} [DecidableEq ι]

/-! ## Nodes and the count -/

/-- `CreateNode`. -/
def createNode (v : V) : AvlM ι V Addr := fun s =>
  some (s.next, { s with
    nodes := Function.update s.nodes s.next (some ⟨none, none, none, 1, v⟩)
    next := s.next + 1 })

/-- `DropNode`. -/
def dropNode (node : Addr) : AvlM ι V Unit := fun s =>
  (s.nodes node).map fun _ => ((), { s with nodes := Function.update s.nodes node none })

/-- `SetCount`, `IncreaseCount` and `DecreaseCount` as `AvlTree` has them. -/
def setCount (root : ι) (n : BitVec 64) : AvlM ι V Unit := fun s =>
  some ((), { s with counts := Function.update s.counts root n })

def getCount (root : ι) : AvlM ι V (BitVec 64) := fun s => some (s.counts root, s)

def increaseCount (root : ι) : AvlM ι V Unit := do setCount root ((← getCount root) + 1)

def decreaseCount (root : ι) : AvlM ι V Unit := do setCount root ((← getCount root) - 1)

/-! ## Search -/

/-- The loop of `FindNode`. -/
def findLoop (T : AvlTraits K V) (key : K) : ℕ → Option Addr → AvlM ι V (Option Addr)
  | _, none => return none
  | 0, some _ => failure
  | fuel + 1, some node => do
    let n ← load node
    let res := T.cmp (T.gk n.value) key
    if 0 < res then findLoop T key fuel n.left
    else if res < 0 then findLoop T key fuel n.right
    else return some node

/-- `FindNode`, and `Find` with the pointer to the value of the node. -/
def findNode (T : AvlTraits K V) (root : ι) (key : K) : AvlM ι V (Option Addr) := do
  findLoop T key ((← bound) + 1) (← getRoot root)

/-! ## Insertion -/

/-- Where the search for a slot ends: at a free one, or at an entry with the key. -/
inductive Descent (ι : Type) where
  | free (slot : Slot ι) (parent : Option Addr)
  | found (node : Addr)

/-- The loop that looks for the slot of a key.  At an entry with the key `onEq` gives the
side to go on, or nothing where the search ends. -/
def descend (T : AvlTraits K V) (key : K) (onEq : Addr → AvlM ι V (Option Dir)) :
    ℕ → Slot ι → Option Addr → AvlM ι V (Descent ι)
  | 0, _, _ => failure
  | fuel + 1, slot, parent => do
    match ← readSlot slot with
    | none => return .free slot parent
    | some node => do
      let res := T.cmp (T.gk (← load node).value) key
      if 0 < res then descend T key onEq fuel (.child node .left) (some node)
      else if res < 0 then descend T key onEq fuel (.child node .right) (some node)
      else
        match ← onEq node with
        | some d => descend T key onEq fuel (.child node d) (some node)
        | none => return .found node

/-- The common part of `PushWithDuplicate` and `_InsertWithDuplicate`: a key, how to get the
node, and what `*duplicate` becomes where the only entry of a tree has the key.  Returns
whether the node was put in, and what is written to `*duplicate` if it is not null. -/
def insertNode (T : AvlTraits K V) (root : ι) (key : K) (getNode : AvlM ι V Addr)
    (onOnly : Addr → AvlM ι V Addr) (duplicate : Bool) : AvlM ι V (Bool × Option Addr) := do
  match ← getRoot root with
  | none => do
    let node ← getNode
    setRoot root (some node)
    increaseCount root
    return (true, if duplicate then some node else none)
  | some top => do
    let t ← load top
    if t.left = none ∧ t.right = none then
      -- the shortcut for a tree of one node: no fixup and no count
      let res := T.cmp key (T.gk t.value)
      if 0 < res then do
        let node ← getNode
        linkSlot (.child top .right) node (some top)
        return (true, if duplicate then some node else none)
      else if res < 0 then do
        let node ← getNode
        linkSlot (.child top .left) node (some top)
        return (true, if duplicate then some node else none)
      else if duplicate then do
        return (false, some (← onOnly top))
      else return (false, none)
    else do
      match ← descend T key (fun _ => return none) ((← bound) + 1) (.root root) none with
      | .found node => return (false, if duplicate then some node else none)
      | .free slot parent => do
        let node ← getNode
        linkSlot slot node parent
        insertFixup root ((← bound) + 1) parent
        increaseCount root
        return (true, if duplicate then some node else none)

/-- `PushWithDuplicate`.  In a tree of one node with the same key, the null pointer `slot` is
followed. -/
def pushWithDuplicate (T : AvlTraits K V) (root : ι) (node : Addr) (duplicate : Bool) :
    AvlM ι V (Bool × Option Addr) := do
  let n ← load node
  insertNode T root (T.gk n.value) (return node) (fun _ => failure) duplicate

/-- `Push`. -/
def push (T : AvlTraits K V) (root : ι) (node : Addr) : AvlM ι V Bool := do
  return (← pushWithDuplicate T root node false).1

/-- `InsertWithDuplicate` (`_InsertWithDuplicate`). -/
def insertWithDuplicate (T : AvlTraits K V) (root : ι) (value : V) (duplicate : Bool) :
    AvlM ι V (Bool × Option Addr) :=
  insertNode T root (T.gk value) (createNode value) (fun top => return top) duplicate

/-- `Insert` (`_Insert`). -/
def insert (T : AvlTraits K V) (root : ι) (value : V) : AvlM ι V Bool := do
  return (← insertWithDuplicate T root value false).1

/-- The side on which `PushEq` goes on from an entry with the key. -/
def lowerSide (node : Addr) : AvlM ι V (Option Dir) := do
  let lh ← childHeight .left node
  let rh ← childHeight .right node
  return some (if lh < rh then .left else .right)

/-- `PushEq`. -/
def pushEq (T : AvlTraits K V) (root : ι) (node : Addr) : AvlM ι V Unit := do
  match ← getRoot root with
  | none => do
    setRoot root (some node)
    increaseCount root
  | some _ => do
    let n ← load node
    match ← descend T (T.gk n.value) lowerSide ((← bound) + 1) (.root root) none with
    | .found _ => failure
    | .free slot parent => do
      linkSlot slot node parent
      insertFixup root ((← bound) + 1) parent
      increaseCount root

/-- `InsertEq` (`_InsertEq`). -/
def insertEq (T : AvlTraits K V) (root : ι) (value : V) : AvlM ι V Unit := do
  pushEq T root (← createNode value)

/-! ## Removal -/

/-- `Extract(key)`. -/
def extract (T : AvlTraits K V) (root : ι) (key : K) : AvlM ι V (Option Addr) := do
  match ← findNode T root key with
  | none => return none
  | some node => do
    erase node root
    decreaseCount root
    modifyNode node fun n => { n with parent := none, left := none, right := none }
    return some node

/-- `EraseRoutine`. -/
def eraseRoutine (root : ι) (node : Addr) : AvlM ι V Unit := do
  erase node root
  dropNode node
  decreaseCount root

/-- `Erase(key)`. -/
def eraseKey (T : AvlTraits K V) (root : ι) (key : K) : AvlM ι V Bool := do
  match ← findNode T root key with
  | none => return false
  | some node => do
    eraseRoutine root node
    return true

/-- `EraseNode`. -/
def eraseNode (root : ι) : Option Addr → AvlM ι V Bool
  | none => return false
  | some node => do
    eraseRoutine root node
    return true

/-- The loop of `Erase(key, pred)`: on from a node with the key. -/
def eraseIfLoop (T : AvlTraits K V) (root : ι) (key : K) (pred : V → Bool) :
    ℕ → Addr → AvlM ι V Bool
  | 0, _ => failure
  | fuel + 1, node => do
    if pred (← load node).value then do
      eraseRoutine root node
      return true
    else do
      let node ← deref (← getNextNode (some node))
      if T.cmp (T.gk (← load node).value) key ≠ 0 then return false
      else eraseIfLoop T root key pred fuel node

/-- `Erase(key, pred)`. -/
def eraseIf (T : AvlTraits K V) (root : ι) (key : K) (pred : V → Bool) : AvlM ι V Bool := do
  match ← findNode T root key with
  | none => return false
  | some node => eraseIfLoop T root key pred ((← bound) + 1) node

/-- `while (*child) child = &(*child)->right;`, or the same on the left. -/
def freeSlot (d : Dir) : ℕ → Slot ι → AvlM ι V (Slot ι)
  | 0, _ => failure
  | fuel + 1, child => do
    match ← readSlot child with
    | some node => freeSlot d fuel (.child node d)
    | none => return child

/-- A branch of `Extract()`: the child `top` on the side `d` becomes the root, and the other
child goes to the far end of its tree. -/
def extractUp (d : Dir) (ret top : Addr) (other : Option Addr) (root : ι) : AvlM ι V Addr := do
  setRoot root (some top)
  writeSlot other (← freeSlot d.opp ((← bound) + 1) (.child top d.opp))
  modifyNode top fun n => { n with parent := none }
  modifyNode ret fun n => { n with parent := none, left := none, right := none }
  return ret

/-- `Extract()`. -/
def extractRoot (root : ι) : AvlM ι V (Option Addr) := do
  match ← getRoot root with
  | none => return none
  | some ret => do
    let n ← load ret
    match n.left, n.right with
    | some left, _ => return some (← extractUp .left ret left n.right root)
    | none, some right => return some (← extractUp .right ret right n.left root)
    | none, none => do
      setRoot root none
      if n.parent = none then return some ret else failure

/-- The loop of `ReuseAllNodes`: down to a leaf, which is unlinked and handed out, and up to
its parent. -/
def reuseLoop (nodeCb : Addr → AvlM ι V Unit) : ℕ → Addr → AvlM ι V Unit
  | 0, _ => failure
  | fuel + 1, node => do
    let n ← load node
    match n.left, n.right with
    | some left, _ => reuseLoop nodeCb fuel left
    | none, some right => reuseLoop nodeCb fuel right
    | none, none => do
      modifyNode node fun n => { n with left := none, parent := none, right := none }
      modifyNode node fun n => { n with height := 0 }
      match n.parent with
      | none => nodeCb node
      | some parent => do
        replaceChild parent node none
        nodeCb node
        reuseLoop nodeCb fuel parent

/-- `ReuseAllNodes`. -/
def reuseAllNodes (root : ι) (nodeCb : Addr → AvlM ι V Unit) : AvlM ι V Unit := do
  match ← getRoot root with
  | none => pure ()
  | some node => reuseLoop nodeCb (2 * (← bound) + 1) node
  setRoot root none
  setCount root 0

/-- `Clear`. -/
def clear (root : ι) : AvlM ι V Unit := reuseAllNodes root dropNode

/-- `ClearApply`. -/
def clearApply (root : ι) (cb : V → AvlM ι V Unit) : AvlM ι V Unit :=
  reuseAllNodes root fun node => do
    cb (← load node).value
    dropNode node

/-! ### Callbacks with a state

The callbacks above work on the memory of the trees.  A callback may also change things
elsewhere: below it takes a state of its own and returns it changed. -/

/-- The loop of `ReuseAllNodes`. -/
def reuseLoopWith {σ : Type} (nodeCb : Addr → σ → AvlM ι V σ) : ℕ → Addr → σ → AvlM ι V σ
  | 0, _, _ => failure
  | fuel + 1, node, st => do
    let n ← load node
    match n.left, n.right with
    | some left, _ => reuseLoopWith nodeCb fuel left st
    | none, some right => reuseLoopWith nodeCb fuel right st
    | none, none => do
      modifyNode node fun n => { n with left := none, parent := none, right := none }
      modifyNode node fun n => { n with height := 0 }
      match n.parent with
      | none => nodeCb node st
      | some parent => do
        replaceChild parent node none
        let st ← nodeCb node st
        reuseLoopWith nodeCb fuel parent st

/-- `ReuseAllNodes`. -/
def reuseAllNodesWith {σ : Type} (root : ι) (nodeCb : Addr → σ → AvlM ι V σ) (st : σ) :
    AvlM ι V σ := do
  let st ← match ← getRoot root with
    | none => pure st
    | some node => reuseLoopWith nodeCb (2 * (← bound) + 1) node st
  setRoot root none
  setCount root 0
  return st

/-- `ClearApply`. -/
def clearApplyWith {σ : Type} (root : ι) (cb : V → σ → σ) (st : σ) : AvlM ι V σ :=
  reuseAllNodesWith root (fun node st => do
    let st := cb (← load node).value st
    dropNode node
    return st) st

/-! ## Bounds -/

/-- The loop of the two bounds: an entry that is not before the bound is kept in `track`. -/
def boundLoop (T : AvlTraits K V) (isBehind : ℤ → Bool) (key : K) :
    ℕ → Option Addr → Option Addr → AvlM ι V (Option Addr)
  | _, none, track => return track
  | 0, some _, _ => failure
  | fuel + 1, some node, track => do
    let n ← load node
    if isBehind (T.cmp (T.gk n.value) key) then boundLoop T isBehind key fuel n.left (some node)
    else boundLoop T isBehind key fuel n.right track

/-- `LowerBound`. -/
def lowerBound (T : AvlTraits K V) (root : ι) (key : K) : AvlM ι V (Option Addr) := do
  boundLoop T (0 ≤ ·) key ((← bound) + 1) (← getRoot root) none

/-- `UpperBound`. -/
def upperBound (T : AvlTraits K V) (root : ι) (key : K) : AvlM ι V (Option Addr) := do
  boundLoop T (0 < ·) key ((← bound) + 1) (← getRoot root) none

/-! ## Iteration -/

/-- `for (; it != last; ++it)`, or the same with `--it`: the entries that are visited. -/
def visit (d : Dir) (last : Option Addr) : ℕ → Option Addr → AvlM ι V (List Addr)
  | 0, it => if it = last then return [] else failure
  | fuel + 1, it =>
    if it = last then return []
    else do
      let node ← deref it
      return node :: (← visit d last fuel (← getNeighbour d it))

/-- From one iterator to another. -/
def visitRange (first last : Option Addr) : AvlM ι V (List Addr) := do
  visit .right last ((← bound) + 1) first

/-- From `begin()` to `end()`. -/
def visitForward (root : ι) : AvlM ι V (List Addr) := do
  visitRange (← getFirstNode (← getRoot root)) none

/-- From `before_end()` back until null. -/
def visitBackward (root : ι) : AvlM ι V (List Addr) := do
  visit .left none ((← bound) + 1) (← getLastNode (← getRoot root))

/-- The inner loop of `DoInAll`: down to the left, the nodes on the way pushed on the stack. -/
def pushLefts : ℕ → Option Addr → List Addr → AvlM ι V (List Addr)
  | _, none, nodes => return nodes
  | 0, some _, _ => failure
  | fuel + 1, some root, nodes => do pushLefts fuel (← load root).left (root :: nodes)

/-- The loop of `DoInAll`.  The callback works on a state of its own. -/
def doInAllLoop {β : Type} (cb : V → β → β) : ℕ → Option Addr → List Addr → β → AvlM ι V β
  | 0, _, _, _ => failure
  | fuel + 1, root, nodes, acc =>
    if root = none ∧ nodes = [] then return acc
    else do
      match ← pushLefts ((← bound) + 1) root nodes with
      | [] => failure
      | node :: nodes => do
        let n ← load node
        doInAllLoop cb fuel n.right nodes (cb n.value acc)

/-- `DoInAll`. -/
def doInAll {β : Type} (root : ι) (cb : V → β → β) (acc : β) : AvlM ι V β := do
  doInAllLoop cb ((← bound) + 1) (← getRoot root) [] acc

end AvlTreeBase

end Mmkvc
