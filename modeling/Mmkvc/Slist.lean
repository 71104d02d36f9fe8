/-
# Single-linked lists in memory (`algo/slist.h`)

A list is a header that points to its first node.  The lists of a table lie beside each
other in one memory, each under the name of its member `header_`.  A program over them gets
stuck where the source would follow a null or dangling pointer or where an assertion fails.
Loops are bounded by the number of nodes there can be.
-/
import Mmkvc.Cells
import Mmkvc.Triple

namespace Mmkvc

/-- `SNode<T>`. -/
structure SNode (V : Type) where
  value : V
  next : Option Addr
  deriving DecidableEq, Repr

/-- The nodes in memory, the first address that was never given out, and the member
`header_` of each list. -/
structure SlistHeap (ι V : Type) where
  nodes : Addr → Option (SNode V)
  next : Addr
  headers : ι → Option Addr

/-- A program over the lists. -/
abbrev SlistM (ι V : Type) := StateT (SlistHeap ι V) Option

namespace Slist

variable {ι V : Type} [DecidableEq ι]

/-! ## Memory -/

/-- `*node`. -/
def load (node : Addr) : SlistM ι V (SNode V) := fun s => (s.nodes node).map fun n => (n, s)

/-- An assignment to a member of `*node`. -/
def modifyNode (node : Addr) (g : SNode V → SNode V) : SlistM ι V Unit := fun s =>
  (s.nodes node).map fun n => ((), { s with nodes := Function.update s.nodes node (some (g n)) })

/-- `header_`, `header` and `FrontNode`. -/
def header (b : ι) : SlistM ι V (Option Addr) := fun s => some (s.headers b, s)

def setHeader (b : ι) (p : Option Addr) : SlistM ι V Unit := fun s =>
  some ((), { s with headers := Function.update s.headers b p })

/-- There are no more nodes than addresses were given out. -/
def bound : SlistM ι V ℕ := fun s => some (s.next, s)

/-- `CreateNode`. -/
def createNode (value : V) : SlistM ι V Addr := fun s =>
  some (s.next, { s with
    nodes := Function.update s.nodes s.next (some ⟨value, none⟩)
    next := s.next + 1 })

/-- `DropNode`. -/
def dropNode (node : Addr) : SlistM ι V Unit := fun s =>
  (s.nodes node).map fun _ => ((), { s with nodes := Function.update s.nodes node none })

/-! ## The front -/

/-- `empty`. -/
def isEmpty (b : ι) : SlistM ι V Bool := do return (← header b).isNone

/-- The address of `Front()`. -/
def front (b : ι) : SlistM ι V Addr := do
  match ← header b with
  | some node => return node
  | none => failure

/-- `EmplaceFrontNode`. -/
def emplaceFrontNode (b : ι) (node : Addr) : SlistM ι V Unit := do
  match ← header b with
  | some old => modifyNode node fun n => { n with next := some old }
  | none => pure ()
  setHeader b (some node)

/-- `EmplaceFront`. -/
def emplaceFront (b : ι) (value : V) : SlistM ι V Unit := do
  emplaceFrontNode b (← createNode value)

/-- `ExtractFront`. -/
def extractFront (b : ι) : SlistM ι V Addr := do
  match ← header b with
  | none => failure
  | some ret => do
    setHeader b (← load ret).next
    modifyNode ret fun n => { n with next := none }
    return ret

/-- `PopFront`. -/
def popFront (b : ι) : SlistM ι V Unit := do dropNode (← extractFront b)

/-! ## Search -/

/-- The loop of `SearchNodeIf`. -/
def searchLoop (pred : V → Bool) : ℕ → Option Addr → SlistM ι V (Option Addr)
  | _, none => return none
  | 0, some _ => failure
  | fuel + 1, some node => do
    let n ← load node
    if pred n.value then return some node else searchLoop pred fuel n.next

/-- `SearchNodeIf`. -/
def searchNodeIf (b : ι) (pred : V → Bool) : SlistM ι V (Option Addr) := do
  searchLoop pred ((← bound) + 1) (← header b)

/-- The loop of `ExtractNodeIf`, at the node before the one that is looked at. -/
def extractLoop (pred : V → Bool) : ℕ → Addr → SlistM ι V (Option Addr)
  | 0, _ => failure
  | fuel + 1, node => do
    match (← load node).next with
    | none => return none
    | some ret => do
      let n ← load ret
      if pred n.value then do
        modifyNode node fun m => { m with next := n.next }
        modifyNode ret fun m => { m with next := none }
        return some ret
      else extractLoop pred fuel ret

/-- `ExtractNodeIf`. -/
def extractNodeIf (b : ι) (pred : V → Bool) : SlistM ι V (Option Addr) := do
  match ← header b with
  | none => return none
  | some ret => do
    let n ← load ret
    if pred n.value then do
      setHeader b n.next
      modifyNode ret fun m => { m with next := none }
      return some ret
    else extractLoop pred ((← bound) + 1) ret

/-! ## Clearing -/

/-- The loop of `Clear`. -/
def clearLoop (b : ι) : ℕ → SlistM ι V Unit
  | 0 => failure
  | fuel + 1 => do
    match ← header b with
    | none => return ()
    | some node => do
      let oldNext := (← load node).next
      dropNode node
      setHeader b oldNext
      clearLoop b fuel

/-- `Clear`, and the destructor. -/
def clear (b : ι) : SlistM ι V Unit := do clearLoop b ((← bound) + 1)

end Slist

end Mmkvc
