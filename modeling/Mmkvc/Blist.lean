/-
# Double-linked lists in memory (`algo/blist.h`)

A list without a sentinel.  `prev` of the first node is the last one, so that the list is a
circle backwards, and `next` of the last node is null.  The number of nodes is counted apart, and
`PopFront` and `PopBack` look at the count, not at the links, to see whether a node is the only
one.  As for the other lists, a program gets stuck where the source would follow a null or dangling
pointer or where an assertion fails.
-/
import Mmkvc.Cells
import Mmkvc.Triple

namespace Mmkvc

/-- `BNode<T>`. -/
structure BNode (V : Type) where
  value : V
  prev : Option Addr
  next : Option Addr
  deriving DecidableEq, Repr

/-- A list: the nodes in its memory, in the list or not, and the members `header_` and `count_`. -/
structure Blist (V : Type) where
  nodes : Addr → Option (BNode V)
  header : Option Addr
  count : ℕ

/-- A program over a list. -/
abbrev BlistM (V : Type) := StateT (Blist V) Option

namespace Blist

variable {V : Type}

/-- A list by the default constructor. -/
def new : Blist V := ⟨fun _ => none, none, 0⟩

/-! ## Memory -/

/-- `*p`, of a pointer that may be null. -/
def deref : Option Addr → BlistM V Addr
  | none => failure
  | some node => return node

/-- The members of `*node`. -/
def load (node : Addr) : BlistM V (BNode V) := fun s => (s.nodes node).map fun n => (n, s)

/-- An assignment to members of `*node`. -/
def modifyNode (node : Addr) (g : BNode V → BNode V) : BlistM V Unit := fun s =>
  (s.nodes node).map fun n => ((), { s with nodes := Function.update s.nodes node (some (g n)) })

/-- `node->prev = p`. -/
def setPrev (node : Addr) (p : Option Addr) : BlistM V Unit :=
  modifyNode node fun n => { n with prev := p }

/-- `node->next = p`. -/
def setNext (node : Addr) (p : Option Addr) : BlistM V Unit :=
  modifyNode node fun n => { n with next := p }

/-- `CreateNode`, at the address that the allocator answers with. -/
def createNode (node : Addr) (value : V) : BlistM V Unit := fun s =>
  match s.nodes node with
  | some _ => none
  | none => some ((), { s with nodes := Function.update s.nodes node (some ⟨value, none, none⟩) })

/-- `DropNode`. -/
def dropNode (node : Addr) : BlistM V Unit := fun s =>
  (s.nodes node).map fun _ => ((), { s with nodes := Function.update s.nodes node none })

/-- `header_`. -/
def getHeader : BlistM V (Option Addr) := fun s => some (s.header, s)

def putHeader (p : Option Addr) : BlistM V Unit := fun s => some ((), { s with header := p })

/-- `count_`, of type `size_t`. -/
def getCount : BlistM V ℕ := fun s => some (s.count, s)

def putCount (n : ℕ) : BlistM V Unit := fun s => some ((), { s with count := n })

/-- `count_++`. -/
def incCount : BlistM V Unit := do putCount (((← getCount) + 1) % 2 ^ 64)

/-- `count_--`. -/
def decCount : BlistM V Unit := do putCount (((← getCount) + (2 ^ 64 - 1)) % 2 ^ 64)

/-- `max_size`. -/
def maxSize : ℕ := 2 ^ 64 - 1

/-! ## Pushes -/

/-- `SetHeader`. -/
def setHeader (header : Option Addr) : BlistM V Unit := do
  putHeader header
  let node ← deref (← getHeader)
  setPrev node (some node)
  guard (← load node).next.isNone

/-- `PRE_PUSH`, and what follows it for a list that is not empty. -/
def prePush (node : Addr) (body : Addr → BlistM V ℕ) : BlistM V ℕ := do
  match ← getHeader with
  | none => do
    setHeader (some node)
    putCount 1
    return 1
  | some front => do
    if (← getCount) > maxSize then return 0 else body front

/-- `PushFront`. -/
def pushFront (node : Addr) : BlistM V ℕ :=
  prePush node fun front => do
    setNext node (some front)
    setPrev node (← load front).prev
    setPrev front (some node)
    putHeader (some node)
    incCount
    return 1

/-- `PushBack`. -/
def pushBack (node : Addr) : BlistM V ℕ :=
  prePush node fun front => do
    setPrev node (← load front).prev
    setNext (← deref (← load front).prev) (some node)
    setPrev front (some node)
    guard (← load node).next.isNone
    incCount
    return 1

/-- In `InsertAfter`: the link back from what follows. -/
def linkBack (next : Option Addr) (newNode : Addr) : BlistM V Unit := do
  match next with
  | some next => setPrev next (some newNode)
  | none => setPrev (← deref (← getHeader)) (some newNode)

/-- `InsertAfter`.  On an empty list the source gives `node`, which is null, to `SetHeader`. -/
def insertAfter (node : Option Addr) (newNode : Addr) : BlistM V Unit := do
  match node with
  | none => do
    guard (← getHeader).isNone
    setHeader node
    incCount
  | some node => do
    let next := (← load node).next
    setPrev newNode (some node)
    setNext newNode next
    linkBack next newNode
    setNext node (some newNode)
    incCount

/-! ## Removals -/

/-- `PRE_POP`, and what follows it for a list of more than one node. -/
def prePop (body : Addr → BlistM V ℕ) : BlistM V ℕ := do
  match ← getHeader with
  | none => return 0
  | some front => do
    if (← getCount) = 1 then do
      dropNode front
      putHeader none
      putCount 0
      return 1
    else body front

/-- `PopFront`. -/
def popFront : BlistM V ℕ :=
  prePop fun front => do
    let newHeader := (← load front).next
    setPrev (← deref newHeader) (← load front).prev
    dropNode front
    putHeader newHeader
    decCount
    return 1

/-- `PopBack`. -/
def popBack : BlistM V ℕ :=
  prePop fun front => do
    let oldEnd ← deref (← load front).prev
    setNext (← deref (← load oldEnd).prev) none
    setPrev front (← load oldEnd).prev
    dropNode oldEnd
    decCount
    return 1

/-- In `Extract`: the link back, of the next node or of the header. -/
def relinkBack (n : BNode V) : BlistM V Unit := do
  match n.next with
  | some next => setPrev next n.prev
  | none => do
    let front ← deref (← getHeader)
    guard (← load (← deref (← load front).prev)).next.isNone
    setPrev front n.prev

/-- In `Extract`: the link of the previous node, or the header. -/
def relinkNext (node : Addr) (n : BNode V) : BlistM V Unit := do
  if (← getHeader) = some node then putHeader n.next
  else setNext (← deref n.prev) n.next

/-- `Extract`. -/
def extract (node : Option Addr) : BlistM V Unit := do
  match node with
  | none => return ()
  | some node => do
    if (← load node).prev.isNone then return () else do
      relinkBack (← load node)
      relinkNext node (← load node)
      setNext node none
      setPrev node none
      decCount

/-- `Erase`. -/
def erase (node : Addr) : BlistM V Unit := do
  extract (some node)
  dropNode node

/-- The loop of `Clear`. -/
def clearLoop : ℕ → BlistM V Unit
  | 0 => failure
  | fuel + 1 => do
    match ← getHeader with
    | none => return ()
    | some front => do
      let node := (← load front).next
      dropNode front
      putHeader node
      clearLoop fuel

/-- `Clear`.  There are no more nodes than addresses. -/
def clear : BlistM V Unit := do
  clearLoop (2 ^ 64)
  putCount 0

end Blist

end Mmkvc
