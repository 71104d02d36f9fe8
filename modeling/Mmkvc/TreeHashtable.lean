/-
# The hash table with trees as buckets (`algo/internal/tree_hashtable.h`,
`tree_hashtable_impl.h`)

The buckets are AVL trees in one memory, named by table and index, so that nodes can
move from one to another.
-/
import Mmkvc.AvlTreeBase
import Mmkvc.TableIterator

namespace Mmkvc

/-- The template arguments: those of the trees, and the hash function `HF`. -/
structure HashTraits (K V : Type) extends AvlTraits K V where
  hash : K → BitVec 64

/-- `TreeHashTable`. -/
abbrev TreeHashTable (V : Type) := Tables (AvlHeap Bucket V)

/-- A program over a table. -/
abbrev HtM (V : Type) := TablesM (AvlHeap Bucket V)

namespace TreeHashTable

open AvlM AvlTreeBase Tables

variable {K V : Type}

/-- The trees as buckets. -/
def treeBuckets : BucketOps (AvlHeap Bucket V) where
  construct b := setRoot b none
  destroy := AvlTreeBase.clear
  swap h := { h with
    roots := fun b => h.roots (b.1.other, b.2)
    counts := fun b => h.counts (b.1.other, b.2) }

/-- `TreeHashTable()`. -/
def construct : Option (TreeHashTable V) :=
  Tables.construct treeBuckets ⟨fun _ => none, 0, fun _ => none, fun _ => 0⟩

/-! ## Rehashing -/

/-- `Rehash`. -/
def rehash : HtM V Unit := Tables.rehash treeBuckets

/-- The callback of `IncrementalRehash`, which moves a node to the second table. -/
def moveNode (T : HashTraits K V) (size2 : ℕ) (sizeMask2 : BitVec 64) (node : Addr) :
    AvlM Bucket V Unit := do
  let i := (T.hash (T.gk (← load node).value) &&& sizeMask2).toNat
  if i < size2 then do
    let _ ← AvlTreeBase.push T.toAvlTraits (.table2, i) node
  else failure

/-- `IncrementalRehash`.  `Table::Reset` leaves the mask as it is. -/
def incrementalRehash (T : HashTraits K V) : HtM V Unit :=
  Tables.incrementalRehash treeBuckets
    (fun bucket1 size2 sizeMask2 => reuseAllNodes bucket1 (moveNode T size2 sizeMask2))
    (shrinkArray treeBuckets .table2 0)

/-! ## Insertion -/

/-- `INSERT_AND_SET_DUPLICATE` and `PUSH_AND_SET_DUPLICATE`, with the count that follows. -/
def insertInto (insert : Bucket → AvlM Bucket V (Bool × Option Addr)) (b : Bucket) :
    HtM V (Bool × Option Addr) := do
  let (success, duplicate) ← onHeap (insert b)
  if success then setUsed (· + 1)
  return (success, duplicate)

/-- `InsertWithDuplicate`. -/
def insertWithDuplicate (T : HashTraits K V) (elem : V) : HtM V (Bool × Option Addr) := do
  rehash
  incrementalRehash T
  let insert := fun b => AvlTreeBase.insertWithDuplicate T.toAvlTraits b elem true
  let hashVal := T.hash (T.gk elem)
  let bucketIndex1 ← read (bucketIndex .table1 hashVal)
  match ← read (·.rehashMoveBucketIndex) with
  | none => insertInto insert (← bucket .table1 bucketIndex1)
  | some i =>
    if bucketIndex1 < i then insertInto insert (← bucketOf .table2 hashVal)
    else do
      match ← onHeap (findNode T.toAvlTraits (← bucketOf .table2 hashVal) (T.gk elem)) with
      | some value => return (false, some value)
      | none => insertInto insert (← bucket .table1 bucketIndex1)

/-- `Insert`. -/
def insert (T : HashTraits K V) (elem : V) : HtM V (Option Addr) := do
  let (success, duplicate) ← insertWithDuplicate T elem
  return if success then duplicate else none

/-- `PushWithDuplicate`, where `duplicate` is whether its argument is not null. -/
def pushWithDuplicate (T : HashTraits K V) (node : Addr) (duplicate : Bool) :
    HtM V (Bool × Option Addr) := do
  rehash
  incrementalRehash T
  let push := fun b => AvlTreeBase.pushWithDuplicate T.toAvlTraits b node duplicate
  let key := T.gk (← onHeap (load node)).value
  let bucketIndex1 ← read (bucketIndex .table1 (T.hash key))
  match ← read (·.rehashMoveBucketIndex) with
  | none => insertInto push (← bucket .table1 bucketIndex1)
  | some i =>
    if bucketIndex1 < i then insertInto push (← bucketOf .table2 (T.hash key))
    else do
      -- the second table is looked at when the node is already in the first one
      let (success, dup) ← onHeap (push (← bucket .table1 bucketIndex1))
      if success then
        match ← onHeap (findNode T.toAvlTraits (← bucketOf .table2 (T.hash key)) key) with
        | some value => return (false, if duplicate then some value else dup)
        | none => do
          setUsed (· + 1)
          return (true, dup)
      else return (false, dup)

/-- `Push`. -/
def push (T : HashTraits K V) (node : Addr) : HtM V Bool := do
  return (← pushWithDuplicate T node false).1

/-! ## Search and removal -/

/-- `FindNode`, and `Find` with the pointer to the value of the node. -/
def findNode (T : HashTraits K V) (key : K) : HtM V (Option Addr) := do
  incrementalRehash T
  forTables (T.hash key) fun b => onHeap (AvlTreeBase.findNode T.toAvlTraits b key)

/-- `FindNode` with a pointer for the bucket. -/
def findNodeBucket (T : HashTraits K V) (key : K) : HtM V (Option (Bucket × Addr)) := do
  incrementalRehash T
  forTables (T.hash key) fun b => do
    return (← onHeap (AvlTreeBase.findNode T.toAvlTraits b key)).map fun node => (b, node)

/-- `Extract`. -/
def extract (T : HashTraits K V) (key : K) : HtM V (Option Addr) := do
  incrementalRehash T
  forTables (T.hash key) fun b => do
    match ← onHeap (AvlTreeBase.extract T.toAvlTraits b key) with
    | some node => do
      setUsed (· - 1)
      return some node
    | none => return none

/-- `Erase`. -/
def erase (T : HashTraits K V) (key : K) : HtM V ℕ := do
  match ← extract T key with
  | some node => do
    onHeap (dropNode node)
    return 1
  | none => return 0

/-- `EraseNode`. -/
def eraseNode (b : Bucket) (node : Option Addr) : HtM V Bool :=
  onHeap (AvlTreeBase.eraseNode b node)

/-- `Clear`. -/
def clear : HtM V Unit := Tables.clear treeBuckets

/-- `table(t)[i].ClearApply(cb)` for the buckets from `i` on, `n` of them. -/
def clearApplyBuckets (t : TableName) (cb : V → AvlM Bucket V Unit) (i n : ℕ) : HtM V Unit :=
  forBuckets (fun b => AvlTreeBase.clearApply b cb) t i n

/-- `ClearApply`. -/
def clearApply (cb : V → AvlM Bucket V Unit) : HtM V Unit := do
  clearApplyBuckets .table1 cb 4 ((← read (·.size .table1)) - 4)
  shrink treeBuckets .table1 4
  clearApplyBuckets .table1 cb 0 4
  setUsed fun _ => 0
  if (← read (·.rehashMoveBucketIndex)).isSome then do
    clearApplyBuckets .table2 cb 0 (← read (·.size .table2))
    shrink treeBuckets .table2 0
  setRehashIndex none

/-- The same loop for a callback with a state. -/
def clearApplyBucketsWith {σ : Type} (t : TableName) (cb : V → σ → σ) : ℕ → ℕ → σ → HtM V σ
  | _, 0, st => return st
  | i, n + 1, st => do
    let st ← onHeap (AvlTreeBase.clearApplyWith (← bucket t i) cb st)
    clearApplyBucketsWith t cb (i + 1) n st

/-- `ClearApply`, for a callback with a state. -/
def clearApplyWith {σ : Type} (cb : V → σ → σ) (st : σ) : HtM V σ := do
  let st ← clearApplyBucketsWith .table1 cb 4 ((← read (·.size .table1)) - 4) st
  shrink treeBuckets .table1 4
  let st ← clearApplyBucketsWith .table1 cb 0 4 st
  setUsed fun _ => 0
  let st ←
    if (← read (·.rehashMoveBucketIndex)).isSome then do
      let st ← clearApplyBucketsWith .table2 cb 0 (← read (·.size .table2)) st
      shrink treeBuckets .table2 0
      pure st
    else pure st
  setRehashIndex none
  return st

/-! ## The iterator -/

/-- The trees as an iterator goes through them. -/
def treeWalk : BucketWalk (AvlHeap Bucket V) where
  isEmpty b := do return (← getRoot b).isNone
  front b := do deref (← AvlUtil.getFirstNode (← getRoot b))
  next slot := AvlUtil.getNextNode (some slot)
  bound := AvlM.bound

/-- The entries from `begin()` to `end()`. -/
def visitAll : HtM V (List Addr) := Tables.visitAll treeWalk

end TreeHashTable

end Mmkvc
