/-
# The hash table with lists as buckets (`algo/hash_table.h`,
`algo/internal/hash_table_impl.h`)

Find and FindSlot move the entry they find to the front of its list.
-/
import Mmkvc.Slist
import Mmkvc.TableIterator

namespace Mmkvc

/-- The template arguments: the hash function `HF`, the key `GK` of a value, and the equality
`EK` of keys. -/
structure EqualTraits (K V : Type) where
  hash : K → BitVec 64
  gk : V → K
  equalKey : K → K → Bool

/-- `HashTable`. -/
abbrev HashTable (V : Type) := Tables (SlistHeap Bucket V)

/-- A program over a table. -/
abbrev HashM (V : Type) := TablesM (SlistHeap Bucket V)

namespace HashTable

open Slist Tables

variable {K V : Type}

/-- The lists as buckets. -/
def listBuckets : BucketOps (SlistHeap Bucket V) where
  construct b := setHeader b none
  destroy := Slist.clear
  swap h := { h with headers := fun b => h.headers (b.1.other, b.2) }

/-- `HashTable()`. -/
def construct : Option (HashTable V) := Tables.construct listBuckets ⟨fun _ => none, 0, fun _ => none⟩

/-! ## Rehashing -/

/-- `Rehash`. -/
def rehash : HashM V Unit := Tables.rehash listBuckets

/-- The loop of `IncrementalRehash`, which moves the nodes of a bucket to the second table. -/
def moveLoop (T : EqualTraits K V) (bucket1 : Bucket) (size2 : ℕ) (sizeMask2 : BitVec 64) :
    ℕ → SlistM Bucket V Unit
  | 0 => failure
  | fuel + 1 => do
    if ← isEmpty bucket1 then return ()
    else do
      let slot ← extractFront bucket1
      let i := (T.hash (T.gk (← load slot).value) &&& sizeMask2).toNat
      if i < size2 then do
        emplaceFrontNode (.table2, i) slot
        moveLoop T bucket1 size2 sizeMask2 fuel
      else failure

/-- `IncrementalRehash`.  `Table::Reset` is `Table::Shrink`. -/
def incrementalRehash (T : EqualTraits K V) : HashM V Unit :=
  Tables.incrementalRehash listBuckets
    (fun bucket1 size2 sizeMask2 => do moveLoop T bucket1 size2 sizeMask2 ((← bound) + 1))
    (shrink listBuckets .table2 0)

/-! ## Insertion -/

/-- `GetDuplicate`. -/
def getDuplicate (T : EqualTraits K V) (b : Bucket) (elem : V) : SlistM Bucket V (Option Addr) :=
  searchNodeIf b fun val => T.equalKey (T.gk elem) (T.gk val)

/-- `CHECK_AND_SET_DUPLICATE`, with what follows if there is no duplicate. -/
def checkDuplicate (T : EqualTraits K V) (b : Bucket) (elem : V) (after : HashM V (Bool × Addr)) :
    HashM V (Bool × Addr) := do
  match ← onHeap (getDuplicate T b elem) with
  | some duplicate => return (false, duplicate)
  | none => after

/-- The end of `InsertWithDuplicate`. -/
def emplace (b : Bucket) (elem : V) : HashM V (Bool × Addr) := do
  onHeap (emplaceFront b elem)
  let duplicate ← onHeap (front b)
  setUsed (· + 1)
  return (true, duplicate)

/-- `InsertWithDuplicate`. -/
def insertWithDuplicate (T : EqualTraits K V) (elem : V) : HashM V (Bool × Addr) := do
  rehash
  incrementalRehash T
  let hashVal := T.hash (T.gk elem)
  let bucketIndex1 ← read (bucketIndex .table1 hashVal)
  match ← read (·.rehashMoveBucketIndex) with
  | none => do
    let b ← bucket .table1 bucketIndex1
    checkDuplicate T b elem (emplace b elem)
  | some i => do
    let bucketIndex2 ← read (bucketIndex .table2 hashVal)
    if bucketIndex1 < i then do
      let b ← bucket .table2 bucketIndex2
      checkDuplicate T b elem (emplace b elem)
    else do
      -- a new entry goes to the second table also if its bucket is yet to be moved
      let b ← bucket .table1 bucketIndex1
      checkDuplicate T b elem do
        let b ← bucket .table2 bucketIndex2
        checkDuplicate T b elem (emplace b elem)

/-- `Insert`. -/
def insert (T : EqualTraits K V) (elem : V) : HashM V (Option Addr) := do
  let (success, duplicate) ← insertWithDuplicate T elem
  return if success then some duplicate else none

/-! ## Search -/

/-- `FindSlot`.  The pointer to a slot is that to the header of a bucket. -/
def findSlot (T : EqualTraits K V) (key : K) : HashM V (Option Bucket) := do
  incrementalRehash T
  let found ← forTables (T.hash key) fun b => do
    return (← onHeap (extractNodeIf b fun value => T.equalKey (T.gk value) key)).map fun slot => (b, slot)
  match found with
  | none => return none
  | some (b, slot) => do
    onHeap (emplaceFrontNode b slot)
    if (← onHeap (header b)) = some slot then return some b else failure

/-- `Find`. -/
def find (T : EqualTraits K V) (key : K) : HashM V (Option Addr) := do
  match ← findSlot T key with
  | some b => return some (← onHeap (front b))
  | none => return none

/-! ## Removal -/

/-- `EraseAfterFindSlot`. -/
def eraseAfterFindSlot (b : Bucket) : HashM V Unit := onHeap do
  let old ← front b
  setHeader b (← load old).next
  dropNode old

/-- `Extract`. -/
def extract (T : EqualTraits K V) (key : K) : HashM V (Option Addr) := do
  incrementalRehash T
  forTables (T.hash key) fun b => do
    match ← onHeap (extractNodeIf b fun val => T.equalKey (T.gk val) key) with
    | some node => do
      setUsed (· - 1)
      return some node
    | none => return none

/-- `Erase`. -/
def erase (T : EqualTraits K V) (key : K) : HashM V ℕ := do
  match ← extract T key with
  | some node => do
    onHeap (dropNode node)
    return 1
  | none => return 0

/-- `Clear`. -/
def clear : HashM V Unit := Tables.clear listBuckets

/-! ## The iterator -/

/-- The lists as an iterator goes through them. -/
def listWalk : BucketWalk (SlistHeap Bucket V) where
  isEmpty := Slist.isEmpty
  front := Slist.front
  next slot := do return (← load slot).next
  bound := Slist.bound

/-- The entries from `begin()` to `end()`. -/
def visitAll : HashM V (List Addr) := Tables.visitAll listWalk

end HashTable

end Mmkvc
