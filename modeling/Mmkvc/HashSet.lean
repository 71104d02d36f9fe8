/-
# The hash set (`algo/hash_set.h`, `algo/internal/hash_set_impl.h`)

A set is a table whose entries are their own keys.  Union, Intersection, Difference and Clone
are programs over two sets, which may be the same one but for Clone; a callback is given by the
elements it is called on.
-/
import Mmkvc.HashTable

namespace Mmkvc

/-- The template arguments of the table under a set. -/
def setTraits {K : Type} (hash : K → BitVec 64) (equalKey : K → K → Bool) : EqualTraits K K where
  hash := hash
  gk := id
  equalKey := equalKey

namespace HashTable

open Slist Tables

variable {K V : Type}

/-! ## Random removal -/

/-- The inner loop of `EraseRandom`, from the bucket `j` on, `n` of them. -/
def eraseFirst (t : TableName) : ℕ → ℕ → HashM V Bool
  | _, 0 => return false
  | j, n + 1 => do
    let b ← bucket t j
    if ← onHeap (isEmpty b) then eraseFirst t (j + 1) n
    else do
      onHeap (popFront b)
      return true

/-- `EraseRandom`. -/
def eraseRandom (T : EqualTraits K V) : HashM V ℕ := do
  incrementalRehash T
  let size1 ← read (·.size .table1)
  match ← read (·.rehashMoveBucketIndex) with
  | none => return if ← eraseFirst .table1 0 size1 then 1 else 0
  | some j => do
    if ← eraseFirst .table1 j (size1 - j) then return 1
    else do
      let size2 ← read (·.size .table2)
      return if ← eraseFirst .table2 0 size2 then 1 else 0

end HashTable

/-! ## Operations on two sets -/

namespace HashSet

open Slist Tables HashTable

variable {K : Type}

/-- `*this` and the argument `hs`. -/
inductive Operand where
  | this
  | hs
  deriving DecidableEq, Repr

/-- The other one. -/
def Operand.other : Operand → Operand
  | .this => .hs
  | .hs => .this

/-- How a program gets at the two sets in its state. -/
abbrev Access (K σ : Type) := {α : Type} → Operand → HashM K α → StateT σ Option α

/-- Two sets. -/
def apart : Access K (Operand → HashTable K) := fun o p s =>
  (p.run (s o)).map fun r => (r.1, Function.update s o r.2)

/-- One set that is both. -/
def same : Access K (HashTable K) := fun _ p => p

section

variable {σ : Type} (on : Access K σ)

/-- The loop `for (auto const& m : set)`.  Gives the elements on which the body calls the
callback. -/
def forEach (o : Operand) (body : K → StateT σ Option (List K)) : StateT σ Option (List K) :=
  forAll listWalk (on o) fun slot => do body (← on o (onHeap (load slot))).value

/-- `less_set`; the other one is `more_set`. -/
def lessSet : StateT σ Option Operand := do
  return if (← on .this (read getSize)) < (← on .hs (read getSize)) then .this else .hs

/-- `Union`. -/
def union (T : EqualTraits K K) : StateT σ Option (List K) := do
  let less ← lessSet on
  let called ← forEach on less.other fun m => return [m]
  return called ++ (← forEach on less fun m => do
    return if (← on less.other (find T m)).isNone then [m] else [])

/-- `Intersection`. -/
def intersection (T : EqualTraits K K) : StateT σ Option (List K) := do
  let less ← lessSet on
  forEach on less fun m => do
    return if (← on less.other (find T m)).isSome then [m] else []

/-- `Difference`. -/
def difference (T : EqualTraits K K) : StateT σ Option (List K) :=
  forEach on .this fun m => do
    return if (← on .hs (find T m)).isNone then [m] else []

/-! ### Copying -/

/-- The loop `for (auto const &val : olst)` over a list of the other set. -/
def forNodes (each : K → StateT σ Option Unit) : ℕ → Option Addr → StateT σ Option Unit
  | _, none => return ()
  | 0, some _ => failure
  | fuel + 1, some slot => do
    let n ← on .hs (onHeap (load slot))
    each n.value
    forNodes each fuel n.next

/-- The loops over the lists of a table of the other set from `i` on, `n` of them, where `body`
gives what is done with each element of a list. -/
def forLists (t : TableName) (body : ℕ → StateT σ Option (K → StateT σ Option Unit)) :
    ℕ → ℕ → StateT σ Option Unit
  | _, 0 => return ()
  | i, n + 1 => do
    let each ← body i
    let olst ← on .hs (bucket t i)
    forNodes on each ((← on .hs (onHeap bound)) + 1) (← on .hs (onHeap (header olst)))
    forLists t body (i + 1) n

/-- The elements of a list go to the list at the same index. -/
def copyList (i : ℕ) : StateT σ Option (K → StateT σ Option Unit) := do
  let lst ← on .this (bucket .table1 i)
  return fun val => on .this (onHeap (emplaceFront lst val))

/-- The elements of a list go where their hash values say. -/
def rehashList (T : EqualTraits K K) (_ : ℕ) : StateT σ Option (K → StateT σ Option Unit) :=
  return fun val => do
    let lst ← on .this (bucketOf .table1 (T.hash val))
    on .this (onHeap (emplaceFront lst val))

/-- `Clone`. -/
def clone (T : EqualTraits K K) : StateT σ Option Unit := do
  match ← on .hs (read (·.rehashMoveBucketIndex)) with
  | some i => do
    let osize2 ← on .hs (read (·.size .table2))
    on .this (grow listBuckets .table1 osize2)
    forLists on .table2 (copyList on) 0 osize2
    forLists on .table1 (rehashList on T) i ((← on .hs (read (·.size .table1))) - i)
  | none => do
    let n ← on .hs (read (·.size .table1))
    on .this (grow listBuckets .table1 n)
    forLists on .table1 (copyList on) 0 n
  let used ← on .hs (read getSize)
  on .this (setUsed fun _ => used)

end

end HashSet

end Mmkvc
