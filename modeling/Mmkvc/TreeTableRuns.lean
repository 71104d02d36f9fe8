/-
# Runs of operations on a `TreeHashTable`

The calls on a table as one step function with their results, the same calls on the trees
of its buckets, and that memory follows the trees.
-/
import Mmkvc.AvlRuns
import Mmkvc.TreeTableOperations

namespace Mmkvc

open AvlM LinkedTree Tables

variable {K V : Type}

/-- A call on a table.  `create` makes a node in no table, for `Push`; `eraseNode` is
`EraseNode` of the bucket and the node that `FindNode` has just returned for the key. -/
inductive TreeTableOp (K V : Type) where
  | insert (elem : V)
  | insertWithDuplicate (elem : V)
  | create (elem : V)
  | push (node : Addr)
  | find (key : K)
  | extract (key : K)
  | erase (key : K)
  | eraseNode (key : K)
  | clear
  | clearApply

namespace TreeHashTable

/-- What a call returns: whether it succeeded, and the entry it points to. -/
def call (T : HashTraits K V) : TreeTableOp K V → HtM V (Bool × Option Addr)
  | .insert elem => do
    let p ← insert T elem
    return (p.isSome, p)
  | .insertWithDuplicate elem => insertWithDuplicate T elem
  | .create elem => do return (true, some (← onHeap (AvlTreeBase.createNode elem)))
  | .push a => do return (← push T a, none)
  | .find key => do
    let p ← findNode T key
    return (p.isSome, p)
  | .extract key => do
    let p ← extract T key
    return (p.isSome, p)
  | .erase key => do return (0 < (← erase T key), none)
  | .eraseNode key => do
    match ← findNodeBucket T key with
    | some (b, a) => return (← eraseNode b (some a), none)
    | none => return (false, none)
  | .clear => do
    clear
    return (true, none)
  | .clearApply => do
    clearApply fun _ => return ()
    return (true, none)

/-- The entry at a pointer. -/
def entryAt (s : TreeHashTable V) (p : Option Addr) : Option (Addr × V) :=
  p.bind fun a => (s.heap.nodes a).map fun n => (a, n.value)

/-- The state after a call. -/
def step (T : HashTraits K V) (s : TreeHashTable V) (op : TreeTableOp K V) :
    Option (TreeHashTable V) := exec (call T op) s

/-- The result of a call with the entry it points to, `size()` after it, and the state. -/
def answer (T : HashTraits K V) (s : TreeHashTable V) (op : TreeTableOp K V) :
    Option (((Bool × Option (Addr × V)) × ℕ) × TreeHashTable V) :=
  ((call T op).run s).map fun r => (((r.1.1, entryAt r.2 r.1.2), r.2.getSize), r.2)

end TreeHashTable

/-! ## The trees of a table -/

/-- A table by its layout, its trees, the nodes that are in no tree, and the first address
that was never given out. -/
structure Snapshot (V : Type) where
  layout : Layout
  trees : Bucket → LinkedTree V
  loose : Multiset (Addr × AvlNode V)
  top : ℕ

namespace Snapshot

/-- The snapshot after a step of the rehash. -/
def advance (T : HashTraits K V) (c : Snapshot V) : Snapshot V :=
  { c with layout := c.layout.advance, trees := advanceTrees T c.layout c.trees }

/-- The snapshot after the start of a rehash, if it is time for one. -/
def start (c : Snapshot V) : Snapshot V := { c with layout := c.layout.start }

/-- The bucket of a key. -/
def bucketOf (T : HashTraits K V) (c : Snapshot V) (k : K) : Bucket := T.bucketOf c.layout k

/-- What an insertion of the entry `v` as the node `a` makes of its bucket. -/
def inserted (T : HashTraits K V) (c : Snapshot V) (a : Addr) (h : ℕ) (v : V) :
    Option Addr × LinkedTree V :=
  insertNew T.toAvlTraits (T.gk v) a h v (c.trees (c.bucketOf T (T.gk v)))

/-- What a removal makes of the bucket of a key. -/
def erased (T : HashTraits K V) (c : Snapshot V) (k : K) :
    Option (Addr × ℕ × V) × LinkedTree V :=
  LinkedTree.eraseKey T.toAvlTraits k (c.trees (c.bucketOf T k))

/-- Another tree in the bucket of a key. -/
def setBucket (T : HashTraits K V) (c : Snapshot V) (k : K) (t : LinkedTree V) : Snapshot V :=
  { c with trees := Function.update c.trees (c.bucketOf T k) t }

/-- The snapshot of an empty table. -/
def cleared (c : Snapshot V) : Snapshot V := { c with layout := Layout.fresh, trees := fun _ => nil }

/-- A new table. -/
def fresh : Snapshot V := ⟨Layout.fresh, fun _ => nil, 0, 0⟩

/-- Memory is as the snapshot says. -/
def Holds (c : Snapshot V) : TreeHashTable V → Prop :=
  TreeHashTable.Holds c.layout c.trees c.loose c.top

/-- The invariant of the trees, and nodes in no tree have no links. -/
structure Good (T : HashTraits K V) (c : Snapshot V) : Prop where
  trees : TreesInv T c.layout c.trees
  links : ∀ x ∈ c.loose, x.2.left = none ∧ x.2.right = none ∧ x.2.parent = none

/-- An insertion of a node that is made for it, in a snapshot after its step of the rehash. -/
def insertFresh (T : HashTraits K V) (c : Snapshot V) (v : V) : Snapshot V :=
  let out := c.inserted T c.top 1 v
  let c' := c.setBucket T (T.gk v) out.2
  if out.1.isNone then { c' with layout := c.layout.add, top := c.top + 1 } else c'

/-- **The calls on the trees**, with their results. -/
def Moves (T : HashTraits K V) (c : Snapshot V) :
    TreeTableOp K V → Bool × Option Addr → Snapshot V → Prop
  | .insert v, r, c' =>
    let c₁ := c.start.advance T
    let out := c₁.inserted T c₁.top 1 v
    r = (out.1.isNone, if out.1.isNone then some c₁.top else none) ∧ c' = c₁.insertFresh T v
  | .insertWithDuplicate v, r, c' =>
    let c₁ := c.start.advance T
    let out := c₁.inserted T c₁.top 1 v
    r = (out.1.isNone, some (out.1.getD c₁.top)) ∧ c' = c₁.insertFresh T v
  | .create v, r, c' => r = (true, some c.top)
      ∧ c' = { c with loose := {(c.top, ⟨none, none, none, 1, v⟩)} + c.loose, top := c.top + 1 }
  | .push a, r, c' => ∃ n L, c.loose = {(a, n)} + L
      ∧ let c₁ := c.start.advance T
        let out := c₁.inserted T a n.height n.value
        let c₂ := c₁.setBucket T (T.gk n.value) out.2
        r = (out.1.isNone, none)
          ∧ c' = if out.1.isNone then { c₂ with layout := c₁.layout.add, loose := L } else c₂
  | .find k, r, c' =>
    let c₁ := c.advance T
    let p := LinkedTree.find T.toAvlTraits k (c₁.trees (c₁.bucketOf T k))
    r = (p.isSome, p) ∧ c' = c₁
  | .extract k, r, c' =>
    let c₁ := c.advance T
    let out := c₁.erased T k
    let c₂ := c₁.setBucket T k out.2
    r = (out.1.isSome, out.1.map (·.1)) ∧ c' = { c₂ with
      layout := if out.1.isSome then c₁.layout.remove else c₁.layout
      loose := extracted out.1 c.loose }
  | .erase k, r, c' =>
    let c₁ := c.advance T
    let out := c₁.erased T k
    r = (out.1.isSome, none) ∧ c' = { c₁.setBucket T k out.2 with
      layout := if out.1.isSome then c₁.layout.remove else c₁.layout }
  | .eraseNode k, r, c' =>
    let c₁ := c.advance T
    let out := c₁.erased T k
    -- the count stays
    r = (out.1.isSome, none) ∧ c' = c₁.setBucket T k out.2
  | .clear, r, c' => r = (true, none) ∧ c' = c.cleared
  | .clearApply, r, c' => r = (true, none) ∧ c' = c.cleared

end Snapshot

namespace TreeHashTable

variable {T : HashTraits K V} {c : Snapshot V} {op : TreeTableOp K V} {s : TreeHashTable V}

/-- An insertion of a new node into the table and into the snapshot. -/
theorem insertFresh_spec (hT : LawfulHash T) (hc : c.Good T) (v : V) :
    let c₁ := c.start.advance T
    let out := c₁.inserted T c₁.top 1 v
    Triple c.Holds (insertWithDuplicate T v)
      fun r s => r = (out.1.isNone, some (out.1.getD c₁.top)) ∧ (c₁.insertFresh T v).Holds s := by
  intro c₁ out
  refine (insertWithDuplicate_spec hc.trees hT).post fun r s hs => ⟨hs.1, ?_⟩
  have hafter := hs.2
  change TreeHashTable.Holds (if out.1.isNone then c₁.layout.add else c₁.layout)
    (Function.update c₁.trees (c₁.bucketOf T (T.gk v)) out.2) c₁.loose
    (if out.1.isNone then c₁.top + 1 else c₁.top) s at hafter
  change (if out.1.isNone then _ else _ : Snapshot V).Holds s
  split_ifs with hnone
  · rw [if_pos hnone, if_pos hnone] at hafter
    exact hafter
  · rw [if_neg hnone, if_neg hnone] at hafter
    exact hafter

/-- `Insert` into the table and into the snapshot. -/
theorem insert_spec (hT : LawfulHash T) (hc : c.Good T) (v : V) :
    let c₁ := c.start.advance T
    let out := c₁.inserted T c₁.top 1 v
    Triple c.Holds (insert T v) fun p s => p = (if out.1.isNone then some c₁.top else none)
      ∧ (c₁.insertFresh T v).Holds s := by
  intro c₁ out
  refine Triple.bind (insertFresh_spec hT hc v) fun r => triple_pure fun s hs => ⟨?_, hs.2⟩
  rw [hs.1]
  change (if out.1.isNone then some (out.1.getD c₁.top) else none) = _
  cases out.1 <;> rfl

/-- `EraseNode` of what `FindNode` has returned. -/
theorem findErase_spec (hT : LawfulHash T) (hc : c.Good T) (k : K) :
    let c₁ := c.advance T
    let out := c₁.erased T k
    Triple c.Holds (call T (.eraseNode k)) fun r s => r = (out.1.isSome, none)
      ∧ (c₁.setBucket T k out.2).Holds s := by
  intro c₁ out
  have hf₁ : TreesInv T c₁.layout c₁.trees := (hc.trees.advance hT).1
  refine Triple.bind_eq (findNodeBucket_spec hc.trees hT) ?_
  change Triple (TreeHashTable.Holds c₁.layout c₁.trees c.loose c.top)
    (match (LinkedTree.find T.toAvlTraits k (c₁.trees (c₁.bucketOf T k))).map
        (fun a => (c₁.bucketOf T k, a)) with
      | some (b, a) => do return (← eraseNode b (some a), none)
      | none => return (false, none)) _
  cases hfind : LinkedTree.find T.toAvlTraits k (c₁.trees (c₁.bucketOf T k)) with
  | none =>
    have hout : out = (none, c₁.trees (c₁.bucketOf T k)) := eraseKey_of_find hfind
    rw [hout]
    refine triple_pure fun s hs => ⟨rfl, ?_⟩
    unfold Snapshot.setBucket Snapshot.Holds
    rw [Function.update_eq_self]
    exact hs
  | some a =>
    obtain ⟨h, v, hout⟩ := exists_eraseKey_of_find hfind
    have hspec : Triple (TreeHashTable.Holds c₁.layout c₁.trees c.loose c.top)
        (eraseNode (c₁.bucketOf T k) (some a))
        fun r s => r = true ∧ (c₁.setBucket T k out.2).Holds s := eraseNode_spec hf₁ hout
    refine Triple.bind hspec fun q => triple_pure fun s hs => ⟨?_, hs.2⟩
    rw [hs.1, show out.1 = some (a, h, v) from hout]
    rfl

/-- `Push` of a loose node into the table and into the snapshot. -/
theorem push_node_spec (hT : LawfulHash T) (hc : c.Good T) {a : Addr} {n : AvlNode V}
    {L : Multiset (Addr × AvlNode V)} (hL : c.loose = {(a, n)} + L) :
    let c₁ := c.start.advance T
    let out := c₁.inserted T a n.height n.value
    let c₂ := c₁.setBucket T (T.gk n.value) out.2
    Triple c.Holds (push T a) fun r s => r = out.1.isNone
      ∧ (if out.1.isNone then { c₂ with layout := c₁.layout.add, loose := L } else c₂).Holds s := by
  intro c₁ out c₂
  have hlinks := hc.links (a, n) (by rw [hL]; simp)
  have hspec : Triple (TreeHashTable.Holds c.layout c.trees ({(a, n)} + L) c.top) (push T a)
      fun r s => r = out.1.isNone
        ∧ TreeHashTable.Holds (if out.1.isNone then c₁.layout.add else c₁.layout) c₂.trees
          (if out.1.isNone then L else {(a, n)} + L) c₂.top s := push_spec hc.trees hT hlinks
  rw [← hL] at hspec
  refine hspec.post fun r s hs => ⟨hs.1, ?_⟩
  have hafter := hs.2
  change TreeHashTable.Holds (if out.1.isNone then c₁.layout.add else c₁.layout) c₂.trees
    (if out.1.isNone then L else c₂.loose) c₂.top s at hafter
  split_ifs with hnone
  · rw [if_pos hnone, if_pos hnone] at hafter
    exact hafter
  · rw [if_neg hnone, if_neg hnone] at hafter
    exact hafter

/-- The node that is pushed is in no tree. -/
def Pushable (c : Snapshot V) (op : TreeTableOp K V) : Prop :=
  ∀ a, op = .push a → ∃ n, (a, n) ∈ c.loose

/-- **Memory follows the trees.** -/
theorem call_spec (hT : LawfulHash T) (hc : c.Good T) (hpush : Pushable c op) :
    Triple c.Holds (call T op) fun r s => ∃ c', c.Moves T op r c' ∧ c'.Holds s := by
  cases op with
  | insert v =>
    refine Triple.bind (insert_spec hT hc v) fun p => triple_pure fun s hs => ⟨_, ⟨?_, rfl⟩, hs.2⟩
    rw [hs.1]
    cases ((c.start.advance T).inserted T (c.start.advance T).top 1 v).1 <;> rfl
  | insertWithDuplicate v =>
    exact (insertFresh_spec hT hc v).post fun r s hs => ⟨_, ⟨hs.1, rfl⟩, hs.2⟩
  | create v =>
    refine Triple.bind_eq (onHeap_forest Forest.createNode_spec) ?_
    exact triple_pure fun s hs => ⟨_, ⟨rfl, rfl⟩, hs⟩
  | push a =>
    obtain ⟨n, hn⟩ := hpush a rfl
    obtain ⟨L, hL⟩ := Multiset.exists_cons_of_mem hn
    rw [← Multiset.singleton_add] at hL
    refine Triple.bind (push_node_spec hT hc hL) fun r => triple_pure fun s hs =>
      ⟨_, ⟨n, L, hL, ?_, rfl⟩, hs.2⟩
    rw [hs.1]
  | find k =>
    refine Triple.bind (findNode_spec hc.trees hT) fun p => triple_pure fun s hs =>
      ⟨_, ⟨?_, rfl⟩, hs.2⟩
    rw [hs.1]
    rfl
  | extract k =>
    refine Triple.bind (extract_spec hc.trees hT) fun p => triple_pure fun s hs =>
      ⟨_, ⟨?_, rfl⟩, hs.2⟩
    rw [hs.1, Option.isSome_map]
    rfl
  | erase k =>
    refine Triple.bind (erase_spec hc.trees hT) fun q => triple_pure fun s hs =>
      ⟨_, ⟨?_, rfl⟩, hs.2⟩
    have hcount : ∀ b : Bool, decide (0 < if b then 1 else 0) = b := by decide
    rw [hs.1, hcount]
    rfl
  | eraseNode k =>
    exact (findErase_spec hT hc k).post fun r s hs => ⟨_, ⟨hs.1, rfl⟩, hs.2⟩
  | clear =>
    exact Triple.bind (clear_spec hc.trees) fun _ => triple_pure fun s hs => ⟨_, ⟨rfl, rfl⟩, hs⟩
  | clearApply =>
    exact Triple.bind (clearApply_spec hc.trees) fun _ => triple_pure fun s hs =>
      ⟨_, ⟨rfl, rfl⟩, hs⟩

end TreeHashTable

end Mmkvc
