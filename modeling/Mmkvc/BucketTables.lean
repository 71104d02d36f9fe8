/-
# The two tables of a hash table (`struct Table` of `algo/hash_table.h` and
`algo/internal/tree_hashtable.h`, `algo/reserved_array.h`)

`HashTable` and `TreeHashTable` have the same two tables and go on with a rehash in the same
way; they differ in their buckets.  The buckets of both tables live in one memory, named by
table and index, so that nodes can move from one to another.  The tables are as large as the
source makes them: there is always memory for a larger one, and sizes are plain numbers.
`assert(i < size())` of the array access is kept.
-/
import Mmkvc.IncrementalRehashing
import Mmkvc.Triple

namespace Mmkvc

/-- The members of both classes: the memory of the buckets, for each table its size and
`size_mask`, `used` of the first table (that of the second is not used), and
`rehash_move_bucket_index_`, which is nothing for -1. -/
structure Tables (M : Type) where
  heap : M
  size : TableName → ℕ
  sizeMask : TableName → BitVec 64
  used : ℕ
  rehashMoveBucketIndex : Option ℕ

/-- A program over the tables. -/
abbrev TablesM (M : Type) := StateT (Tables M) Option

/-- What the tables need of their buckets: the constructor, the destructor, and the exchange of
the buckets of both tables. -/
structure BucketOps (M : Type) where
  construct : Bucket → StateT M Option Unit
  destroy : Bucket → StateT M Option Unit
  swap : M → M

namespace Tables

variable {M α : Type}

/-- An operation of a bucket. -/
def onHeap (p : StateT M Option α) : TablesM M α := fun s =>
  (p.run s.heap).map fun r => (r.1, { s with heap := r.2 })

/-- A function of the members. -/
def read (f : Tables M → α) : TablesM M α := fun s => some (f s, s)

def setUsed (f : ℕ → ℕ) : TablesM M Unit := fun s => some ((), { s with used := f s.used })

def setRehashIndex (i : Option ℕ) : TablesM M Unit := fun s =>
  some ((), { s with rehashMoveBucketIndex := i })

/-- `size` and `GetSize`. -/
def getSize (s : Tables M) : ℕ := s.used

/-- `empty`. -/
def isEmpty (s : Tables M) : Bool := s.getSize = 0

/-! ## `ReservedArray` and `Table` -/

/-- `assert(i < size())` of `table(t)[i]`. -/
def bucket (t : TableName) (i : ℕ) : TablesM M Bucket := fun s =>
  if i < s.size t then some ((t, i), s) else none

/-- The size of a table. -/
def setSize (t : TableName) (n : ℕ) : TablesM M Unit := fun s =>
  some ((), { s with size := Function.update s.size t n })

/-- `size_mask = size() - 1`. -/
def setSizeMask (t : TableName) : TablesM M Unit := fun s =>
  some ((), { s with sizeMask := Function.update s.sizeMask t (BitVec.ofNat 64 (s.size t) - 1) })

/-- An operation on the buckets from `i` on, `n` of them. -/
def forRange (p : Bucket → StateT M Option Unit) (t : TableName) : ℕ → ℕ → StateT M Option Unit
  | _, 0 => return ()
  | i, n + 1 => do
    p (t, i)
    forRange p t (i + 1) n

variable (ops : BucketOps M)

/-- `ReservedArray::Grow`. -/
def growArray (t : TableName) (n : ℕ) : TablesM M Unit := do
  let size ← read (·.size t)
  if n ≤ size then return ()
  else do
    onHeap (forRange ops.construct t size (n - size))
    setSize t n

/-- `ReservedArray::Shrink`. -/
def shrinkArray (t : TableName) (n : ℕ) : TablesM M Unit := do
  let size ← read (·.size t)
  if size ≤ n then return ()
  else do
    onHeap (forRange ops.destroy t n (size - n))
    setSize t n

/-- `Table::Grow`. -/
def grow (t : TableName) (expectedSize : ℕ) : TablesM M Unit := do
  growArray ops t expectedSize
  setSizeMask t

/-- `Table::Shrink`. -/
def shrink (t : TableName) (expectedSize : ℕ) : TablesM M Unit := do
  shrinkArray ops t expectedSize
  setSizeMask t

/-- `table1().swap(table2())`: everything but `used`. -/
def swapTables : TablesM M Unit := fun s =>
  some ((), { s with
    heap := ops.swap s.heap
    size := fun t => s.size t.other
    sizeMask := fun t => s.sizeMask t.other })

/-- The two tables before the constructor's body. -/
def raw (m : M) : Tables M where
  heap := m
  size _ := 0
  sizeMask _ := BitVec.ofNat 64 0 - 1
  used := 0
  rehashMoveBucketIndex := none

/-! ## The members of both classes -/

/-- `bucket_index`. -/
def bucketIndex (t : TableName) (hashVal : BitVec 64) (s : Tables M) : ℕ :=
  (hashVal &&& s.sizeMask t).toNat

/-- `&table(t)[bucket_index(t, hash_val)]`. -/
def bucketOf (t : TableName) (hashVal : BitVec 64) : TablesM M Bucket := do
  bucket t (← read (bucketIndex t hashVal))

/-- `Rehash`. -/
def rehash : TablesM M Unit := do
  let s ← read id
  if s.rehashMoveBucketIndex = none ∧ s.size .table1 ≤ s.used then do
    grow ops .table2 (s.size .table1 <<< 1)
    setRehashIndex (some 0)

/-- `IncrementalRehash`, where `move` moves a bucket to the second table, of which it is given
the size and the mask, and `reset` is `Table::Reset` of the second table. -/
def incrementalRehash (move : Bucket → ℕ → BitVec 64 → StateT M Option Unit)
    (reset : TablesM M Unit) : TablesM M Unit := do
  match ← read (·.rehashMoveBucketIndex) with
  | none => return ()
  | some i => do
    let bucket1 ← bucket .table1 i
    let size2 ← read (·.size .table2)
    let sizeMask2 ← read (·.sizeMask .table2)
    onHeap (move bucket1 size2 sizeMask2)
    setRehashIndex (some (i + 1))
    if i + 1 = (← read (·.size .table1)) then do
      setRehashIndex none
      if (← read (·.size .table2)) ≠ 0 then do
        swapTables ops
        reset

/-- The loops of the searches over the tables. -/
def forTables (hashVal : BitVec 64) (f : Bucket → TablesM M (Option α)) : TablesM M (Option α) := do
  let inRehashing ← read (·.rehashMoveBucketIndex.isSome)
  match ← f (← bucketOf .table1 hashVal) with
  | some x => return some x
  | none =>
    if inRehashing then do f (← bucketOf .table2 hashVal)
    else return none

/-- An operation on `table(t)[i]` for the buckets from `i` on, `n` of them. -/
def forBuckets (p : Bucket → StateT M Option Unit) (t : TableName) : ℕ → ℕ → TablesM M Unit
  | _, 0 => return ()
  | i, n + 1 => do
    onHeap (p (← bucket t i))
    forBuckets p t (i + 1) n

/-- `Clear`. -/
def clear : TablesM M Unit := do
  shrink ops .table1 4
  forBuckets ops.destroy .table1 0 4
  setUsed fun _ => 0
  if (← read (·.rehashMoveBucketIndex)).isSome then shrink ops .table2 0
  setRehashIndex none

/-- The constructor. -/
def construct (m : M) : Option (Tables M) := exec (grow ops .table1 4) (raw m)

/-! ## What the tables hold -/

/-- The sizes, the count and the index of the next bucket to be moved. -/
def layout (s : Tables M) : Layout := ⟨s.size, s.used, s.rehashMoveBucketIndex⟩

/-- Tables with a layout and a memory as `I` says.  The mask of the second table is out of date
when no rehash is going on. -/
structure Holds (I : (TableName → ℕ) → M → Prop) (l : Layout) (s : Tables M) : Prop where
  mem : I l.size s.heap
  layout : s.layout = l
  mask1 : s.sizeMask .table1 = BitVec.ofNat 64 (l.size .table1) - 1
  mask2 : l.moved ≠ none → s.sizeMask .table2 = BitVec.ofNat 64 (l.size .table2) - 1

/-- The same, with whatever masks there are. -/
structure Has (I : (TableName → ℕ) → M → Prop) (l : Layout) (mask : TableName → BitVec 64)
    (s : Tables M) : Prop where
  mem : I l.size s.heap
  layout : s.layout = l
  mask : s.sizeMask = mask

section

variable {β : Type} {I J : (TableName → ℕ) → M → Prop} {l : Layout} {mask : TableName → BitVec 64}
  {t : TableName} {i n r : ℕ} {s : Tables M} {Q : β → Tables M → Prop}

theorem Holds.size_eq (hs : Holds I l s) : s.size = l.size := congrArg Layout.size hs.layout

theorem Holds.used_eq (hs : Holds I l s) : s.used = l.used := congrArg Layout.used hs.layout

theorem Holds.moved_eq (hs : Holds I l s) : s.rehashMoveBucketIndex = l.moved :=
  congrArg Layout.moved hs.layout

/-! ### Reading the members -/

theorem read_bind {g : Tables M → α} {x : α} {p : α → TablesM M β}
    (hg : ∀ s, Holds I l s → g s = x) (h : Triple (Holds I l) (p x) Q) :
    Triple (Holds I l) (read g >>= p) Q :=
  Triple.bind_eq (a := x) (fun s hs => ⟨g s, s, rfl, hg s hs, hs⟩) h

theorem bucket_bind {p : Bucket → TablesM M β} (hi : i < l.size t)
    (h : Triple (Holds I l) (p (t, i)) Q) : Triple (Holds I l) (bucket t i >>= p) Q := by
  refine Triple.bind_eq (a := (t, i)) (fun s hs => ⟨(t, i), s, ?_, rfl, hs⟩) h
  exact if_pos (by rwa [hs.size_eq])

/-- The index of a hash value in a table that is in use. -/
theorem bucketIndex_eq (hl : l.Sound) (ht : t = .table2 → l.moved ≠ none) (h : BitVec 64)
    (hs : Holds I l s) : bucketIndex t h s = h.toNat % l.size t := by
  obtain ⟨e, he⟩ := hl.pow
  unfold bucketIndex
  cases t with
  | table1 => rw [hs.mask1, he, toNat_and_mask]
  | table2 =>
    obtain ⟨r, hr⟩ := Option.ne_none_iff_exists'.mp (ht rfl)
    rw [hs.mask2 (ht rfl), (hl.rehashing r hr).1, he, ← pow_succ', toNat_and_mask]

theorem bucketIndex_table1 (hl : l.Sound) (h : BitVec 64) (hs : Holds I l s) :
    bucketIndex .table1 h s = h.toNat % l.size .table1 := bucketIndex_eq hl (by simp) h hs

/-- The bucket of a hash value; the second table has one while a rehash is going on. -/
theorem bucketOf_bind {p : Bucket → TablesM M β} {h : BitVec 64} (hl : l.Sound)
    (ht : t = .table2 → l.moved ≠ none) (hp : Triple (Holds I l) (p (t, h.toNat % l.size t)) Q) :
    Triple (Holds I l) (bucketOf t h >>= p) Q := by
  unfold bucketOf
  rw [bind_assoc]
  refine read_bind (fun s hs => bucketIndex_eq hl ht h hs) (bucket_bind ?_ hp)
  refine Nat.mod_lt _ ?_
  cases t with
  | table1 => exact hl.size_pos
  | table2 =>
    obtain ⟨r, hr⟩ := Option.ne_none_iff_exists'.mp (ht rfl)
    have hsize := (hl.rehashing r hr).1
    have hpos := hl.size_pos
    omega

/-! ### Changing the members -/

/-- An operation that changes the memory. -/
theorem onHeap_spec {p : StateT M Option α} {x : α}
    (hp : Triple (I l.size) p fun a m => a = x ∧ J l.size m) :
    Triple (Holds I l) (onHeap p) fun a s => a = x ∧ Holds J l s := by
  intro s hs
  obtain ⟨a, m, hrun, rfl, hJ⟩ := hp s.heap hs.mem
  refine ⟨a, { s with heap := m }, ?_, rfl, hJ, hs.layout, hs.mask1, hs.mask2⟩
  change (p.run s.heap).map _ = _
  rw [hrun]
  rfl

/-- The count is set, and nothing else. -/
theorem setUsed_spec {g : ℕ → ℕ} :
    Triple (Holds I l) (setUsed g) fun _ => Holds I { l with used := g l.used } := by
  intro s hs
  refine ⟨(), _, rfl, hs.mem, ?_, hs.mask1, hs.mask2⟩
  rw [← hs.layout]
  rfl

theorem Has.holds (hs : Has I l mask s) (h1 : mask .table1 = BitVec.ofNat 64 (l.size .table1) - 1)
    (h2 : l.moved ≠ none → mask .table2 = BitVec.ofNat 64 (l.size .table2) - 1) : Holds I l s := by
  obtain ⟨hmem, hlayout, rfl⟩ := hs
  exact ⟨hmem, hlayout, h1, h2⟩

/-- Tables can be taken with their masks. -/
theorem triple_of_has {p : TablesM M β}
    (h : ∀ mask, mask .table1 = BitVec.ofNat 64 (l.size .table1) - 1 →
      (l.moved ≠ none → mask .table2 = BitVec.ofNat 64 (l.size .table2) - 1) →
      Triple (Has I l mask) p Q) : Triple (Holds I l) p Q :=
  fun s hs => h s.sizeMask hs.mask1 hs.mask2 s ⟨hs.mem, hs.layout, rfl⟩

theorem has_read_bind {g : Tables M → α} {x : α} {p : α → TablesM M β}
    (hg : ∀ s, Has I l mask s → g s = x) (h : Triple (Has I l mask) (p x) Q) :
    Triple (Has I l mask) (read g >>= p) Q :=
  Triple.bind_eq (a := x) (fun s hs => ⟨g s, s, rfl, hg s hs, hs⟩) h

/-- An operation on the memory leaves the members alone. -/
theorem has_onHeap {p : StateT M Option Unit} (hp : Triple (I l.size) p fun _ => J l.size) :
    Triple (Has I l mask) (onHeap p) fun _ => Has J l mask := by
  intro s hs
  obtain ⟨a, m, hrun, hJ⟩ := hp s.heap hs.mem
  refine ⟨a, { s with heap := m }, ?_, hJ, hs.layout, hs.mask⟩
  change (p.run s.heap).map _ = _
  rw [hrun]
  rfl

theorem Has.size_eq (hs : Has I l mask s) : s.size = l.size := congrArg Layout.size hs.layout

/-- A bucket within the size of its table, whatever the masks are. -/
theorem has_bucket (hi : i < l.size t) :
    Triple (Has I l mask) (bucket t i) fun b s => b = (t, i) ∧ Has I l mask s := by
  intro s hs
  refine ⟨(t, i), s, if_pos ?_, rfl, hs⟩
  rwa [hs.size_eq]

/-- An operation with a result. -/
theorem has_onHeap_eq {p : StateT M Option α} {x : α}
    (hp : Triple (I l.size) p fun a m => a = x ∧ J l.size m) :
    Triple (Has I l mask) (onHeap p) fun a s => a = x ∧ Has J l mask s := by
  intro s hs
  obtain ⟨a, m, hrun, rfl, hJ⟩ := hp s.heap hs.mem
  refine ⟨a, { s with heap := m }, ?_, rfl, hJ, hs.layout, hs.mask⟩
  change (p.run s.heap).map _ = _
  rw [hrun]
  rfl

/-- The count is set, and the masks stay. -/
theorem has_setUsed {g : ℕ → ℕ} :
    Triple (Has I l mask) (setUsed g) fun _ => Has I { l with used := g l.used } mask := by
  intro s hs
  refine ⟨(), _, rfl, hs.mem, ?_, hs.mask⟩
  rw [← hs.layout]
  rfl

/-- The rehash index is set, and the masks stay. -/
theorem has_setRehashIndex {m : Option ℕ} :
    Triple (Has I l mask) (setRehashIndex m) fun _ => Has I { l with moved := m } mask := by
  intro s hs
  refine ⟨(), _, rfl, hs.mem, ?_, hs.mask⟩
  rw [← hs.layout]
  rfl

/-- The mask of a table is set to its size less one. -/
theorem has_setSizeMask : Triple (Has I l mask) (setSizeMask t)
    fun _ => Has I l (Function.update mask t (BitVec.ofNat 64 (l.size t) - 1)) := by
  intro s hs
  refine ⟨(), _, rfl, hs.mem, hs.layout, ?_⟩
  change Function.update s.sizeMask t (BitVec.ofNat 64 (s.size t) - 1) = _
  rw [hs.mask, hs.size_eq]

theorem readId_bind {P : Tables M → Prop} {p : Tables M → TablesM M β}
    (h : ∀ s, P s → Triple P (p s) Q) : Triple P (read id >>= p) Q := fun s hs => h s hs s hs

end

/-! ## Resizing, rehashing and clearing -/

/-- What the tables rely on, where `I f size` says of a memory that the buckets of both tables
have the contents `f`: buckets without content come and go, and the tables can be exchanged. -/
structure BucketLaws {C : Type} (ops : BucketOps M) (empty : C)
    (I : (Bucket → C) → (TableName → ℕ) → M → Prop) : Prop where
  resize {f : Bucket → C} {size : TableName → ℕ} {t : TableName} {n : ℕ} {m : M} :
    (∀ i, size t ≤ i ∨ n ≤ i → f (t, i) = empty) → I f size m → I f (Function.update size t n) m
  construct {f : Bucket → C} {size : TableName → ℕ} {b : Bucket} : f b = empty →
    Triple (I f size) (ops.construct b) fun _ => I f size
  destroy {f : Bucket → C} {size : TableName → ℕ} {b : Bucket} : b.2 < size b.1 →
    Triple (I f size) (ops.destroy b) fun _ => I (Function.update f b empty) size
  swap {f : Bucket → C} {size : TableName → ℕ} {m : M} : I f size m →
    I (fun b => f (b.1.other, b.2)) (fun t => size t.other) (ops.swap m)

/-- The contents without those of the buckets from `n` on. -/
def truncate {C : Type} (empty : C) (t : TableName) (n : ℕ) (f : Bucket → C) : Bucket → C := fun b =>
  if b.1 = t ∧ n ≤ b.2 then empty else f b

section

variable {C : Type} {ops : BucketOps M} {empty : C} {I : (Bucket → C) → (TableName → ℕ) → M → Prop}
  {l : Layout} {mask : TableName → BitVec 64} {f f' : Bucket → C} {t : TableName} {i n r : ℕ}
  {s : Tables M}

/-- The size of a table is set while there is nothing in the buckets that come or go. -/
theorem setSize_spec (h : BucketLaws ops empty I) (hf : ∀ i, l.size t ≤ i ∨ n ≤ i → f (t, i) = empty) :
    Triple (Has (I f) l mask) (setSize t n)
      fun _ => Has (I f) { l with size := Function.update l.size t n } mask := by
  intro s hs
  refine ⟨(), _, rfl, h.resize hf hs.mem, ?_, hs.mask⟩
  rw [← hs.layout]
  rfl

/-- New buckets are constructed without content. -/
theorem forRange_construct (h : BucketLaws ops empty I) {size : TableName → ℕ}
    (hf : ∀ j, i ≤ j → f (t, j) = empty) :
    Triple (I f size) (forRange ops.construct t i n) fun _ => I f size := by
  induction n generalizing i with
  | zero => exact triple_pure fun _ hs => hs
  | succ n ih =>
    exact Triple.bind (h.construct (hf i le_rfl)) fun _ => ih fun j hj => hf j (by omega)

/-- A table grows by buckets without content. -/
theorem growArray_spec (h : BucketLaws ops empty I) (hf : ∀ i, l.size t ≤ i → f (t, i) = empty)
    (hn : l.size t < n) :
    Triple (Has (I f) l mask) (growArray ops t n)
      fun _ => Has (I f) { l with size := Function.update l.size t n } mask := by
  unfold growArray
  refine has_read_bind (fun s hs => congrFun hs.size_eq t) ?_
  rw [if_neg (not_le.mpr hn)]
  refine Triple.bind (has_onHeap (forRange_construct h hf)) fun _ => setSize_spec h fun i hi => ?_
  exact hf i (by omega)

/-- Nothing is cut off where there is nothing. -/
theorem truncate_of_empty (hf : ∀ i, n ≤ i → f (t, i) = empty) : truncate empty t n f = f := by
  funext ⟨t', i⟩
  unfold truncate
  split_ifs with hi
  · obtain ⟨rfl, hle⟩ := hi
    exact (hf i hle).symm
  · rfl

/-- The last bucket that is cut off can be emptied first. -/
theorem truncate_update :
    truncate empty t (i + 1) (Function.update f (t, i) empty) = truncate empty t i f := by
  funext ⟨t', j⟩
  unfold truncate
  by_cases hj : (t', j) = (t, i)
  · obtain ⟨rfl, rfl⟩ := Prod.mk.inj hj
    simp
  · rw [Function.update_of_ne hj]
    have hiff : t' = t ∧ i + 1 ≤ j ↔ t' = t ∧ i ≤ j := by
      refine and_congr_right fun ht => ?_
      have hne : j ≠ i := fun h => hj (by rw [ht, h])
      omega
    simp only [hiff]

/-- Destroying the buckets from `i` on gives their content up. -/
theorem forRange_destroy (h : BucketLaws ops empty I) {size : TableName → ℕ} (hn : i + n = size t)
    (hf : ∀ i, size t ≤ i → f (t, i) = empty) :
    Triple (I f size) (forRange ops.destroy t i n) fun _ => I (truncate empty t i f) size := by
  induction n generalizing i f with
  | zero =>
    rw [truncate_of_empty fun j hj => hf j (by omega)]
    exact triple_pure fun _ hs => hs
  | succ n ih =>
    rw [← truncate_update]
    refine Triple.bind (h.destroy (b := (t, i)) (by dsimp only; omega)) fun _ =>
      ih (by omega) fun j hj => ?_
    have hne : ((t, j) : Bucket) ≠ (t, i) := by
      rintro heq
      obtain rfl : j = i := (Prod.mk.inj heq).2
      omega
    rw [Function.update_of_ne hne]
    exact hf j hj

/-- A table shrinks, and the content of its last buckets goes. -/
theorem shrinkArray_spec (h : BucketLaws ops empty I) (hf : ∀ i, l.size t ≤ i → f (t, i) = empty) :
    Triple (Has (I f) l mask) (shrinkArray ops t n) fun _ => Has (I (truncate empty t n f))
      { l with size := Function.update l.size t (min (l.size t) n) } mask := by
  unfold shrinkArray
  refine has_read_bind (fun s hs => congrFun hs.size_eq t) ?_
  refine Triple.ite (fun hle => ?_) fun hgt => ?_
  · rw [min_eq_left hle, Function.update_eq_self, truncate_of_empty fun i hi => hf i (by omega)]
    exact triple_pure fun _ hs => hs
  · have hle : n ≤ l.size t := Nat.le_of_lt (not_le.mp hgt)
    rw [min_eq_right hle]
    refine Triple.bind (has_onHeap (forRange_destroy h (by omega) hf)) fun _ =>
      setSize_spec h fun i hi => ?_
    have hi : n ≤ i := by omega
    exact if_pos ⟨rfl, hi⟩

/-- `Table::Shrink` sets the mask as well. -/
theorem shrink_spec (h : BucketLaws ops empty I) (hf : ∀ i, l.size t ≤ i → f (t, i) = empty)
    (hn : n ≤ l.size t) : Triple (Has (I f) l mask) (shrink ops t n)
      fun _ => Has (I (truncate empty t n f)) { l with size := Function.update l.size t n }
        (Function.update mask t (BitVec.ofNat 64 n - 1)) := by
  refine Triple.bind (shrinkArray_spec h hf) fun _ => has_setSizeMask.post fun _ s hs => ?_
  dsimp only at hs
  rwa [min_eq_right hn, Function.update_self] at hs

/-- **`Rehash`.** -/
theorem rehash_spec (h : BucketLaws ops empty I) (hl : l.Sound)
    (hf : ∀ b : Bucket, ¬ b.2 < l.size b.1 → f b = empty) :
    Triple (Holds (I f) l) (rehash ops) fun _ => Holds (I f) l.start := by
  refine triple_of_has fun mask h1 h2 => readId_bind fun s₀ hs₀ => ?_
  have hmoved : s₀.rehashMoveBucketIndex = l.moved := congrArg Layout.moved hs₀.layout
  have hused : s₀.used = l.used := congrArg Layout.used hs₀.layout
  rw [hmoved, hused, hs₀.size_eq, Nat.shiftLeft_eq, pow_one, mul_comm]
  unfold Layout.start
  refine Triple.ite (fun hfull => ?_) fun hnot => ?_
  · rw [if_pos hfull]
    have hsize : l.size .table2 = 0 := hl.idle hfull.1
    have hpos := hl.size_pos
    have hsizes : Function.update l.size .table2 (2 * l.size .table1)
        = sizes (l.size .table1) (2 * l.size .table1) := by
      funext t
      cases t <;> rfl
    rw [← hsizes]
    refine Triple.bind (Triple.bind (growArray_spec h
      (fun i hi => hf (.table2, i) (not_lt.mpr hi)) (by omega)) fun _ => has_setSizeMask)
      fun _ => has_setRehashIndex.post fun _ s hs => hs.holds ?_ fun _ => ?_
    · exact h1
    · exact Function.update_self ..
  · rw [if_neg hnot]
    exact triple_pure fun _ hs => hs.holds h1 h2

/-- The exchange of the tables takes contents, sizes and masks along. -/
theorem swapTables_spec (h : BucketLaws ops empty I) : Triple (Has (I f) l mask) (swapTables ops)
    fun _ => Has (I fun b => f (b.1.other, b.2)) { l with size := fun t => l.size t.other }
      fun t => mask t.other := by
  intro s hs
  refine ⟨(), _, rfl, ?_, ?_, ?_⟩
  · change I _ (fun t => l.size t.other) (ops.swap s.heap)
    exact h.swap hs.mem
  · rw [← hs.layout]
    rfl
  · change (fun t : TableName => s.sizeMask t.other) = _
    rw [hs.mask]

/-- `Table::Reset` of the second table, which may update its mask. -/
def Resets (empty : C) (I : (Bucket → C) → (TableName → ℕ) → M → Prop) (reset : TablesM M Unit) :
    Prop := ∀ {l mask} {f : Bucket → C}, (∀ i, l.size .table2 ≤ i → f (.table2, i) = empty) →
  Triple (Has (I f) l mask) reset fun _ s => ∃ mask', mask' .table1 = mask .table1
    ∧ Has (I (truncate empty .table2 0 f)) { l with size := Function.update l.size .table2 0 } mask' s

/-- In one class the second table is reset by shrinking its array. -/
theorem resets_shrinkArray (h : BucketLaws ops empty I) :
    Resets empty I (shrinkArray ops .table2 0) := by
  intro l mask f hf
  refine (shrinkArray_spec h hf).post fun _ s hs => ⟨mask, rfl, ?_⟩
  rwa [min_eq_right (Nat.zero_le _)] at hs

/-- In the other one it is reset with its mask. -/
theorem resets_shrink (h : BucketLaws ops empty I) : Resets empty I (shrink ops .table2 0) := by
  intro l mask f hf
  refine (shrink_spec h hf (Nat.zero_le _)).post fun _ s hs => ⟨_, ?_, hs⟩
  exact Function.update_of_ne (by simp) _ _

/-- **`IncrementalRehash`** where it moves the bucket `r`, to leave the contents `f'`. -/
theorem incrementalRehash_moved {move : Bucket → ℕ → BitVec 64 → StateT M Option Unit}
    {reset : TablesM M Unit} (h : BucketLaws ops empty I) (hreset : Resets empty I reset)
    (hl : l.Sound) (hr : l.moved = some r)
    (hmove : ∀ mask2 : BitVec 64, (∀ v : BitVec 64, (v &&& mask2).toNat = v.toNat % l.size .table2) →
      Triple (I f l.size) (move (.table1, r) (l.size .table2) mask2) fun _ => I f' l.size)
    (hlast : r + 1 = l.size .table1 → ∀ i, f' (.table1, i) = empty) :
    Triple (Holds (I f) l) (incrementalRehash ops move reset) fun _ =>
      Holds (I (if r + 1 = l.size .table1 then takeOver empty f' else f')) l.advance := by
  obtain ⟨hsize, hlt⟩ := hl.rehashing r hr
  obtain ⟨e, he⟩ := hl.pow
  have hpos := hl.size_pos
  unfold incrementalRehash
  refine read_bind (fun s hs => hs.moved_eq) ?_
  rw [hr, Layout.advance_of_moved hr]
  refine bucket_bind hlt (triple_of_has fun mask h1 h2 => ?_)
  have hmask : mask .table2 = BitVec.ofNat 64 (l.size .table2) - 1 := h2 (by simp [hr])
  refine has_read_bind (fun s hs => congrFun hs.size_eq .table2) ?_
  refine has_read_bind (fun s hs => congrFun hs.mask .table2) ?_
  refine Triple.bind (has_onHeap (hmove _ fun v => ?_)) fun _ => ?_
  · rw [hmask, hsize, he, ← pow_succ', toNat_and_mask]
  refine Triple.bind has_setRehashIndex fun _ => ?_
  refine has_read_bind (fun s hs => congrFun hs.size_eq .table1) ?_
  refine Triple.ite (fun hlast' => ?_) fun hnot => ?_
  · have hlast' : r + 1 = l.size .table1 := hlast'
    rw [if_pos hlast', if_pos hlast']
    refine Triple.bind has_setRehashIndex fun _ => ?_
    refine has_read_bind (fun s hs => congrFun hs.size_eq .table2) ?_
    refine Triple.ite (fun _ => ?_) fun hzero => absurd (by dsimp only; omega) hzero
    -- the old table is empty, so nothing is lost with it
    refine Triple.bind (swapTables_spec h) fun _ =>
      (hreset fun i _ => hlast hlast' i).post fun _ s hs => ?_
    obtain ⟨mask', hmask', hs⟩ := hs
    have hcontents : truncate empty .table2 0 (fun b : Bucket => f' (b.1.other, b.2))
        = takeOver empty f' := by
      funext ⟨t, i⟩
      cases t with
      | table1 => rfl
      | table2 => exact if_pos ⟨rfl, Nat.zero_le i⟩
    have hlayout : (⟨Function.update (fun t => l.size t.other) .table2 0, l.used, none⟩ : Layout)
        = l.finish := by
      have hsizes : Function.update (fun t => l.size t.other) .table2 0 = sizes (l.size .table2) 0 := by
        funext t
        cases t <;> rfl
      rw [hsizes]
      rfl
    rw [← hcontents, ← hlayout]
    refine Has.holds hs ?_ (fun h => absurd rfl h)
    exact hmask'.trans hmask
  · have hnot : ¬ r + 1 = l.size .table1 := hnot
    rw [if_neg hnot, if_neg hnot]
    exact triple_pure fun _ hs => hs.holds h1 fun _ => hmask

/-- Without a rehash a step does nothing. -/
theorem incrementalRehash_idle {move : Bucket → ℕ → BitVec 64 → StateT M Option Unit}
    {reset : TablesM M Unit} {J : (TableName → ℕ) → M → Prop} (hr : l.moved = none) :
    Triple (Holds J l) (incrementalRehash ops move reset) fun _ => Holds J l := by
  unfold incrementalRehash
  refine read_bind (fun s hs => hs.moved_eq) ?_
  rw [hr]
  exact triple_pure fun _ hs => hs

/-! ### Clearing -/

/-- An operation that empties a bucket, done for a stretch of the buckets of a table. -/
theorem forBuckets_spec {p : Bucket → StateT M Option Unit}
    (hp : ∀ {f : Bucket → C} {size : TableName → ℕ} {b : Bucket}, b.2 < size b.1 →
      Triple (I f size) (p b) fun _ => I (Function.update f b empty) size) (hn : i + n ≤ l.size t) :
    Triple (Has (I f) l mask) (forBuckets p t i n) fun _ => Has
      (I fun b => if b.1 = t ∧ i ≤ b.2 ∧ b.2 < i + n then empty else f b) l mask := by
  induction n generalizing i f with
  | zero =>
    refine triple_pure fun s hs => ?_
    have heq : (fun b : Bucket => if b.1 = t ∧ i ≤ b.2 ∧ b.2 < i + 0 then empty else f b) = f := by
      funext b
      exact if_neg (by omega)
    rwa [heq]
  | succ n ih =>
    have heq : (fun b : Bucket => if b.1 = t ∧ i + 1 ≤ b.2 ∧ b.2 < i + 1 + n then empty
        else Function.update f (t, i) empty b)
          = fun b => if b.1 = t ∧ i ≤ b.2 ∧ b.2 < i + (n + 1) then empty else f b := by
      funext ⟨t', j⟩
      by_cases hj : (t', j) = (t, i)
      · obtain ⟨rfl, rfl⟩ := Prod.mk.inj hj
        simp
      · rw [Function.update_of_ne hj]
        have hiff : t' = t ∧ i + 1 ≤ j ∧ j < i + 1 + n ↔ t' = t ∧ i ≤ j ∧ j < i + (n + 1) := by
          refine and_congr_right fun ht => ?_
          have hne : j ≠ i := fun h => hj (by rw [ht, h])
          omega
        simp only [hiff]
    rw [← heq]
    refine Triple.bind_eq (has_bucket (by omega)) ?_
    exact Triple.bind (has_onHeap (hp (b := (t, i)) (by dsimp only; omega))) fun _ => ih (by omega)

/-- The tables after the constructor's body. -/
theorem Has.holds_fresh {size : TableName → ℕ} (hs : Has (I f) ⟨size, 0, none⟩ mask s)
    (h1 : size .table1 = 4) (h2 : size .table2 = 0) (hmask : mask .table1 = BitVec.ofNat 64 4 - 1)
    (hf : ∀ b, f b = empty) : Holds (I fun _ => empty) Layout.fresh s := by
  obtain rfl : f = fun _ => empty := funext hf
  obtain rfl : size = sizes 4 0 := by
    funext t
    cases t with
    | table1 => exact h1
    | table2 => exact h2
  exact hs.holds hmask fun h => absurd rfl h

/-- **`Clear`.** -/
theorem clear_spec (h : BucketLaws ops empty I) (hl : l.Sound)
    (hf : ∀ b : Bucket, ¬ b.2 < l.size b.1 → f b = empty) :
    Triple (Holds (I f) l) (clear ops) fun _ => Holds (I fun _ => empty) Layout.fresh := by
  have hne : TableName.table2 ≠ .table1 := nofun
  have hsize : ∀ n, Function.update l.size .table1 n .table2 = l.size .table2 :=
    fun n => Function.update_of_ne hne _ _
  refine triple_of_has fun mask _ _ => ?_
  refine Triple.bind (shrink_spec h (fun i hi => hf (.table1, i) (not_lt.mpr hi)) hl.four_le)
    fun _ => ?_
  refine Triple.bind (forBuckets_spec h.destroy (by simp)) fun _ => Triple.bind has_setUsed fun _ => ?_
  refine has_read_bind (x := l.moved) (fun s hs => congrArg Layout.moved hs.layout) ?_
  -- the buckets from the fifth on are destroyed, the first four are cleared
  set f' : Bucket → C := fun b =>
    if b.1 = .table1 ∧ 0 ≤ b.2 ∧ b.2 < 0 + 4 then empty else truncate empty .table1 4 f b with hf'
  have hfirst : ∀ i, f' (.table1, i) = empty := by
    intro i
    by_cases hi : i < 4
    · exact if_pos ⟨rfl, Nat.zero_le _, by omega⟩
    · rw [hf']
      dsimp only
      rw [if_neg (by omega)]
      exact if_pos ⟨rfl, not_lt.mp hi⟩
  have hsecond : ∀ i, l.size .table2 ≤ i → f' (.table2, i) = empty := fun i hi =>
    hf (.table2, i) (not_lt.mpr hi)
  -- the second table has buckets only during a rehash
  cases hr : l.moved with
  | none =>
    refine has_setRehashIndex.post fun _ s hs => hs.holds_fresh ?_ ?_ ?_ ?_
    · exact Function.update_self .table1 4 l.size
    · exact (hsize 4).trans (hl.idle hr)
    · exact Function.update_self ..
    · rintro ⟨t, i⟩
      cases t with
      | table1 => exact hfirst i
      | table2 => exact hsecond i (by simp [hl.idle hr])
  | some r =>
    refine Triple.bind (shrink_spec h (f := f') (n := 0) (fun i hi => ?_) (Nat.zero_le _))
      fun _ => has_setRehashIndex.post fun _ s hs => hs.holds_fresh ?_ ?_ ?_ ?_
    · exact hsecond i ((hsize 4).symm.trans_le hi)
    · change Function.update (Function.update l.size .table1 4) .table2 0 .table1 = 4
      rw [Function.update_of_ne hne.symm, Function.update_self]
    · change Function.update (Function.update l.size .table1 4) .table2 0 .table2 = 0
      rw [Function.update_self]
    · exact (Function.update_of_ne hne.symm _ _).trans (Function.update_self ..)
    · rintro ⟨t, i⟩
      cases t with
      | table1 => exact (if_neg (by simp)).trans (hfirst i)
      | table2 => exact if_pos ⟨rfl, Nat.zero_le i⟩

/-- **The constructor.** -/
theorem construct_spec (h : BucketLaws ops empty I) {m : M}
    (hm : I (fun _ => empty) (fun _ => 0) m) :
    ∃ s, construct ops m = some s ∧ Holds (I fun _ => empty) Layout.fresh s := by
  have hraw : Has (I fun _ => empty) ⟨fun _ => 0, 0, none⟩ (fun _ => BitVec.ofNat 64 0 - 1) (raw m) :=
    ⟨hm, rfl, rfl⟩
  have hgrow : Triple (Has (I fun _ => empty) ⟨fun _ => 0, 0, none⟩ (fun _ => BitVec.ofNat 64 0 - 1))
      (grow ops .table1 4) fun _ => Holds (I fun _ => empty) Layout.fresh := by
    refine Triple.bind (growArray_spec h (fun _ _ => rfl) (by simp)) fun _ => has_setSizeMask.post
      fun _ s hs => hs.holds_fresh (Function.update_self ..) ?_ ?_ fun _ => rfl
    · exact Function.update_of_ne (by simp) _ _
    · exact Function.update_self ..
  obtain ⟨s, hs, -, hholds⟩ := hgrow.exec_eq hraw
  exact ⟨s, hs, hholds⟩

end

end Tables

end Mmkvc
