/-
# The iterator of a hash table (`algo/internal/hash_table_iterator.h`,
`algo/internal/tree_hash_table_iterator.h`)

`HashTable` and `TreeHashTable` have the same iterator; it goes through the nodes of a bucket,
then to the next bucket with a node, then to the other table.  An iterator stands for the
entries that it has yet to meet.
-/
import Mmkvc.BucketTables
import Mmkvc.Cells

namespace Mmkvc

/-- What an iterator asks of the buckets: whether one is empty, its first node, the node after
a node, and how many nodes there can be. -/
structure BucketWalk (M : Type) where
  isEmpty : Bucket → StateT M Option Bool
  front : Bucket → StateT M Option Addr
  next : Addr → StateT M Option (Option Addr)
  bound : StateT M Option ℕ

namespace Tables

variable {M : Type}

/-- `HashTableConstIterator`.  `bucket_index_` is -1 where the source has the largest
`size_type`, so that one more is 0. -/
structure Iterator where
  tableIndex : TableName
  bucketIndex : ℤ
  slot : Option Addr

section

variable (w : BucketWalk M)

/-- The first bucket of a table with an entry, from the bucket `j` on, `n` of them. -/
def firstSlot (t : TableName) : ℕ → ℕ → TablesM M (Option Iterator)
  | _, 0 => return none
  | j, n + 1 => do
    let b ← bucket t j
    if ← onHeap (w.isEmpty b) then firstSlot t (j + 1) n
    else return some ⟨t, j, some (← onHeap (w.front b))⟩

/-- The first one of a table, from the bucket `j` on. -/
def scan (t : TableName) (j : ℕ) : TablesM M (Option Iterator) := do
  firstSlot w t j ((← read (·.size t)) - j)

/-- The constructor. -/
def iterator (tableIndex : TableName) (bucketIndex : ℕ) : TablesM M Iterator := do
  match ← scan w tableIndex bucketIndex with
  | some it => return it
  | none =>
    match tableIndex with
    | .table1 => return (← scan w .table2 bucketIndex).getD ⟨.table1, bucketIndex, none⟩
    | .table2 => return ⟨.table2, bucketIndex, none⟩

/-- `begin()`. -/
def begin : TablesM M Iterator := iterator w .table1 0

/-- `end()`. -/
def finish : TablesM M Iterator := do iterator w .table2 (← read (·.size .table2))

/-- `Increment`. -/
def increment (it : Iterator) : TablesM M Iterator := do
  match it.slot with
  | none => failure
  | some slot =>
    match ← onHeap (w.next slot) with
    | some next => return { it with slot := some next }
    | none =>
      match ← scan w it.tableIndex (it.bucketIndex + 1).toNat with
      | some it => return it
      | none =>
        match it.tableIndex with
        | .table1 => return (← scan w .table2 0).getD ⟨.table2, -1, none⟩
        | .table2 => return ⟨.table2, -1, none⟩

variable {σ β : Type} (here : {α : Type} → TablesM M α → StateT σ Option α)

/-- The loop `for (; it != last; ++it)`, where the table is a part of the state as `here` says.
Gives what the body gives at each entry. -/
def forEntries (body : Addr → StateT σ Option (List β)) (last : Iterator) :
    ℕ → Iterator → StateT σ Option (List β)
  | 0, it => if it.slot = last.slot then return [] else failure
  | fuel + 1, it =>
    if it.slot = last.slot then return []
    else
      match it.slot with
      | none => failure
      | some slot => do
        let done ← body slot
        let it ← here (increment w it)
        return done ++ (← forEntries body last fuel it)

/-- The loop from `begin()` to `end()`. -/
def forAll (body : Addr → StateT σ Option (List β)) : StateT σ Option (List β) := do
  let it ← here (begin w)
  let last ← here (finish w)
  forEntries w here body last ((← here (onHeap w.bound)) + 1) it

/-- The entries that the loop meets with nothing in between. -/
def visitAll : TablesM M (List Addr) := forAll w id fun slot => return [slot]

end

/-! ## What is yet to be met -/

variable {V : Type}

/-- The entries of a table from the bucket `j` on. -/
def tail (size : TableName → ℕ) (f : Bucket → List (Addr × V)) (t : TableName) (j : ℕ) :
    List (Addr × V) := (List.range' j (size t - j)).flatMap fun i => f (t, i)

/-- The entries of both tables from the bucket `j` of the table on. -/
def rest (size : TableName → ℕ) (f : Bucket → List (Addr × V)) : TableName → ℕ → List (Addr × V)
  | .table1, j => tail size f .table1 j ++ tail size f .table2 0
  | .table2, j => tail size f .table2 j

/-- An iterator at the first one of the entries, which are all from there on. -/
def Ahead (size : TableName → ℕ) (f : Bucket → List (Addr × V)) (it : Iterator) :
    List (Addr × V) → Prop
  | [] => it.slot = none
  | e :: es => it.slot = some e.1 ∧ ∃ j pre post, it.bucketIndex = (j : ℕ) ∧ j < size it.tableIndex
      ∧ f (it.tableIndex, j) = pre ++ e :: post ∧ es = post ++ rest size f it.tableIndex (j + 1)

/-- The first entry of a table from the bucket `j` on, among `n` of them, with its bucket. -/
def firstIn (f : Bucket → List (Addr × V)) (t : TableName) : ℕ → ℕ → Option (Bucket × (Addr × V))
  | _, 0 => none
  | j, n + 1 =>
    match f (t, j) with
    | e :: _ => some ((t, j), e)
    | [] => firstIn f t (j + 1) n

/-- The first entry of both tables from the bucket `j` of the table on. -/
def firstFrom (size : TableName → ℕ) (f : Bucket → List (Addr × V)) (t : TableName) (j : ℕ) :
    Option (Bucket × (Addr × V)) :=
  match t with
  | .table1 => (firstIn f .table1 j (size .table1 - j)).or (firstIn f .table2 0 (size .table2))
  | .table2 => firstIn f .table2 j (size .table2 - j)

/-- An iterator that has found an entry in a bucket. -/
def standing (x : Bucket × (Addr × V)) : Iterator := ⟨x.1.1, x.1.2, some x.2.1⟩

/-- The iterator behind the last entry. -/
def past : Iterator := ⟨.table2, -1, none⟩

/-- Where an iterator goes from an entry with the entries `post` behind it in its bucket. -/
def follow (size : TableName → ℕ) (f : Bucket → List (Addr × V)) (b : Bucket)
    (post : List (Addr × V)) : Option (Bucket × (Addr × V)) :=
  match post with
  | e :: _ => some (b, e)
  | [] => firstFrom size f b.1 (b.2 + 1)

/-- Tables in which the buckets have the entries `f`, which the operations of the iterator find
there. -/
structure Walks (w : BucketWalk M) (size : TableName → ℕ) (f : Bucket → List (Addr × V))
    (J : Tables M → Prop) : Prop where
  size_eq : ∀ s, J s → s.size = size
  isEmpty {b : Bucket} : b.2 < size b.1 →
    Triple J (onHeap (w.isEmpty b)) fun r s => r = (f b).isEmpty ∧ J s
  front {b : Bucket} {e : Addr × V} {es : List (Addr × V)} : b.2 < size b.1 → f b = e :: es →
    Triple J (onHeap (w.front b)) fun r s => r = e.1 ∧ J s
  next {b : Bucket} {e : Addr × V} {pre post : List (Addr × V)} : b.2 < size b.1 →
    f b = pre ++ e :: post →
    Triple J (onHeap (w.next e.1)) fun r s => r = post.head?.map Prod.fst ∧ J s
  bound : Triple J (onHeap w.bound) fun n s => (rest size f .table1 0).length ≤ n ∧ J s

section

variable {w : BucketWalk M} {size : TableName → ℕ} {f : Bucket → List (Addr × V)}
  {J : Tables M → Prop} {t : TableName} {j n : ℕ} {it : Iterator} {e : Addr × V}
  {es : List (Addr × V)} {β σ : Type}

/-- The entries from a bucket on are its own and those from the next one on. -/
theorem tail_of_lt (h : j < size t) : tail size f t j = f (t, j) ++ tail size f t (j + 1) := by
  obtain ⟨n, hn⟩ := Nat.exists_eq_add_of_lt h
  rw [tail, tail, show size t - j = n + 1 by omega, show size t - (j + 1) = n by omega,
    List.range'_succ, List.flatMap_cons]

/-- The entries that are left from a bucket on, in this table and behind it. -/
theorem rest_of_lt (h : j < size t) : rest size f t j = f (t, j) ++ rest size f t (j + 1) := by
  cases t with
  | table1 => rw [rest, rest, tail_of_lt h, List.append_assoc]
  | table2 => exact tail_of_lt h

/-- From the first bucket on there are all entries of a table. -/
theorem coe_tail (size : TableName → ℕ) (f : Bucket → List (Addr × V)) (t : TableName) :
    (tail size f t 0 : Multiset (Addr × V))
      = ∑ i ∈ Finset.range (size t), (f (t, i) : Multiset (Addr × V)) := by
  rw [tail, Nat.sub_zero, ← List.range_eq_range', ← Multiset.coe_bind]
  rfl

/-- All entries are those of the buckets of both tables. -/
theorem coe_rest (size : TableName → ℕ) (f : Bucket → List (Addr × V)) :
    (rest size f .table1 0 : Multiset (Addr × V))
      = gather size fun b => (f b : Multiset (Addr × V)) := by
  rw [rest, ← Multiset.coe_add, coe_tail, coe_tail]
  rfl

/-- The nodes of the buckets are those of their entries. -/
theorem map_gather_fst {C : Type} {cells : Bucket → Multiset (Addr × C)}
    (hcells : ∀ b, (cells b).map Prod.fst = (f b : Multiset (Addr × V)).map Prod.fst) :
    (gather size cells).map Prod.fst = ((rest size f .table1 0).map Prod.fst : List Addr) := by
  have hnodes : (gather size cells).map Prod.fst = gather size fun b => (cells b).map Prod.fst :=
    map_gather (Multiset.mapAddMonoidHom (Prod.fst : Addr × C → Addr))
  have hentries : (gather size fun b => (f b : Multiset (Addr × V))).map Prod.fst
      = gather size fun b => (f b : Multiset (Addr × V)).map Prod.fst :=
    map_gather (Multiset.mapAddMonoidHom (Prod.fst : Addr × V → Addr))
  rw [← Multiset.map_coe, coe_rest]
  exact hnodes.trans ((gather_congr fun b _ => hcells b).trans hentries.symm)

/-- The entries are at different addresses. -/
theorem nodup_rest {C : Type} {m : Addr → Option C} {cells : Bucket → Multiset (Addr × C)}
    {H : Multiset (Addr × C)}
    (hcells : ∀ b, (cells b).map Prod.fst = (f b : Multiset (Addr × V)).map Prod.fst)
    (hsat : Sat m (gather size cells + H)) : ((rest size f .table1 0).map Prod.fst).Nodup := by
  have hnodup := hsat.nodup
  rw [Multiset.map_add, Multiset.nodup_add, map_gather_fst hcells] at hnodup
  exact Multiset.coe_nodup.mp hnodup.1

/-- There are no more entries than addresses were given out. -/
theorem length_rest_le {C : Type} {m : Addr → Option C} {cells : Bucket → Multiset (Addr × C)}
    {H : Multiset (Addr × C)} {top : ℕ}
    (hcells : ∀ b, (cells b).map Prod.fst = (f b : Multiset (Addr × V)).map Prod.fst)
    (hsat : Sat m (gather size cells + H)) (hfresh : ∀ a, top ≤ a → m a = none) :
    (rest size f .table1 0).length ≤ top := by
  have hcard := hsat.card_le hfresh
  have hnodes : ((gather size cells).map Prod.fst).card
      = Multiset.card (((rest size f .table1 0).map Prod.fst : List Addr) : Multiset Addr) :=
    congrArg Multiset.card (map_gather_fst hcells)
  rw [Multiset.card_map, Multiset.coe_card, List.length_map] at hnodes
  rw [Multiset.card_add, hnodes] at hcard
  omega

/-! ## The first entry -/

/-- If no bucket has a first entry, there is no entry. -/
theorem firstIn_eq_none (h : firstIn f t j n = none) :
    (List.range' j n).flatMap (fun i => f (t, i)) = [] := by
  induction n generalizing j with
  | zero => rfl
  | succ n ih =>
    rw [firstIn] at h
    cases hf : f (t, j) with
    | nil =>
      rw [hf] at h
      rw [List.range'_succ, List.flatMap_cons, hf, ih h, List.nil_append]
    | cons e es =>
      rw [hf] at h
      cases h

/-- The first entry of the first bucket that is not empty comes before the others. -/
theorem firstIn_eq_some {x : Bucket × (Addr × V)} (hn : j + n = size t ∨ n = 0 ∧ size t ≤ j)
    (h : firstIn f t j n = some x) : Ahead size f (standing x) (rest size f t j) := by
  induction n generalizing j with
  | zero => cases h
  | succ n ih =>
    have hj : j < size t := by omega
    rw [firstIn] at h
    rw [rest_of_lt hj]
    cases hf : f (t, j) with
    | nil =>
      rw [hf] at h
      exact ih (by omega) h
    | cons e es =>
      rw [hf] at h
      obtain rfl := Option.some.inj h
      exact ⟨rfl, j, [], es, rfl, hj, hf, rfl⟩

theorem tail_eq_nil (h : firstIn f t j (size t - j) = none) : tail size f t j = [] := firstIn_eq_none h

/-- The iterator at the first entry has all entries ahead. -/
theorem ahead_firstFrom (hit : it.slot = none) :
    Ahead size f ((firstFrom size f t j).elim it standing) (rest size f t j) := by
  cases t with
  | table2 =>
    unfold firstFrom
    cases h : firstIn f .table2 j (size .table2 - j) with
    | none =>
      rw [rest, tail_eq_nil h]
      exact hit
    | some x => exact firstIn_eq_some (by omega) h
  | table1 =>
    unfold firstFrom
    cases h : firstIn f .table1 j (size .table1 - j) with
    | some x => exact firstIn_eq_some (by omega) h
    | none =>
      rw [rest, tail_eq_nil h, List.nil_append, Option.none_or]
      cases h2 : firstIn f .table2 0 (size .table2) with
      | none =>
        rw [tail_eq_nil h2]
        exact hit
      | some x => exact firstIn_eq_some (t := .table2) (by omega) h2

/-! ## The next entry -/

/-- The loop finds the first entry of the first bucket that is not empty. -/
theorem firstSlot_spec (hw : Walks w size f J) (hn : j + n = size t ∨ n = 0 ∧ size t ≤ j) :
    Triple J (firstSlot w t j n) fun r s => r = (firstIn f t j n).map standing ∧ J s := by
  induction n generalizing j with
  | zero => exact triple_pure fun s hs => ⟨rfl, hs⟩
  | succ n ih =>
    have hj : j < size t := by omega
    have hbucket : Triple J (bucket t j) fun b s => b = (t, j) ∧ J s :=
      fun s hs => ⟨(t, j), s, if_pos (by rwa [hw.size_eq s hs]), rfl, hs⟩
    rw [firstIn]
    refine Triple.bind_eq hbucket (Triple.bind_eq (hw.isEmpty hj) ?_)
    cases hf : f (t, j) with
    | nil => exact ih (by omega)
    | cons e es => exact Triple.bind_eq (hw.front hj hf) (triple_pure fun s hs => ⟨rfl, hs⟩)

/-- The search over the rest of a table. -/
theorem scan_spec (hw : Walks w size f J) : Triple J (scan w t j)
    fun r s => r = (firstIn f t j (size t - j)).map standing ∧ J s := by
  have hread : Triple J (read (·.size t)) fun n s => n = size t ∧ J s :=
    fun s hs => ⟨s.size t, s, rfl, by rw [hw.size_eq s hs], hs⟩
  exact Triple.bind_eq hread (firstSlot_spec hw (by omega))

/-- What follows a scan of the first table in vain. -/
theorem getD_scan_spec (hw : Walks w size f J) (it : Iterator) :
    Triple J (do return (← scan w .table2 0).getD it) fun it' s =>
      it' = (firstIn f .table2 0 (size .table2)).elim it standing ∧ J s := by
  refine Triple.bind_eq (scan_spec hw) (triple_pure fun s hs => ⟨?_, hs⟩)
  rw [Nat.sub_zero]
  cases firstIn f .table2 0 (size .table2) <;> rfl

/-- **`begin()`** is at the first entry. -/
theorem begin_eq_spec (hw : Walks w size f J) : Triple J (begin w)
    fun it s => it = (firstFrom size f .table1 0).elim ⟨.table1, 0, none⟩ standing ∧ J s := by
  unfold firstFrom
  refine Triple.bind_eq (scan_spec hw) ?_
  cases firstIn f .table1 0 (size .table1 - 0) with
  | some x => exact triple_pure fun s hs => ⟨rfl, hs⟩
  | none => exact getD_scan_spec hw ⟨.table1, 0, none⟩

/-- `begin` stands at the first of all entries. -/
theorem begin_spec (hw : Walks w size f J) :
    Triple J (begin w) fun it s => Ahead size f it (rest size f .table1 0) ∧ J s := by
  refine (begin_eq_spec hw).post fun it s hs => ⟨?_, hs.2⟩
  rw [hs.1]
  exact ahead_firstFrom rfl

/-- **`end()`** is at no entry. -/
theorem finish_spec (hw : Walks w size f J) :
    Triple J (finish w) fun it s => it.slot = none ∧ J s := by
  have hread : Triple J (read (·.size .table2)) fun n s => n = size .table2 ∧ J s :=
    fun s hs => ⟨s.size .table2, s, rfl, by rw [hw.size_eq s hs], hs⟩
  refine Triple.bind_eq hread (Triple.bind_eq (scan_spec hw) ?_)
  rw [Nat.sub_self]
  exact triple_pure fun s hs => ⟨rfl, hs⟩

/-- **`Increment`**, from an entry in any bucket. -/
theorem increment_eq_spec (hw : Walks w size f J) {b home : Bucket} {pre post : List (Addr × V)}
    (hlt : home.2 < size home.1) (hf : f home = pre ++ e :: post) :
    Triple J (increment w (standing (b, e)))
      fun it s => it = (follow size f b post).elim past standing ∧ J s := by
  obtain ⟨t, j⟩ := b
  refine Triple.bind_eq (hw.next hlt hf) ?_
  cases post with
  | cons e' post => exact triple_pure fun s hs => ⟨rfl, hs⟩
  | nil =>
    refine Triple.bind_eq (scan_spec (t := t) (j := j + 1) hw) ?_
    unfold follow firstFrom
    cases h : firstIn f t (j + 1) (size t - (j + 1)) with
    | some x =>
      refine triple_pure fun s hs => ⟨?_, hs⟩
      cases t with
      | table1 =>
        dsimp only
        rw [h]
        rfl
      | table2 =>
        dsimp only
        rw [h]
        rfl
    | none =>
      cases t with
      | table1 =>
        dsimp only
        rw [h, Option.none_or]
        exact getD_scan_spec hw past
      | table2 =>
        dsimp only
        rw [h]
        exact triple_pure fun s hs => ⟨rfl, hs⟩

/-- **`Increment`** goes to the next entry. -/
theorem increment_spec (hw : Walks w size f J) (hit : Ahead size f it (e :: es)) :
    Triple J (increment w it) fun it' s => Ahead size f it' es ∧ J s := by
  obtain ⟨t, i, slot⟩ := it
  obtain ⟨hslot, j, pre, post, hj, hlt, hf, rfl⟩ := hit
  obtain rfl : slot = some e.1 := hslot
  obtain rfl : i = (j : ℕ) := hj
  have hspec : Triple J (increment w (standing ((t, j), e)))
      fun it s => it = (follow size f (t, j) post).elim past standing ∧ J s :=
    increment_eq_spec hw hlt hf
  refine hspec.post fun it s hs => ⟨?_, hs.2⟩
  rw [hs.1]
  cases post with
  | nil => exact ahead_firstFrom rfl
  | cons e' post =>
    refine ⟨rfl, j, pre ++ [e], post, rfl, hlt, ?_, rfl⟩
    rw [List.append_assoc]
    exact hf

/-! ## Loops -/

section

variable {here : {α : Type} → TablesM M α → StateT σ Option α} {P : σ → Prop}
  {body : Addr → StateT σ Option (List β)} {g : Addr × V → List β} {last : Iterator} {fuel : ℕ}

/-- **A loop over the entries.**  The body may do what it wants beside the table. -/
theorem forEntries_spec (hw : Walks w size f J)
    (hhere : ∀ {α : Type} {p : TablesM M α} {Q : α → Prop}, Triple J p (fun a s => Q a ∧ J s) →
      Triple P (here p) fun a s => Q a ∧ P s)
    (hbody : ∀ e ∈ es, Triple P (body e.1) fun r s => r = g e ∧ P s) (hlast : last.slot = none)
    (hit : Ahead size f it es) (hfuel : es.length ≤ fuel) :
    Triple P (forEntries w here body last fuel it) fun r s => r = es.flatMap g ∧ P s := by
  induction es generalizing it fuel with
  | nil =>
    have hstop : it.slot = last.slot := hit.trans hlast.symm
    have hnil : forEntries w here body last fuel it = return [] := by
      cases fuel <;> exact if_pos hstop
    rw [hnil]
    exact triple_pure fun s hs => ⟨rfl, hs⟩
  | cons e es ih =>
    cases fuel with
    | zero => exact absurd hfuel (Nat.not_succ_le_zero _)
    | succ fuel =>
      have hne : it.slot ≠ last.slot := by
        rw [hit.1, hlast]
        nofun
      rw [forEntries, if_neg hne, hit.1]
      refine Triple.bind_eq (hbody e List.mem_cons_self) ?_
      refine Triple.bind (hhere (increment_spec hw hit)) fun it' => ?_
      refine Triple.of_pre (C := Ahead size f it' es) (fun hit' => ?_) fun s hs => hs.1
      have hrest := ih (fun e he => hbody e (List.mem_cons_of_mem _ he)) hit'
        (Nat.le_of_succ_le_succ hfuel)
      exact Triple.pre (Triple.bind_eq hrest (triple_pure fun s hs => ⟨rfl, hs⟩)) fun s hs => hs.2

/-- **The loop from `begin()` to `end()`** meets each entry once. -/
theorem forAll_spec (hw : Walks w size f J)
    (hhere : ∀ {α : Type} {p : TablesM M α} {Q : α → Prop}, Triple J p (fun a s => Q a ∧ J s) →
      Triple P (here p) fun a s => Q a ∧ P s)
    (hbody : ∀ e ∈ rest size f .table1 0, Triple P (body e.1) fun r s => r = g e ∧ P s) :
    Triple P (forAll w here body) fun r s => r = (rest size f .table1 0).flatMap g ∧ P s := by
  refine Triple.bind (hhere (begin_spec hw)) fun it => ?_
  refine Triple.of_pre (C := Ahead size f it (rest size f .table1 0)) (fun hit => ?_) fun s hs => hs.1
  refine Triple.pre (Triple.bind (hhere (finish_spec hw)) fun last => ?_) fun s hs => hs.2
  refine Triple.of_pre (C := last.slot = none) (fun hlast => ?_) fun s hs => hs.1
  refine Triple.pre (Triple.bind (hhere hw.bound) fun n => ?_) fun s hs => hs.2
  refine Triple.of_pre (C := (rest size f .table1 0).length ≤ n) (fun hle => ?_) fun s hs => hs.1
  exact (forEntries_spec hw hhere hbody hlast hit (by omega)).pre fun s hs => hs.2

end

/-- **Iteration** meets the entries of the buckets one after the other. -/
theorem visitAll_spec (hw : Walks w size f J) :
    Triple J (visitAll w) fun r s => r = (rest size f .table1 0).map Prod.fst ∧ J s := by
  refine (forAll_spec (g := fun e => [e.1]) hw (fun h => h)
    fun e _ => triple_pure fun s hs => ⟨rfl, hs⟩).post fun r s hs => ⟨?_, hs.2⟩
  rw [hs.1, List.map_eq_flatMap]

end

end Tables

end Mmkvc
