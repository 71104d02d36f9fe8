/-
# The operations of `TreeHashTable` on its tables in memory

`Holds l f H top` says that a table has the layout `l`, the trees `f` in its buckets and
the nodes `H` beside them in its memory.  Each operation takes such a state to the one
that `RehashedTrees` says, and finds every bucket within its table.
-/
import Mmkvc.RehashedTrees

namespace Mmkvc

open AvlM LinkedTree Tables

variable {K V : Type}

/-- The entries of the buckets of a table from `i` on, `n` of them, as `ClearApply` meets them. -/
def handed (f : Bucket → LinkedTree V) (t : TableName) (i n : ℕ) : List (Addr × V) :=
  (List.range' i n).flatMap fun j => (f (t, j)).postorder

/-- The contents of the buckets when those have been cleared. -/
def emptied (f : Bucket → LinkedTree V) (t : TableName) (i n : ℕ) : Bucket → LinkedTree V := fun b =>
  if b.1 = t ∧ i ≤ b.2 ∧ b.2 < i + n then nil else f b

/-- All entries in the order in which `ClearApply` meets them. -/
def handedAll (l : Layout) (f : Bucket → LinkedTree V) : List (Addr × V) :=
  handed f .table1 4 (l.size .table1 - 4) ++ handed f .table1 0 4
    ++ handed f .table2 0 (l.size .table2)

section

variable {f g : Bucket → LinkedTree V} {t : TableName} {i n : ℕ}

/-- What is handed out depends on the buckets of the stretch only. -/
theorem handed_congr (h : ∀ j, i ≤ j → j < i + n → f (t, j) = g (t, j)) :
    handed f t i n = handed g t i n := by
  refine List.flatMap_congr fun j hj => ?_
  obtain ⟨hle, hlt⟩ := List.mem_range'_1.mp hj
  rw [h j hle hlt]

theorem emptied_zero : emptied f t i 0 = f := by
  funext b
  exact if_neg (by omega)

/-- The buckets behind the first of a stretch are emptied, and the first as well. -/
theorem emptied_succ :
    emptied (Function.update f (t, i) nil) t (i + 1) n = emptied f t i (n + 1) := by
  funext ⟨t', j⟩
  unfold emptied
  by_cases hj : (t', j) = (t, i)
  · obtain ⟨rfl, rfl⟩ := Prod.mk.inj hj
    simp
  · rw [Function.update_of_ne hj]
    have hiff : t' = t ∧ i + 1 ≤ j ∧ j < i + 1 + n ↔ t' = t ∧ i ≤ j ∧ j < i + (n + 1) := by
      refine and_congr_right fun ht => ?_
      have hne : j ≠ i := fun h => hj (by rw [ht, h])
      omega
    simp only [hiff]

/-- Every entry of the stretch is handed out. -/
theorem coe_handed (f : Bucket → LinkedTree V) (t : TableName) (i n : ℕ) :
    (handed f t i n : Multiset (Addr × V)) = ∑ j ∈ Finset.range n, entries f (t, i + j) := by
  induction n with
  | zero => rfl
  | succ n ih =>
    unfold handed at ih ⊢
    rw [List.range'_concat, List.flatMap_append, ← Multiset.coe_add, ih, Finset.sum_range_succ,
      mul_comm, mul_one]
    congr 1
    rw [List.flatMap_singleton]
    exact coe_postorder _

/-- **Each entry is met once.** -/
theorem coe_handedAll {l : Layout} (hl : 4 ≤ l.size .table1) :
    (handedAll l f : Multiset (Addr × V)) = gather l.size (entries f) := by
  unfold handedAll gather
  rw [← Multiset.coe_add, ← Multiset.coe_add, coe_handed, coe_handed, coe_handed]
  obtain ⟨n, hn⟩ := Nat.exists_eq_add_of_le hl
  rw [hn, Finset.sum_range_add, Nat.add_sub_cancel_left]
  simp only [Nat.zero_add]
  congr 1
  exact add_comm _ _

end

namespace TreeHashTable

/-- A table with its layout and its trees. -/
abbrev Holds (l : Layout) (f : Bucket → LinkedTree V) (H : Multiset (Addr × AvlNode V)) (top : ℕ) :
    TreeHashTable V → Prop := Tables.Holds (fun size => Forest size f H top) l

section

variable {T : HashTraits K V} {l : Layout} {f : Bucket → LinkedTree V}
  {H : Multiset (Addr × AvlNode V)} {top i n r : ℕ} {t : TableName}

/-- Empty buckets come and go. -/
theorem forest_resize {h : AvlHeap Bucket V} {size : TableName → ℕ}
    (hnil : ∀ i, size t ≤ i ∨ n ≤ i → f (t, i) = nil) (hs : Forest size f H top h) :
    Forest (Function.update size t n) f H top h := by
  refine ⟨?_, hs.roots, hs.next, hs.fresh⟩
  rw [gather_resize fun i hi => by rw [hnil i hi]; rfl]
  exact hs.sat

/-- Constructing a bucket gives it an empty tree. -/
theorem forest_construct {size : TableName → ℕ} {b : Bucket} (hb : f b = nil) :
    Triple (Forest size f H top) (setRoot b none) fun _ => Forest size f H top := by
  intro s hs
  refine ⟨(), _, rfl, hs.sat, ?_, hs.next, hs.fresh⟩
  change Function.update s.roots b none = _
  rw [hs.roots, Function.update_eq_self_iff, hb]
  rfl

/-- The trees are exchanged with their roots. -/
theorem forest_swap {h : AvlHeap Bucket V} {size : TableName → ℕ} (hs : Forest size f H top h) :
    Forest (fun t => size t.other) (fun b => f (b.1.other, b.2)) H top (treeBuckets.swap h) := by
  refine ⟨?_, ?_, hs.next, hs.fresh⟩
  · rw [gather_other (f := fun b => (f b).cells none)]
    exact hs.sat
  · change (fun b : Bucket => h.roots (b.1.other, b.2)) = _
    rw [hs.roots]

/-- The trees are buckets as the tables want them. -/
theorem bucketLaws (H : Multiset (Addr × AvlNode V)) (top : ℕ) : BucketLaws (C := LinkedTree V)
    treeBuckets nil fun f size => Forest size f H top where
  resize := forest_resize
  construct := forest_construct
  destroy := Forest.clear_spec
  swap := forest_swap

/-- An operation on the trees is one on the table. -/
theorem onHeap_forest {α : Type} {p : AvlM Bucket V α} {x : α} {f' : Bucket → LinkedTree V}
    {H' : Multiset (Addr × AvlNode V)} {top' : ℕ}
    (hp : Triple (Forest l.size f H top) p fun a h => a = x ∧ Forest l.size f' H' top' h) :
    Triple (Holds l f H top) (onHeap p) fun a s => a = x ∧ Holds l f' H' top' s :=
  onHeap_spec (J := fun size => Forest size f' H' top') hp

/-- **`TreeHashTable()`.** -/
theorem construct_spec : ∃ s : TreeHashTable V, construct = some s
    ∧ Holds Layout.fresh (fun _ => nil) 0 0 s := by
  refine Tables.construct_spec (bucketLaws 0 0) ⟨?_, rfl, rfl, fun _ _ => rfl⟩
  rw [gather_zero_size, add_zero]
  exact Sat.empty

/-- **`Rehash`.** -/
theorem rehash_spec (hf : TreesInv T l f) :
    Triple (Holds l f H top) rehash fun _ => Holds l.start f H top :=
  Tables.rehash_spec (bucketLaws H top) hf.sound fun _ hb => hf.eq_nil hb

/-- **`IncrementalRehash`.** -/
theorem incrementalRehash_spec (hf : TreesInv T l f) (hT : LawfulHash T) :
    Triple (Holds l f H top) (incrementalRehash T)
      fun _ => Holds l.advance (advanceTrees T l f) H top := by
  cases hr : l.moved with
  | none =>
    rw [Layout.advance_of_idle hr, advanceTrees_of_idle hr]
    exact incrementalRehash_idle hr
  | some r =>
    obtain ⟨hsize, hlt⟩ := hf.sound.rehashing r hr
    have hpos := hf.sound.size_pos
    have hmove : ∀ mask2 : BitVec 64, (∀ v : BitVec 64, (v &&& mask2).toNat
        = v.toNat % l.size .table2) → Triple (Forest l.size f H top)
          (AvlTreeBase.reuseAllNodes (.table1, r) (moveNode T (l.size .table2) mask2))
          fun _ => Forest l.size (moveTrees T l r f) H top := fun mask2 hmask =>
      Forest.reuseAllNodes_spec hlt rfl (fun v => hmask _) (fun v => Nat.mod_lt _ (by omega))
        fun done a v hdone => hf.insertNew_pushSecond hT hr hdone
    have hnil : r + 1 = l.size .table1 → ∀ i, moveTrees T l r f (.table1, i) = nil := by
      intro hlast i
      rw [moveTrees_table1]
      split_ifs with hi
      · rfl
      · refine eq_nil_of_entries (Multiset.eq_zero_of_forall_notMem fun e he => ?_)
        have hmod : T.hashOf e.2 % l.size .table1 = i := (hf.placed _ e he).1
        have hle : l.moved.getD 0 ≤ i := (hf.placed _ e he).2
        have hidx := Nat.mod_lt (T.hashOf e.2) hpos
        rw [hr, Option.getD_some] at hle
        omega
    rw [advanceTrees_of_moved hr]
    exact incrementalRehash_moved (bucketLaws H top) (resets_shrinkArray (bucketLaws H top)) hf.sound
      hr hmove hnil

/-! ## Clearing -/

/-- **`Clear`.** -/
theorem clear_spec (hf : TreesInv T l f) :
    Triple (Holds l f H top) clear fun _ => Holds Layout.fresh (fun _ => nil) H top :=
  Tables.clear_spec (bucketLaws H top) hf.sound fun _ hb => hf.eq_nil hb

end

section

variable {σ : Type} {T : HashTraits K V} {l : Layout} {mask : TableName → BitVec 64}
  {f : Bucket → LinkedTree V} {H : Multiset (Addr × AvlNode V)} {top i n : ℕ} {t : TableName}
  {cb : V → σ → σ} {st : σ}

/-- Every value of a stretch of buckets is handed to the callback, bucket by bucket. -/
theorem clearApplyBucketsWith_spec (hn : i + n ≤ l.size t) :
    Triple (Has (fun size => Forest size f H top) l mask) (clearApplyBucketsWith t cb i n st)
      fun st' s => st' = (handed f t i n).foldl (fun st x => cb x.2 st) st
        ∧ Has (fun size => Forest size (emptied f t i n) H top) l mask s := by
  induction n generalizing i f st with
  | zero =>
    rw [emptied_zero]
    exact triple_pure fun s hs => ⟨rfl, hs⟩
  | succ n ih =>
    have hi : i < l.size t := by omega
    have hclear : Triple (Forest l.size f H top) (AvlTreeBase.clearApplyWith (t, i) cb st)
        fun st' h => st' = (f (t, i)).postorder.foldl (fun st x => cb x.2 st) st
          ∧ Forest l.size (Function.update f (t, i) nil) H top h := by
      refine Forest.lift hi fun counts => Mmkvc.clearApplyWith_spec.post fun st' h hh => ⟨hh.1, ?_⟩
      exact Forest.of_focus (e := Rest.reset (t, i) ⟨fun b' => (f b').root, top, counts⟩) hi
        (fun _ _ => rfl) hh.2
    refine Triple.bind_eq (has_bucket hi) (Triple.bind_eq
      (has_onHeap_eq (J := fun size => Forest size (Function.update f (t, i) nil) H top) hclear) ?_)
    refine (ih (by omega)).post fun st' s hs => ?_
    obtain ⟨rfl, hs⟩ := hs
    rw [emptied_succ] at hs
    refine ⟨?_, hs⟩
    have hrest : handed (Function.update f (t, i) nil) t (i + 1) n = handed f t (i + 1) n := by
      refine handed_congr fun j hj _ => Function.update_of_ne (fun h => ?_) _ _
      obtain rfl : j = i := (Prod.mk.inj h).2
      omega
    rw [hrest]
    exact (List.foldl_append ..).symm

/-- **`ClearApply` gives the callback all entries** and leaves no tree. -/
theorem clearApplyWith_spec (hf : TreesInv T l f) :
    Triple (Holds l f H top) (clearApplyWith cb st)
      fun st' s => st' = (handedAll l f).foldl (fun st x => cb x.2 st) st
        ∧ Holds Layout.fresh (fun _ => nil) H top s := by
  have hlaws := bucketLaws H top
  have hne : TableName.table2 ≠ .table1 := nofun
  have hfour : 4 ≤ l.size .table1 := hf.sound.four_le
  refine triple_of_has fun mask _ _ => ?_
  unfold clearApplyWith
  refine has_read_bind (fun s hs => congrFun hs.size_eq .table1) ?_
  refine Triple.bind_eq (clearApplyBucketsWith_spec (by omega)) ?_
  -- the trees of the first four buckets are left in the first table
  set f₁ := emptied f .table1 4 (l.size .table1 - 4) with hf₁
  have hnil : ∀ i, 4 ≤ i → f₁ (.table1, i) = nil := by
    intro i hi
    rw [hf₁]
    unfold emptied
    split_ifs with hlt
    · rfl
    · exact hf.eq_nil fun h => hlt ⟨rfl, hi, by dsimp only at h; omega⟩
  have hkept : ∀ i, i < 4 → f₁ (.table1, i) = f (.table1, i) := fun i hi =>
    if_neg (by dsimp only; omega)
  have hsecond : ∀ i, f₁ (.table2, i) = f (.table2, i) := fun i => if_neg fun h => hne h.1
  refine Triple.bind (shrink_spec hlaws (fun i hi => hnil i (hfour.trans hi)) hfour) fun _ => ?_
  rw [truncate_of_empty hnil]
  refine Triple.bind_eq (clearApplyBucketsWith_spec (by simp)) ?_
  rw [handed_congr fun j _ hj => hkept j (by omega), ← List.foldl_append]
  set f₂ := emptied f₁ .table1 0 4 with hf₂
  have hfirst₂ : ∀ i, f₂ (.table1, i) = nil := by
    intro i
    rw [hf₂]
    unfold emptied
    split_ifs with hlt
    · rfl
    · exact hnil i (by by_contra h; exact hlt ⟨rfl, i.zero_le, by dsimp only; omega⟩)
  have hsecond₂ : ∀ i, f₂ (.table2, i) = f (.table2, i) := fun i =>
    (if_neg fun h => hne h.1).trans (hsecond i)
  refine Triple.bind has_setUsed fun _ => ?_
  refine has_read_bind (x := l.moved) (fun s hs => congrArg Layout.moved hs.layout) ?_
  have hsize : Function.update l.size .table1 4 .table2 = l.size .table2 :=
    Function.update_of_ne hne _ _
  unfold handedAll
  dsimp only
  cases hr : l.moved with
  | none =>
    have hidle : l.size .table2 = 0 := hf.sound.idle hr
    rw [hidle, Option.isSome_none, if_neg Bool.false_ne_true, pure_bind]
    refine Triple.bind has_setRehashIndex fun _ => triple_pure fun s hs =>
      ⟨congrArg _ (List.append_nil _).symm, ?_⟩
    refine Has.holds_fresh (I := fun f size => Forest size f H top) hs ?_ ?_ ?_ ?_
    · exact Function.update_self .table1 4 l.size
    · exact hsize.trans hidle
    · exact Function.update_self ..
    · rintro ⟨t, i⟩
      cases t with
      | table1 => exact hfirst₂ i
      | table2 => exact (hsecond₂ i).trans (hf.eq_nil (by simp [hidle]))
  | some r =>
    rw [Option.isSome_some, if_pos rfl]
    simp only [pure_bind]
    refine has_read_bind (fun s hs => congrFun hs.size_eq .table2) ?_
    dsimp only
    rw [hsize]
    refine Triple.bind_eq (clearApplyBucketsWith_spec ((Nat.zero_add _).trans hsize.symm).le) ?_
    rw [handed_congr fun j _ _ => hsecond₂ j]
    have hfirst₃ : ∀ i, emptied f₂ .table2 0 (l.size .table2) (.table1, i) = nil := fun i =>
      (if_neg fun h => hne h.1.symm).trans (hfirst₂ i)
    have hnil₃ : ∀ i, l.size .table2 ≤ i → emptied f₂ .table2 0 (l.size .table2) (.table2, i) = nil := by
      intro i hi
      refine (if_neg fun h => ?_).trans ((hsecond₂ i).trans (hf.eq_nil (not_lt.mpr hi)))
      have hlt := h.2.2
      omega
    refine Triple.bind (shrink_spec hlaws (fun i hi => hnil₃ i (hsize ▸ hi)) (Nat.zero_le _))
      fun _ => Triple.bind has_setRehashIndex fun _ => triple_pure fun s hs =>
        ⟨List.foldl_append.symm, ?_⟩
    refine Has.holds_fresh (I := fun f size => Forest size f H top) hs ?_ ?_ ?_ ?_
    · change Function.update (Function.update l.size .table1 4) .table2 0 .table1 = 4
      rw [Function.update_of_ne hne.symm, Function.update_self]
    · exact Function.update_self .table2 0 (Function.update l.size .table1 4)
    · exact (Function.update_of_ne hne.symm _ _).trans (Function.update_self ..)
    · rintro ⟨t, i⟩
      cases t with
      | table1 => exact (if_neg (by simp)).trans (hfirst₃ i)
      | table2 => exact if_pos ⟨rfl, Nat.zero_le i⟩

/-- A callback without a state of its own is one whose state has nothing in it. -/
theorem clearApplyBuckets_eq (t : TableName) (i n : ℕ) :
    clearApplyBuckets t (fun _ => return ()) i n
      = (clearApplyBucketsWith t (fun _ st => st) i n () : HtM V Unit) := by
  unfold clearApplyBuckets
  induction n generalizing i with
  | zero => rfl
  | succ n ih =>
    rw [forBuckets, clearApplyBucketsWith]
    refine bind_congr fun b => ?_
    rw [clearApply_eq]
    exact bind_congr fun _ => ih (i + 1)

/-- **`ClearApply`**, with a callback that leaves the table alone. -/
theorem clearApply_spec (hf : TreesInv T l f) :
    Triple (Holds l f H top) (clearApply fun _ => return ())
      fun _ => Holds Layout.fresh (fun _ => nil) H top := by
  have heq : clearApply (fun _ => return ()) = (clearApplyWith (fun _ st => st) () : HtM V Unit) := by
    unfold clearApply clearApplyWith
    simp only [clearApplyBuckets_eq, pure_bind]
    refine bind_congr fun size => bind_congr fun _ => bind_congr fun _ => bind_congr fun _ =>
      bind_congr fun _ => bind_congr fun moved => ?_
    split_ifs
    · exact bind_congr fun _ => bind_congr fun _ => bind_congr fun _ => bind_pure_unit.symm
    · exact bind_pure_unit.symm
  rw [heq]
  exact (clearApplyWith_spec hf).post fun _ s hs => hs.2

end

end TreeHashTable

end Mmkvc
