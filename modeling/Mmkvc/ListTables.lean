/-
# `HashTable` on its tables in memory

The invariant of the lists of both tables, and what the operations return and leave.  An
entry may be in the second table while its bucket is yet to be moved, so a key is looked for
in both tables; no two entries have equal keys.
-/
import Mmkvc.ListBuckets

namespace Mmkvc

open Slist Tables

variable {K V : Type}

/-! ## Keys and hash values -/

namespace EqualTraits

/-- Equal keys. -/
def Equiv (T : EqualTraits K V) (x y : K) : Prop := T.equalKey x y = true

instance decidableEquiv (T : EqualTraits K V) : DecidableRel T.Equiv :=
  fun x y => inferInstanceAs (Decidable (T.equalKey x y = true))

/-- The key of an entry. -/
def keyOf (T : EqualTraits K V) (e : Addr × V) : K := T.gk e.2

/-- The hash value of a value. -/
def hashOf (T : EqualTraits K V) (v : V) : ℕ := (T.hash (T.gk v)).toNat

/-- The values with a key. -/
def has (T : EqualTraits K V) (k : K) (v : V) : Bool := T.equalKey (T.gk v) k

end EqualTraits

/-- An equality that is an equivalence, and a hash function that agrees with it. -/
structure LawfulEqual (T : EqualTraits K V) : Prop where
  equivalence : Equivalence T.Equiv
  hash : ∀ x y, T.equalKey x y = true → T.hash x = T.hash y

namespace HashTable

/-- A table with its layout and its lists. -/
abbrev Holds (l : Layout) (f : Bucket → List (Addr × V)) (H : Multiset (Addr × SNode V)) (top : ℕ) :
    HashTable V → Prop := Tables.Holds (fun size => Lists size f H top) l

/-- The entries of the buckets. -/
def listed (f : Bucket → List (Addr × V)) (b : Bucket) : Multiset (Addr × V) := f b

/-- What the operations keep. -/
structure ListsInv (T : EqualTraits K V) (l : Layout) (f : Bucket → List (Addr × V)) : Prop where
  sound : l.Sound
  placed : Placed (fun e : Addr × V => T.hashOf e.2) l (listed f)
  unique : Unique T.Equiv T.keyOf (gather l.size (listed f))

section

variable {T : EqualTraits K V} {l : Layout} {f : Bucket → List (Addr × V)}
  {H : Multiset (Addr × SNode V)} {top i n r : ℕ} {t : TableName} {b : Bucket} {v : V} {k : K}
  {e : Addr × V} {es : List (Addr × V)} {o : Option (Addr × V)}

theorem listed_update (f : Bucket → List (Addr × V)) (b : Bucket) (es : List (Addr × V)) :
    listed (Function.update f b es) = Function.update (listed f) b (es : Multiset (Addr × V)) := by
  funext b'
  exact Function.apply_update (fun _ (es : List (Addr × V)) => (es : Multiset (Addr × V))) f b es b'

theorem gather_listed (hb : b.2 < l.size b.1) : gather l.size (listed f)
    = f b + gather l.size (Function.update (listed f) b 0) := gather_eq hb

theorem gather_listed_update (hb : b.2 < l.size b.1) :
    gather l.size (listed (Function.update f b es))
      = es + gather l.size (Function.update (listed f) b 0) := by
  rw [listed_update, gather_update hb]

/-! ## Buckets as the tables want them -/

/-- Buckets without entries come and go. -/
theorem lists_resize {h : SlistHeap Bucket V} {size : TableName → ℕ}
    (hnil : ∀ i, size t ≤ i ∨ n ≤ i → f (t, i) = []) (hs : Lists size f H top h) :
    Lists (Function.update size t n) f H top h := by
  unfold Lists
  rw [gather_resize fun i hi => by rw [hnil i hi]; rfl]
  exact hs

theorem lists_construct {size : TableName → ℕ} (hb : f b = []) :
    Triple (Lists size f H top) (setHeader b none) fun _ => Lists size f H top := by
  refine setHeader_spec.post fun _ s hs => ?_
  rwa [← first_nil (V := V), ← hb, Function.update_eq_self b fun b' => first (f b')] at hs

/-- The lists are exchanged with their headers. -/
theorem lists_swap {h : SlistHeap Bucket V} {size : TableName → ℕ} (hs : Lists size f H top h) :
    Lists (fun t => size t.other) (fun b => f (b.1.other, b.2)) H top (listBuckets.swap h) := by
  refine ⟨?_, ?_, hs.next, hs.fresh⟩
  · rw [gather_other (f := fun b => cells (f b))]
    exact hs.sat
  · change (fun b : Bucket => h.headers (b.1.other, b.2)) = _
    rw [hs.headers]

/-- Lists are buckets as the tables need them. -/
theorem bucketLaws (H : Multiset (Addr × SNode V)) (top : ℕ) : BucketLaws (C := List (Addr × V))
    listBuckets [] fun f size => Lists size f H top where
  resize := lists_resize
  construct := lists_construct
  destroy := Lists.clear_spec
  swap := lists_swap

/-- An operation on the lists is one on the table. -/
theorem onHeap_lists {α : Type} {p : SlistM Bucket V α} {x : α} {f' : Bucket → List (Addr × V)}
    {H' : Multiset (Addr × SNode V)} {top' : ℕ}
    (hp : Triple (Lists l.size f H top) p fun a h => a = x ∧ Lists l.size f' H' top' h) :
    Triple (Holds l f H top) (onHeap p) fun a s => a = x ∧ Holds l f' H' top' s :=
  onHeap_spec (J := fun size => Lists size f' H' top') hp

/-- The same without a result. -/
theorem onHeap_unit {p : SlistM Bucket V Unit} {f' : Bucket → List (Addr × V)}
    {H' : Multiset (Addr × SNode V)} {top' : ℕ}
    (hp : Triple (Lists l.size f H top) p fun _ => Lists l.size f' H' top') :
    Triple (Holds l f H top) (onHeap p) fun _ => Holds l f' H' top' :=
  (onHeap_lists (x := ()) (hp.post fun _ _ hs => ⟨rfl, hs⟩)).post fun _ _ hs => hs.2

/-! ## The invariant -/

theorem ListsInv.eq_nil (h : ListsInv T l f) (hb : ¬ b.2 < l.size b.1) : f b = [] :=
  (Multiset.coe_eq_zero _).mp (h.placed.eq_zero h.sound hb)

theorem gather_listed_nil (size : TableName → ℕ) :
    gather size (listed fun _ => ([] : List (Addr × V))) = 0 := gather_zero size

/-- A new table keeps the rules. -/
theorem listsInv_fresh : ListsInv T Layout.fresh fun _ => ([] : List (Addr × V)) where
  sound := Layout.sound_fresh
  placed _ _ he := by cases he
  unique := by
    rw [gather_listed_nil]
    exact unique_zero

/-- The count is not part of the invariant. -/
theorem ListsInv.congr {l' : Layout} (hf : ListsInv T l f) (hsize : l'.size = l.size)
    (hmoved : l'.moved = l.moved) : ListsInv T l' f := by
  rw [Layout.eq_withUsed hsize hmoved]
  exact { hf with sound := hf.sound.withUsed _ }

/-- The start of a rehash keeps the rules and the entries. -/
theorem ListsInv.start (h : ListsInv T l f) :
    ListsInv T l.start f ∧ gather l.start.size (listed f) = gather l.size (listed f) := by
  obtain ⟨hplaced, hgather⟩ := h.placed.start
  refine ⟨⟨h.sound.start, hplaced, ?_⟩, hgather⟩
  rw [hgather]
  exact h.unique

/-- The index of a value in the second table. -/
def dest (T : EqualTraits K V) (l : Layout) (v : V) : ℕ := T.hashOf v % l.size .table2

/-- The entries after a bucket has been moved. -/
theorem listed_moveLists : listed (moveLists (dest T l) r f)
    = moveBucket (fun e => T.hashOf e.2) l r (listed f) := by
  funext ⟨t, i⟩
  cases t with
  | table1 =>
    change ((moveLists (dest T l) r f (.table1, i) : List (Addr × V)) : Multiset (Addr × V))
      = if i = r then 0 else ((f (.table1, i)) : Multiset (Addr × V))
    rw [moveLists_table1]
    split_ifs <;> rfl
  | table2 =>
    change ((moveLists (dest T l) r f (.table2, i) : List (Addr × V)) : Multiset (Addr × V))
      = (f (.table2, i) : Multiset (Addr × V))
        + (f (.table1, r) : Multiset (Addr × V)).filter fun e => dest T l e.2 = i
    rw [moveLists_table2, ← Multiset.coe_add, Multiset.coe_reverse, add_comm, Multiset.filter_coe]

/-- The lists after a step of a rehash. -/
def advanceLists (T : EqualTraits K V) (l : Layout) (f : Bucket → List (Addr × V)) :
    Bucket → List (Addr × V) :=
  match l.moved with
  | none => f
  | some r =>
    if r + 1 = l.size .table1 then takeOver [] (moveLists (dest T l) r f)
    else moveLists (dest T l) r f

/-- The entries after a step of a rehash. -/
theorem listed_advanceLists :
    listed (advanceLists T l f) = advanceBuckets (fun e => T.hashOf e.2) l (listed f) := by
  unfold advanceLists advanceBuckets
  cases hr : l.moved with
  | none => rfl
  | some r =>
    dsimp only
    split_ifs with hlast
    · rw [← listed_moveLists]
      funext ⟨t, i⟩
      cases t <;> rfl
    · exact listed_moveLists

/-- **A step of a rehash** keeps the invariant and the entries. -/
theorem ListsInv.advance (h : ListsInv T l f) : ListsInv T l.advance (advanceLists T l f)
    ∧ gather l.advance.size (listed (advanceLists T l f)) = gather l.size (listed f) := by
  obtain ⟨hplaced, hgather⟩ := h.placed.advance h.sound
  rw [← listed_advanceLists] at hplaced hgather
  refine ⟨⟨h.sound.advance, hplaced, ?_⟩, hgather⟩
  rw [hgather]
  exact h.unique

/-- A bucket gets other entries that belong there. -/
theorem ListsInv.update (h : ListsInv T l f) (hfits : ∀ e ∈ es, Fits l (T.hashOf e.2) b)
    (hunique : Unique T.Equiv T.keyOf (gather l.size (listed (Function.update f b es)))) :
    ListsInv T l (Function.update f b es) := by
  refine ⟨h.sound, ?_, hunique⟩
  rw [listed_update]
  exact h.placed.update hfits

/-- Entries can be removed from a bucket and put into another order. -/
theorem ListsInv.shrink (h : ListsInv T l f) (hT : LawfulEqual T) (hb : b.2 < l.size b.1)
    (hle : (es : Multiset (Addr × V)) ≤ f b) : ListsInv T l (Function.update f b es) := by
  refine h.update (fun e he => h.placed b e (Multiset.mem_of_le hle he))
    (h.unique.mono hT.equivalence ?_)
  rw [gather_listed_update hb, gather_listed hb]
  exact add_le_add_left hle _

/-! ## Rehashing and clearing -/

/-- **`HashTable()`.** -/
theorem construct_spec : ∃ s : HashTable V, construct = some s
    ∧ Holds Layout.fresh (fun _ => []) 0 0 s := by
  refine Tables.construct_spec (bucketLaws 0 0) ⟨?_, rfl, rfl, fun _ _ => rfl⟩
  rw [gather_zero_size, add_zero]
  exact Sat.empty

/-- **`Rehash`.** -/
theorem rehash_spec (hf : ListsInv T l f) :
    Triple (Holds l f H top) rehash fun _ => Holds l.start f H top :=
  Tables.rehash_spec (bucketLaws H top) hf.sound fun _ hb => hf.eq_nil hb

/-- **`IncrementalRehash`.** -/
theorem incrementalRehash_spec (hf : ListsInv T l f) :
    Triple (Holds l f H top) (incrementalRehash T)
      fun _ => Holds l.advance (advanceLists T l f) H top := by
  unfold advanceLists
  cases hr : l.moved with
  | none =>
    rw [Layout.advance_of_idle hr]
    exact incrementalRehash_idle hr
  | some r =>
    obtain ⟨hsize, hlt⟩ := hf.sound.rehashing r hr
    have hpos := hf.sound.size_pos
    have hmove : ∀ mask2 : BitVec 64,
        (∀ v : BitVec 64, (v &&& mask2).toNat = v.toNat % l.size .table2) →
        Triple (Lists l.size f H top)
          (do moveLoop T (.table1, r) (l.size .table2) mask2 ((← bound) + 1))
          fun _ => Lists l.size (moveLists (dest T l) r f) H top := by
      intro mask2 hmask
      refine Slist.bound_bind (Triple.of_pre (C := (f (.table1, r)).length ≤ top) (fun hle => ?_)
        fun s hs => ?_)
      · exact Lists.moveLoop_spec hlt (fun v => hmask _) (fun v => Nat.mod_lt _ (by omega))
          (Nat.lt_succ_of_le hle)
      · rw [Lists.focus_eq (b := (.table1, r)) hlt] at hs
        exact length_le hs
    refine incrementalRehash_moved (bucketLaws H top) (resets_shrink (bucketLaws H top)) hf.sound hr
      hmove fun hlast i => ?_
    rw [moveLists_table1]
    split_ifs with hi
    · rfl
    · refine (Multiset.coe_eq_zero _).mp (Multiset.eq_zero_of_forall_notMem fun e he => ?_)
      have hmod : T.hashOf e.2 % l.size .table1 = i := (hf.placed (.table1, i) e he).1
      have hle : l.moved.getD 0 ≤ i := (hf.placed (.table1, i) e he).2
      have hidx := Nat.mod_lt (T.hashOf e.2) hpos
      rw [hr, Option.getD_some] at hle
      omega

/-- **`Clear`.** -/
theorem clear_spec (hf : ListsInv T l f) :
    Triple (Holds l f H top) clear fun _ => Holds Layout.fresh (fun _ => []) H top :=
  Tables.clear_spec (bucketLaws H top) hf.sound fun _ hb => hf.eq_nil hb

end

end HashTable

end Mmkvc
