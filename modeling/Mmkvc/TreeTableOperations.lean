/-
# What the operations of `TreeHashTable` return and leave

Each operation takes a step of the rehash and then works on the one bucket where its key
belongs.  That holds also where the source looks into both tables: the other bucket has
no entry with the key.
-/
import Mmkvc.TreeTables

namespace Mmkvc

open AvlM LinkedTree Tables

variable {K V : Type}

namespace TreeHashTable

section

variable {T : HashTraits K V} {l : Layout} {f f' : Bucket → LinkedTree V}
  {H H' : Multiset (Addr × AvlNode V)} {top top' : ℕ} {b : Bucket} {α : Type}
  {v : V} {k : K} {x : Addr} {n : AvlNode V}

/-- The bucket of a key, by the tables. -/
theorem bucketOf_cases (T : HashTraits K V) (l : Layout) (k : K) :
    (l.moved = none ∧ T.bucketOf l k = (.table1, (T.hash k).toNat % l.size .table1))
      ∨ ∃ r, l.moved = some r ∧ ((T.hash k).toNat % l.size .table1 < r
          ∧ T.bucketOf l k = (.table2, (T.hash k).toNat % l.size .table2)
        ∨ ¬ (T.hash k).toNat % l.size .table1 < r
          ∧ T.bucketOf l k = (.table1, (T.hash k).toNat % l.size .table1)) := by
  unfold HashTraits.bucketOf home
  cases hr : l.moved with
  | none => exact Or.inl ⟨rfl, if_neg (Nat.not_lt_zero _)⟩
  | some r =>
    refine Or.inr ⟨r, rfl, ?_⟩
    rw [Option.getD_some]
    by_cases hlt : (T.hash k).toNat % l.size .table1 < r
    · exact Or.inl ⟨hlt, if_pos hlt⟩
    · exact Or.inr ⟨hlt, if_neg hlt⟩

/-- The bucket of a hash value in the second table is one that exists. -/
theorem bucket2_lt (hl : l.Sound) {r : ℕ} (hr : l.moved = some r) (h : ℕ) :
    h % l.size .table2 < l.size .table2 := by
  have hsize := (hl.rehashing r hr).1
  have hpos := hl.size_pos
  exact Nat.mod_lt _ (by omega)

/-! ## Insertion -/

/-- An insertion into a bucket, and the count. -/
theorem insertInto_spec {ins : Bucket → AvlM Bucket V (Bool × Option Addr)} {q : Bool × Option Addr}
    (hp : Triple (Forest l.size f H top) (ins b)
      fun a h => a = q ∧ Forest l.size f' H' top' h) :
    Triple (Holds l f H top) (insertInto ins b)
      fun r s => r = q ∧ Holds (if q.1 then l.add else l) f' H' top' s := by
  refine Triple.bind_eq (onHeap_forest hp) ?_
  obtain ⟨success, duplicate⟩ := q
  cases success with
  | false => exact triple_pure fun s hs => ⟨rfl, hs⟩
  | true => exact Triple.bind setUsed_spec fun _ => triple_pure fun s hs => ⟨rfl, hs⟩

/-- **`InsertWithDuplicate`.** -/
theorem insertWithDuplicate_spec (hf : TreesInv T l f) (hT : LawfulHash T) :
    let l₁ := l.start.advance
    let f₁ := advanceTrees T l.start f
    let out := insertNew T.toAvlTraits (T.gk v) top 1 v (f₁ (T.bucketOf l₁ (T.gk v)))
    Triple (Holds l f H top) (insertWithDuplicate T v)
      fun r s => r = (out.1.isNone, some (out.1.getD top))
        ∧ Holds (if out.1.isNone then l₁.add else l₁)
            (Function.update f₁ (T.bucketOf l₁ (T.gk v)) out.2) H
            (if out.1.isNone then top + 1 else top) s := by
  intro l₁ f₁ out
  have hf₁ : TreesInv T l₁ f₁ := (hf.start.1.advance hT).1
  have hinsert : ∀ b, b = T.bucketOf l₁ (T.gk v) → Triple (Holds l₁ f₁ H top)
      (insertInto (fun b => AvlTreeBase.insertWithDuplicate T.toAvlTraits b v true) b)
      fun r s => r = (out.1.isNone, some (out.1.getD top))
        ∧ Holds (if out.1.isNone then l₁.add else l₁)
            (Function.update f₁ (T.bucketOf l₁ (T.gk v)) out.2) H
            (if out.1.isNone then top + 1 else top) s := by
    rintro b rfl
    exact insertInto_spec (Forest.insertWithDuplicate_spec (hf₁.bucketOf_lt _))
  unfold insertWithDuplicate
  refine Triple.bind (rehash_spec hf) fun _ => ?_
  refine Triple.bind (incrementalRehash_spec hf.start.1 hT) fun _ => ?_
  refine read_bind (fun s hs => bucketIndex_table1 hf₁.sound _ hs) ?_
  refine read_bind (fun s hs => hs.moved_eq) ?_
  have hidx : (T.hash (T.gk v)).toNat % l₁.size .table1 < l₁.size .table1 :=
    Nat.mod_lt _ hf₁.sound.size_pos
  rcases bucketOf_cases T l₁ (T.gk v) with ⟨hr, hb⟩ | ⟨r, hr, ⟨hlt, hb⟩ | ⟨hlt, hb⟩⟩
  · rw [hr]
    exact bucket_bind hidx (hinsert _ hb.symm)
  · rw [hr]
    dsimp only
    rw [if_pos hlt]
    exact bucketOf_bind hf₁.sound (fun _ => Option.ne_none_iff_exists'.mpr ⟨r, hr⟩) (hinsert _ hb.symm)
  · rw [hr]
    dsimp only
    rw [if_neg hlt]
    -- the second table does not have the key
    refine bucketOf_bind hf₁.sound (fun _ => Option.ne_none_iff_exists'.mpr ⟨r, hr⟩) ?_
    refine Triple.bind_eq (a := none) ?_ (bucket_bind hidx (hinsert _ hb.symm))
    have hne : ((.table2, (T.hash (T.gk v)).toNat % l₁.size .table2) : Bucket)
        ≠ T.bucketOf l₁ (T.gk v) := by
      rw [hb]
      nofun
    refine onHeap_forest ?_
    rw [← hf₁.find_of_ne hT hne]
    exact Forest.findNode_spec (bucket2_lt hf₁.sound hr _)

/-- **`Push`** of a node beside the trees. -/
theorem push_spec (hf : TreesInv T l f) (hT : LawfulHash T)
    (hlinks : n.left = none ∧ n.right = none ∧ n.parent = none) :
    let l₁ := l.start.advance
    let f₁ := advanceTrees T l.start f
    let b := T.bucketOf l₁ (T.gk n.value)
    let out := insertNew T.toAvlTraits (T.gk n.value) x n.height n.value (f₁ b)
    Triple (Holds l f ({(x, n)} + H) top) (push T x)
      fun r s => r = out.1.isNone ∧ Holds (if out.1.isNone then l₁.add else l₁)
        (Function.update f₁ b out.2) (if out.1.isNone then H else {(x, n)} + H) top s := by
  intro l₁ f₁ b out
  have hf₁ : TreesInv T l₁ f₁ := (hf.start.1.advance hT).1
  have hpush : Triple (Forest l₁.size f₁ ({(x, n)} + H) top)
      (AvlTreeBase.pushWithDuplicate T.toAvlTraits b x false)
      fun r s => r = (out.1.isNone, none) ∧ Forest l₁.size (Function.update f₁ b out.2)
        (if out.1.isNone then H else {(x, n)} + H) top s :=
    Forest.pushWithDuplicate_spec (hf₁.bucketOf_lt _) hlinks
  have hinsert : ∀ b', b' = b → Triple (Holds l₁ f₁ ({(x, n)} + H) top)
      (insertInto (fun b => AvlTreeBase.pushWithDuplicate T.toAvlTraits b x false) b')
      fun r s => r = (out.1.isNone, none) ∧ Holds (if out.1.isNone then l₁.add else l₁)
        (Function.update f₁ b out.2) (if out.1.isNone then H else {(x, n)} + H) top s := by
    rintro b' rfl
    exact insertInto_spec hpush
  have hidx : (T.hash (T.gk n.value)).toNat % l₁.size .table1 < l₁.size .table1 :=
    Nat.mod_lt _ hf₁.sound.size_pos
  unfold push
  refine Triple.bind (Q := fun r s => r = (out.1.isNone, none)
    ∧ Holds (if out.1.isNone then l₁.add else l₁) (Function.update f₁ b out.2)
      (if out.1.isNone then H else {(x, n)} + H) top s) ?_
    fun r => triple_pure fun s hs => ⟨congrArg Prod.fst hs.1, hs.2⟩
  unfold pushWithDuplicate
  refine Triple.bind (rehash_spec hf) fun _ => ?_
  refine Triple.bind (incrementalRehash_spec hf.start.1 hT) fun _ => ?_
  refine Triple.bind_eq (a := n) (onHeap_forest (Forest.load_spec (by simp))) ?_
  refine read_bind (fun s hs => bucketIndex_table1 hf₁.sound _ hs) ?_
  refine read_bind (fun s hs => hs.moved_eq) ?_
  rcases bucketOf_cases T l₁ (T.gk n.value) with ⟨hr, hb⟩ | ⟨r, hr, ⟨hlt, hb⟩ | ⟨hlt, hb⟩⟩
  · rw [hr]
    exact bucket_bind hidx (hinsert _ hb.symm)
  · rw [hr]
    dsimp only
    rw [if_pos hlt]
    exact bucketOf_bind hf₁.sound (fun _ => Option.ne_none_iff_exists'.mpr ⟨r, hr⟩)
      (hinsert _ hb.symm)
  · rw [hr]
    dsimp only
    rw [if_neg hlt]
    refine bucket_bind hidx ?_
    rw [← hb]
    refine Triple.bind_eq (onHeap_forest hpush) ?_
    cases hnone : out.1.isNone with
    | false => exact triple_pure fun s hs => ⟨rfl, hs⟩
    | true =>
      -- the second table does not have the key
      have hmoved : l₁.moved ≠ none := Option.ne_none_iff_exists'.mpr ⟨r, hr⟩
      have hne : ((.table2, (T.hash (T.gk n.value)).toNat % l₁.size .table2) : Bucket) ≠ b := by
        rw [show b = _ from hb]
        nofun
      have hfind : Triple (Forest l₁.size (Function.update f₁ b out.2) H top)
          (AvlTreeBase.findNode T.toAvlTraits (.table2, (T.hash (T.gk n.value)).toNat
            % l₁.size .table2) (T.gk n.value))
          fun r s => r = none ∧ Forest l₁.size (Function.update f₁ b out.2) H top s := by
        rw [← hf₁.find_of_ne hT hne, ← Function.update_of_ne hne out.2 f₁]
        exact Forest.findNode_spec (bucket2_lt hf₁.sound hr _)
      refine bucketOf_bind hf₁.sound (fun _ => hmoved) ?_
      refine Triple.bind_eq (onHeap_forest hfind) ?_
      exact Triple.bind setUsed_spec fun _ => triple_pure fun s hs => ⟨rfl, hs⟩

/-! ## Search and removal -/

/-- The loop over the tables gives what its body gives for the bucket of the key, if the body
finds nothing elsewhere. -/
theorem forTables_spec {g : Bucket → HtM V (Option α)} {R : Option α → TreeHashTable V → Prop}
    (hf : TreesInv T l f)
    (hother : ∀ b, b ≠ T.bucketOf l k → b.2 < l.size b.1 →
      Triple (Holds l f H top) (g b) fun r s => r = none ∧ Holds l f H top s)
    (hhome : Triple (Holds l f H top) (g (T.bucketOf l k)) R)
    (hnone : ∀ s, R none s → Holds l f H top s ∧ ∀ s', Holds l f H top s' → R none s') :
    Triple (Holds l f H top) (forTables (T.hash k) g) R := by
  unfold forTables
  refine read_bind (x := l.moved.isSome) (fun s hs => by rw [hs.moved_eq]) ?_
  refine bucketOf_bind hf.sound (by simp) ?_
  rcases bucketOf_cases T l k with ⟨hr, hb⟩ | ⟨r, hr, ⟨hlt, hb⟩ | ⟨hlt, hb⟩⟩
  · rw [← hb, hr]
    refine Triple.bind hhome fun q => ?_
    cases q with
    | none => exact triple_pure fun s hs => hs
    | some x => exact triple_pure fun s hs => hs
  · have hmoved : l.moved ≠ none := Option.ne_none_iff_exists'.mpr ⟨r, hr⟩
    refine Triple.bind_eq (hother (.table1, (T.hash k).toNat % l.size .table1)
      (by rw [hb]; nofun) (Nat.mod_lt _ hf.sound.size_pos)) ?_
    rw [hr]
    refine bucketOf_bind hf.sound (fun _ => hmoved) ?_
    rw [← hb]
    exact hhome
  · have hmoved : l.moved ≠ none := Option.ne_none_iff_exists'.mpr ⟨r, hr⟩
    rw [← hb, hr]
    refine Triple.bind hhome fun q => ?_
    cases q with
    | none =>
      intro s hs
      obtain ⟨hholds, hback⟩ := hnone s hs
      have hsecond := hother (.table2, (T.hash k).toNat % l.size .table2) (by rw [hb]; nofun)
        (bucket2_lt hf.sound hr _)
      refine (bucketOf_bind hf.sound (fun _ => hmoved) (hsecond.post fun r s' hs' => ?_)) s hholds
      rw [hs'.1]
      exact hback s' hs'.2
    | some x => exact triple_pure fun s hs => hs

/-- **`FindNode`**, with the bucket. -/
theorem findNodeBucket_spec (hf : TreesInv T l f) (hT : LawfulHash T) :
    let f₁ := advanceTrees T l f
    let b := T.bucketOf l.advance k
    Triple (Holds l f H top) (findNodeBucket T k)
      fun r s => r = (find T.toAvlTraits k (f₁ b)).map (fun node => (b, node))
        ∧ Holds l.advance f₁ H top s := by
  intro f₁ b
  have hf₁ : TreesInv T l.advance f₁ := (hf.advance hT).1
  have hfind : ∀ b', b'.2 < l.advance.size b'.1 → Triple (Holds l.advance f₁ H top)
      (do return (← onHeap (AvlTreeBase.findNode T.toAvlTraits b' k)).map fun node => (b', node))
      fun r s => r = (find T.toAvlTraits k (f₁ b')).map (fun node => (b', node))
        ∧ Holds l.advance f₁ H top s := fun b' hb' =>
    Triple.bind_eq (onHeap_forest (Forest.findNode_spec hb')) (triple_pure fun s hs => ⟨rfl, hs⟩)
  unfold findNodeBucket
  refine Triple.bind (incrementalRehash_spec hf hT) fun _ => ?_
  refine forTables_spec hf₁ (fun b' hne hb' => ?_) (hfind b (hf₁.bucketOf_lt k)) fun s hs =>
    ⟨hs.2, fun s' hs' => ⟨hs.1, hs'⟩⟩
  have hspec := hfind b' hb'
  rwa [hf₁.find_of_ne hT hne] at hspec

/-- **`Find`.** -/
theorem findNode_spec (hf : TreesInv T l f) (hT : LawfulHash T) :
    let f₁ := advanceTrees T l f
    Triple (Holds l f H top) (findNode T k)
      fun r s => r = find T.toAvlTraits k (f₁ (T.bucketOf l.advance k))
        ∧ Holds l.advance f₁ H top s := by
  intro f₁
  have hf₁ : TreesInv T l.advance f₁ := (hf.advance hT).1
  have hfind : ∀ b, b.2 < l.advance.size b.1 → Triple (Holds l.advance f₁ H top)
      (onHeap (AvlTreeBase.findNode T.toAvlTraits b k))
      fun r s => r = find T.toAvlTraits k (f₁ b) ∧ Holds l.advance f₁ H top s := fun b hb =>
    onHeap_forest (Forest.findNode_spec hb)
  unfold findNode
  refine Triple.bind (incrementalRehash_spec hf hT) fun _ => ?_
  refine forTables_spec hf₁ (fun b hne hb => ?_) (hfind _ (hf₁.bucketOf_lt k)) fun s hs =>
    ⟨hs.2, fun s' hs' => ⟨hs.1, hs'⟩⟩
  have hspec := hfind b hb
  rwa [hf₁.find_of_ne hT hne] at hspec

/-- **`Extract`.** -/
theorem extract_spec (hf : TreesInv T l f) (hT : LawfulHash T) :
    let f₁ := advanceTrees T l f
    let b := T.bucketOf l.advance k
    let out := LinkedTree.eraseKey T.toAvlTraits k (f₁ b)
    Triple (Holds l f H top) (extract T k)
      fun r s => r = out.1.map (·.1)
        ∧ Holds (if out.1.isSome then l.advance.remove else l.advance)
            (Function.update f₁ b out.2) (extracted out.1 H) top s := by
  intro f₁ b out
  have hf₁ : TreesInv T l.advance f₁ := (hf.advance hT).1
  -- what is left to do with the node: count it out
  have hextract : ∀ b' (count : Option Addr → HtM V (Option Addr)),
      (count none = pure none ∧ ∀ x, count (some x) = setUsed (· - 1) >>= fun _ => pure (some x)) →
      b'.2 < l.advance.size b'.1 →
      let out' := LinkedTree.eraseKey T.toAvlTraits k (f₁ b')
      Triple (Holds l.advance f₁ H top)
        (onHeap (AvlTreeBase.extract T.toAvlTraits b' k) >>= count)
        fun r s => r = out'.1.map (·.1)
          ∧ Holds (if out'.1.isSome then l.advance.remove else l.advance)
              (Function.update f₁ b' out'.2) (extracted out'.1 H) top s := by
    rintro b' count ⟨hnone, hsome⟩ hb' out'
    refine Triple.bind_eq (onHeap_forest (Forest.extract_spec hb')) ?_
    cases hout : out'.1 with
    | none =>
      rw [Option.map_none, hnone]
      exact triple_pure fun s hs => ⟨rfl, hs⟩
    | some y =>
      rw [Option.map_some, hsome]
      exact Triple.bind setUsed_spec fun _ => triple_pure fun s hs => ⟨rfl, hs⟩
  unfold extract
  refine Triple.bind (incrementalRehash_spec hf hT) fun _ => ?_
  refine forTables_spec hf₁ (fun b' hne hb' => ?_)
    (hextract b _ (by exact ⟨rfl, fun _ => rfl⟩) (hf₁.bucketOf_lt k)) fun s hs => ?_
  · refine (hextract b' _ (by exact ⟨rfl, fun _ => rfl⟩) hb').post fun r s hs => ?_
    rw [eraseKey_of_find (hf₁.find_of_ne hT hne), Function.update_eq_self] at hs
    exact hs
  · obtain ⟨hnone, hholds⟩ := hs
    have hout : out.1 = none := Option.map_eq_none_iff.mp hnone.symm
    have hsame : Function.update f₁ b out.2 = f₁ := by
      rw [show out.2 = f₁ b from eraseKey_of_none hout, Function.update_eq_self]
    change Holds (if out.1.isSome then l.advance.remove else l.advance)
      (Function.update f₁ b out.2) (extracted out.1 H) top s at hholds
    rw [hout, hsame] at hholds
    refine ⟨hholds, fun s' hs' => ⟨hnone, ?_⟩⟩
    rw [hout, hsame]
    exact hs'

/-- **`Erase`.** -/
theorem erase_spec (hf : TreesInv T l f) (hT : LawfulHash T) :
    let f₁ := advanceTrees T l f
    let b := T.bucketOf l.advance k
    let out := LinkedTree.eraseKey T.toAvlTraits k (f₁ b)
    Triple (Holds l f H top) (erase T k)
      fun r s => r = (if out.1.isSome then 1 else 0)
        ∧ Holds (if out.1.isSome then l.advance.remove else l.advance)
            (Function.update f₁ b out.2) H top s := by
  intro f₁ b out
  refine Triple.bind_eq (extract_spec hf hT) ?_
  show Triple (Holds (if out.1.isSome then l.advance.remove else l.advance)
    (Function.update f₁ b out.2) (extracted out.1 H) top) _ _
  cases hout : out.1 with
  | none => exact triple_pure fun s hs => ⟨rfl, hs⟩
  | some y =>
    obtain ⟨a, h, v⟩ := y
    refine Triple.bind_eq (onHeap_forest (x := ()) ?_) (triple_pure fun s hs => ⟨rfl, hs⟩)
    exact Forest.dropNode_spec.post fun _ s hs => ⟨rfl, hs⟩

/-- **`EraseNode`** of the node with a key, in its bucket. -/
theorem eraseNode_spec {a : Addr} {h : ℕ} (hf : TreesInv T l f)
    (hfound : (LinkedTree.eraseKey T.toAvlTraits k (f (T.bucketOf l k))).1 = some (a, h, v)) :
    Triple (Holds l f H top) (eraseNode (T.bucketOf l k) (some a))
      fun r s => r = true ∧ Holds l (Function.update f (T.bucketOf l k)
        (LinkedTree.eraseKey T.toAvlTraits k (f (T.bucketOf l k))).2) H top s := by
  obtain ⟨c, y, z, hplug, herase⟩ := exists_place_of_eraseKey hfound
  rw [herase]
  exact onHeap_forest (Forest.eraseNode_spec (hf.bucketOf_lt k) hplug)

end

end TreeHashTable

end Mmkvc
