/-
# Trees of two tables through a rehash

What the operations of `TreeHashTable` do to the trees of its buckets, as functions of the
trees, and the invariant they keep: every entry is in the bucket where it belongs, every
tree is sorted, and no two entries have equivalent keys.
-/
import Mmkvc.TreeBuckets

namespace Mmkvc

open LinkedTree

variable {K V : Type}

/-! ## Keys and hash values -/

/-- The hash value of a value. -/
def HashTraits.hashOf (T : HashTraits K V) (v : V) : ℕ := (T.hash (T.gk v)).toNat

/-- A comparator that orders the keys, and a hash function that agrees with it. -/
structure LawfulHash (T : HashTraits K V) : Prop where
  cmp : LawfulCompare T.cmp
  hash : ∀ x y, T.cmp x y = 0 → T.hash x = T.hash y

/-- The entries of the buckets. -/
def entries (f : Bucket → LinkedTree V) (b : Bucket) : Multiset (Addr × V) := (f b).inorder

/-- The entries of a bucket that is changed. -/
theorem entries_update (f : Bucket → LinkedTree V) (b : Bucket) (t : LinkedTree V) :
    entries (Function.update f b t) = Function.update (entries f) b (t.inorder : Multiset (Addr × V)) := by
  funext b'
  exact Function.apply_update (fun _ t => (LinkedTree.inorder t : Multiset (Addr × V))) f b t b'

/-! ## Pushing the nodes of one tree into another -/

section

variable {T : AvlTraits K V} {t : LinkedTree V} {es : List (Addr × V)} {a : Addr} {v : V} {h : ℕ}

/-- An insertion that meets no entry with its key adds the entry. -/
theorem insertNew_fresh {key : K} (hT : LawfulCompare T.cmp) (hsorted : t.inorder.Pairwise T.le)
    (hkey : key = T.gk v) (hfresh : ∀ e ∈ t.inorder, T.cmp (T.gk e.2) key ≠ 0) :
    (insertNew T key a h v t).1 = none
      ∧ ((insertNew T key a h v t).2.inorder : Multiset (Addr × V)) = (a, v) ::ₘ t.inorder
      ∧ (insertNew T key a h v t).2.inorder.Pairwise T.le := by
  subst hkey
  rcases insertNew_outcome hT hsorted a h v with ⟨hnone, L, R, hent, hent', hL, hR⟩ | ⟨b, w, -, hmem, heq⟩
  · refine ⟨hnone, ?_, ?_⟩
    · rw [hent', hent, Multiset.cons_coe, Multiset.coe_eq_coe]
      exact List.perm_middle
    · rw [hent] at hsorted
      rw [hent']
      exact pairwise_insert hsorted (fun y hy => (hL y hy).le) fun y hy => hT.le_swap.mpr (hR y hy).le
  · exact absurd heq (hfresh _ hmem)

/-- Entries with different keys are all pushed. -/
theorem pushAll_spec (hT : LawfulCompare T.cmp) (hsorted : t.inorder.Pairwise T.le)
    (hunique : Unique T.Equiv T.keyOf ((es : Multiset (Addr × V)) + t.inorder)) :
    ((pushAll T es t).inorder : Multiset (Addr × V)) = es + t.inorder
      ∧ (pushAll T es t).inorder.Pairwise T.le := by
  induction es generalizing t with
  | nil => exact ⟨(zero_add _).symm, hsorted⟩
  | cons e es ih =>
    rw [← Multiset.cons_coe, Multiset.cons_add] at hunique
    obtain ⟨hfresh, -⟩ := (unique_cons hT.equivalence).mp hunique
    obtain ⟨-, hadd, hsorted'⟩ := insertNew_fresh (a := e.1) (v := e.2) (h := 0) hT hsorted rfl
      fun e' he' heq => hfresh e' (Multiset.mem_add.mpr (Or.inr he')) (hT.eq_swap.mp heq)
    have hrest := ih hsorted' (by rwa [hadd, Multiset.add_cons])
    rw [hadd, Multiset.add_cons] at hrest
    rw [← Multiset.cons_coe, Multiset.cons_add]
    exact hrest

/-- Each of them in its turn. -/
theorem insertNew_pushAll (hT : LawfulCompare T.cmp) (hsorted : t.inorder.Pairwise T.le)
    (hunique : Unique T.Equiv T.keyOf ((a, v) ::ₘ ((es : Multiset (Addr × V)) + t.inorder))) :
    (insertNew T (T.gk v) a h v (pushAll T es t)).1 = none := by
  obtain ⟨hfresh, hrest⟩ := (unique_cons hT.equivalence).mp hunique
  obtain ⟨hent, hsorted'⟩ := pushAll_spec hT hsorted hrest
  refine (insertNew_fresh hT hsorted' rfl fun e he heq => ?_).1
  refine hfresh e ?_ (hT.eq_swap.mp heq)
  rw [← hent]
  exact he

end

/-! ## The invariant -/

section

variable {T : HashTraits K V} {l : Layout} {f : Bucket → LinkedTree V} {r : ℕ} {b : Bucket}

/-- What the operations keep. -/
structure TreesInv (T : HashTraits K V) (l : Layout) (f : Bucket → LinkedTree V) : Prop where
  sound : l.Sound
  placed : Placed (fun e : Addr × V => T.hashOf e.2) l (entries f)
  behind : Behind (fun e : Addr × V => T.hashOf e.2) l (entries f)
  sorted : ∀ b, (f b).inorder.Pairwise T.le
  unique : Unique T.Equiv T.keyOf (gather l.size (entries f))

/-- Where no entry may be the tree is empty. -/
theorem eq_nil_of_entries (h : entries f b = 0) : f b = nil := by
  have hnil : (f b).inorder = [] := Multiset.coe_eq_zero _ |>.mp h
  cases ht : f b with
  | nil => rfl
  | node a hh v l r =>
    rw [ht] at hnil
    simp at hnil

theorem TreesInv.eq_nil (h : TreesInv T l f) (hb : ¬ b.2 < l.size b.1) : f b = nil :=
  eq_nil_of_entries (h.placed.eq_zero h.sound hb)

theorem gather_entries_nil (size : TableName → ℕ) :
    gather size (entries fun _ => (nil : LinkedTree V)) = 0 := gather_zero size

/-- A new table keeps the rules. -/
theorem treesInv_fresh : TreesInv T Layout.fresh fun _ => (nil : LinkedTree V) where
  sound := Layout.sound_fresh
  placed _ _ he := by cases he
  behind _ _ he := by cases he
  sorted _ := List.Pairwise.nil
  unique := by
    rw [gather_entries_nil]
    exact unique_zero

/-! ## A step of a rehash -/

/-- The index of a value in the second table. -/
def HashTraits.dest (T : HashTraits K V) (l : Layout) (v : V) : ℕ := T.hashOf v % l.size .table2

/-- The trees after the bucket `r` of the first table has been moved. -/
def moveTrees (T : HashTraits K V) (l : Layout) (r : ℕ) (f : Bucket → LinkedTree V) :
    Bucket → LinkedTree V :=
  Function.update (pushSecond T.toAvlTraits (T.dest l) (f (.table1, r)).postorder f)
    (.table1, r) nil

/-- The bucket that is moved is empty behind it; the others of its table stay. -/
theorem moveTrees_table1 (i : ℕ) :
    moveTrees T l r f (.table1, i) = if i = r then nil else f (.table1, i) := by
  unfold moveTrees
  by_cases hi : i = r
  · rw [hi, Function.update_self, if_pos rfl]
  · rw [Function.update_of_ne (by simpa using hi), if_neg hi]
    rfl

theorem moveTrees_table2 (i : ℕ) : moveTrees T l r f (.table2, i) = pushAll T.toAvlTraits
    ((f (.table1, r)).postorder.filter fun e => T.dest l e.2 = i) (f (.table2, i)) :=
  Function.update_of_ne (by simp) _ _

/-- The trees after a step of a rehash. -/
def advanceTrees (T : HashTraits K V) (l : Layout) (f : Bucket → LinkedTree V) :
    Bucket → LinkedTree V :=
  match l.moved with
  | none => f
  | some r =>
    if r + 1 = l.size .table1 then takeOver nil (moveTrees T l r f) else moveTrees T l r f

theorem advanceTrees_of_idle (hr : l.moved = none) : advanceTrees T l f = f := by
  rw [advanceTrees, hr]

theorem advanceTrees_of_moved (hr : l.moved = some r) : advanceTrees T l f
    = if r + 1 = l.size .table1 then takeOver nil (moveTrees T l r f) else moveTrees T l r f := by
  rw [advanceTrees, hr]

/-- Two buckets have no more than all of them. -/
theorem add_le_gather {E : Type} {size : TableName → ℕ} {B : Bucket → Multiset E} {b b' : Bucket}
    (hne : b ≠ b') (hb : b.2 < size b.1) (hb' : b'.2 < size b'.1) : B b + B b' ≤ gather size B := by
  rw [gather_eq hb, gather_eq hb', Function.update_of_ne hne.symm]
  exact add_le_add_right (Multiset.le_add_right _ _) _

/-- The nodes of a bucket and those of a bucket of the second table have different keys. -/
theorem TreesInv.unique_second (h : TreesInv T l f) (hT : LawfulHash T) (hr : l.moved = some r)
    {i : ℕ} {es : List (Addr × V)} (hes : (es : Multiset (Addr × V)) ≤ (f (.table1, r)).inorder) :
    Unique T.Equiv T.keyOf ((es : Multiset (Addr × V)) + (f (.table2, i)).inorder) := by
  obtain ⟨-, hlt⟩ := h.sound.rehashing r hr
  have hle : (es : Multiset (Addr × V)) + (f (.table2, i)).inorder ≤ gather l.size (entries f) := by
    by_cases hi : i < l.size .table2
    · refine le_trans (add_le_add_left hes _) ?_
      have hne : ((.table1, r) : Bucket) ≠ (.table2, i) := nofun
      exact add_le_gather hne hlt hi
    · rw [h.eq_nil (b := (.table2, i)) hi, inorder_nil, Multiset.coe_nil, add_zero]
      refine hes.trans ?_
      rw [gather_eq (b := (.table1, r)) hlt]
      exact Multiset.le_add_right _ _
  exact h.unique.mono hT.cmp.equivalence hle

theorem coe_postorder (t : LinkedTree V) :
    (t.postorder : Multiset (Addr × V)) = t.inorder := Multiset.coe_eq_coe.mpr t.postorder_perm_inorder

/-- The entries that are pushed into a bucket of the second table. -/
theorem coe_filter_postorder (p : Addr × V → Prop) [DecidablePred p] (t : LinkedTree V) :
    ((t.postorder.filter p : List (Addr × V)) : Multiset (Addr × V))
      = (t.inorder : Multiset (Addr × V)).filter p := by
  rw [← coe_postorder, Multiset.filter_coe]

/-- No node that is moved meets an entry with its key. -/
theorem TreesInv.insertNew_pushSecond (h : TreesInv T l f) (hT : LawfulHash T)
    (hr : l.moved = some r) {done : List (Addr × V)} {a : Addr} {v : V}
    (hdone : done ++ [(a, v)] <+: (f (.table1, r)).postorder) :
    (insertNew T.toAvlTraits (T.gk v) a 0 v
      (pushSecond T.toAvlTraits (T.dest l) done f (.table2, T.dest l v))).1 = none := by
  refine insertNew_pushAll hT.cmp (h.sorted _) ?_
  have hsub : (((done ++ [(a, v)]).filter fun e => T.dest l e.2 = T.dest l v : List (Addr × V))
      : Multiset (Addr × V)) ≤ (f (.table1, r)).inorder := by
    rw [← coe_postorder]
    exact (List.filter_sublist.trans hdone.sublist).subperm
  have hunique := h.unique_second hT hr (i := T.dest l v) hsub
  rw [List.filter_append, List.filter_cons_of_pos (by simp), List.filter_nil] at hunique
  rw [← Multiset.cons_add]
  convert hunique using 2
  rw [Multiset.cons_coe, Multiset.coe_eq_coe]
  exact (List.perm_append_singleton _ _).symm

/-- The entries after a bucket has been moved; the trees stay sorted. -/
theorem entries_moveTrees (h : TreesInv T l f) (hT : LawfulHash T) (hr : l.moved = some r) :
    entries (moveTrees T l r f) = moveBucket (fun e => T.hashOf e.2) l r (entries f)
      ∧ ∀ b, (moveTrees T l r f b).inorder.Pairwise T.le := by
  have hpush : ∀ i, ((moveTrees T l r f (.table2, i)).inorder : Multiset (Addr × V))
      = (f (.table2, i)).inorder + (entries f (.table1, r)).filter (fun e => T.dest l e.2 = i)
        ∧ (moveTrees T l r f (.table2, i)).inorder.Pairwise T.le := by
    intro i
    have hle : (((f (.table1, r)).postorder.filter fun e => T.dest l e.2 = i : List (Addr × V))
        : Multiset (Addr × V)) ≤ (f (.table1, r)).inorder := by
      rw [coe_filter_postorder]
      exact Multiset.filter_le _ _
    obtain ⟨hent, hsorted⟩ := pushAll_spec hT.cmp (h.sorted (.table2, i))
      (h.unique_second hT hr hle)
    rw [moveTrees_table2, hent, coe_filter_postorder, add_comm]
    exact ⟨rfl, hsorted⟩
  constructor
  · funext ⟨t, i⟩
    cases t with
    | table1 =>
      change ((moveTrees T l r f (.table1, i)).inorder : Multiset (Addr × V))
        = if i = r then 0 else ((f (.table1, i)).inorder : Multiset (Addr × V))
      rw [moveTrees_table1]
      split_ifs <;> rfl
    | table2 => exact (hpush i).1
  · rintro ⟨t, i⟩
    cases t with
    | table1 =>
      rw [moveTrees_table1]
      split_ifs
      · exact List.Pairwise.nil
      · exact h.sorted _
    | table2 => exact (hpush i).2

/-- The entries after a step of a rehash; the trees stay sorted. -/
theorem entries_advanceTrees (h : TreesInv T l f) (hT : LawfulHash T) :
    entries (advanceTrees T l f) = advanceBuckets (fun e => T.hashOf e.2) l (entries f)
      ∧ ∀ b, (advanceTrees T l f b).inorder.Pairwise T.le := by
  unfold advanceTrees advanceBuckets
  cases hr : l.moved with
  | none => exact ⟨rfl, h.sorted⟩
  | some r =>
    obtain ⟨hent, hsorted⟩ := entries_moveTrees h hT hr
    dsimp only
    split_ifs with hlast
    · rw [← hent]
      constructor
      · funext ⟨t, i⟩
        cases t <;> rfl
      · rintro ⟨t, i⟩
        cases t with
        | table1 => exact hsorted _
        | table2 => exact List.Pairwise.nil
    · exact ⟨hent, hsorted⟩

/-- **A step of a rehash** keeps the invariant and the entries. -/
theorem TreesInv.advance (h : TreesInv T l f) (hT : LawfulHash T) :
    TreesInv T l.advance (advanceTrees T l f)
      ∧ gather l.advance.size (entries (advanceTrees T l f)) = gather l.size (entries f) := by
  obtain ⟨hent, hsorted⟩ := entries_advanceTrees h hT
  obtain ⟨hplaced, hgather⟩ := h.placed.advance h.sound
  rw [hent]
  refine ⟨⟨h.sound.advance, hent ▸ hplaced, hent ▸ h.behind.advance h.placed, hsorted, ?_⟩, hgather⟩
  rw [hent, hgather]
  exact h.unique

/-- The start of a rehash keeps the rules and the entries. -/
theorem TreesInv.start (h : TreesInv T l f) :
    TreesInv T l.start f ∧ gather l.start.size (entries f) = gather l.size (entries f) := by
  obtain ⟨hplaced, hgather⟩ := h.placed.start
  refine ⟨⟨h.sound.start, hplaced, h.behind.start h.placed, h.sorted, ?_⟩, hgather⟩
  rw [hgather]
  exact h.unique

/-! ## Operations of the bucket where a key belongs -/

variable {a : Addr} {v : V} {h : ℕ} {k : K} {t : LinkedTree V}

/-- The count is not part of the invariant. -/
theorem TreesInv.congr {l' : Layout} (hf : TreesInv T l f) (hsize : l'.size = l.size)
    (hmoved : l'.moved = l.moved) : TreesInv T l' f := by
  rw [Layout.eq_withUsed hsize hmoved]
  exact { hf with sound := hf.sound.withUsed _ }

/-- The entries after one bucket has changed. -/
theorem gather_entries_update (hb : b.2 < l.size b.1) :
    gather l.size (entries (Function.update f b t)) + (f b).inorder
      = gather l.size (entries f) + t.inorder := by
  rw [entries_update, gather_update hb, gather_eq (f := entries f) hb]
  change _ = ((f b).inorder : Multiset (Addr × V)) + _ + _
  abel

/-- The bucket of a key. -/
def HashTraits.bucketOf (T : HashTraits K V) (l : Layout) (k : K) : Bucket := home l (T.hash k).toNat

theorem TreesInv.bucketOf_lt (hf : TreesInv T l f) (k : K) :
    (T.bucketOf l k).2 < l.size (T.bucketOf l k).1 := (fits_home l _).lt hf.sound

/-- Entries with a key are in its bucket. -/
theorem TreesInv.mem_bucketOf (hf : TreesInv T l f) (hT : LawfulHash T) {e : Addr × V}
    (he : e ∈ entries f b) (hk : T.cmp (T.gk e.2) k = 0) : b = T.bucketOf l k := by
  rw [hf.placed.eq_home hf.behind he]
  unfold HashTraits.hashOf HashTraits.bucketOf
  rw [hT.hash _ _ hk]

/-- A key has no entry outside its bucket. -/
theorem TreesInv.lookup_bucketOf (hf : TreesInv T l f) (hT : LawfulHash T) {o : Option (Addr × V)}
    (ho : Lookup T.Equiv T.keyOf k (entries f (T.bucketOf l k)) o) :
    Lookup T.Equiv T.keyOf k (gather l.size (entries f)) o := by
  cases o with
  | none =>
    intro e he hk
    obtain ⟨b, -, hmem⟩ := mem_gather.mp he
    obtain rfl := hf.mem_bucketOf hT hmem hk
    exact ho e hmem hk
  | some e => exact ⟨mem_gather.mpr ⟨_, hf.bucketOf_lt k, ho.1⟩, ho.2⟩

/-- `Find` in the bucket of a key. -/
theorem TreesInv.find_bucketOf (hf : TreesInv T l f) (hT : LawfulHash T) (k : K) :
    ∃ o, Lookup T.Equiv T.keyOf k (gather l.size (entries f)) o
      ∧ find T.toAvlTraits k (f (T.bucketOf l k)) = o.map Prod.fst := by
  rcases find_spec k hT.cmp (hf.sorted (T.bucketOf l k)) with ⟨hnone, hall⟩ | ⟨a, v, hsome, hmem, hk⟩
  · exact ⟨none, hf.lookup_bucketOf hT hall, hnone⟩
  · exact ⟨some (a, v), hf.lookup_bucketOf hT ⟨hmem, hk⟩, hsome⟩

/-- `Find` in another bucket. -/
theorem TreesInv.find_of_ne (hf : TreesInv T l f) (hT : LawfulHash T) (hb : b ≠ T.bucketOf l k) :
    find T.toAvlTraits k (f b) = none := by
  rcases find_spec k hT.cmp (hf.sorted b) with ⟨hnone, -⟩ | ⟨a, v, -, hmem, hk⟩
  · exact hnone
  · exact absurd (hf.mem_bucketOf (e := (a, v)) hT hmem hk) hb

/-- The trees after a change of the bucket of a key. -/
theorem TreesInv.update (hf : TreesInv T l f) (hT : LawfulHash T)
    (ht : ∀ e ∈ t.inorder, e ∈ (f (T.bucketOf l k)).inorder ∨ T.cmp (T.gk e.2) k = 0)
    (hsorted : t.inorder.Pairwise T.le)
    (hunique : Unique T.Equiv T.keyOf
      (gather l.size (entries (Function.update f (T.bucketOf l k) t)))) :
    TreesInv T l (Function.update f (T.bucketOf l k) t) := by
  have hhash : ∀ e : Addr × V, T.cmp (T.gk e.2) k = 0 → T.hashOf e.2 = (T.hash k).toNat :=
    fun e he => congrArg BitVec.toNat (hT.hash _ _ he)
  refine ⟨hf.sound, ?_, ?_, fun b => ?_, hunique⟩
  · rw [entries_update]
    refine hf.placed.update fun e he => ?_
    rcases ht e he with hmem | hk
    · exact hf.placed _ e hmem
    · rw [hhash e hk]
      exact fits_home l _
  · rw [entries_update]
    refine hf.behind.update fun i hi e he => ?_
    rcases ht e he with hmem | hk
    · rw [hi] at hmem
      exact hf.behind i e hmem
    · rw [hhash e hk]
      unfold HashTraits.bucketOf home at hi
      split_ifs at hi with hlt
      · exact hlt
      · cases hi
  · by_cases hb : b = T.bucketOf l k
    · rw [hb, Function.update_self]
      exact hsorted
    · rw [Function.update_of_ne hb]
      exact hf.sorted b

/-- **An insertion** into the bucket of a key: the entry with the key is found, or there is
none and the new one is added. -/
theorem TreesInv.insertNew (hf : TreesInv T l f) (hT : LawfulHash T) (a : Addr) (h : ℕ) (v : V) :
    let b := T.bucketOf l (T.gk v)
    let out := LinkedTree.insertNew T.toAvlTraits (T.gk v) a h v (f b)
    ∃ o, Lookup T.Equiv T.keyOf (T.gk v) (gather l.size (entries f)) o
      ∧ out.1 = o.map Prod.fst ∧ TreesInv T l (Function.update f b out.2)
      ∧ gather l.size (entries (Function.update f b out.2))
        = if o.isNone then (a, v) ::ₘ gather l.size (entries f) else gather l.size (entries f) := by
  intro b out
  rcases insertNew_outcome hT.cmp (hf.sorted b) a h v with
    ⟨hnone, L, R, hent, hent', hL, hR⟩ | ⟨x, w, hout, hmem, hk⟩
  · have habsent : ∀ e ∈ (f b).inorder, T.cmp (T.gk e.2) (T.gk v) ≠ 0 := by
      intro e he
      rw [hent, List.mem_append] at he
      rcases he with he | he
      · exact (hL e he).ne
      · exact (hR e he).ne'
    obtain ⟨-, hadd, hsorted⟩ := insertNew_fresh (a := a) (h := h) hT.cmp (hf.sorted b) rfl habsent
    have hlookup := hf.lookup_bucketOf (o := none) hT habsent
    have hgather : gather l.size (entries (Function.update f b out.2))
        = (a, v) ::ₘ gather l.size (entries f) := by
      have hsum := gather_entries_update (f := f) (t := out.2) (hf.bucketOf_lt (T.gk v))
      rw [hadd, Multiset.add_cons, ← Multiset.cons_add] at hsum
      exact add_right_cancel hsum
    refine ⟨none, hlookup, hnone, hf.update hT (fun e he => ?_) hsorted ?_, hgather⟩
    · have hmem : e ∈ (a, v) ::ₘ ((f b).inorder : Multiset (Addr × V)) := hadd ▸ he
      rcases Multiset.mem_cons.mp hmem with rfl | hmem
      · exact Or.inr (hT.cmp.refl _)
      · exact Or.inl hmem
    · rw [hgather]
      refine (unique_cons hT.cmp.equivalence).mpr ⟨fun e he heq => ?_, hf.unique⟩
      exact hlookup e he (hT.cmp.eq_swap.mp heq)
  · refine ⟨some (x, w), hf.lookup_bucketOf hT ⟨hmem, hk⟩, congrArg Prod.fst hout, ?_, ?_⟩
    · rw [show out.2 = f b from congrArg Prod.snd hout, Function.update_eq_self]
      exact hf
    · rw [show out.2 = f b from congrArg Prod.snd hout, Function.update_eq_self]
      rfl

/-- **A removal** from the bucket of a key: the entry with the key goes, if there is one. -/
theorem TreesInv.eraseKey (hf : TreesInv T l f) (hT : LawfulHash T) (k : K) :
    let b := T.bucketOf l k
    let out := LinkedTree.eraseKey T.toAvlTraits k (f b)
    ∃ o, Lookup T.Equiv T.keyOf k (gather l.size (entries f)) o
      ∧ out.1.map (fun x => (x.1, x.2.2)) = o ∧ TreesInv T l (Function.update f b out.2)
      ∧ gather l.size (entries f)
        = o.elim 0 (fun e => {e}) + gather l.size (entries (Function.update f b out.2)) := by
  intro b out
  rcases eraseKey_outcome k hT.cmp (hf.sorted b) with
    ⟨hout, hall⟩ | ⟨a, h, v, hsome, hk, L, R, hent, hent'⟩
  · refine ⟨none, hf.lookup_bucketOf hT hall, by rw [show out.1 = none from congrArg Prod.fst hout]; rfl,
      ?_, ?_⟩
    · rw [show out.2 = f b from congrArg Prod.snd hout, Function.update_eq_self]
      exact hf
    · rw [show out.2 = f b from congrArg Prod.snd hout, Function.update_eq_self]
      exact (zero_add _).symm
  · have hinorder : ((f b).inorder : Multiset (Addr × V)) = (a, v) ::ₘ out.2.inorder := by
      rw [hent, hent', Multiset.cons_coe, Multiset.coe_eq_coe]
      exact List.perm_middle
    have hgather : gather l.size (entries f)
        = {(a, v)} + gather l.size (entries (Function.update f b out.2)) := by
      have hsum := gather_entries_update (f := f) (t := out.2) (hf.bucketOf_lt k)
      rw [hinorder, Multiset.add_cons, ← Multiset.cons_add] at hsum
      rw [Multiset.singleton_add]
      exact (add_right_cancel hsum).symm
    have hsub : List.Sublist out.2.inorder (f b).inorder := by
      rw [hent, hent']
      exact (List.sublist_cons_self _ R).append_left L
    refine ⟨some (a, v), hf.lookup_bucketOf hT ⟨?_, hk⟩, by rw [hsome]; rfl,
      hf.update hT (fun e he => Or.inl (hsub.subset he)) ((hf.sorted b).sublist hsub) ?_, hgather⟩
    · change (a, v) ∈ (f b).inorder
      rw [hent]
      simp
    · refine hf.unique.mono hT.cmp.equivalence ?_
      rw [hgather]
      exact Multiset.le_add_left _ _

end

end Mmkvc
