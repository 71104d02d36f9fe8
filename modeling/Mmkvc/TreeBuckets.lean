/-
# The trees of all buckets in one memory

`Forest size f H top` says that memory holds the tree `f b` for each bucket `b` of two
tables and the nodes `H` beside them.  A single bucket comes into focus and goes back,
so each operation of a tree is one of the forest, and `ReuseAllNodes` moves the nodes of
one tree to others.
-/
import Mmkvc.AvlReuse
import Mmkvc.TreeHashtable

namespace Mmkvc

open AvlM AvlTreeBase LinkedTree

variable {K V : Type}

/-- Memory holds a tree for each bucket and the nodes `H` beside them. -/
structure Forest (size : TableName → ℕ) (f : Bucket → LinkedTree V)
    (H : Multiset (Addr × AvlNode V)) (top : ℕ) (s : AvlHeap Bucket V) : Prop where
  sat : Sat s.nodes (gather size (fun b => (f b).cells none) + H)
  roots : s.roots = fun b => (f b).root
  next : s.next = top
  fresh : ∀ a, top ≤ a → s.nodes a = none

/-- The cells of all trees but one. -/
def others (size : TableName → ℕ) (f : Bucket → LinkedTree V) (b : Bucket) :
    Multiset (Addr × AvlNode V) :=
  gather size (Function.update (fun b => (f b).cells none) b 0)

section

variable {size : TableName → ℕ} {f g : Bucket → LinkedTree V} {H H' : Multiset (Addr × AvlNode V)}
  {top r : ℕ} {b b' : Bucket} {t : LinkedTree V} {s : AvlHeap Bucket V} {e : Rest Bucket}
  {T : AvlTraits K V} {a x : Addr} {n : AvlNode V} {v : V}

/-- The nodes of a bucket that is changed. -/
theorem cells_update (f : Bucket → LinkedTree V) (b : Bucket) (t : LinkedTree V) :
    (fun b' => (Function.update f b t b').cells none)
      = Function.update (fun b' => (f b').cells none) b (t.cells none) := by
  funext b'
  exact Function.apply_update (fun _ t => LinkedTree.cells none t) f b t b'

theorem others_update : others size (Function.update f b t) b = others size f b := by
  unfold others
  rw [cells_update, Function.update_idem]

theorem gather_cells (hb : b.2 < size b.1) :
    gather size (fun b => (f b).cells none) = (f b).cells none + others size f b := gather_eq hb

/-! ## Focus on one bucket -/

/-- The tree of one bucket, beside the others. -/
theorem Forest.focus (hb : b.2 < size b.1) (hs : Forest size f H top s) :
    Focus b (others size f b + H) ⟨fun b' => (f b').root, top, s.counts⟩ [] (f b) s := by
  refine ⟨?_, ?_, hs.next, rfl, hs.fresh⟩
  · have hsat := hs.sat
    rw [gather_cells hb] at hsat
    rw [Place.parent_nil, Place.cells, add_zero, ← add_assoc]
    exact hsat
  · rw [hs.roots, Place.top_nil]
    exact (Function.update_eq_self b _).symm

/-- A tree that has changed goes back to its bucket. -/
theorem Forest.of_focus (hb : b.2 < size b.1) (hroots : ∀ b', b' ≠ b → e.roots b' = (f b').root)
    (hs : Focus b (others size f b + H) e [] t s) :
    Forest size (Function.update f b t) H e.next s := by
  refine ⟨?_, ?_, hs.next, hs.fresh⟩
  · have hsat := hs.sat
    rw [Place.parent_nil, Place.cells, add_zero, ← add_assoc] at hsat
    rw [gather_cells hb, Function.update_self, others_update]
    exact hsat
  · rw [hs.roots, Place.top_nil]
    funext b'
    by_cases hb' : b' = b
    · rw [hb', Function.update_self, Function.update_self]
    · rw [Function.update_of_ne hb', Function.update_of_ne hb', hroots b' hb']

/-- A program that works on one tree works on the forest. -/
theorem Forest.lift {α : Type} {p : AvlM Bucket V α} {Q : α → AvlHeap Bucket V → Prop}
    (hb : b.2 < size b.1)
    (hp : ∀ counts, Triple (Focus b (others size f b + H) ⟨fun b' => (f b').root, top, counts⟩ []
      (f b)) p Q) : Triple (Forest size f H top) p Q :=
  fun s hs => hp s.counts s (hs.focus hb)

/-! ## Nodes beside the trees -/

/-- Reading a node that is there. -/
theorem Forest.load_spec (hx : (x, n) ∈ gather size (fun b => (f b).cells none) + H) :
    Triple (Forest size f H top) (load x) fun r s => r = n ∧ Forest size f H top s := by
  intro s hs
  refine ⟨n, s, ?_, rfl, hs⟩
  change (s.nodes x).map _ = _
  rw [hs.sat.cell _ hx]
  rfl

/-- A loose node is given back. -/
theorem Forest.dropNode_spec : Triple (Forest size f ({(x, n)} + H) top) (dropNode x)
    fun _ => Forest size f H top := by
  intro s hs
  have hsat := hs.sat
  rw [add_left_comm] at hsat
  have hread : s.nodes x = some n :=
    hsat.cell _ (Multiset.mem_add.mpr (Or.inl (Multiset.mem_singleton_self _)))
  refine ⟨(), { s with nodes := Function.update s.nodes x none }, ?_,
    ⟨hsat.dealloc, hs.roots, hs.next, fun b hb => ?_⟩⟩
  · change (s.nodes x).map _ = _
    rw [hread]
    rfl
  · by_cases hbx : b = x
    · exact hbx ▸ Function.update_self _ _ _
    · exact (Function.update_of_ne hbx _ _).trans (hs.fresh b hb)

/-- A new node is in no tree. -/
theorem Forest.createNode_spec : Triple (Forest size f H top) (createNode v)
    fun r s => r = top
      ∧ Forest size f ({(top, ⟨none, none, none, 1, v⟩)} + H) (top + 1) s := by
  intro s hs
  refine ⟨s.next, _, rfl, hs.next, ⟨?_, hs.roots, congrArg (· + 1) hs.next, fun b hb => ?_⟩⟩
  · rw [add_left_comm, hs.next]
    exact hs.sat.alloc (hs.fresh top le_rfl)
  · have hlt : top < b := hb
    refine (Function.update_of_ne ?_ _ _).trans (hs.fresh b hlt.le)
    rw [hs.next]
    exact hlt.ne'

/-! ## Operations of one bucket -/

/-- What an insertion leaves in the forest. -/
theorem Forest.of_inserted {out : Option Addr × LinkedTree V} {M : Multiset (Addr × AvlNode V)}
    {counts : Bucket → BitVec 64} {top' : ℕ} {e' : Rest Bucket} (hb : b.2 < size b.1)
    (hroots : e'.roots = fun b' => (f b').root) (hnext : e'.next = top')
    (hout : out.1 ≠ none → out.2 = f b)
    (hs : Inserted b M (others size f b + H) ⟨fun b' => (f b').root, top, counts⟩ e' (f b) out s) :
    Forest size (Function.update f b out.2) (if out.1.isNone then H else M + H)
      (if out.1.isNone then top' else top) s := by
  unfold Inserted at hs
  cases hnone : out.1 with
  | none =>
    rw [hnone] at hs
    have hforest := Forest.of_focus hb (fun b' _ => by rw [restAfter_roots, hroots]) hs
    rw [restAfter_next, hnext] at hforest
    exact hforest
  | some a =>
    rw [hnone] at hs
    rw [hout (by simp [hnone])]
    refine Forest.of_focus (e := ⟨fun b' => (f b').root, top, counts⟩) hb (fun _ _ => rfl) ?_
    exact hs.congr (by simp only [Option.isNone_some, Bool.false_eq_true, if_false]; abel)

/-- An insertion into the tree of a bucket. -/
theorem Forest.insertWithDuplicate_spec (hb : b.2 < size b.1) :
    Triple (Forest size f H top) (insertWithDuplicate T b v true)
      fun r s => let out := insertNew T (T.gk v) top 1 v (f b)
        r = (out.1.isNone, some (out.1.getD top))
          ∧ Forest size (Function.update f b out.2) H
              (if out.1.isNone then top + 1 else top) s := by
  refine Forest.lift hb fun counts => Mmkvc.insertWithDuplicate_spec.post fun r s hs => ?_
  refine ⟨hs.1, ?_⟩
  have hforest := Forest.of_inserted hb rfl (rfl : Rest.next _ = top + 1) insertNew_of_some hs.2
  simpa only [zero_add, ite_self] using hforest

/-- `PushWithDuplicate` of a node beside the trees. -/
theorem Forest.pushWithDuplicate_spec (hb : b.2 < size b.1)
    (hlinks : n.left = none ∧ n.right = none ∧ n.parent = none) :
    Triple (Forest size f ({(x, n)} + H) top) (pushWithDuplicate T b x false)
      fun r s => let out := insertNew T (T.gk n.value) x n.height n.value (f b)
        r = (out.1.isNone, none)
          ∧ Forest size (Function.update f b out.2) (if out.1.isNone then H else {(x, n)} + H)
              top s := by
  refine Forest.lift hb fun counts => ?_
  rw [add_left_comm]
  refine (Mmkvc.pushWithDuplicate_spec hlinks fun h => absurd h Bool.false_ne_true).post
    fun r s hs => ⟨hs.1, ?_⟩
  have hforest := Forest.of_inserted hb rfl rfl insertNew_of_some hs.2
  simpa only [ite_self] using hforest

/-- The search in the tree of a bucket. -/
theorem Forest.findNode_spec {key : K} (hb : b.2 < size b.1) :
    Triple (Forest size f H top) (findNode T b key)
      fun r s => r = find T key (f b) ∧ Forest size f H top s := by
  refine Forest.lift hb fun counts => Mmkvc.findNode_spec.post fun r s hs => ⟨hs.1, ?_⟩
  have hforest := Forest.of_focus hb (fun _ _ => rfl) hs.2
  rwa [Function.update_eq_self] at hforest

/-- `Extract` puts the node beside the trees. -/
theorem Forest.extract_spec {key : K} (hb : b.2 < size b.1) :
    Triple (Forest size f H top) (extract T b key)
      fun r s => let out := LinkedTree.eraseKey T key (f b)
        r = out.1.map (·.1) ∧ Forest size (Function.update f b out.2) (extracted out.1 H) top s := by
  refine Forest.lift hb fun counts => Mmkvc.extract_spec.post fun r s hs => ⟨hs.1, ?_⟩
  have hafter := hs.2
  generalize LinkedTree.eraseKey T key (f b) = out at hafter ⊢
  obtain ⟨found, t'⟩ := out
  cases found with
  | none => exact Forest.of_focus hb (fun _ _ => rfl) hafter
  | some x =>
    exact Forest.of_focus (e := Rest.decrease b ⟨fun b' => (f b').root, top, counts⟩) hb
      (fun _ _ => rfl) (hafter.congr (congrArg _ (extracted_add _)))

/-- `EraseNode` of a node of the tree. -/
theorem Forest.eraseNode_spec {c : Place V} {h : ℕ} {l r : LinkedTree V} (hb : b.2 < size b.1)
    (hf : f b = Place.plug c (node a h v l r)) :
    Triple (Forest size f H top) (eraseNode b (some a))
      fun q s => q = true
        ∧ Forest size (Function.update f b (eraseAt c (node a h v l r))) H top s := by
  refine Forest.lift hb fun counts => ?_
  rw [hf, ← focus_plug]
  exact Mmkvc.eraseNode_spec.post fun _ s hs => ⟨hs.1, Forest.of_focus hb (fun _ _ => rfl) hs.2⟩

/-- A bucket is emptied, and its nodes given back. -/
theorem Forest.clear_spec (hb : b.2 < size b.1) :
    Triple (Forest size f H top) (clear b)
      fun _ => Forest size (Function.update f b nil) H top := by
  refine Forest.lift hb fun counts => Mmkvc.clear_spec.post fun _ s hs => ?_
  exact Forest.of_focus (e := Rest.reset b ⟨fun b' => (f b').root, top, counts⟩) hb (fun _ _ => rfl) hs

/-! ## Moving the nodes of one bucket -/

/-- What becomes of a tree into which the entries `es` are pushed, as `ReuseAllNodes` leaves
their nodes. -/
def pushAll (T : AvlTraits K V) (es : List (Addr × V)) (t : LinkedTree V) : LinkedTree V :=
  es.foldl (fun t e => (insertNew T (T.gk e.2) e.1 0 e.2 t).2) t

/-- The trees after the entries `es` have been pushed into the second table. -/
def pushSecond (T : AvlTraits K V) (dest : V → ℕ) (es : List (Addr × V))
    (f : Bucket → LinkedTree V) : Bucket → LinkedTree V
  | (.table1, i) => f (.table1, i)
  | (.table2, i) => pushAll T (es.filter fun e => dest e.2 = i) (f (.table2, i))

/-- Nothing is pushed. -/
theorem pushSecond_nil (T : AvlTraits K V) (dest : V → ℕ) (f : Bucket → LinkedTree V) :
    pushSecond T dest [] f = f := by
  funext ⟨t, i⟩
  cases t <;> rfl

/-- One more entry changes one bucket. -/
theorem pushSecond_append {dest : V → ℕ} (es : List (Addr × V)) (a : Addr) (v : V) :
    pushSecond T dest (es ++ [(a, v)]) f
      = Function.update (pushSecond T dest es f) (.table2, dest v)
          (insertNew T (T.gk v) a 0 v (pushSecond T dest es f (.table2, dest v))).2 := by
  funext ⟨t, i⟩
  by_cases hi : (t, i) = (.table2, dest v)
  · obtain ⟨rfl, rfl⟩ := Prod.mk.inj hi
    rw [Function.update_self]
    simp [pushSecond, pushAll]
  · rw [Function.update_of_ne hi]
    cases t with
    | table1 => rfl
    | table2 =>
      have hne : dest v ≠ i := fun h => hi (h ▸ rfl)
      simp [pushSecond, pushAll, hne]

/-- The callback of `IncrementalRehash` puts a node into the second table while the rest of
its tree, the cells `M`, is being taken apart. -/
theorem moveNode_spec {T : HashTraits K V} {size2 : ℕ} {mask : BitVec 64}
    {M : Multiset (Addr × AvlNode V)} {p : Option Addr} {i : ℕ} (hsize : size .table2 = size2)
    (hi : (T.hash (T.gk v) &&& mask).toNat = i) (hlt : i < size2)
    (hnew : (insertNew T.toAvlTraits (T.gk v) a 0 v (f (.table2, i))).1 = none)
    (hroots : ∀ b, b ≠ (.table1, r) → e.roots b = (f b).root) :
    Triple (At (.table1, r) ({(a, ⟨none, none, none, 0, v⟩)} + (M + (others size f (.table1, r) + H)))
        p e) (TreeHashTable.moveNode T size2 mask a)
      fun _ s => ∃ e', e'.next = e.next
        ∧ (∀ b, b ≠ (.table1, r) → e'.roots b = (Function.update f (.table2, i)
            (insertNew T.toAvlTraits (T.gk v) a 0 v (f (.table2, i))).2 b).root)
        ∧ At (.table1, r) (M + (others size (Function.update f (.table2, i)
            (insertNew T.toAvlTraits (T.gk v) a 0 v (f (.table2, i))).2) (.table1, r) + H)) p e' s := by
  have hne : ((.table1, r) : Bucket) ≠ (.table2, i) := nofun
  have hb : ((.table2, i) : Bucket).2 < size ((.table2, i) : Bucket).1 := by
    rw [hsize]
    exact hlt
  -- the cells of the tree that gets the node, and those of the other trees
  set O := gather size (Function.update (Function.update (fun b => (f b).cells none) (.table1, r) 0)
    (.table2, i) 0) with hO
  have hsplit : ∀ t, others size (Function.update f (.table2, i) t) (.table1, r)
      = t.cells none + O := by
    intro t
    unfold others
    rw [cells_update, Function.update_comm hne.symm, gather_update hb]
  have hsplit' : others size f (.table1, r) = (f (.table2, i)).cells none + O := by
    rw [← hsplit, Function.update_eq_self]
  rw [hsplit', hsplit]
  have hpush : Triple (Focus (.table2, i) ({(a, ⟨none, none, none, 0, v⟩)} + (M + (O + H)))
      ⟨Function.update e.roots (.table1, r) p, e.next, e.counts⟩ [] (f (.table2, i)))
      (push T.toAvlTraits (.table2, i) a) _ := push_spec ⟨rfl, rfl, rfl⟩
  unfold TreeHashTable.moveNode
  refine load_bind (n := ⟨none, none, none, 0, v⟩) (by simp) ?_
  dsimp only
  rw [hi, if_pos hlt]
  refine Triple.bind (Triple.conseq hpush (fun s hs => ?_) fun _ s hs => hs) fun _ =>
    triple_pure fun s hs => ?_
  · refine ⟨?_, ?_, hs.next, hs.counts, hs.fresh⟩
    · have hsat := hs.sat
      rw [Place.parent_nil, Place.cells, add_zero]
      convert hsat using 1
      abel
    · rw [hs.roots, Place.top_nil, ← hroots _ hne.symm]
      rw [← Function.update_of_ne hne.symm p e.roots, Function.update_eq_self]
  · have hafter := hs.2
    unfold Inserted at hafter
    rw [hnew] at hafter
    generalize (insertNew T.toAvlTraits (T.gk v) a 0 v (f (.table2, i))).2 = t' at hafter ⊢
    dsimp only at hafter
    refine ⟨⟨Function.update e.roots (.table2, i) t'.root, e.next, s.counts⟩, rfl, fun b hb' => ?_,
      ⟨?_, ?_, ?_, rfl, ?_⟩⟩
    · by_cases hbi : b = (.table2, i)
      · subst hbi
        simp
      · dsimp only
        rw [Function.update_of_ne hbi, Function.update_of_ne hbi, hroots b hb']
    · have hsat := hafter.sat
      rw [Place.parent_nil, Place.cells, add_zero] at hsat
      convert hsat using 1
      abel
    · rw [hafter.roots, restAfter_roots, Place.top_nil]
      exact Function.update_comm hne _ _ _
    · rw [hafter.next, restAfter_next]
    · have hfresh := hafter.fresh
      rwa [restAfter_next] at hfresh

/-- **`ReuseAllNodes` moves the nodes of a bucket** of the first table to the second one, if
none of them meets an entry with its key. -/
theorem Forest.reuseAllNodes_spec {T : HashTraits K V} {size2 : ℕ} {mask : BitVec 64}
    {dest : V → ℕ} (hr : r < size .table1) (hsize : size .table2 = size2)
    (hdest : ∀ v, (T.hash (T.gk v) &&& mask).toNat = dest v) (hlt : ∀ v, dest v < size2)
    (hnew : ∀ done a v, done ++ [(a, v)] <+: (f (.table1, r)).postorder →
      (insertNew T.toAvlTraits (T.gk v) a 0 v
        (pushSecond T.toAvlTraits dest done f (.table2, dest v))).1 = none) :
    Triple (Forest size f H top)
      (reuseAllNodes (.table1, r) (TreeHashTable.moveNode T size2 mask))
      fun _ => Forest size (Function.update
        (pushSecond T.toAvlTraits dest (f (.table1, r)).postorder f) (.table1, r) nil) H top := by
  have hb : ((.table1, r) : Bucket).2 < size ((.table1, r) : Bucket).1 := hr
  let J : List (Addr × V) → Multiset (Addr × AvlNode V) → Rest Bucket → Prop := fun done N e =>
    N = others size (pushSecond T.toAvlTraits dest done f) (.table1, r) + H ∧ e.next = top
      ∧ ∀ b, b ≠ (.table1, r) → e.roots b = (pushSecond T.toAvlTraits dest done f b).root
  have hcb : Hands (.table1, r) (f (.table1, r)).postorder J
      (TreeHashTable.moveNode T size2 mask) := by
    rintro done N e M p a v hdone ⟨rfl, hnext, hroots⟩
    refine (moveNode_spec hsize (hdest v) (hlt v) (hnew done a v hdone) hroots).post
      fun _ s hs => ?_
    obtain ⟨e', hnext', hroots', hs⟩ := hs
    rw [← pushSecond_append] at hroots' hs
    exact ⟨_, e', ⟨rfl, hnext'.trans hnext, hroots'⟩, hs⟩
  refine Forest.lift hb fun counts => (Mmkvc.reuseAllNodes_spec hcb ?_).post fun _ s hs => ?_
  · refine ⟨?_, rfl, fun b _ => ?_⟩
    · rw [pushSecond_nil]
    · rw [pushSecond_nil]
  · obtain ⟨N', e', ⟨rfl, hnext, hroots⟩, hs⟩ := hs
    have hforest := Forest.of_focus (e := e'.reset (.table1, r)) hb hroots hs
    rwa [show (e'.reset (.table1, r)).next = top from hnext] at hforest

end

end Mmkvc
