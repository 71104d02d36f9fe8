/-
# Balance of the buckets through a rehash

`ReuseAllNodes` leaves the height 0 in the nodes that a rehash moves, and `Push` does not
change it.  Trees of two such nodes are balanced all the same, and a third node that comes
below the lower of them brings the heights in order.  Where a fixup works with a height of
0 the tree may lose its balance.
-/
import Mmkvc.TreeTableAnswers

namespace Mmkvc

open AvlM Tables Transition

variable {K V : Type}

namespace LinkedTree

variable {T : AvlTraits K V} {key : K} {t : LinkedTree V} {x : Addr} {v : V}

/-! ## Trees of two nodes -/

/-- At most two nodes: the root stores a height of at most 2, a node below it one of at most 1. -/
inductive Small : LinkedTree V → Prop where
  | zero : Small nil
  | one (a : Addr) (h : ℕ) (v : V) (hh : h ≤ 2) : Small (node a h v nil nil)
  | two (d : Dir) (a : Addr) (h : ℕ) (v : V) (b : Addr) (hb : ℕ) (vb : V) (hh : h ≤ 2)
    (hle : hb ≤ 1) : Small (join d a h v (node b hb vb nil nil) nil)

/-- The heights are right, but for trees of at most two nodes. -/
def Level (t : LinkedTree V) : Prop := t.Balanced ∨ t.Small

/-- Two nodes, the lower one with the stored height 0, and the key belongs to the free side of
the root. -/
def lopsided (T : AvlTraits K V) (key : K) : LinkedTree V → Bool
  | node _ _ v (node _ 0 _ nil nil) nil => T.cmp (T.gk v) key < 0
  | node _ _ v nil (node _ 0 _ nil nil) => 0 < T.cmp (T.gk v) key
  | _ => false

/-- A tree of two nodes at most is balanced. -/
theorem Small.heightBalanced (ht : t.Small) : t.HeightBalanced := by
  cases ht with
  | zero => trivial
  | one a h v hh => simp [HeightBalanced, calculateHeight]
  | two d a h v b hb vb hh hle =>
    cases d <;> simp [join, HeightBalanced, calculateHeight, AvlUtil.avlMax]

theorem Level.heightBalanced (ht : t.Level) : t.HeightBalanced :=
  ht.elim Balanced.heightBalanced Small.heightBalanced

/-- A tree whose heights are in order is level. -/
theorem Avl.level (ht : t.Avl) : t.Level := by
  rcases ht with hbal | ⟨d, a, v, b, vb, rfl⟩
  · exact Or.inl hbal
  · exact Or.inr (.two d a 1 v b 1 vb (Nat.le_succ 1) le_rfl)

/-- A small tree has two entries at most. -/
theorem Small.length_le (ht : t.Small) : t.inorder.length ≤ 2 := by
  cases ht with
  | zero => exact Nat.zero_le _
  | one a h v hh => exact Nat.le_succ 1
  | two d a h v b hb vb hh hle => cases d <;> exact le_rfl

/-! ### Insertion -/

/-- An insertion into a tree of one node. -/
theorem Small.insertNew_one {a h' : ℕ} {v' : V} {h : ℕ} (hh' : h' ≤ 2) (hh : h ≤ 1) :
    (insertNew T key x h v (node a h' v' nil nil)).2.Small := by
  rw [insertNew, if_pos ⟨rfl, rfl⟩]
  split_ifs
  · exact .two .right a h' v' x h v hh' hh
  · exact .two .left a h' v' x h v hh' hh
  · exact .one a h' v' hh'

/-- Two nodes are pushed into an empty tree without a fixup. -/
theorem small_pushAll {es : List (Addr × V)} (h : es.length ≤ 2) : (pushAll T es nil).Small := by
  match es with
  | [] => exact .zero
  | [(a, v)] => exact .one a 0 v (Nat.zero_le 2)
  | [(a, v), (b, w)] => exact Small.insertNew_one (Nat.zero_le 2) (Nat.zero_le 1)
  | _ :: _ :: _ :: _ =>
    rw [List.length_cons, List.length_cons, List.length_cons] at h
    omega

section

variable {d e : Dir} {a b : Addr} {h hb : ℕ} {w vb : V}

/-- The search goes to the right only from a lesser key. -/
theorem cmp_neg_of_side {l r : LinkedTree V} (hside : side T key stop w l r = some .right) :
    T.cmp (T.gk w) key < 0 := by
  unfold side stop at hside
  split_ifs at hside <;> first | assumption | cases hside

/-- The search goes to the left only from a greater key. -/
theorem cmp_pos_of_side {l r : LinkedTree V} (hside : side T key stop w l r = some .left) :
    0 < T.cmp (T.gk w) key := by
  unfold side stop at hside
  split_ifs at hside <;> first | assumption | cases hside

/-- A third node below the lower one. -/
theorem balanced_insertUp_below (hh : h ≤ 2) (hle : hb ≤ 1) :
    (insertUp [⟨e, b, hb, vb, nil⟩, ⟨d, a, h, w, nil⟩] (node x 1 v nil nil)).Balanced := by
  have hne : ¬ hb = 2 := by omega
  have hne' : ¬ h = 3 := by omega
  cases d <;> cases e
    <;> simp [insertUp, rebalance, mk, Balanced, join, fixupHeavy, Dir.pick, Dir.opp, hne, hne']

/-- A third node beside the lower one. -/
theorem balanced_insertUp_beside :
    (insertUp [⟨d, a, h, w, node b 1 vb nil nil⟩] (node x 1 v nil nil)).Balanced := by
  by_cases hh : h = 2
  · cases d <;> simp [insertUp, Balanced, Frame.fill, join, hh]
  · cases d <;> simp [insertUp, rebalance, mk, Balanced, join, hh]

/-- **A third node** brings the heights in order, if it comes below the lower node or that
node's height is right. -/
theorem level_insertNew_two (hh : h ≤ 2) (hle : hb ≤ 1)
    (hfree : (join d a h w (node b hb vb nil nil) nil).lopsided T key = false) :
    (insertNew T key x 1 v (join d a h w (node b hb vb nil nil) nil)).2.Level := by
  have hsame : (join d a h w (node b hb vb nil nil) nil).Level :=
    Or.inr (.two d a h w b hb vb hh hle)
  have hone : hb = 0 ∨ hb = 1 := by omega
  cases d with
  | left =>
    change (LinkedTree.insertNew T key x 1 v (node a h w (node b hb vb nil nil) nil)).2.Level
    rw [LinkedTree.insertNew, if_neg (by simp), locate]
    rcases hside : side T key stop w (node b hb vb nil nil) nil with _ | _ | _
    · exact hsame
    · dsimp only
      rw [locate]
      rcases side T key stop vb nil nil with _ | _ | _
      · exact hsame
      · exact Or.inl (balanced_insertUp_below hh hle)
      · exact Or.inl (balanced_insertUp_below hh hle)
    · rcases hone with rfl | rfl
      · exact absurd (cmp_neg_of_side hside) (of_decide_eq_false hfree)
      · exact Or.inl balanced_insertUp_beside
  | right =>
    change (LinkedTree.insertNew T key x 1 v (node a h w nil (node b hb vb nil nil))).2.Level
    rw [LinkedTree.insertNew, if_neg (by simp), locate]
    rcases hside : side T key stop w nil (node b hb vb nil nil) with _ | _ | _
    · exact hsame
    · rcases hone with rfl | rfl
      · exact absurd (cmp_pos_of_side hside) (of_decide_eq_false hfree)
      · exact Or.inl balanced_insertUp_beside
    · dsimp only
      rw [locate]
      rcases side T key stop vb nil nil with _ | _ | _
      · exact hsame
      · exact Or.inl (balanced_insertUp_below hh hle)
      · exact Or.inl (balanced_insertUp_below hh hle)

end

/-- An insertion that does not go beside a zero height leaves the tree level. -/
theorem Level.insertNew (ht : t.Level) (hfree : t.lopsided T key = false) :
    (insertNew T key x 1 v t).2.Level := by
  rcases ht with hbal | hsmall
  · exact (Avl.insertNew (Or.inl hbal)).level
  · cases hsmall with
    | zero => exact Or.inr (.one x 1 v (Nat.le_succ 1))
    | one a h' v' hh => exact Or.inr (Small.insertNew_one hh le_rfl)
    | two d a h w b hb vb hh hle => exact level_insertNew_two hh hle hfree

/-! ### Removal -/

/-- The repair above a node that was alone with its parent leaves one node. -/
theorem small_eraseUp {e : Dir} {a : Addr} {h : ℕ} :
    (eraseUp [⟨e, a, h, v, nil⟩] nil).Small := by
  by_cases hone : h = 1
  · cases e <;> simpa [eraseUp, Frame.fill, join, hone] using Small.one a 1 v (Nat.le_succ 1)
  · cases e <;> simpa [eraseUp, rebalance, mk, join, hone] using Small.one a 1 v (Nat.le_succ 1)

/-- A node less. -/
theorem Small.eraseAt {c : Place V} {a : Addr} {h : ℕ} {l r : LinkedTree V}
    (hsmall : (Place.plug c (node a h v l r)).Small) : (eraseAt c (node a h v l r)).Small := by
  have hlength := length_le_inorder_plug (c := c) (t := node a h v l r)
  have htwo := hsmall.length_le
  rw [inorder_node, List.length_append, List.length_cons] at hlength
  generalize hplug : Place.plug c (node a h v l r) = t at hsmall
  match c with
  | [] =>
    rw [Place.plug_nil] at hplug
    cases hsmall with
    | zero => cases hplug
    | one a' h' v' hh =>
      cases hplug
      exact .zero
    | two d a' h' v' b hb vb hh hle => cases d <;> cases hplug <;> exact .one b hb vb (by omega)
  | [⟨e, a'', h'', v'', other⟩] =>
    rw [Place.plug_cons, Place.plug_nil] at hplug
    cases hsmall with
    | zero => cases e <;> cases hplug
    | one a' h' v' hh => cases e <;> cases hplug
    | two d a' h' v' b hb vb hh hle =>
      cases d <;> cases e <;> cases hplug <;> exact small_eraseUp
  | _ :: _ :: _ =>
    rw [hplug] at hlength htwo
    simp only [List.length_cons] at hlength
    omega

/-- A removal leaves the tree level. -/
theorem Level.eraseKey (ht : t.Level) : (eraseKey T key t).2.Level := by
  rcases ht with hbal | hsmall
  · exact (Avl.eraseKey (Or.inl hbal)).level
  · cases hout : (LinkedTree.eraseKey T key t).1 with
    | none =>
      rw [eraseKey_of_none hout]
      exact Or.inr hsmall
    | some y =>
      obtain ⟨a, h, v⟩ := y
      obtain ⟨c, l, r, rfl, herase⟩ := exists_place_of_eraseKey hout
      rw [herase]
      exact Or.inr hsmall.eraseAt

end LinkedTree

open LinkedTree

/-! ## The trees of a table -/

namespace Snapshot

variable {T : HashTraits K V} {c c' : Snapshot V} {t : LinkedTree V} {k : K} {v : V} {a : Addr}

/-- The trees of all buckets. -/
def Level (c : Snapshot V) : Prop := ∀ b, (c.trees b).Level

/-- Three entries of the bucket that is to be moved go to one bucket. -/
def Crowded (T : HashTraits K V) (c : Snapshot V) : Prop :=
  ∃ r, c.layout.moved = some r ∧ ∃ e ∈ (c.trees (.table1, r)).inorder,
    2 < ((c.trees (.table1, r)).inorder.filter fun e' =>
      T.dest c.layout e'.2 = T.dest c.layout e.2).length

theorem level_nil : (nil : LinkedTree V).Level := Or.inl trivial

/-- **A bucket without a crowd** is moved to trees of one node or two. -/
theorem Level.advance (h : c.Level) (hc : c.Good T) (hcrowd : ¬ c.Crowded T) :
    (c.advance T).Level := by
  have hmove : ∀ r, c.layout.moved = some r → ∀ b, (moveTrees T c.layout r c.trees b).Level := by
    rintro r hr ⟨t, i⟩
    cases t with
    | table1 =>
      rw [moveTrees_table1]
      split_ifs
      · exact level_nil
      · exact h _
    | table2 =>
      rw [moveTrees_table2]
      cases hes : (c.trees (.table1, r)).postorder.filter fun e => T.dest c.layout e.2 = i with
      | nil => exact h _
      | cons e es =>
        have hmem : e ∈ (c.trees (.table1, r)).postorder ∧ T.dest c.layout e.2 = i := by
          have he : e ∈ (c.trees (.table1, r)).postorder.filter
              fun e => T.dest c.layout e.2 = i := hes ▸ List.mem_cons_self
          simpa using he
        have hin : e ∈ (c.trees (.table1, r)).inorder :=
          (postorder_perm_inorder _).mem_iff.mp hmem.1
        -- what is moved goes where nothing is yet
        have hempty : c.trees (.table2, i) = nil := by
          refine eq_nil_of_entries ?_
          rw [← hmem.2]
          exact hc.trees.behind.target_empty hc.trees.sound hr hc.trees.placed hin
        rw [hempty, ← hes]
        refine Or.inr (small_pushAll (not_lt.mp fun hlt => hcrowd ⟨r, hr, e, hin, ?_⟩))
        rw [hmem.2]
        exact hlt.trans_le ((postorder_perm_inorder _).filter _).length_eq.le
  intro b
  change (advanceTrees T c.layout c.trees b).Level
  cases hr : c.layout.moved with
  | none =>
    rw [advanceTrees_of_idle hr]
    exact h b
  | some r =>
    rw [advanceTrees_of_moved hr]
    split_ifs
    · obtain ⟨t, i⟩ := b
      cases t with
      | table1 => exact hmove r hr (.table2, i)
      | table2 => exact level_nil
    · exact hmove r hr b

/-- A level tree goes into one of the buckets. -/
theorem Level.setBucket (h : c.Level) (ht : t.Level) : (c.setBucket T k t).Level := by
  intro b
  change (Function.update c.trees (c.bucketOf T k) t b).Level
  by_cases hb : b = c.bucketOf T k
  · rw [hb, Function.update_self]
    exact ht
  · rw [Function.update_of_ne hb]
    exact h b

/-- An insertion that does not go beside a zero height leaves all trees level. -/
theorem Level.insertFresh (h : c.Level)
    (hfree : (c.trees (c.bucketOf T (T.gk v))).lopsided T.toAvlTraits (T.gk v) = false) :
    (c.insertFresh T v).Level := by
  have hset : (c.setBucket T (T.gk v) (c.inserted T c.top 1 v).2).Level :=
    h.setBucket ((h _).insertNew hfree)
  unfold Snapshot.insertFresh
  dsimp only
  split_ifs
  · exact hset
  · exact hset

theorem Level.erased (h : c.Level) : (c.setBucket T k (c.erased T k).2).Level :=
  h.setBucket (h _).eraseKey

/-- What a call must not meet, so that its fixup works with no height of 0. -/
def Spares (T : HashTraits K V) (c : Snapshot V) : TreeTableOp K V → Prop
  | .insert v | .insertWithDuplicate v => ¬ c.start.Crowded T
      ∧ let c₁ := c.start.advance T
        (c₁.trees (c₁.bucketOf T (T.gk v))).lopsided T.toAvlTraits (T.gk v) = false
  | .find _ | .extract _ | .erase _ | .eraseNode _ => ¬ c.Crowded T
  | .create _ | .clear | .clearApply => True
  | .push _ => False

/-- A call that spares zero heights leaves all trees level. -/
theorem Moves.level {op : TreeTableOp K V} {r : Bool × Option Addr} (hc : c.Good T) (h : c.Level)
    (hmoves : c.Moves T op r c') (hspares : c.Spares T op) : c'.Level := by
  cases op with
  | insert v =>
    obtain ⟨rfl, rfl⟩ := hmoves
    exact (Level.advance (c := c.start) h hc.start.1 hspares.1).insertFresh hspares.2
  | insertWithDuplicate v =>
    obtain ⟨rfl, rfl⟩ := hmoves
    exact (Level.advance (c := c.start) h hc.start.1 hspares.1).insertFresh hspares.2
  | create v =>
    obtain ⟨rfl, rfl⟩ := hmoves
    exact h
  | push a => exact hspares.elim
  | find k =>
    obtain ⟨rfl, rfl⟩ := hmoves
    exact h.advance hc hspares
  | extract k =>
    obtain ⟨rfl, rfl⟩ := hmoves
    exact (h.advance hc hspares).erased
  | erase k =>
    obtain ⟨rfl, rfl⟩ := hmoves
    exact (h.advance hc hspares).erased
  | eraseNode k =>
    obtain ⟨rfl, rfl⟩ := hmoves
    exact (h.advance hc hspares).erased
  | clear =>
    obtain ⟨rfl, rfl⟩ := hmoves
    exact fun _ => level_nil
  | clearApply =>
    obtain ⟨rfl, rfl⟩ := hmoves
    exact fun _ => level_nil

end Snapshot

/-! ## Memory -/

namespace TreeHashTable

/-- The tree at a pointer, as far as the fuel goes. -/
def treeAt (nodes : Addr → Option (AvlNode V)) : ℕ → Option Addr → LinkedTree V
  | 0, _ => nil
  | _ + 1, none => nil
  | fuel + 1, some a =>
    match nodes a with
    | none => nil
    | some n => node a n.height n.value (treeAt nodes fuel n.left) (treeAt nodes fuel n.right)

/-- The tree of a bucket. -/
def treeOf (s : TreeHashTable V) (b : Bucket) : LinkedTree V :=
  treeAt s.heap.nodes s.heap.next (s.heap.roots b)

/-- Three entries of the bucket that is to be moved go to one bucket. -/
def crowded (T : HashTraits K V) (s : TreeHashTable V) : Bool :=
  match s.rehashMoveBucketIndex with
  | none => false
  | some r =>
    let es := (s.treeOf (.table1, r)).inorder
    let dest := fun e : Addr × V => bucketIndex .table2 (T.hash (T.gk e.2)) s
    es.any fun e => 2 < (es.filter fun e' => dest e' = dest e).length

/-- In the bucket of a key, the key belongs beside a node that stores the height 0. -/
def besideZero (T : HashTraits K V) (key : K) (s : TreeHashTable V) : Bool :=
  (s.treeOf (T.bucketOf s.layout key)).lopsided T.toAvlTraits key

/-- No fixup of the call works with a height of 0 in a node: the step of the rehash does not
move three entries to one bucket, and an insertion after it does not put a node beside one
that a rehash has put below another. -/
def sparesZeroHeights (T : HashTraits K V) (s : TreeHashTable V) : TreeTableOp K V → Bool
  | .insert v | .insertWithDuplicate v => (exec rehash s).all fun s₁ =>
      !crowded T s₁ && (exec (incrementalRehash T) s₁).all fun s₂ => !besideZero T (T.gk v) s₂
  | .find _ | .extract _ | .erase _ | .eraseNode _ => !crowded T s
  | .create _ | .clear | .clearApply => true
  -- the node keeps the height it has
  | .push _ => false

/-- Every bucket of both tables is balanced by the true heights. -/
def BucketsBalanced (s : TreeHashTable V) : Prop :=
  ∀ b : Bucket, b.2 < s.size b.1 → ∃ t : LinkedTree V, s.heap.roots b = t.root
    ∧ Represents s.heap.nodes none t ∧ t.HeightBalanced

section

variable {T : HashTraits K V} {c : Snapshot V} {s : TreeHashTable V} {m : MapState T} {b : Bucket}
  {op : TreeTableOp K V}

/-- The tree in memory is read off from its root. -/
theorem treeAt_root {nodes : Addr → Option (AvlNode V)} {p : Option Addr} {t : LinkedTree V}
    {fuel : ℕ} (ht : Represents nodes p t) (hfuel : t.inorder.length ≤ fuel) :
    treeAt nodes fuel t.root = t := by
  induction t generalizing p fuel with
  | nil => cases fuel <;> rfl
  | node a h v l r ihl ihr =>
    obtain ⟨hcell, hl, hr⟩ := ht
    rw [inorder_node, List.length_append, List.length_cons] at hfuel
    cases fuel with
    | zero => omega
    | succ fuel =>
      rw [root_node, treeAt, hcell]
      dsimp only
      rw [ihl hl (by omega), ihr hr (by omega)]

/-- The tree of a bucket is linked from its root pointer on. -/
theorem roots_of_holds (hs : c.Holds s) (hb : b.2 < c.layout.size b.1) :
    s.heap.roots b = (c.trees b).root ∧ Represents s.heap.nodes none (c.trees b) :=
  ⟨congrFun hs.mem.roots b, represents_of_cells fun _ hx =>
    hs.mem.sat.cell _ (Multiset.mem_add.mpr (Or.inl (mem_gather.mpr ⟨b, hb, hx⟩)))⟩

/-- The tree in memory is the one of the snapshot. -/
theorem treeOf_eq (hs : c.Holds s) (hb : b.2 < c.layout.size b.1) : s.treeOf b = c.trees b := by
  obtain ⟨hroot, hrep⟩ := roots_of_holds hs hb
  unfold treeOf
  rw [hroot]
  refine treeAt_root hrep ?_
  have hcard := hs.mem.sat.card_le fun a (ha : s.heap.next ≤ a) =>
    hs.mem.fresh a (hs.mem.next ▸ ha)
  rw [gather_eq (f := fun b => (c.trees b).cells none) hb, Multiset.card_add, Multiset.card_add,
    card_cells] at hcard
  omega

/-- The rehash would put two nodes into one tree where the snapshot says so. -/
theorem crowded_iff (hs : c.Holds s) (hc : c.Good T) : crowded T s = true ↔ c.Crowded T := by
  have hmoved : s.rehashMoveBucketIndex = c.layout.moved := Tables.Holds.moved_eq hs
  unfold crowded Snapshot.Crowded
  cases hr : c.layout.moved with
  | none =>
    rw [hmoved, hr]
    simp
  | some r =>
    obtain ⟨-, hlt⟩ := hc.trees.sound.rehashing r hr
    have hdest : ∀ e : Addr × V, bucketIndex .table2 (T.hash (T.gk e.2)) s
        = T.dest c.layout e.2 := fun e =>
      bucketIndex_eq hc.trees.sound (fun _ => Option.ne_none_iff_exists'.mpr ⟨r, hr⟩) _ hs
    rw [hmoved, hr]
    dsimp only
    rw [treeOf_eq hs (b := (.table1, r)) hlt]
    simp [hdest]

/-- The insertion would go beside a zero height where the snapshot says so. -/
theorem besideZero_eq (hs : c.Holds s) (hc : c.Good T) (k : K) : besideZero T k s
    = (c.trees (c.bucketOf T k)).lopsided T.toAvlTraits k := by
  have hlayout : s.layout = c.layout := Tables.Holds.layout hs
  unfold besideZero
  rw [hlayout, treeOf_eq hs (hc.trees.bucketOf_lt k)]
  rfl

/-- A call that spares zero heights in memory spares them in the snapshot. -/
theorem spares_of_sparesZeroHeights (hT : LawfulHash T) (hs : c.Holds s) (hc : c.Good T)
    (h : sparesZeroHeights T s op = true) : c.Spares T op := by
  have hfind : (!crowded T s) = true → ¬ c.Crowded T := by
    intro hfree hcrowd
    rw [(crowded_iff hs hc).mpr hcrowd] at hfree
    cases hfree
  have hinsert : ∀ v, ((exec rehash s).all fun s₁ => !crowded T s₁
      && (exec (incrementalRehash T) s₁).all fun s₂ => !besideZero T (T.gk v) s₂) = true →
      c.Spares T (.insert v) := by
    intro v hall
    have hstart := hc.start.1
    obtain ⟨s₁, hrun₁, -, hs₁⟩ := (rehash_spec hc.trees).exec_eq hs
    obtain ⟨s₂, hrun₂, -, hs₂⟩ := (incrementalRehash_spec hstart.trees hT).exec_eq hs₁
    have hc₁ : c.start.Holds s₁ := hs₁
    have hc₂ : (c.start.advance T).Holds s₂ := hs₂
    rw [hrun₁, Option.all_some, hrun₂, Option.all_some, Bool.and_eq_true,
      besideZero_eq hc₂ (hstart.advance hT).1] at hall
    refine ⟨fun hcrowd => ?_, ?_⟩
    · rw [(crowded_iff hc₁ hstart).mpr hcrowd] at hall
      cases hall.1
    · simpa using hall.2
  cases op with
  | insert v => exact hinsert v h
  | insertWithDuplicate v => exact hinsert v h
  | create v => trivial
  | push a => cases h
  | find k => exact hfind h
  | extract k => exact hfind h
  | erase k => exact hfind h
  | eraseNode k => exact hfind h
  | clear => trivial
  | clearApply => trivial

/-- Level trees are balanced in memory. -/
theorem bucketsBalanced_of_level (hs : c.Holds s) (hl : c.Level) : BucketsBalanced s := by
  intro b hb
  have hsize : s.size = c.layout.size := Tables.Holds.size_eq hs
  rw [hsize] at hb
  obtain ⟨hroot, hrep⟩ := roots_of_holds hs hb
  exact ⟨c.trees b, hroot, hrep, (hl b).heightBalanced⟩

end

section

variable {T : HashTraits K V}

/-- **The buckets stay balanced** in every run in which no fixup works with a height of 0. -/
theorem bucketsBalanced_of_sparesZeroHeights (hT : LawfulHash T) (ops : List (TreeTableOp K V)) :
    ∃ s, construct = some s
      ∧ (AllSteps (step T) (fun s op => sparesZeroHeights T s op = true) s ops →
        ∃ s', run (step T) s ops = some s' ∧ BucketsBalanced s') := by
  obtain ⟨s, hs, href, -⟩ := exists_refines T
  refine ⟨s, hs, fun hspares => ?_⟩
  have hstep : ∀ s op, (∃ c m, Refines T c s m ∧ c.Level) → sparesZeroHeights T s op = true →
      ∃ s', step T s op = some s' ∧ ∃ c m, Refines T c s' m ∧ c.Level := by
    rintro s op ⟨c, m, href, hlevel⟩ hop
    have hpush : PushesLoose s op := by
      rintro a rfl
      cases hop
    obtain ⟨r, s', c', m', hrun, hmoves, -, href', -⟩ := href.call hT hpush
    exact ⟨s', by rw [step, exec, hrun]; rfl, c', m', href',
      hmoves.level href.good hlevel (spares_of_sparesZeroHeights hT href.holds href.good hop)⟩
  obtain ⟨s', hrun, c', m', href', hlevel⟩ := exists_run_of_allSteps
    (I := fun s => ∃ c m, Refines T c s m ∧ c.Level) hstep
    ⟨_, _, href, fun _ => Snapshot.level_nil⟩ hspares
  exact ⟨s', hrun, bucketsBalanced_of_level href'.holds hlevel⟩

end

/-- A run with a rehash that moves two entries at a time, after which a third one joins two of
them. -/
def pairsRun : List (TreeTableOp ℤ ℤ) :=
  [.insert 0, .insert 8, .insert 1, .insert 9, .insert 2, .find 1, .find 2, .insert (-8), .find 16,
    .extract 8, .erase 0]

theorem bucketsBalanced_pairsRun : ∃ s s', construct = some s
    ∧ run (step intHash) s pairsRun = some s' ∧ BucketsBalanced s' := by
  obtain ⟨s, hs, h⟩ := bucketsBalanced_of_sparesZeroHeights lawfulHash_int pairsRun
  obtain rfl := Option.some.inj hs
  obtain ⟨s', hrest⟩ := h (by decide +kernel)
  exact ⟨_, s', hs, hrest⟩

/-! ## Three entries that move together -/

instance decidableRepresents (nodes : Addr → Option (AvlNode ℤ)) :
    ∀ (p : Option Addr) (t : LinkedTree ℤ), Decidable (Represents nodes p t)
  | _, nil => isTrue trivial
  | p, node a h v l r =>
    have := decidableRepresents nodes (some a) l
    have := decidableRepresents nodes (some a) r
    inferInstanceAs (Decidable (nodes a = some ⟨p, l.root, r.root, h, v⟩ ∧ _ ∧ _))

/-- Three entries with one hash value modulo 8, and the insertion that starts the rehash. -/
def crowdRun : List (TreeTableOp ℤ ℤ) := [.insert 0, .insert 8, .insert 16, .insert 1, .insert 2]

/-- What the rehash makes of the three. -/
def crowdTree : LinkedTree ℤ := node 0 2 0 nil (node 2 1 16 (node 1 0 8 nil nil) nil)

theorem not_bucketsBalanced_crowdRun : ∃ s s', construct = some s
    ∧ run (step intHash) s crowdRun = some s' ∧ ¬ BucketsBalanced s' := by
  have hrun : ((construct (V := ℤ)).bind fun s => run (step intHash) s crowdRun).map (fun s =>
      decide (0 < s.size .table2 ∧ s.heap.roots (.table2, 0) = crowdTree.root
        ∧ Represents s.heap.nodes none crowdTree)) = some true := by
    decide +kernel
  obtain ⟨s', hbind, hcheck⟩ := Option.map_eq_some_iff.mp hrun
  obtain ⟨s, hs, hrun⟩ := Option.bind_eq_some_iff.mp hbind
  obtain ⟨hsize, hroot, hrep⟩ := of_decide_eq_true hcheck
  refine ⟨s, s', hs, hrun, fun hbal => ?_⟩
  obtain ⟨t, hroot', hrep', hheight⟩ := hbal (.table2, 0) hsize
  obtain rfl := hrep.eq hrep' (hroot.symm.trans hroot')
  simp [crowdTree, HeightBalanced, calculateHeight, AvlUtil.avlMax] at hheight

end TreeHashTable

end Mmkvc
