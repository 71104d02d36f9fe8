/-
# The counts of trees that share nodes

The count of a tree follows its nodes, except where a second node is put beside the only one,
which does not count it, and where `Extract()` takes the root, which does not discount it.
-/
import Mmkvc.AvlGrove

namespace Mmkvc

open AvlM AvlTreeBase LinkedTree

variable {ι K V : Type} [DecidableEq ι]

/-- The count of each tree is the number of its nodes, as a number of 64 bits. -/
def CountsNodes (s : AvlHeap ι V) : Prop :=
  ∀ i, ∃ t : LinkedTree V, s.roots i = t.root ∧ Represents s.nodes none t
    ∧ s.counts i = BitVec.ofNat 64 t.inorder.length

/-- The node of a tree that has one node only. -/
def lone (s : AvlHeap ι V) (i : ι) : Option (AvlNode V) :=
  ((s.roots i).bind s.nodes).filter fun n => n.left.isNone && n.right.isNone

/-- The value of the node that `Insert`, `InsertWithDuplicate` or `Push` wants to put in. -/
def newValue (s : AvlHeap ι V) : TreeCall K V → Option V
  | .insert v | .insertWithDuplicate v => some v
  | .push a => (s.nodes a).map AvlNode.value
  | _ => none

/-- The count follows a call: no second node with another key is put beside the only one, and
`Extract()` is called on an empty tree. -/
def Counted (T : AvlTraits K V) (s : AvlHeap ι V) (op : ι × TreeCall K V) : Prop :=
  (∀ n ∈ lone s op.1, ∀ v ∈ newValue s op.2, T.cmp (T.gk v) (T.gk n.value) = 0)
    ∧ (op.2 = .extractRoot → s.roots op.1 = none)

namespace Grove

variable {T : AvlTraits K V} {g g' : Grove ι V} {i : ι} {op : TreeCall K V} {r : Bool × Option Addr}
  {e : Rest ι} {L : Multiset (Addr × AvlNode V)}

/-- The count of a tree is the number of its nodes. -/
def Counts (g : Grove ι V) (i : ι) : Prop := g.counts i = BitVec.ofNat 64 (g.trees i).inorder.length

theorem ofNat_succ (n : ℕ) : BitVec.ofNat 64 (n + 1) = BitVec.ofNat 64 n + 1 := BitVec.ofNat_add n 1

theorem ofNat_ne_succ (n : ℕ) : BitVec.ofNat 64 n ≠ BitVec.ofNat 64 (n + 1) := by
  rw [ofNat_succ]
  bv_omega

/-- One node more, which is counted. -/
theorem counts_replace_increase {t : LinkedTree V} (hcount : g.Counts i)
    (hcounts : e.counts = g.counts) (ht : t.inorder.length = (g.trees i).inorder.length + 1) :
    (g.replace i t (e.increase i) L).Counts i := by
  unfold Counts
  rw [replace_trees_self, ht, ofNat_succ, ← hcount]
  change Function.update e.counts i (e.counts i + 1) i = _
  rw [Function.update_self, hcounts]

/-- One node less, which is discounted. -/
theorem counts_replace_decrease {t : LinkedTree V} (hcount : g.Counts i)
    (ht : t.inorder.length + 1 = (g.trees i).inorder.length) :
    (g.replace i t (g.rest.decrease i) L).Counts i := by
  unfold Counts at hcount ⊢
  rw [← ht, ofNat_succ] at hcount
  rw [replace_trees_self]
  change Function.update g.counts i (g.counts i - 1) i = _
  rw [Function.update_self, hcount, BitVec.add_sub_cancel]

/-- An insertion counts the node unless it puts it beside the only one. -/
theorem counts_planted_iff {x : Addr} {h : ℕ} {v : V} (hcount : g.Counts i)
    (hcounts : e.counts = g.counts) :
    (g.planted i (g.inserted T i x h v) e L).Counts i
      ↔ ∀ a h' w, g.trees i = node a h' w nil nil → T.cmp (T.gk v) (T.gk w) = 0 := by
  have hlength : (insertNew T (T.gk v) x h v (g.trees i)).2.inorder.length
      = (g.trees i).inorder.length + if (insertNew T (T.gk v) x h v (g.trees i)).1.isNone then 1 else 0 :=
    length_insertNew x h v
  unfold planted
  cases hout : (g.inserted T i x h v).1 with
  | some b =>
    refine ⟨fun _ a h' w ht => ?_, fun _ => hcount⟩
    rw [inserted, ht, insertNew, if_pos ⟨rfl, rfl⟩] at hout
    split_ifs at hout
    omega
  | none =>
    rw [show (insertNew T (T.gk v) x h v (g.trees i)).1 = none from hout, Option.isNone_none,
      if_pos rfl] at hlength
    rw [Option.isNone_none, if_pos rfl]
    by_cases hlone : ∃ a h' w, g.trees i = node a h' w nil nil
    · obtain ⟨a, h', w, ht⟩ := hlone
      have hrest : restAfter i (g.trees i) e = e := by
        rw [ht, restAfter, if_pos ⟨rfl, rfl⟩]
      refine ⟨fun hbad => ?_, fun hsame => ?_⟩
      · unfold Counts at hbad hcount
        rw [hrest, replace_trees_self] at hbad
        change e.counts i = BitVec.ofNat 64 (insertNew T (T.gk v) x h v (g.trees i)).2.inorder.length
          at hbad
        rw [hlength, hcounts, hcount] at hbad
        exact absurd hbad (ofNat_ne_succ _)
      · have heq := hsame a h' w ht
        rw [inserted, ht, insertNew, if_pos ⟨rfl, rfl⟩, if_neg heq.le.not_gt, if_neg heq.ge.not_gt]
          at hout
        cases hout
    · have hrest : restAfter i (g.trees i) e = e.increase i := by
        cases ht : g.trees i with
        | nil => rfl
        | node a h' w l r =>
          refine if_neg fun hsingle : l.root = none ∧ r.root = none => hlone ⟨a, h', w, ?_⟩
          rw [root_eq_none, root_eq_none] at hsingle
          rw [ht, hsingle.1, hsingle.2]
      rw [hrest]
      exact ⟨fun _ a h' w ht => absurd ⟨a, h', w, ht⟩ hlone,
        fun _ => counts_replace_increase hcount hcounts hlength⟩

/-- The counts of the other trees stay. -/
theorem planted_counts_of_ne {out : Option Addr × LinkedTree V} {j : ι}
    (hcounts : e.counts = g.counts) (hj : j ≠ i) : (g.planted i out e L).counts j = g.counts j := by
  have hrest : (restAfter i (g.trees i) e).counts j = e.counts j := by
    unfold restAfter
    split
    · exact Function.update_of_ne hj _ _
    · split_ifs
      · rfl
      · exact Function.update_of_ne hj _ _
  unfold planted
  split_ifs
  · exact hrest.trans (congrFun hcounts j)
  · rfl

section

variable [Fintype ι] {s : AvlHeap ι V}

/-- A lone node is the root of a tree with nothing below it. -/
theorem mem_lone (hs : g.Holds s) {n : AvlNode V} :
    n ∈ lone s i ↔ ∃ a h v, g.trees i = node a h v nil nil ∧ n = ⟨none, none, none, h, v⟩ := by
  obtain ⟨hroot, hrep⟩ := hs.represents i
  unfold lone
  rw [hroot]
  generalize g.trees i = t at hrep
  cases t with
  | nil => simp
  | node a h v l r =>
    rw [root_node, Option.bind_some, hrep.1, Option.mem_def, Option.filter_eq_some_iff]
    simp only [Option.some.injEq, Bool.and_eq_true, Option.isNone_iff_eq_none]
    constructor
    · rintro ⟨rfl, hl, hr⟩
      obtain rfl := root_eq_none.mp hl
      obtain rfl := root_eq_none.mp hr
      exact ⟨a, h, v, rfl, rfl⟩
    · rintro ⟨a', h', v', ht, rfl⟩
      obtain ⟨rfl, rfl, rfl, rfl, rfl⟩ := LinkedTree.node.inj ht
      exact ⟨rfl, rfl, rfl⟩

/-- What is asked of a call, on the trees. -/
theorem counted_iff (hs : g.Holds s) : Counted T s (i, op)
    ↔ (∀ v, newValue s op = some v →
        ∀ a h w, g.trees i = node a h w nil nil → T.cmp (T.gk v) (T.gk w) = 0)
      ∧ (op = .extractRoot → g.trees i = nil) := by
  refine and_congr ⟨fun h v hv a hh w ht => ?_, fun h n hn v hv => ?_⟩ (imp_congr_right fun _ => ?_)
  · exact h ⟨none, none, none, hh, w⟩ ((mem_lone hs).mpr ⟨a, hh, w, ht, rfl⟩) v hv
  · obtain ⟨a, hh, w, ht, rfl⟩ := (mem_lone hs).mp hn
    exact h v hv a hh w ht
  · rw [(hs.represents i).1, root_eq_none]

/-- A call that puts no value in is counted. -/
theorem counted_of_newValue (hs : g.Holds s) (hv : newValue s op = none) (hop : op ≠ .extractRoot) :
    Counted T s (i, op) := by
  refine (counted_iff hs).mpr ⟨fun v hv' => ?_, fun h => absurd h hop⟩
  rw [hv] at hv'
  cases hv'

/-- A call that puts a value in is counted unless it goes beside a lone node of another key. -/
theorem counted_of_value {v : V} (hs : g.Holds s) (hv : newValue s op = some v)
    (hop : op ≠ .extractRoot) : Counted T s (i, op)
      ↔ ∀ a h w, g.trees i = node a h w nil nil → T.cmp (T.gk v) (T.gk w) = 0 := by
  rw [counted_iff hs]
  constructor
  · exact fun h => h.1 v hv
  · refine fun h => ⟨fun v' hv' => ?_, fun h => absurd h hop⟩
    obtain rfl := Option.some.inj (hv.symm.trans hv')
    exact h

omit [Fintype ι] in
theorem counts_nil : (g.replace i nil (g.rest.reset i) L).Counts i := by
  unfold Counts
  rw [replace_trees_self]
  exact Function.update_self i (0 : BitVec 64) g.counts

/-- **A call keeps the count of its tree right if and only if the condition is met.** -/
theorem Moves.counts_iff (h : g.Moves T i op r g') (hs : g.Holds s) (hcount : g.Counts i) :
    g'.Counts i ↔ Counted T s (i, op) := by
  cases h with
  | insert v | insertWithDuplicate v =>
    refine (counts_planted_iff hcount rfl).trans (Iff.symm ?_)
    exact counted_of_value hs rfl nofun
  | push a n L hL =>
    refine (counts_planted_iff hcount rfl).trans (Iff.symm (counted_of_value hs ?_ nofun))
    rw [newValue, hs.node_eq (n := n) (by simp [hL]), Option.map_some]
  | insertEq v =>
    exact iff_of_true (counts_replace_increase hcount rfl (length_insertEqNew _ _ _))
      (counted_of_newValue hs rfl nofun)
  | pushEq a n L hL =>
    exact iff_of_true (counts_replace_increase hcount rfl (length_insertEqNew _ _ _))
      (counted_of_newValue hs rfl nofun)
  | find key => exact iff_of_true hcount (counted_of_newValue hs rfl nofun)
  | erase key | extract key =>
    refine iff_of_true ?_ (counted_of_newValue hs rfl nofun)
    have hlength := length_eraseKey T key (g.trees i)
    unfold cut
    -- the count goes down where an entry goes
    cases hout : (g.erased T i key).1 with
    | none =>
      have hsame : (g.erased T i key).2 = g.trees i := eraseKey_of_none hout
      rw [Option.isSome_none, if_neg Bool.false_ne_true, hsame]
      unfold Counts
      rw [replace_trees_self]
      exact hcount
    | some x =>
      rw [show (LinkedTree.eraseKey T key (g.trees i)).1 = some x from hout, Option.isSome_some,
        if_pos rfl] at hlength
      rw [Option.isSome_some, if_pos rfl]
      exact counts_replace_decrease hcount hlength
  | eraseNode c a h v l r ht =>
    refine iff_of_true (counts_replace_decrease hcount ?_) (counted_of_newValue hs rfl nofun)
    rw [ht]
    exact length_eraseAt
  | extractRoot_nil ht =>
    exact iff_of_true hcount ((counted_iff hs).mpr ⟨nofun, fun _ => ht⟩)
  | extractRoot d a h v near ht =>
    -- the root goes without being counted
    refine iff_of_false (fun hbad => ?_) fun hmet => ?_
    · unfold Counts at hbad hcount
      rw [replace_trees_self] at hbad
      change g.counts i = _ at hbad
      rw [hbad, ht, length_join, inorder_nil, List.length_nil, Nat.add_zero] at hcount
      exact ofNat_ne_succ _ hcount
    · have hnil := ((counted_iff hs).mp hmet).2 rfl
      rw [ht] at hnil
      cases d <;> cases hnil
  | reuseAllNodes | clear => exact iff_of_true counts_nil (counted_of_newValue hs rfl nofun)

/-- The counts in memory are those of the trees. -/
theorem countsNodes_iff (hs : g.Holds s) : CountsNodes s ↔ ∀ i, g.Counts i := by
  refine forall_congr' fun i => ?_
  obtain ⟨hroot, hrep⟩ := hs.represents i
  rw [hs.counts]
  constructor
  · rintro ⟨t, hroot', hrep', hcount⟩
    obtain rfl := hrep.eq hrep' (hroot.symm.trans hroot')
    exact hcount
  · exact fun hcount => ⟨_, hroot, hrep, hcount⟩

omit [Fintype ι] in
/-- The count of another tree stays as it was. -/
theorem Moves.counts_of_ne (h : g.Moves T i op r g') {j : ι} (hj : j ≠ i) :
    g'.Counts j ↔ g.Counts j := by
  have hcounts : g'.counts j = g.counts j := by
    cases h with
    | insert v | insertWithDuplicate v | push a n L hL => exact planted_counts_of_ne rfl hj
    | find key | extractRoot_nil ht | extractRoot d a h v near ht => rfl
    | erase key | extract key =>
      change (if (g.erased T i key).1.isSome then _ else _ : Rest ι).counts j = _
      split_ifs
      · exact Function.update_of_ne hj _ _
      · rfl
    | insertEq v | pushEq a n L hL | eraseNode c a h v l r ht | reuseAllNodes | clear =>
      exact Function.update_of_ne hj _ _
  unfold Counts
  rw [hcounts, h.trees_of_ne hj]

/-- `Extract()` of a root with two subtrees leaves no tree with links both ways. -/
theorem Holds.extractRoot_both {a b c : Addr} {h : ℕ} {v : V} {l l' : LinkedTree V} (hs : g.Holds s)
    (ht : g.trees i = node a h v l l') (hl : l.root = some b) (hl' : l'.root = some c) :
    ∃ s', groveStep T s (i, .extractRoot) = some s' ∧ ¬ CountsNodes s' := by
  have hfocus := hs.focus i
  rw [ht] at hfocus
  obtain ⟨p, s', hrun, -, hspliced⟩ := Mmkvc.extractRoot_both hl s hfocus
  refine ⟨s', ?_, fun hcount => ?_⟩
  · change Option.map Prod.snd (((extractRoot i).run s).bind _) = _
    rw [hrun]
    rfl
  · obtain ⟨t, hroot, hrep, -⟩ := hcount i
    exact hspliced.not_represents hl hl' t hroot hrep

/-- **Each call keeps the counts right if and only if the condition is met**, and then it leaves
trees. -/
theorem Holds.step_counts (hs : g.Holds s) (hg : g.Good) (hcount : CountsNodes s)
    (hpush : PushesLoose s (i, op)) (herase : ErasesMember s (i, op)) :
    ∃ s', groveStep T s (i, op) = some s'
      ∧ (Counted T s (i, op) → ∃ g' : Grove ι V, g'.Holds s' ∧ g'.Good)
      ∧ (CountsNodes s' ↔ Counted T s (i, op)) := by
  by_cases hboth : op = .extractRoot ∧ ∃ a h v l l' b c, g.trees i = node a h v l l'
    ∧ l.root = some b ∧ l'.root = some c
  · obtain ⟨rfl, a, h, v, l, l', b, c, ht, hl, hl'⟩ := hboth
    obtain ⟨s', hstep, hbad⟩ := hs.extractRoot_both (T := T) ht hl hl'
    have hnot : ¬ Counted T s (i, .extractRoot) := by
      intro hmet
      have hnil := ((counted_iff hs).mp hmet).2 rfl
      rw [ht] at hnil
      cases hnil
    exact ⟨s', hstep, fun hmet => absurd hmet hnot, iff_of_false hbad hnot⟩
  · have hextract : op = .extractRoot → g.trees i = nil ∨ ∃ d a h v near,
        g.trees i = join d a h v near nil := by
      intro hop
      cases ht : g.trees i with
      | nil => exact Or.inl rfl
      | node a h v l l' =>
        refine Or.inr ?_
        cases hl : l.root with
        | none => exact ⟨.right, a, h, v, l', by rw [root_eq_none.mp hl]; rfl⟩
        | some b =>
          cases hl' : l'.root with
          | none => exact ⟨.left, a, h, v, l, by rw [root_eq_none.mp hl']; rfl⟩
          | some c => exact absurd ⟨hop, a, h, v, l, l', b, c, ht, hl, hl'⟩ hboth
    obtain ⟨r, s', g', -, hstep, hmoves, hs', hg'⟩ := hs.step (T := T) hg
      (hs.allows hpush herase hextract)
    rw [countsNodes_iff hs] at hcount
    refine ⟨s', hstep, fun _ => ⟨g', hs', hg'⟩, (countsNodes_iff hs').trans ?_⟩
    rw [← hmoves.counts_iff hs (hcount i)]
    constructor
    · exact fun h => h i
    · intro h j
      by_cases hj : j = i
      · rw [hj]
        exact h
      · exact (hmoves.counts_of_ne hj).mpr (hcount j)

end

end Grove

/-! ## Runs -/

section

variable [Fintype ι] {T : AvlTraits K V}

omit [DecidableEq ι] [Fintype ι] in
theorem countsNodes_bare : CountsNodes (AvlHeap.bare : AvlHeap ι V) :=
  fun _ => ⟨nil, rfl, trivial, rfl⟩

/-- **The counts are the numbers of the nodes** as long as no second node is put beside an only
one and `Extract()` is called on empty trees, and no longer. -/
theorem grove_counts_iff (T : AvlTraits K V) (ops : List (ι × TreeCall K V))
    (hpush : Transition.AllSteps (groveStep T) PushesLoose AvlHeap.bare ops)
    (herase : Transition.AllSteps (groveStep T) ErasesMember AvlHeap.bare ops) :
    (Transition.AllSteps (groveStep T) (fun s op => ∀ s', groveStep T s op = some s' → CountsNodes s')
        AvlHeap.bare ops ↔ Transition.AllSteps (groveStep T) (Counted T) AvlHeap.bare ops)
      ∧ (Transition.AllSteps (groveStep T) (Counted T) AvlHeap.bare ops →
        ∃ s, Transition.run (groveStep T) AvlHeap.bare ops = some s ∧ CountsNodes s) := by
  have hbare : ∃ g : Grove ι V, g.Holds AvlHeap.bare ∧ g.Good :=
    ⟨Grove.bare, Grove.holds_bare, nofun⟩
  have hlegal := hpush.and herase
  refine ⟨Transition.allSteps_iff (I := fun s => ∃ g : Grove ι V, g.Holds s ∧ g.Good)
    (fun s op ⟨g, hs, hg⟩ hC hop => hs.step_counts hg hC hop.1 hop.2) hbare countsNodes_bare hlegal,
    fun hcounted => ?_⟩
  obtain ⟨s, hrun, -, hcount⟩ := Transition.exists_run_of_allSteps
    (I := fun s => (∃ g : Grove ι V, g.Holds s ∧ g.Good) ∧ CountsNodes s)
    (fun s op ⟨⟨g, hs, hg⟩, hC⟩ hop => by
      obtain ⟨s', hstep, hI, hiff⟩ := hs.step_counts (T := T) hg hC hop.1.1 hop.1.2
      exact ⟨s', hstep, hI hop.2, hiff.mpr hop.2⟩) ⟨hbare, countsNodes_bare⟩ (hlegal.and hcounted)
  exact ⟨s, hrun, hcount⟩

end

/-- Insertions, removals and a node that is put back. -/
def countRun : List (Unit × TreeCall ℤ ℤ) :=
  [.insert 1, .insert 1, .erase 1, .insertEq 2, .extract 2, .push 1, .insertEq 3, .insertWithDuplicate 5,
    .clear, .extractRoot].map fun op => ((), op)

theorem grove_counts_iff_countRun :
    (Transition.AllSteps (groveStep intTraits)
        (fun s op => ∀ s', groveStep intTraits s op = some s' → CountsNodes s') AvlHeap.bare countRun
      ↔ Transition.AllSteps (groveStep intTraits) (Counted intTraits) AvlHeap.bare countRun)
      ∧ (Transition.AllSteps (groveStep intTraits) (Counted intTraits) AvlHeap.bare countRun →
        ∃ s, Transition.run (groveStep intTraits) AvlHeap.bare countRun = some s ∧ CountsNodes s) :=
  grove_counts_iff intTraits countRun (by decide +kernel)
    (erasesMember_of_no_eraseNode (by simp [countRun]))

/-- The second of two insertions is not counted, so two removals bring the count below zero. -/
theorem two_inserts_count_one : ∃ s s' : AvlHeap Unit ℤ,
    Transition.run (groveStep intTraits) AvlHeap.bare [((), .insert 1), ((), .insert 2)] = some s
      ∧ ¬ CountsNodes s ∧ Transition.run (groveStep intTraits) AvlHeap.bare
        [((), .insert 1), ((), .insert 2), ((), .erase 1), ((), .erase 2)] = some s'
      ∧ s'.roots () = none ∧ s'.counts () = BitVec.allOnes 64 := by
  have hcalc : (Transition.run (groveStep intTraits) AvlHeap.bare [((), .insert 1), ((), .insert 2)]).map
      (fun s => (s.roots (), s.nodes 0, s.nodes 1, s.counts ()))
      = some (some 0, some ⟨none, none, some 1, 1, 1⟩, some ⟨some 0, none, none, 1, 2⟩, 1) := by
    decide +kernel
  obtain ⟨s, hrun, hs⟩ := Option.map_eq_some_iff.mp hcalc
  obtain ⟨hroot, h0, h1, hcount⟩ : _ ∧ _ ∧ _ ∧ _ := by simpa only [Prod.mk.injEq] using hs
  have hcalc' : (Transition.run (groveStep intTraits) AvlHeap.bare
      [((), .insert 1), ((), .insert 2), ((), .erase 1), ((), .erase 2)]).map
      (fun s' => (s'.roots (), s'.counts ())) = some (none, BitVec.allOnes 64) := by
    decide +kernel
  obtain ⟨s', hrun', hs'⟩ := Option.map_eq_some_iff.mp hcalc'
  obtain ⟨hroot', hcount'⟩ := Prod.mk.inj hs'
  refine ⟨s, s', hrun, fun hcounts => ?_, hrun', hroot', hcount'⟩
  obtain ⟨t, ht, hrep, hnodes⟩ := hcounts ()
  have htwo : Represents s.nodes none (node 0 1 1 nil (node 1 1 2 nil nil)) :=
    ⟨h0, trivial, h1, trivial, trivial⟩
  obtain rfl := hrep.eq htwo (ht.symm.trans hroot)
  rw [hcount] at hnodes
  exact absurd hnodes (by decide)

end Mmkvc
