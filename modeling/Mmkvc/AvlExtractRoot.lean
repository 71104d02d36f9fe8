/-
# `Extract()`

`Extract()` takes the root out and hangs one of its subtrees at the far end of the other,
without a link back and without a fixup.  Where the root has only one subtree nothing is
hung, and the tree that is left is that subtree.
-/
import Mmkvc.AvlTraversal

namespace Mmkvc

open AvlM AvlUtil AvlTreeBase LinkedTree

variable {ι K V : Type} [DecidableEq ι]

/-! ## The far end of a tree -/

namespace LinkedTree

/-- The tree with another one at its far end on the side `d`. -/
def graft (d : Dir) (other : LinkedTree V) : LinkedTree V → LinkedTree V
  | nil => other
  | node a h v l r =>
    match d with
    | .left => node a h v (graft .left other l) r
    | .right => node a h v l (graft .right other r)

/-- The cells of a tree with the pointer `p` at its far end. -/
def splicedCells (d : Dir) (p : Option Addr) (parent : Option Addr) :
    LinkedTree V → Multiset (Addr × AvlNode V)
  | nil => 0
  | node a h v l r =>
    match d with
    | .left => {(a, ⟨parent, l.root.or p, r.root, h, v⟩)} + splicedCells .left p (some a) l
        + r.cells (some a)
    | .right => {(a, ⟨parent, l.root, r.root.or p, h, v⟩)} + splicedCells .right p (some a) r
        + l.cells (some a)

/-- The node at the far end. -/
def farEnd (d : Dir) (parent : Option Addr) : LinkedTree V → Option Addr
  | nil => parent
  | node a _ _ l r =>
    match d with
    | .left => farEnd .left (some a) l
    | .right => farEnd .right (some a) r

variable {d : Dir} {a : Addr} {h : ℕ} {v : V} {t near far other : LinkedTree V} {p q : Option Addr}

theorem graft_join : graft d other (join d a h v near far) = join d a h v (graft d other near) far := by
  cases d <;> rfl

theorem farEnd_join : farEnd d q (join d a h v near far) = farEnd d (some a) near := by
  cases d <;> rfl

theorem splicedCells_join : splicedCells d p q (join d a h v near far)
    = {(a, .ofSides d q (near.root.or p) far.root h v)} + splicedCells d p (some a) near
      + far.cells (some a) := by
  cases d <;> rfl

/-- The root stays, unless the tree is empty. -/
theorem root_graft : (graft d other t).root = t.root.or other.root := by
  induction t using join_induction d with
  | hnil => rfl
  | hjoin a h v near far ihnear ihfar =>
    rw [graft_join, root_join, root_join]
    rfl

/-- A splice is a graft but for the link back from the other tree. -/
theorem cells_graft : (graft d other t).cells q
    = splicedCells d other.root q t + other.cells (farEnd d q t) := by
  induction t using join_induction d generalizing q with
  | hnil => exact (zero_add _).symm
  | hjoin a h v near far ihnear ihfar =>
    rw [graft_join, cells_join, ihnear, root_graft, splicedCells_join, farEnd_join]
    abel

/-- Without another tree nothing is spliced. -/
theorem splicedCells_none : splicedCells d none q t = t.cells q := by
  induction t using join_induction d generalizing q with
  | hnil => rfl
  | hjoin a h v near far ihnear ihfar => rw [splicedCells_join, ihnear, Option.or_none, cells_join]

/-- The far end of a tree is one of its nodes. -/
theorem exists_farEnd (p q : Option Addr) (ht : t.root = some a) :
    ∃ b n, farEnd d q t = some b ∧ (b, n) ∈ splicedCells d p q t := by
  induction t using join_induction d generalizing a q with
  | hnil => cases ht
  | hjoin b h v near far ihnear ihfar =>
    rw [farEnd_join, splicedCells_join]
    cases hnear : near.root with
    | none =>
      obtain rfl := root_eq_none.mp hnear
      exact ⟨b, .ofSides d q p far.root h v, rfl, by simp⟩
    | some b' =>
      obtain ⟨c, n, hend, hmem⟩ := ihnear (some b) hnear
      exact ⟨c, n, hend, by simp [hmem]⟩

end LinkedTree

/-- Where memory has the children of a tree and can be read as a tree with the links back, the
links back are those of the tree. -/
theorem Represents.parent_eq {nodes : Addr → Option (AvlNode V)} {t t' : LinkedTree V}
    {p : Option Addr} (hrep : Represents nodes p t') (hroot : t'.root = t.root)
    (hagree : ∀ x ∈ t.cells p, ∃ n, nodes x.1 = some n ∧ n.left = x.2.left ∧ n.right = x.2.right) :
    ∀ x ∈ t.cells p, ∃ n, nodes x.1 = some n ∧ n.parent = x.2.parent := by
  induction t generalizing t' p with
  | nil => exact fun x hx => absurd hx (Multiset.notMem_zero x)
  | node a h v l r ihl ihr =>
    cases t' with
    | nil => cases hroot
    | node a' h' v' l' r' =>
      obtain rfl := Option.some.inj hroot
      obtain ⟨hcell, hrepl, hrepr⟩ := hrep
      obtain ⟨n, hn, hleft, hright⟩ := hagree (a', ⟨p, l.root, r.root, h, v⟩) (by simp [LinkedTree.cells])
      obtain rfl := Option.some.inj (hcell.symm.trans hn)
      intro x hx
      rw [LinkedTree.cells, Multiset.mem_add, Multiset.mem_add, Multiset.mem_singleton] at hx
      rcases hx with (rfl | hx) | hx
      · exact ⟨_, hcell, rfl⟩
      · exact ihl hrepl hleft (fun y hy => hagree y (left_cells_subset p hy)) x hx
      · exact ihr hrepr hright (fun y hy => hagree y (right_cells_subset p hy)) x hx

section

variable {root : ι} {M N : Multiset (Addr × AvlNode V)} {p q : Option Addr} {e : Rest ι}
  {d : Dir} {a b : Addr} {h : ℕ} {v : V} {n : AvlNode V} {t near far other : LinkedTree V} {fuel : ℕ}

/-- A pointer is written to the far end below a node. -/
theorem spliceFar_spec (hn : n.child d = t.root) (hfuel : t.inorder.length < fuel) :
    Triple (At root ({(a, n)} + t.cells (some a) + N) p e)
      (freeSlot d fuel (.child a d) >>= writeSlot q)
      fun _ => At root ({(a, n.setChild d (t.root.or q))} + splicedCells d q (some a) t + N) p e := by
  induction t using join_induction d generalizing a n N fuel with
  | hnil =>
    cases fuel with
    | zero => exact absurd hfuel (Nat.not_lt_zero _)
    | succ fuel =>
      rw [freeSlot, readSlot, bind_assoc, bind_assoc]
      refine load_bind (n := n) (by simp) ?_
      rw [hn]
      refine (modify_spec (n := n) (N := N) ?_ rfl).post fun _ s hs => hs.congr ?_
      · rw [cells_nil, add_zero]
      · simp [splicedCells]
  | hjoin b h v near far ihnear ihfar =>
    rw [length_join] at hfuel
    cases fuel with
    | zero => exact absurd hfuel (Nat.not_lt_zero _)
    | succ fuel =>
      rw [freeSlot, readSlot, bind_assoc, bind_assoc]
      refine load_bind (n := n) (by simp) ?_
      rw [hn, root_join]
      have hset : n.setChild d (some b) = n := by
        rw [root_join] at hn
        cases d <;> simp [AvlNode.setChild, ← hn, AvlNode.child]
      have hdown := @ihnear ({(a, n)} + far.cells (some b) + N) b
        (.ofSides d (some a) near.root far.root h v) fuel AvlNode.child_ofSides (by omega)
      refine Triple.perm (N := {(b, .ofSides d (some a) near.root far.root h v)} + near.cells (some b)
        + ({(a, n)} + far.cells (some b) + N)) ?_ (hdown.post fun _ s hs => hs.congr ?_)
      · rw [cells_join]
        abel
      · rw [Option.some_or, hset, splicedCells_join]
        have hchild : (AvlNode.ofSides d (some a) near.root far.root h v).setChild d (near.root.or q)
            = .ofSides d (some a) (near.root.or q) far.root h v := by
          cases d <;> rfl
        rw [hchild]
        abel

/-- What `Extract()` leaves of a tree with the root `a` and the subtree `near` to go up: the
other subtree hangs at the far end, but its root has the link to `a` still. -/
def Spliced (root : ι) (N : Multiset (Addr × AvlNode V)) (e : Rest ι) (d : Dir) (a : Addr) (h : ℕ)
    (v : V) (near other : LinkedTree V) : AvlHeap ι V → Prop :=
  At root (splicedCells d.opp other.root none near + other.cells (some a)
    + ({(a, ⟨none, none, none, h, v⟩)} + N)) near.root e

/-- A branch of `Extract()`. -/
theorem extractUp_spec (hnear : near.root = some b) :
    Triple (Focus root N e [] (join d a h v near other)) (extractUp d a b other.root root)
      fun r s => r = a ∧ Spliced root N e d a h v near other s := by
  obtain ⟨b', hb, vb, x, z, rfl⟩ := exists_join d.opp (by simp [hnear] : near.root ≠ none)
  rw [root_join] at hnear
  obtain rfl := Option.some.inj hnear
  refine Triple.of_pre (fun hlength => ?_) fun s hs => length_le_of_focus hs
  rw [length_join, length_join] at hlength
  refine Triple.bind setRoot_spec fun _ => bound_bind ?_
  rw [← bind_assoc]
  refine Triple.bind (Triple.perm (N := {(b', .ofSides d.opp (some a) x.root z.root hb vb)}
    + x.cells (some b') + ({(a, .ofSides d none (some b') other.root h v)} + z.cells (some b')
      + other.cells (some a) + N)) ?_
    (spliceFar_spec AvlNode.child_ofSides (by omega))) fun _ => ?_
  · rw [cells_join, cells_join, root_join]
    simp only [Place.cells, Place.parent_nil]
    abel
  · refine modify_bind (splicedCells d.opp other.root (some b') x
      + ({(a, .ofSides d none (some b') other.root h v)} + z.cells (some b') + other.cells (some a) + N))
      ((AvlNode.ofSides d.opp (some a) x.root z.root hb vb).setChild d.opp (x.root.or other.root))
      (.ofSides d.opp none (x.root.or other.root) z.root hb vb) (by rw [add_assoc])
      (by cases d <;> rfl) ?_
    refine modify_bind ({(b', .ofSides d.opp none (x.root.or other.root) z.root hb vb)}
      + splicedCells d.opp other.root (some b') x + z.cells (some b') + other.cells (some a) + N)
      (.ofSides d none (some b') other.root h v) ⟨none, none, none, h, v⟩ (by abel)
      (by cases d <;> rfl) ?_
    refine triple_pure fun s hs => ⟨rfl, ?_⟩
    unfold Spliced
    rw [splicedCells_join, root_join]
    exact hs.congr (by abel)

/-- `Extract()` of a root with one subtree leaves the subtree. -/
theorem extractUp_single (hnear : near.root = some b) :
    Triple (Focus root N e [] (join d a h v near nil)) (extractUp d a b none root)
      fun r s => r = a ∧ Focus root ({(a, ⟨none, none, none, h, v⟩)} + N) e [] near s := by
  have hspec : Triple (Focus root N e [] (join d a h v near nil)) (extractUp d a b none root)
      fun r s => r = a ∧ Spliced root N e d a h v near nil s := extractUp_spec hnear
  refine hspec.post fun r s hs => ⟨hs.1, ?_⟩
  have hspliced := hs.2
  unfold Spliced at hspliced
  rw [root_nil, splicedCells_none] at hspliced
  exact hspliced.congr (by simp [Place.cells])

/-- A root with one subtree, or with none. -/
theorem extractRoot_single :
    Triple (Focus root N e [] (join d a h v near nil)) (extractRoot root)
      fun r s => r = some a ∧ Focus root ({(a, ⟨none, none, none, h, v⟩)} + N) e [] near s := by
  refine getRoot_bind ?_
  rw [root_join, Place.top_nil]
  refine load_bind (n := .ofSides d none near.root none h v) (by simp [cells_join]) ?_
  cases hnear : near.root with
  | none =>
    obtain rfl := root_eq_none.mp hnear
    have hlinks : AvlNode.ofSides d none none none h v = ⟨none, none, none, h, v⟩ := by
      cases d <;> rfl
    rw [hlinks]
    refine Triple.bind setRoot_spec fun _ => triple_pure fun s hs => ⟨rfl, hs.congr ?_⟩
    simp [cells_join, Place.cells, hlinks]
  | some b =>
    cases d with
    | left => exact Triple.bind (extractUp_single hnear) fun r => triple_pure fun s hs =>
        ⟨congrArg some hs.1, hs.2⟩
    | right => exact Triple.bind (extractUp_single hnear) fun r => triple_pure fun s hs =>
        ⟨congrArg some hs.1, hs.2⟩

/-- A root with two subtrees. -/
theorem extractRoot_both {l r : LinkedTree V} (hl : l.root = some b) :
    Triple (Focus root N e [] (node a h v l r)) (extractRoot root)
      fun p s => p = some a ∧ Spliced root N e .left a h v l r s := by
  refine getRoot_bind ?_
  rw [Place.top_nil]
  refine load_bind (n := ⟨none, l.root, r.root, h, v⟩) (by simp [LinkedTree.cells]) ?_
  rw [hl]
  exact Triple.bind (extractUp_spec (d := .left) hl) fun p => triple_pure fun s hs =>
    ⟨congrArg some hs.1, hs.2⟩

/-- **The spliced subtree has no link back**, so memory is no tree with links both ways. -/
theorem Spliced.not_represents {c : Addr} {s : AvlHeap ι V} (hs : Spliced root N e d a h v near other s)
    (hnear : near.root = some b) (hother : other.root = some c) (t' : LinkedTree V)
    (hroot : s.roots root = t'.root) : ¬ Represents s.nodes none t' := by
  intro hrep
  obtain ⟨y, n, hend, hy⟩ := exists_farEnd (d := d.opp) other.root none hnear
  obtain ⟨c', hc, vc, lc, rc, rfl⟩ : ∃ c' hc vc lc rc, other = node c' hc vc lc rc := by
    cases other with
    | nil => cases hother
    | node c' hc vc lc rc => exact ⟨c', hc, vc, lc, rc, rfl⟩
  rw [hs.roots, Function.update_self] at hroot
  have hcells := fun x hx => hs.sat.cell x (Multiset.mem_add.mpr (Or.inl hx))
  have hagree : ∀ x ∈ (graft d.opp (node c' hc vc lc rc) near).cells none,
      ∃ n, s.nodes x.1 = some n ∧ n.left = x.2.left ∧ n.right = x.2.right := by
    intro x hx
    rw [cells_graft, hend, LinkedTree.cells] at hx
    simp only [Multiset.mem_add, Multiset.mem_singleton] at hx
    rcases hx with hx | (rfl | hx) | hx
    · exact ⟨x.2, hcells x (Multiset.mem_add.mpr (Or.inl hx)), rfl, rfl⟩
    · exact ⟨_, hcells (c', ⟨some a, lc.root, rc.root, hc, vc⟩) (by simp [LinkedTree.cells]), rfl, rfl⟩
    · exact ⟨x.2, hcells x (by simp [LinkedTree.cells, hx]), rfl, rfl⟩
    · exact ⟨x.2, hcells x (by simp [LinkedTree.cells, hx]), rfl, rfl⟩
  have hparent := hrep.parent_eq (by rw [← hroot, root_graft, hnear]; rfl) hagree
    (c', ⟨some y, lc.root, rc.root, hc, vc⟩) (by simp [cells_graft, hend, LinkedTree.cells])
  obtain ⟨n', hn', hy'⟩ := hparent
  rw [hcells (c', ⟨some a, lc.root, rc.root, hc, vc⟩) (by simp [LinkedTree.cells])] at hn'
  obtain rfl := Option.some.inj hn'
  obtain rfl := Option.some.inj hy'
  -- the node taken out is not at the far end
  have hsat := hs.sat
  rw [add_assoc] at hsat
  exact hsat.ne_of_mem hy (y := (a, ⟨none, none, none, h, v⟩)) (by simp) rfl

end

/-! ## Repetition -/

/-- `Extract()` again and again. -/
def extractTimes (root : ι) : ℕ → AvlM ι V (List (Option Addr))
  | 0 => return []
  | n + 1 => do
    let ret ← extractRoot root
    return ret :: (← extractTimes root n)

/-- No node has two subtrees. -/
inductive LinkedTree.Thin : LinkedTree V → Prop where
  | nil : Thin nil
  | join (d : Dir) (a : Addr) (h : ℕ) (v : V) (near : LinkedTree V) :
    Thin near → Thin (join d a h v near nil)

section

variable {root : ι} {N : Multiset (Addr × AvlNode V)} {e : Rest ι} {t : LinkedTree V}

theorem extractRoot_nil : Triple (Focus root N e [] (nil : LinkedTree V)) (extractRoot root)
    fun r s => r = none ∧ Focus root N e [] nil s :=
  getRoot_bind (triple_pure fun _ hs => ⟨rfl, hs⟩)

/-- **Repeating `Extract()`** yields each entry of a thin tree, and then nothing. -/
theorem extractTimes_spec (ht : t.Thin) :
    Triple (Focus root N e [] t) (extractTimes root (t.inorder.length + 1)) fun rs _ =>
      ∃ as : List Addr, rs = as.map some ++ [none] ∧ as.Perm (t.inorder.map Prod.fst) := by
  induction ht generalizing N with
  | nil =>
    refine Triple.bind_eq extractRoot_nil (triple_pure fun s hs => ⟨[], rfl, ?_⟩)
    exact List.Perm.refl _
  | join d a h v near hthin ih =>
    rw [length_join, inorder_nil, List.length_nil, Nat.add_zero]
    refine Triple.bind_eq extractRoot_single (Triple.bind ih fun rs => triple_pure fun s hs => ?_)
    obtain ⟨as, rfl, hperm⟩ := hs
    refine ⟨a :: as, rfl, (hperm.cons a).trans ?_⟩
    cases d with
    | left =>
      simp only [LinkedTree.join, inorder_node, inorder_nil, List.map_append, List.map_cons,
        List.map_nil]
      exact (List.perm_append_singleton a _).symm
    | right =>
      simp only [LinkedTree.join, inorder_node, inorder_nil, List.nil_append, List.map_cons]
      exact List.Perm.refl _

end

/-! ## Trees of at most two entries -/

namespace LinkedTree

variable {t : LinkedTree V}

/-- A tree of one level has one entry at most. -/
theorem length_le_of_calculateHeight (ht : t.calculateHeight ≤ 1) : t.inorder.length ≤ 1 := by
  cases t with
  | nil => exact Nat.zero_le 1
  | node a h v l r =>
    rw [calculateHeight, AvlUtil.avlMax_eq_max] at ht
    have hleaf : ∀ u : LinkedTree V, u.calculateHeight ≤ 0 → u = nil := by
      intro u hu
      cases u with
      | nil => rfl
      | node _ _ _ _ _ =>
        rw [calculateHeight] at hu
        omega
    rw [hleaf l (by omega), hleaf r (by omega)]
    exact le_rfl

/-- A balanced tree of more than two entries has a root with two subtrees. -/
theorem HeightBalanced.exists_both (ht : t.HeightBalanced) (hlength : 2 < t.inorder.length) :
    ∃ a h v l r b c, t = node a h v l r ∧ l.root = some b ∧ r.root = some c := by
  cases t with
  | nil => exact absurd hlength (Nat.not_lt_zero 2)
  | node a h v l r =>
    obtain ⟨hle, hge, -, -⟩ := ht
    rw [inorder_node, List.length_append, List.length_cons] at hlength
    cases l with
    | nil =>
      have hshort : r.inorder.length ≤ 1 :=
        length_le_of_calculateHeight (by rw [calculateHeight] at hle; omega)
      rw [inorder_nil, List.length_nil] at hlength
      omega
    | node b hb vb lb rb =>
      cases r with
      | nil =>
        have hshort : (node b hb vb lb rb).inorder.length ≤ 1 :=
          length_le_of_calculateHeight (by rw [calculateHeight.eq_1] at hge; omega)
        rw [inorder_nil, List.length_nil] at hlength
        omega
      | node c hc vc lc rc => exact ⟨a, h, v, _, _, b, c, rfl, rfl, rfl⟩

/-- A tree of two entries at most has no node with two children below the root. -/
theorem thin_of_length (hlength : t.inorder.length ≤ 2) : t.Thin := by
  induction t with
  | nil => exact .nil
  | node a h v l r ihl ihr =>
    rw [inorder_node, List.length_append, List.length_cons] at hlength
    cases r with
    | nil => exact .join .left a h v l (ihl (by omega))
    | node c hc vc lc rc =>
      rw [inorder_node, List.length_append, List.length_cons] at hlength
      obtain rfl : l = nil := by
        cases l with
        | nil => rfl
        | node b hb vb lb rb =>
          rw [inorder_node, List.length_append, List.length_cons] at hlength
          omega
      refine .join .right a h v _ (ihr ?_)
      rw [inorder_node, List.length_append, List.length_cons]
      omega

end LinkedTree

/-! ## Validity -/

section

variable {T : AvlTraits K V} {s : AvlHeap Unit V} {t : LinkedTree V} {e : Rest Unit}

/-- `Extract()` takes out one entry and leaves a balanced search tree of the others with links
both ways, and repeating it yields each entry once and then nothing. -/
def ExtractsEach (T : AvlTraits K V) (s : AvlHeap Unit V) (t : LinkedTree V) : Prop :=
  (∃ x s' t', (extractRoot ()).run s = some (some x.1, s')
      ∧ s'.roots () = t'.root ∧ Represents s'.nodes none t' ∧ t'.inorder.Pairwise T.lt
      ∧ t'.HeightBalanced ∧ ∃ pre post, t.inorder = pre ++ x :: post ∧ t'.inorder = pre ++ post)
    ∧ ∃ (as : List Addr) (s' : AvlHeap Unit V),
      (extractTimes () (t.inorder.length + 1)).run s = some (as.map some ++ [none], s')
        ∧ as.Perm (t.inorder.map Prod.fst)

/-- A thin tree is emptied entry by entry, and stays a search tree. -/
theorem extractsEach_of_thin (hs : Focus () 0 e [] t s) (ht : t.Thin) (hne : t ≠ nil)
    (hsorted : t.inorder.Pairwise T.lt) (hbal : t.HeightBalanced) : ExtractsEach T s t := by
  obtain ⟨rs, s'', hrun', as, rfl, hperm⟩ := extractTimes_spec ht s hs
  refine ⟨?_, as, s'', hrun', hperm⟩
  cases ht with
  | nil => exact absurd rfl hne
  | join d a h v near hthin =>
    obtain ⟨r, s', hrun, rfl, hs'⟩ := extractRoot_single s hs
    obtain ⟨hroot, hrep⟩ := represents_of_focus hs'
    have hentries : ∃ pre post, (join d a h v near nil).inorder = pre ++ (a, v) :: post
        ∧ near.inorder = pre ++ post := by
      cases d with
      | left => exact ⟨near.inorder, [], rfl, (List.append_nil _).symm⟩
      | right => exact ⟨[], near.inorder, rfl, rfl⟩
    refine ⟨(a, v), s', near, hrun, hroot, hrep, ?_, ?_, hentries⟩
    · obtain ⟨pre, post, hentries, hnear⟩ := hentries
      refine hsorted.sublist ?_
      rw [hentries, hnear]
      exact (List.sublist_cons_self _ post).append_left pre
    · cases d with
      | left => exact hbal.2.2.1
      | right => exact hbal.2.2.2

/-- A root with two subtrees is not taken out in this way. -/
theorem not_extractsEach_of_both {a b c : Addr} {h : ℕ} {v : V} {l r : LinkedTree V}
    (hs : Focus () 0 e [] (node a h v l r) s) (hl : l.root = some b) (hr : r.root = some c) :
    ¬ ExtractsEach T s (node a h v l r) := by
  rintro ⟨⟨x, s', t', hrun, hroot, hrep, -⟩, -⟩
  obtain ⟨p, s'', hrun', -, hspliced⟩ := extractRoot_both hl s hs
  obtain ⟨-, rfl⟩ := Prod.mk.inj (Option.some.inj (hrun.symm.trans hrun'))
  exact hspliced.not_represents hl hr t' hroot hrep

/-- **`Extract()` leaves a valid tree** and yields each entry, from a tree reached by
insertions and removals, if and only if the tree has at most two entries. -/
theorem avl_extractRoot_valid_iff (hT : LawfulCompare T.cmp) (ops : List (AvlOp K V))
    (hops : ∀ op ∈ ops, ∀ v, op ≠ .insertEq v)
    (hmem : Transition.AllSteps (avlStep T) (fun s op => ∀ a, op = .eraseNode a → Member s () a)
      AvlHeap.empty ops) :
    ∃ s, Transition.run (avlStep T) AvlHeap.empty ops = some s ∧ ∃ t : LinkedTree V,
      s.roots () = t.root ∧ Represents s.nodes none t
        ∧ (t ≠ nil → (ExtractsEach T s t ↔ t.inorder.length ≤ 2)) := by
  have hsteps := hmem.and (Transition.allSteps_of_forall hops)
  obtain ⟨s, hrun, t, e, hs, hAvl, -, hlt⟩ := Transition.exists_run_of_allSteps (I := AvlInv T True)
    (fun s op hs hop => avlStep_spec hT hs hop.1 fun _ => hop.2) avlInv_empty hsteps
  obtain ⟨hroot, hrep⟩ := represents_of_focus hs
  refine ⟨s, hrun, t, hroot, hrep, fun hne => ⟨fun hextracts => ?_, fun hlength => ?_⟩⟩
  · by_contra hlength
    obtain ⟨a, h, v, l, r, b, c, rfl, hl, hr⟩ :=
      hAvl.heightBalanced.exists_both (not_le.mp hlength)
    exact not_extractsEach_of_both hs hl hr hextracts
  · exact extractsEach_of_thin hs (thin_of_length hlength) hne (hlt trivial) hAvl.heightBalanced

end

/-- Insertions and a removal that leave two entries. -/
def twoRun : List (AvlOp ℤ ℤ) := [.insert 2, .insert 1, .insert 3, .erase 1]

theorem avl_extractRoot_valid_iff_twoRun :
    ∃ s, Transition.run (avlStep intTraits) AvlHeap.empty twoRun = some s ∧ ∃ t : LinkedTree ℤ,
      s.roots () = t.root ∧ Represents s.nodes none t
        ∧ (t ≠ nil → (ExtractsEach intTraits s t ↔ t.inorder.length ≤ 2)) :=
  avl_extractRoot_valid_iff lawfulCompare_int twoRun (by simp [twoRun])
    (members_of_no_eraseNode (by simp [twoRun]))

/-- Of three entries the root is taken out: the right one becomes the child of the left one and
keeps its link to the node taken out. -/
theorem extractRoot_leaves_link : ∃ s s', Transition.run (avlStep intTraits) AvlHeap.empty
    [.insert 2, .insert 1, .insert 3] = some s
      ∧ (extractRoot ()).run s = some (some 0, s') ∧ s'.roots () = some 1
      ∧ (s'.nodes 1).map (·.right) = some (some 2) ∧ (s'.nodes 2).map (·.parent) = some (some 0) := by
  have hcalc : ((Transition.run (avlStep intTraits) AvlHeap.empty
      [.insert 2, .insert 1, .insert 3]).bind fun s => ((extractRoot ()).run s).map fun r =>
        (r.1, r.2.roots (), (r.2.nodes 1).map (·.right), (r.2.nodes 2).map (·.parent)))
      = some (some 0, some 1, some (some 2), some (some 0)) := by
    decide +kernel
  obtain ⟨s, hs, hcalc⟩ := Option.bind_eq_some_iff.mp hcalc
  obtain ⟨⟨p, s'⟩, hs', hcalc⟩ := Option.map_eq_some_iff.mp hcalc
  obtain ⟨rfl, hcalc⟩ := Prod.mk.inj hcalc
  obtain ⟨hroot, hcalc⟩ := Prod.mk.inj hcalc
  obtain ⟨hright, hparent⟩ := Prod.mk.inj hcalc
  exact ⟨s, s', hs, hs', hroot, hright, hparent⟩

end Mmkvc
