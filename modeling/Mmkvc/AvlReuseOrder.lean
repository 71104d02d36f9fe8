/-
# In which order the nodes of a tree are handed out

A run of `ReuseAllNodes` is written down as a log: each node that the loop works on, and each call
of the callback with the memory that it finds.  `reuseAllNodes_hands_out` says that the log of
every run is orderly.
-/
import Mmkvc.AvlReuse

namespace Mmkvc

open AvlM AvlUtil AvlTreeBase LinkedTree

variable {ι V : Type} [DecidableEq ι]

/-- What the log says: the loop reads or writes a node, or the callback gets one. -/
inductive ReuseEvent (ι V : Type) where
  | visit (node : Addr)
  | handOut (node : Addr) (before : AvlHeap ι V)

/-- A node is noted. -/
def logVisit (node : Addr) (log : List (ReuseEvent ι V)) : List (ReuseEvent ι V) :=
  log ++ [.visit node]

/-- The callback is called, and its call is noted. -/
def logCall (nodeCb : Addr → AvlM ι V Unit) (node : Addr) (log : List (ReuseEvent ι V)) :
    AvlM ι V (List (ReuseEvent ι V)) := do
  let before ← get
  nodeCb node
  return log ++ [.handOut node before]

/-- The log of a run that has handed out the entries `done` of a tree.  The loop works on nodes only
that were not handed out.  A node that is handed out has no links, and no node that stays in the
tree has a link to it. -/
inductive Orderly (t : LinkedTree V) : List (Addr × V) → List (ReuseEvent ι V) → Prop where
  | start : Orderly t [] []
  | visit {done : List (Addr × V)} {log : List (ReuseEvent ι V)} {a : Addr} :
    Orderly t done log → a ∉ done.map Prod.fst → Orderly t done (log ++ [.visit a])
  | handOut {done : List (Addr × V)} {log : List (ReuseEvent ι V)} {a : Addr} {v : V}
    {before : AvlHeap ι V} :
    Orderly t done log → a ∉ done.map Prod.fst →
    before.nodes a = some ⟨none, none, none, 0, v⟩ →
    (∀ x ∈ t.inorder, x.1 ∉ done.map Prod.fst → x.1 ≠ a →
      ∃ n, before.nodes x.1 = some n ∧ ¬ n.LinksTo a) →
    Orderly t (done ++ [(a, v)]) (log ++ [.handOut a before])

/-! ## The log of a run -/

section

variable {σ : Type} (note : Addr → σ → σ) {nodeCb : Addr → AvlM ι V Unit}
  {nodeCb' : Addr → σ → AvlM ι V σ}

omit [DecidableEq ι] in
/-- The notes and the states of the callbacks can be left out. -/
theorem reuseLoopNoting_discard
    (hcb : ∀ a st, (nodeCb' a st >>= fun _ => pure ()) = nodeCb a) (fuel : ℕ) (a : Addr) (st : σ) :
    (reuseLoopNoting note nodeCb' fuel a st >>= fun _ => pure ()) = reuseLoop nodeCb fuel a := by
  induction fuel generalizing a st with
  | zero => rfl
  | succ fuel ih =>
    rw [reuseLoopNoting, reuseLoop, bind_assoc]
    refine bind_congr fun n => ?_
    cases n.left with
    | some left => exact ih left _
    | none =>
      cases n.right with
      | some right => exact ih right _
      | none =>
        rw [bind_assoc]
        refine bind_congr fun _ => ?_
        rw [bind_assoc]
        refine bind_congr fun _ => ?_
        cases n.parent with
        | none => exact hcb a _
        | some parent =>
          rw [bind_assoc]
          refine bind_congr fun _ => ?_
          rw [bind_assoc, ← hcb a (note parent (note a st)), bind_assoc]
          exact bind_congr fun st' => (ih parent st').trans (pure_bind _ _).symm

/-- A run with notes does what the run without them does. -/
theorem reuseAllNodesNoting_discard
    (hcb : ∀ a st, (nodeCb' a st >>= fun _ => pure ()) = nodeCb a) (root : ι) (st : σ) :
    (reuseAllNodesNoting root note nodeCb' st >>= fun _ => pure ()) = reuseAllNodes root nodeCb := by
  rw [reuseAllNodesNoting, reuseAllNodes, bind_assoc]
  refine bind_congr fun top => ?_
  cases top with
  | none => rfl
  | some a =>
    simp only [bind_assoc, pure_bind]
    refine bind_congr fun n => ?_
    rw [← reuseLoopNoting_discard note hcb _ a st, bind_assoc]
    rfl

omit [DecidableEq ι] in
/-- The log can be left out. -/
theorem logCall_discard (a : Addr) (log : List (ReuseEvent ι V)) :
    (logCall nodeCb a log >>= fun _ => pure ()) = nodeCb a := by
  funext s
  change ((nodeCb a >>= fun _ => pure (log ++ [.handOut a s])) >>= fun _ => pure ()) s = nodeCb a s
  rw [bind_assoc]
  simp only [pure_bind, bind_pure_unit]

end

/-! ## The callback -/

section

variable {root : ι} {N : Multiset (Addr × AvlNode V)} {e : Rest ι} {t : LinkedTree V}
  {J : List (Addr × V) → Multiset (Addr × AvlNode V) → Rest ι → Prop}
  {nodeCb : Addr → AvlM ι V Unit}

/-- The nodes of a subtree are handed out one after the other. -/
theorem postorder_plug (c : Place V) (u : LinkedTree V) :
    ∃ pre post, (Place.plug c u).postorder = pre ++ u.postorder ++ post := by
  induction c generalizing u with
  | nil => exact ⟨[], [], by simp⟩
  | cons f c ih =>
    obtain ⟨pre, post, heq⟩ := ih (f.fill u)
    rw [Place.plug_cons, heq, Frame.fill]
    cases f.dir with
    | left =>
      refine ⟨pre, f.other.postorder ++ [(f.addr, f.value)] ++ post, ?_⟩
      simp only [join, postorder, List.append_assoc]
    | right =>
      refine ⟨pre ++ f.other.postorder, [(f.addr, f.value)] ++ post, ?_⟩
      simp only [join, postorder, List.append_assoc]

omit [DecidableEq ι] in
/-- No node beside a place where nothing is has a link to a node elsewhere. -/
theorem not_linksTo {s : AvlHeap ι V} {c : Place V} {a : Addr} {n : AvlNode V}
    {x : Addr × AvlNode V} (hsat : Sat s.nodes ({(a, n)} + (Place.cells none c + N)))
    (hx : x ∈ Place.cells none c) : ¬ x.2.LinksTo a := by
  intro hlink
  rcases Place.mem_of_linksTo hx hlink with hmem | hnone
  · obtain ⟨y, hy, hya⟩ := Multiset.mem_map.mp hmem
    exact hsat.ne_of_mem (Multiset.mem_singleton_self _) (Multiset.mem_add.mpr (Or.inl hy)) hya.symm
  · cases hnone

/-- **One call.**  The log stays orderly. -/
theorem handsAt_logCall (hcb : Hands root t.postorder J nodeCb) :
    HandsAt root t.postorder
      (fun done log N e => (J done N e ∧ (t.postorder.map Prod.fst).Nodup) ∧ Orderly t done log)
      (logCall nodeCb) := by
  rintro done log N e c p a v hall ⟨⟨hJ, hnodup⟩, horder⟩ hacc s hs
  have hnew : a ∉ done.map Prod.fst := by
    refine notMem_done (M := c.others + {(a, v)}) (x := (a, v)) hnodup ?_ (by simp)
    rw [← hacc, ← Multiset.coe_add, Multiset.coe_singleton]
    abel
  have hcleared : s.nodes a = some ⟨none, none, none, 0, v⟩ :=
    hs.sat.cell _ (Multiset.mem_add.mpr (Or.inl (Multiset.mem_singleton_self _)))
  have hcut : ∀ x ∈ t.inorder, x.1 ∉ done.map Prod.fst → x.1 ≠ a →
      ∃ n, s.nodes x.1 = some n ∧ ¬ n.LinksTo a := by
    intro x hx hdone hxa
    -- the entry is beside the place
    have hmem : x ∈ c.others + ((done ++ [(a, v)] : List (Addr × V)) : Multiset (Addr × V)) := by
      rw [hacc]
      exact Multiset.mem_coe.mpr (t.postorder_perm_inorder.mem_iff.mpr hx)
    have hothers : x ∈ c.others := by
      refine (Multiset.mem_add.mp hmem).resolve_right fun hin => ?_
      rcases List.mem_append.mp (Multiset.mem_coe.mp hin) with hin | hin
      · exact hdone (List.mem_map_of_mem hin)
      · exact hxa (congrArg Prod.fst (List.mem_singleton.mp hin))
    have haddr : x.1 ∈ (Place.cells none c).map Prod.fst := by
      rw [Place.cells_map_fst]
      exact Multiset.mem_map_of_mem Prod.fst hothers
    obtain ⟨y, hy, hyx⟩ := Multiset.mem_map.mp haddr
    refine ⟨y.2, ?_, not_linksTo hs.sat hy⟩
    rw [← hyx]
    exact hs.sat.cell y (Multiset.mem_add.mpr (Or.inr (Multiset.mem_add.mpr (Or.inl hy))))
  obtain ⟨_, s', hrun, N', e', hJ', hs'⟩ := hcb done N e _ p a v hall hJ s hs
  refine ⟨log ++ [.handOut a s], s', ?_, N', e', ⟨⟨hJ', hnodup⟩, ?_⟩, hs'⟩
  · change (nodeCb a >>= fun _ => pure (log ++ [.handOut a s])).run s = _
    exact run_bind_eq hrun rfl
  · exact horder.handOut hnew hcleared hcut

omit [DecidableEq ι] in
/-- The log stays orderly when the loop comes to a node that was not handed out. -/
theorem notes_logVisit :
    Notes (fun done (log : List (ReuseEvent ι V)) N e =>
      (J done N e ∧ (t.postorder.map Prod.fst).Nodup) ∧ Orderly t done log) logVisit :=
  fun _ _ _ _ _ hnew h => ⟨h.1, h.2.visit hnew⟩

/-- **`ReuseAllNodes` hands out every node once.**  On every tree in memory, with every callback
that leaves the rest of the tree alone, whatever it does with the node and with what is beside
the tree (`J` is its own account of that): the run ends; it hands out the entries in post-order,
each of them once, a node directly after those below it; its log is orderly; and the tree is empty
after it. -/
theorem reuseAllNodes_hands_out {s : AvlHeap ι V} (hcb : Hands root t.postorder J nodeCb)
    (hJ : J [] N e) (hs : Focus root N e [] t s) :
    ∃ log s', (reuseAllNodes root nodeCb).run s = some ((), s')
      ∧ (reuseAllNodesNoting root logVisit (logCall nodeCb) []).run s = some (log, s')
      ∧ Orderly t t.postorder log
      ∧ t.postorder.Perm t.inorder ∧ (t.postorder.map Prod.fst).Nodup
      ∧ (∀ c a h v l r, t = Place.plug c (node a h v l r) →
        ∃ pre below post, t.postorder = pre ++ below ++ (a, v) :: post
          ∧ below.Perm (l.inorder ++ r.inorder))
      ∧ ∃ N' e', J t.postorder N' e' ∧ Focus root N' (e'.reset root) [] nil s' := by
  have hnodup : (t.postorder.map Prod.fst).Nodup := nodup_postorder hs
  obtain ⟨log, s', hrun, N', e', ⟨⟨hJ', -⟩, horder⟩, hs'⟩ :=
    reuseAllNodesNoting_spec (handsAt_logCall hcb) notes_logVisit
      ⟨⟨hJ, hnodup⟩, Orderly.start⟩ s hs
  refine ⟨log, s', ?_, hrun, horder, t.postorder_perm_inorder, hnodup, ?_, N', e', hJ', hs'⟩
  · rw [← reuseAllNodesNoting_discard logVisit logCall_discard root []]
    exact run_bind_eq hrun rfl
  · rintro c a h v l r rfl
    obtain ⟨pre, post, heq⟩ := postorder_plug c (node a h v l r)
    refine ⟨pre, l.postorder ++ r.postorder, post, ?_,
      l.postorder_perm_inorder.append r.postorder_perm_inorder⟩
    rw [heq, postorder]
    simp only [List.append_assoc, List.singleton_append]

end

/-- A tree of three nodes. -/
def threeTree : LinkedTree ℤ := node 1 2 20 (node 0 1 10 nil nil) (node 2 1 30 nil nil)

/-- Its memory. -/
def threeHeap : AvlHeap Unit ℤ where
  nodes := Function.update (Function.update (Function.update (fun _ => none)
    2 (some ⟨some 1, none, none, 1, 30⟩)) 0 (some ⟨some 1, none, none, 1, 10⟩))
    1 (some ⟨none, some 0, some 2, 2, 20⟩)
  next := 3
  roots _ := some 1
  counts _ := 3

/-- A tree of three nodes in memory. -/
theorem focus_three : Focus () 0 ⟨fun _ => none, 3, fun _ => 3⟩ [] threeTree threeHeap where
  sat := by
    have hsat : Sat threeHeap.nodes ({(1, ⟨none, some 0, some 2, 2, 20⟩)}
        + ({(0, ⟨some 1, none, none, 1, 10⟩)} + ({(2, ⟨some 1, none, none, 1, 30⟩)} + 0))) :=
      ((Sat.empty.alloc rfl).alloc rfl).alloc rfl
    exact hsat
  roots := rfl
  next := rfl
  counts := rfl
  fresh b hb := by
    have hne : ∀ a < 3, b ≠ a := fun a ha => Nat.ne_of_gt (Nat.lt_of_lt_of_le ha hb)
    unfold threeHeap
    dsimp only
    rw [Function.update_of_ne (hne 1 (by decide)), Function.update_of_ne (hne 0 (by decide)),
      Function.update_of_ne (hne 2 (by decide))]

/-- All three nodes are freed. -/
theorem reuseAllNodes_hands_out_three :
    ∃ log s', (reuseAllNodes () dropNode).run threeHeap = some ((), s')
      ∧ (reuseAllNodesNoting () logVisit (logCall dropNode) []).run threeHeap = some (log, s')
      ∧ Orderly threeTree [(0, 10), (2, 30), (1, 20)] log := by
  have hcb : Hands () threeTree.postorder
      (fun _ N e => N = 0 ∧ e = ⟨fun _ => none, 3, fun _ => 3⟩) (dropNode (ι := Unit) (V := ℤ)) := by
    rintro done _ _ M p a v - ⟨rfl, rfl⟩
    exact dropNode_spec.post fun _ s hs => ⟨_, _, ⟨rfl, rfl⟩, hs⟩
  obtain ⟨log, s', hrun, hlog, horder, -⟩ := reuseAllNodes_hands_out hcb ⟨rfl, rfl⟩ focus_three
  exact ⟨log, s', hrun, hlog, horder⟩

end Mmkvc
