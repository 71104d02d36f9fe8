/-
# Removal by a key and a predicate

`Erase(key, pred)` looks at the entries from the topmost one with the key on, in order, up
to the first with another key.  It misses those before the topmost one, and where the
entries with the key are the last of the tree it follows a null successor.
-/
import Mmkvc.AvlTraversal

namespace Mmkvc

open AvlM AvlUtil AvlTreeBase LinkedTree

variable {ι K V : Type} [DecidableEq ι]

/-- The entry has the key, and its value satisfies the predicate. -/
def AvlTraits.Matches (T : AvlTraits K V) (key : K) (pred : V → Bool) (x : Addr × V) : Prop :=
  T.cmp (T.gk x.2) key = 0 ∧ pred x.2 = true

/-! ## The scan -/

/-- What the loop of `Erase(key, pred)` comes to on the entries from one with the key on: an
entry to remove, no entry, or nothing where it would follow a null successor. -/
def eraseIfScan (T : AvlTraits K V) (key : K) (pred : V → Bool) :
    List (Addr × V) → Option (Option (Addr × V))
  | [] => none
  | [x] => if pred x.2 then some (some x) else none
  | x :: y :: xs =>
    if pred x.2 then some (some x)
    else if T.cmp (T.gk y.2) key ≠ 0 then some none
    else eraseIfScan T key pred (y :: xs)

section

variable {T : AvlTraits K V} {key : K} {pred : V → Bool} {x y : Addr × V} {xs : List (Addr × V)}

/-- An entry that matches is found, if the entries are in order. -/
theorem exists_eraseIfScan_of_matches (hT : LawfulCompare T.cmp)
    (hsorted : (x :: xs).Pairwise T.le) (hx : T.cmp (T.gk x.2) key = 0)
    (hmatch : ∃ z ∈ x :: xs, T.Matches key pred z) :
    ∃ z ∈ x :: xs, eraseIfScan T key pred (x :: xs) = some (some z) ∧ T.Matches key pred z := by
  induction xs generalizing x with
  | nil =>
    obtain ⟨z, hz, hmatch⟩ := hmatch
    obtain rfl := List.mem_singleton.mp hz
    exact ⟨z, hz, if_pos hmatch.2, hmatch⟩
  | cons y xs ih =>
    by_cases hpred : pred x.2 = true
    · exact ⟨x, List.mem_cons_self, if_pos hpred, hx, hpred⟩
    · obtain ⟨hle, hsorted⟩ := List.pairwise_cons.mp hsorted
      have hrest : ∃ z ∈ y :: xs, T.Matches key pred z := by
        obtain ⟨z, hz, hmatch⟩ := hmatch
        rcases List.mem_cons.mp hz with rfl | hz
        · exact absurd hmatch.2 hpred
        · exact ⟨z, hz, hmatch⟩
      have hy : T.cmp (T.gk y.2) key = 0 := by
        -- it lies between two entries with the key
        obtain ⟨z, hz, hmatch⟩ := hrest
        have hxy : T.cmp (T.gk x.2) (T.gk y.2) ≤ 0 := hle y List.mem_cons_self
        have hyz : T.cmp (T.gk y.2) (T.gk z.2) ≤ 0 := by
          rcases List.mem_cons.mp hz with rfl | hz
          · exact (hT.refl _).le
          · exact (List.pairwise_cons.mp hsorted).1 z hz
        have hykey := hT.trans _ _ _ hyz hmatch.1.le
        have hkeyy := hT.trans _ _ _ (hT.eq_swap.mp hx).le hxy
        have hge := hT.le_swap.mp hkeyy
        omega
      obtain ⟨z, hz, hscan, hmatch⟩ := ih hsorted hy hrest
      refine ⟨z, List.mem_cons_of_mem x hz, ?_, hmatch⟩
      rw [eraseIfScan, if_neg hpred, if_neg (not_not.mpr hy)]
      exact hscan

/-- Where no entry matches, the scan ends at the first one with another key. -/
theorem eraseIfScan_of_none (hx : T.cmp (T.gk x.2) key = 0)
    (hnone : ∀ z ∈ x :: xs, ¬ T.Matches key pred z) :
    eraseIfScan T key pred (x :: xs)
      = if ∀ z ∈ x :: xs, T.cmp (T.gk z.2) key = 0 then none else some none := by
  induction xs generalizing x with
  | nil =>
    have hpred : ¬ pred x.2 = true := fun hpred => hnone x List.mem_cons_self ⟨hx, hpred⟩
    rw [eraseIfScan, if_neg hpred, if_pos (by simpa using hx)]
  | cons y xs ih =>
    have hpred : ¬ pred x.2 = true := fun hpred => hnone x List.mem_cons_self ⟨hx, hpred⟩
    rw [eraseIfScan, if_neg hpred]
    by_cases hy : T.cmp (T.gk y.2) key = 0
    · rw [if_neg (not_not.mpr hy), ih hy fun z hz => hnone z (List.mem_cons_of_mem x hz)]
      refine if_congr ?_ rfl rfl
      rw [List.forall_mem_cons (a := x)]
      exact ⟨fun h => ⟨hx, h⟩, And.right⟩
    · rw [if_pos hy, if_neg fun hall => hy (hall y (by simp))]

end

/-! ## The loop -/

section

variable {root : ι} {N : Multiset (Addr × AvlNode V)} {e : Rest ι} {T : AvlTraits K V} {key : K}
  {pred : V → Bool} {t : LinkedTree V} {s : AvlHeap ι V} {x : Addr × V}
  {pre post : List (Addr × V)} {fuel : ℕ}

/-- The node of an entry. -/
theorem load_entry (hs : Focus root N e [] t s) (ht : t.inorder = pre ++ x :: post) :
    ∃ n, (load x.1).run s = some (n, s) ∧ n.value = x.2 := by
  obtain ⟨n, hn, hvalue⟩ := LinkedTree.exists_mem_cells none (show (x.1, x.2) ∈ t.inorder by simp [ht])
  refine ⟨n, ?_, hvalue⟩
  change (s.nodes x.1).map _ = _
  rw [hs.sat.cell (x.1, n) (by simp [hn])]
  rfl

/-- One round of the loop. -/
theorem eraseIfLoop_succ (hs : Focus root N e [] t s) (ht : t.inorder = pre ++ x :: post) :
    (eraseIfLoop T root key pred (fuel + 1) x.1).run s
      = if pred x.2 then (eraseRoutine root x.1 >>= fun _ => return true).run s
        else match post.head? with
          | none => none
          | some y => if T.cmp (T.gk y.2) key ≠ 0 then some (false, s)
            else (eraseIfLoop T root key pred fuel y.1).run s := by
  obtain ⟨n, hload, hvalue⟩ := load_entry hs ht
  have hnext : (getNextNode (some x.1)).run s = some (post.head?.map Prod.fst, s) :=
    (getNeighbour_spec (d := .right) ht).run_eq hs
  rw [eraseIfLoop, StateT.run_bind, hload]
  change (if pred n.value = true then _ else _ : AvlM ι V Bool).run s = _
  rw [hvalue]
  by_cases hpred : pred x.2 = true
  · rw [if_pos hpred, if_pos hpred]
  · rw [if_neg hpred, if_neg hpred, StateT.run_bind, hnext]
    cases post with
    | nil => rfl
    | cons y post =>
      obtain ⟨n', hload', hvalue'⟩ := load_entry hs (show t.inorder = (pre ++ [x]) ++ y :: post by rw [ht]; simp)
      have hderef : (deref (some y.1) : AvlM ι V Addr).run s = some (y.1, s) := rfl
      simp only [List.head?_cons, Option.map_some, Option.bind_eq_bind, Option.bind_some,
        StateT.run_bind, hderef, hload', hvalue']
      split_ifs <;> rfl

/-- What the scan says becomes of the tree. -/
def Scanned (root : ι) (N : Multiset (Addr × AvlNode V)) (e : Rest ι) (t : LinkedTree V)
    (s : AvlHeap ι V) (r : Option (Bool × AvlHeap ι V)) :
    Option (Option (Addr × V)) → Prop
  | none => r = none
  | some none => r = some (false, s)
  | some (some x) => ∃ s' t', r = some (true, s') ∧ Focus root N (e.decrease root) [] t' s'
      ∧ ∃ pre post, t.inorder = pre ++ x :: post ∧ t'.inorder = pre ++ post

/-- The loop ends at an entry that satisfies the predicate. -/
theorem eraseIfLoop_found (hs : Focus root N e [] t s) (ht : t.inorder = pre ++ x :: post)
    (hpred : pred x.2 = true) :
    Scanned root N e t s ((eraseIfLoop T root key pred (fuel + 1) x.1).run s) (some (some x)) := by
  rw [eraseIfLoop_succ hs ht, if_pos hpred]
  obtain ⟨c, h, l, r, hplug, -⟩ := exists_place_of_toward (d := .right) [] ht
  rw [Place.plug_nil] at hplug
  rw [hplug, ← focus_plug] at hs
  obtain ⟨pre, post, hent, hent'⟩ := inorder_plug_eraseAt (c := c) (a := x.1) (h := h) (v := x.2)
    (l := l) (r := r)
  obtain ⟨r', s', hrun, rfl, hs'⟩ := eraseNode_spec s hs
  exact ⟨s', _, hrun, hs', pre, post, by rw [hplug]; exact hent, hent'⟩

/-- **The loop does what the scan says.** -/
theorem eraseIfLoop_run (hs : Focus root N e [] t s) (ht : t.inorder = pre ++ x :: post)
    (hfuel : post.length < fuel) :
    Scanned root N e t s ((eraseIfLoop T root key pred fuel x.1).run s)
      (eraseIfScan T key pred (x :: post)) := by
  induction post generalizing pre x fuel with
  | nil =>
    cases fuel with
    | zero => exact absurd hfuel (Nat.not_lt_zero _)
    | succ fuel =>
      rw [eraseIfScan]
      by_cases hpred : pred x.2 = true
      · rw [if_pos hpred]
        exact eraseIfLoop_found hs ht hpred
      · rw [if_neg hpred, eraseIfLoop_succ hs ht, if_neg hpred]
        rfl
  | cons y post ih =>
    cases fuel with
    | zero => exact absurd hfuel (Nat.not_lt_zero _)
    | succ fuel =>
      rw [eraseIfScan]
      by_cases hpred : pred x.2 = true
      · rw [if_pos hpred]
        exact eraseIfLoop_found hs ht hpred
      · rw [if_neg hpred, eraseIfLoop_succ hs ht, if_neg hpred, List.head?_cons]
        dsimp only
        split_ifs with hy
        · rfl
        · refine @ih y (pre ++ [x]) fuel ?_ (Nat.lt_of_succ_lt_succ hfuel)
          rw [ht, List.append_assoc]
          rfl

end

/-! ## The topmost entry with a key -/

/-- The root of a subtree has the key, and no node above its place does. -/
def Topmost (T : AvlTraits K V) (key : K) (c : Place V) (v : V) : Prop :=
  T.cmp (T.gk v) key = 0 ∧ ∀ f ∈ c, T.cmp (T.gk f.value) key ≠ 0

section

variable {T : AvlTraits K V} {key : K} {c c' : Place V} {a : Addr} {h : ℕ} {v : V}
  {t l r : LinkedTree V}

/-- The search for a key turns at nodes without it. -/
theorem locate_frames (hc : ∀ f ∈ c, T.cmp (T.gk f.value) key ≠ 0) :
    ∀ f ∈ (locate T key stop c t).1, T.cmp (T.gk f.value) key ≠ 0 := by
  induction t generalizing c with
  | nil => exact hc
  | node a h v l r ihl ihr =>
    rw [locate]
    rcases hside : side T key stop v l r with _ | _ | _
    · exact hc
    · refine ihl fun f hf => ?_
      rcases List.mem_cons.mp hf with rfl | hf
      · intro heq
        simp [side, stop, heq] at hside
      · exact hc f hf
    · refine ihr fun f hf => ?_
      rcases List.mem_cons.mp hf with rfl | hf
      · intro heq
        simp [side, stop, heq] at hside
      · exact hc f hf

/-- The search goes the way of the nodes that send it on to the place. -/
theorem locate_plug (hc : ∀ f ∈ c, side T key stop f.value nil nil = some f.dir) :
    locate T key stop c' (Place.plug c t) = locate T key stop (c ++ c') t := by
  induction c generalizing t with
  | nil => rfl
  | cons f c ih =>
    rw [Place.plug_cons, ih fun g hg => hc g (List.mem_cons_of_mem f hg), List.cons_append]
    have hside : ∀ l r, side T key stop f.value l r = some f.dir := fun _ _ => hc f List.mem_cons_self
    obtain ⟨d, b, h', w, other⟩ := f
    cases d with
    | left =>
      change locate T key stop (c ++ c') (node b h' w t other) = _
      rw [locate, hside]
    | right =>
      change locate T key stop (c ++ c') (node b h' w other t) = _
      rw [locate, hside]

/-- The node above a place goes before it or behind it. -/
theorem mem_of_dir {f : Frame V} (hf : f ∈ c) :
    (f.addr, f.value) ∈ f.dir.pick (Place.after c) (Place.before c) := by
  induction c with
  | nil => cases hf
  | cons g c ih =>
    rcases List.mem_cons.mp hf with rfl | hf
    · cases hd : f.dir <;> simp [Dir.pick, Place.after, Place.before, hd]
    · have hmem := ih hf
      cases hd : f.dir <;> cases hg : g.dir <;> rw [hd] at hmem
        <;> simp_all [Dir.pick, Place.after, Place.before]

/-- **`FindNode` reaches the topmost entry with the key.** -/
theorem locate_of_topmost (hT : LawfulCompare T.cmp)
    (hsorted : (Place.plug c (node a h v l r)).inorder.Pairwise T.le) (htop : Topmost T key c v) :
    locate T key stop [] (Place.plug c (node a h v l r)) = (c, node a h v l r) := by
  obtain ⟨hv, hc⟩ := htop
  have hstop : ∀ c', locate T key stop c' (node a h v l r) = (c', node a h v l r) := by
    intro c'
    rw [locate]
    simp [side, stop, hv]
  rw [locate_plug, List.append_nil, hstop]
  intro f hf
  have hne := hc f hf
  have hmem := mem_of_dir hf
  rw [Place.inorder_plug, inorder_node, List.pairwise_append, List.pairwise_append] at hsorted
  obtain ⟨⟨-, -, hbefore⟩, -, hafter⟩ := hsorted
  unfold side
  cases hd : f.dir with
  | left =>
    rw [hd] at hmem
    have hle : T.cmp (T.gk v) (T.gk f.value) ≤ 0 := hafter (a, v) (by simp) (f.addr, f.value) hmem
    have hge := hT.le_swap.mp (hT.trans _ _ _ (hT.eq_swap.mp hv).le hle)
    rw [if_pos (by omega)]
  | right =>
    rw [hd] at hmem
    have hle : T.cmp (T.gk f.value) (T.gk v) ≤ 0 := hbefore (f.addr, f.value) hmem (a, v) (by simp)
    have hle' := hT.trans _ _ _ hle hv.le
    rw [if_neg (by omega), if_pos (by omega)]

end

/-! ## Completeness -/

section

variable {T : AvlTraits K V} {key : K} {pred : V → Bool} {s : AvlHeap Unit V} {t : LinkedTree V}
  {e : Rest Unit}

/-- `Erase(key, pred)` removes one entry that matches, if there is one, and otherwise returns
false and leaves everything as it is. -/
def ErasesMatch (T : AvlTraits K V) (key : K) (pred : V → Bool) (s : AvlHeap Unit V)
    (t : LinkedTree V) : Prop :=
  ((∃ x ∈ t.inorder, T.Matches key pred x) → ∃ s' t',
      (eraseIf T () key pred).run s = some (true, s')
        ∧ s'.roots () = t'.root ∧ Represents s'.nodes none t'
        ∧ ∃ x pre post, T.Matches key pred x ∧ t.inorder = pre ++ x :: post
          ∧ t'.inorder = pre ++ post)
    ∧ ((∀ x ∈ t.inorder, ¬ T.Matches key pred x) →
      (eraseIf T () key pred).run s = some (false, s))

/-- An entry that matches stands at or behind the topmost one with the key; or none matches,
and some entry has a greater key or none has the key. -/
def WithinScan (T : AvlTraits K V) (key : K) (pred : V → Bool) (t : LinkedTree V) : Prop :=
  (∃ c a h v l r, t = Place.plug c (node a h v l r) ∧ Topmost T key c v
      ∧ ∃ x ∈ (a, v) :: (r.inorder ++ Place.after c), T.Matches key pred x)
    ∨ (∀ x ∈ t.inorder, ¬ T.Matches key pred x)
      ∧ ((∃ x ∈ t.inorder, 0 < T.cmp (T.gk x.2) key) ∨ ∀ x ∈ t.inorder, T.cmp (T.gk x.2) key ≠ 0)

/-- Where no entry has the key. -/
theorem erasesMatch_of_absent (hs : Focus () 0 e [] t s) (hfind : find T key t = none)
    (habsent : ∀ x ∈ t.inorder, T.cmp (T.gk x.2) key ≠ 0) :
    ErasesMatch T key pred s t ∧ WithinScan T key pred t := by
  have hnone : ∀ x ∈ t.inorder, ¬ T.Matches key pred x := fun x hx hmatch => habsent x hx hmatch.1
  have hrun : (findNode T () key).run s = some (none, s) := hfind ▸ findNode_spec.run_eq hs
  refine ⟨⟨?_, fun _ => ?_⟩, Or.inr ⟨hnone, Or.inr habsent⟩⟩
  · rintro ⟨x, hx, hmatch⟩
    exact absurd hmatch (hnone x hx)
  · rw [eraseIf, StateT.run_bind, hrun]
    rfl

/-- Where the entries from the topmost one with the key on are `X`. -/
theorem erasesMatch_iff_of_topmost {c : Place V} {a : Addr} {h : ℕ} {v : V} {l r : LinkedTree V}
    (hT : LawfulCompare T.cmp) (hs : Focus () 0 e [] t s) (hsorted : t.inorder.Pairwise T.le)
    (hplug : t = Place.plug c (node a h v l r)) (htop : Topmost T key c v) :
    ErasesMatch T key pred s t ↔ WithinScan T key pred t := by
  have hlocate := locate_of_topmost hT (hplug ▸ hsorted) htop
  rw [← hplug] at hlocate
  obtain ⟨L, X, hL, hX, hentries⟩ : ∃ L X, L = Place.before c ++ l.inorder
      ∧ X = r.inorder ++ Place.after c ∧ t.inorder = L ++ (a, v) :: X := by
    refine ⟨_, _, rfl, rfl, ?_⟩
    rw [hplug, Place.inorder_plug]
    simp
  have hfind : (findNode T () key).run s = some (some a, s) := by
    have hspec : Triple (Focus () 0 e [] t) (findNode T () key)
        fun r s => r = find T key t ∧ Focus () 0 e [] t s := findNode_spec
    have hrun := hspec.run_eq hs
    rwa [find, hlocate] at hrun
  -- the loop starts at the topmost entry with the key
  obtain ⟨fuel, hfuel, heq⟩ : ∃ fuel, X.length < fuel
      ∧ (eraseIf T () key pred).run s = (eraseIfLoop T () key pred fuel a).run s := by
    refine ⟨s.next + 1, ?_, ?_⟩
    · have hlength := length_le_of_focus hs
      rw [hentries, List.length_append, List.length_cons, ← hs.next] at hlength
      omega
    · rw [eraseIf, StateT.run_bind, hfind]
      rfl
  have hscan : Scanned () 0 e t s ((eraseIfLoop T () key pred fuel a).run s)
      (eraseIfScan T key pred ((a, v) :: X)) := eraseIfLoop_run hs hentries hfuel
  rw [← heq] at hscan
  have hsortedX : ((a, v) :: X).Pairwise T.le := by
    rw [hentries, List.pairwise_append] at hsorted
    exact hsorted.2.1
  -- a match behind it is found; otherwise only a greater key ends the loop properly
  by_cases hmatch : ∃ x ∈ (a, v) :: X, T.Matches key pred x
  · obtain ⟨z, hz, hfound, hzmatch⟩ := exists_eraseIfScan_of_matches hT hsortedX htop.1 hmatch
    rw [hfound] at hscan
    obtain ⟨s', t', hrun, hs', pre, post, hpre, hpost⟩ := hscan
    obtain ⟨hroot, hrep⟩ := represents_of_focus hs'
    refine iff_of_true ⟨fun _ => ⟨s', t', hrun, hroot, hrep, z, pre, post, hzmatch, hpre, hpost⟩,
      fun hnone => ?_⟩ (Or.inl ⟨c, a, h, v, l, r, hplug, htop, hX ▸ hmatch⟩)
    refine absurd hzmatch (hnone z ?_)
    rw [hentries]
    exact List.mem_append_right L hz
  · push Not at hmatch
    rw [eraseIfScan_of_none htop.1 hmatch] at hscan
    constructor
    · intro herases
      by_cases hany : ∃ x ∈ t.inorder, T.Matches key pred x
      · -- it is missed
        obtain ⟨s', t', hrun, -⟩ := herases.1 hany
        rw [hrun] at hscan
        split_ifs at hscan <;> cases hscan
      · push Not at hany
        have hrun := herases.2 hany
        rw [hrun] at hscan
        refine Or.inr ⟨hany, Or.inl ?_⟩
        split_ifs at hscan with hall
        · cases hscan
        · push Not at hall
          obtain ⟨z, hz, hne⟩ := hall
          refine ⟨z, hentries ▸ List.mem_append_right L hz, ?_⟩
          have hle : T.cmp (T.gk v) (T.gk z.2) ≤ 0 := by
            rcases List.mem_cons.mp hz with rfl | hz
            · exact (hT.refl _).le
            · exact (List.pairwise_cons.mp hsortedX).1 z hz
          have hge := hT.le_swap.mp (hT.trans _ _ _ (hT.eq_swap.mp htop.1).le hle)
          omega
    · rintro (⟨c', a', h', v', l', r', hplug', htop', x, hx, hxmatch⟩ | ⟨hnone, hafter⟩)
      · have hlocate' := locate_of_topmost hT (hplug' ▸ hsorted) htop'
        rw [← hplug', hlocate] at hlocate'
        obtain ⟨rfl, hnode⟩ := Prod.mk.inj hlocate'
        obtain ⟨rfl, -, rfl, -, rfl⟩ := LinkedTree.node.inj hnode
        exact absurd hxmatch (hmatch x (hX ▸ hx))
      · have hgreater : ¬ ∀ z ∈ (a, v) :: X, T.cmp (T.gk z.2) key = 0 := by
          intro hall
          rcases hafter with ⟨x, hx, hgt⟩ | habsent
          · rw [hentries, List.mem_append] at hx
            rcases hx with hx | hx
            · rw [hentries, List.pairwise_append] at hsorted
              have hle : T.cmp (T.gk x.2) (T.gk v) ≤ 0 := hsorted.2.2 x hx (a, v) List.mem_cons_self
              have hle' := hT.trans _ _ _ hle htop.1.le
              omega
            · exact hgt.ne' (hall x hx)
          · exact habsent (a, v) (by simp [hentries]) htop.1
        rw [if_neg hgreater] at hscan
        refine ⟨?_, fun _ => hscan⟩
        rintro ⟨x, hx, hxmatch⟩
        exact absurd hxmatch (hnone x hx)

/-- **`Erase(key, pred)` is complete** in a tree reached by any operations if and only if the
scan from the topmost entry with the key on decides the matter. -/
theorem avl_eraseIf_complete_iff (hT : LawfulCompare T.cmp) (ops : List (AvlOp K V))
    (hmem : Transition.AllSteps (avlStep T) (fun s op => ∀ a, op = .eraseNode a → Member s () a)
      AvlHeap.empty ops) (key : K) (pred : V → Bool) :
    ∃ s, Transition.run (avlStep T) AvlHeap.empty ops = some s ∧ ∃ t : LinkedTree V,
      s.roots () = t.root ∧ Represents s.nodes none t
        ∧ (ErasesMatch T key pred s t ↔ WithinScan T key pred t) := by
  obtain ⟨s, hrun, t, e, hs, -, hle, -⟩ := Transition.exists_run_of_allSteps (I := AvlInv T False)
    (fun s op hs hop => avlStep_spec hT hs hop False.elim) avlInv_empty hmem
  obtain ⟨hroot, hrep⟩ := represents_of_focus hs
  refine ⟨s, hrun, t, hroot, hrep, ?_⟩
  have hplug := plug_locate T key stop [] t
  have hframes : ∀ f ∈ (locate T key stop [] t).1, T.cmp (T.gk f.value) key ≠ 0 :=
    locate_frames (by simp)
  rcases locate_stop_end T key [] t with hnil | ⟨a, h, v, l, r, hnode, hkey⟩
  · have hfind : find T key t = none := by rw [find, hnil]; rfl
    rcases find_spec key hT hle with ⟨-, habsent⟩ | ⟨a, v, hsome, -⟩
    · obtain ⟨herases, hwithin⟩ := erasesMatch_of_absent hs hfind habsent
      exact iff_of_true herases hwithin
    · rw [hfind] at hsome
      cases hsome
  · rw [hnode, Place.plug_nil] at hplug
    exact erasesMatch_iff_of_topmost hT hs hle hplug.symm ⟨hkey, hframes⟩

end

theorem avl_eraseIf_complete_iff_equalRun :
    ∃ s, Transition.run (avlStep intTraits) AvlHeap.empty equalRun = some s ∧ ∃ t : LinkedTree ℤ,
      s.roots () = t.root ∧ Represents s.nodes none t
        ∧ (ErasesMatch intTraits 2 (fun _ => true) s t
          ↔ WithinScan intTraits 2 (fun _ => true) t) :=
  avl_eraseIf_complete_iff lawfulCompare_int equalRun (members_of_no_eraseNode (by simp [equalRun])) 2
    fun _ => true

/-- The only entry of a tree has the key and does not satisfy the predicate: the successor that
the loop follows is null. -/
theorem eraseIf_follows_null : ∃ s,
    Transition.run (avlStep intTraits) AvlHeap.empty [.insert 1] = some s
      ∧ (eraseIf intTraits () 1 fun _ => false).run s = none := by
  have hstuck : (Transition.run (avlStep intTraits) AvlHeap.empty [.insert 1]).map
      (fun s => ((eraseIf intTraits () 1 fun _ => false).run s).isNone) = some true := by
    decide +kernel
  obtain ⟨s, hs, hnone⟩ := Option.map_eq_some_iff.mp hstuck
  exact ⟨s, hs, Option.isNone_iff_eq_none.mp hnone⟩

end Mmkvc
