/-
# The length of a search (`algo/internal/avl_tree_base_impl.h`)

A balanced tree of height `h` has at least `fib (h + 2) - 1` entries.  The loops that go
down from the root make one pass for each node of a path, so `avl_search_logarithmic` bounds
their passes in every tree that the operations build, for any comparator.
-/
import Mathlib.Data.Nat.Fib.Basic
import Mmkvc.AvlTraversal

namespace Mmkvc

open AvlM AvlUtil AvlTreeBase LinkedTree

namespace LinkedTree

variable {V : Type} {t : LinkedTree V} {n : ℕ}

/-- The step of the recursion of the Fibonacci numbers, for subtrees that are almost equally high.
-/
theorem fib_max_le {x y m k : ℕ} (hle : x ≤ y + 1) (hge : y ≤ x + 1)
    (hx : Nat.fib (x + 2) ≤ m + 1) (hy : Nat.fib (y + 2) ≤ k + 1) :
    Nat.fib (max x y + 3) ≤ m + k + 2 := by
  rcases Nat.le_total x y with h | h
  · have hlow : Nat.fib (y + 1) ≤ Nat.fib (x + 2) := Nat.fib_mono (by omega)
    have hsum : Nat.fib (y + 3) = Nat.fib (y + 1) + Nat.fib (y + 2) := Nat.fib_add_two
    rw [max_eq_right h]
    omega
  · have hlow : Nat.fib (x + 1) ≤ Nat.fib (y + 2) := Nat.fib_mono (by omega)
    have hsum : Nat.fib (x + 3) = Nat.fib (x + 1) + Nat.fib (x + 2) := Nat.fib_add_two
    rw [max_eq_left h]
    omega

/-- The sparsest balanced trees are the Fibonacci trees. -/
theorem HeightBalanced.fib_le (ht : t.HeightBalanced) :
    Nat.fib (t.calculateHeight + 2) ≤ t.inorder.length + 1 := by
  induction t with
  | nil => exact le_rfl
  | node a h v l r ihl ihr =>
    obtain ⟨hge, hle, hl, hr⟩ := ht
    have hmax := fib_max_le (by omega) (by omega) (ihl hl) (ihr hr)
    rw [calculateHeight, AvlUtil.avlMax_eq_max, inorder_node, List.length_append, List.length_cons,
      show 1 + max l.calculateHeight r.calculateHeight + 2
        = max l.calculateHeight r.calculateHeight + 3 by omega]
    omega

/-- A tree has an entry on each of its levels. -/
theorem calculateHeight_le_length (t : LinkedTree V) : t.calculateHeight ≤ t.inorder.length := by
  induction t with
  | nil => exact le_rfl
  | node a h v l r ihl ihr =>
    rw [calculateHeight, AvlUtil.avlMax_eq_max, inorder_node, List.length_append, List.length_cons]
    omega

theorem HeightBalanced.height_le (ht : t.HeightBalanced)
    (hn : t.inorder.length + 1 < Nat.fib (n + 3)) : t.calculateHeight ≤ n := by
  have hlt := (Nat.fib_lt_fib (by omega)).mp (ht.fib_le.trans_lt hn)
  omega

end LinkedTree

section

variable {ι K V β γ : Type} {T : AvlTraits K V} {key : K} {s : AvlHeap ι V}
  {a : Addr} {t : LinkedTree V} {q : Option Addr} {n m : ℕ} {root : ι}

/-- The two programs end with the same result and leave the memory as it is. -/
def AgreeAt (s : AvlHeap ι V) (x y : AvlM ι V β) : Prop :=
  ∃ r, x.run s = some (r, s) ∧ y.run s = some (r, s)

theorem agreeAt_pure (r : β) : AgreeAt s (pure r : AvlM ι V β) (pure r) :=
  ⟨r, rfl, rfl⟩

/-- A program that leaves the memory alone can be done first. -/
theorem run_bind_of_keeps {x : AvlM ι V γ} {c : γ} (hx : x.run s = some (c, s))
    (f : γ → AvlM ι V β) : (x >>= f).run s = (f c).run s := by
  show (x.run s).bind (fun p => f p.1 p.2) = f c s
  rw [hx]
  rfl

/-- Both go on from what the first part has read. -/
theorem agreeAt_bind {x : AvlM ι V γ} {c : γ} {f g : γ → AvlM ι V β}
    (hx : x.run s = some (c, s)) (hfg : AgreeAt s (f c) (g c)) :
    AgreeAt s (x >>= f) (x >>= g) := by
  obtain ⟨r, hf, hg⟩ := hfg
  exact ⟨r, (run_bind_of_keeps hx f).trans hf, (run_bind_of_keeps hx g).trans hg⟩

/-- Both programs take the same branch. -/
theorem agreeAt_ite {c : Prop} [Decidable c] {x x' y y' : AvlM ι V β} (hx : AgreeAt s x x')
    (hy : AgreeAt s y y') : AgreeAt s (if c then x else y) (if c then x' else y') := by
  by_cases hc : c
  · rwa [if_pos hc, if_pos hc]
  · rwa [if_neg hc, if_neg hc]

/-- Reading a node changes nothing. -/
theorem run_load {c : AvlNode V} (ha : s.nodes a = some c) :
    (load a : AvlM ι V (AvlNode V)).run s = some (c, s) := by
  show (s.nodes a).map (fun c => (c, s)) = some (c, s)
  rw [ha]
  rfl

theorem run_child {c : AvlNode V} (ha : s.nodes a = some c) (d : Dir) :
    (readSlot (.child a d) : AvlM ι V (Option Addr)).run s = some (c.child d, s) :=
  run_bind_of_keeps (run_load ha) _

/-- Fuel that is at least the height of a node leaves some for its children. -/
theorem exists_fuel {h : ℕ} {v : V} {l r : LinkedTree V}
    (hn : (node a h v l r).calculateHeight ≤ n) :
    ∃ k, n = k + 1 ∧ l.calculateHeight ≤ k ∧ r.calculateHeight ≤ k := by
  rw [calculateHeight, AvlUtil.avlMax_eq_max] at hn
  exact ⟨n - 1, by omega, by omega, by omega⟩

/-- The loop of `FindNode` makes no more passes than the height. -/
theorem findLoop_agree (hrep : Represents s.nodes q t) (hn : t.calculateHeight ≤ n)
    (hm : t.calculateHeight ≤ m) :
    AgreeAt s (findLoop T key n t.root) (findLoop T key m t.root) := by
  induction t generalizing q n m with
  | nil => cases n <;> cases m <;> exact agreeAt_pure none
  | node a h v l r ihl ihr =>
    obtain ⟨ha, hl, hr⟩ := hrep
    obtain ⟨n, rfl, hnl, hnr⟩ := exists_fuel hn
    obtain ⟨m, rfl, hml, hmr⟩ := exists_fuel hm
    refine agreeAt_bind (run_load ha) (agreeAt_ite ?_ (agreeAt_ite ?_ (agreeAt_pure _)))
    · exact ihl hl hnl hml
    · exact ihr hr hnr hmr

/-- Nor does the loop of the bounds. -/
theorem boundLoop_agree {isBehind : ℤ → Bool} {track : Option Addr}
    (hrep : Represents s.nodes q t) (hn : t.calculateHeight ≤ n) (hm : t.calculateHeight ≤ m) :
    AgreeAt s (boundLoop T isBehind key n t.root track)
      (boundLoop T isBehind key m t.root track) := by
  induction t generalizing q n m track with
  | nil => cases n <;> cases m <;> exact agreeAt_pure track
  | node a h v l r ihl ihr =>
    obtain ⟨ha, hl, hr⟩ := hrep
    obtain ⟨n, rfl, hnl, hnr⟩ := exists_fuel hn
    obtain ⟨m, rfl, hml, hmr⟩ := exists_fuel hm
    refine agreeAt_bind (run_load ha) (agreeAt_ite ?_ ?_)
    · exact ihl hl hnl hml
    · exact ihr hr hnr hmr

/-- The loop that looks for a free slot, which it then reads once more than the nodes. -/
theorem descend_agree {onEq : Addr → AvlM ι V (Option Dir)} {slot : Slot ι} {parent : Option Addr}
    (hOn : ∀ {a h v l r q}, Represents s.nodes q (node a h v l r) →
      ∃ d, (onEq a).run s = some (d, s))
    (hrep : Represents s.nodes q t) (hslot : (readSlot slot).run s = some (t.root, s))
    (hn : t.calculateHeight ≤ n) (hm : t.calculateHeight ≤ m) :
    AgreeAt s (descend T key onEq (n + 1) slot parent) (descend T key onEq (m + 1) slot parent) := by
  induction t generalizing q n m slot parent with
  | nil => exact agreeAt_bind hslot (agreeAt_pure _)
  | node a h v l r ihl ihr =>
    obtain ⟨d, hd⟩ := hOn hrep
    obtain ⟨ha, hl, hr⟩ := hrep
    obtain ⟨n, rfl, hnl, hnr⟩ := exists_fuel hn
    obtain ⟨m, rfl, hml, hmr⟩ := exists_fuel hm
    have hleft {parent} := @ihl (some a) n m (.child a .left) parent hl (run_child ha .left) hnl hml
    have hright {parent} :=
      @ihr (some a) n m (.child a .right) parent hr (run_child ha .right) hnr hmr
    refine agreeAt_bind hslot (agreeAt_bind (run_load ha) (agreeAt_ite hleft (agreeAt_ite hright ?_)))
    refine agreeAt_bind hd ?_
    cases d with
    | none => exact agreeAt_pure _
    | some d =>
      cases d with
      | left => exact hleft
      | right => exact hright

/-- The height of a subtree can be read. -/
theorem exists_run_heightOf (hrep : Represents s.nodes q t) :
    ∃ n, (heightOf t.root : AvlM ι V ℕ).run s = some (n, s) := by
  cases t with
  | nil => exact ⟨_, rfl⟩
  | node a h v l r => exact ⟨_, run_bind_of_keeps (run_load hrep.1) _⟩

/-- The side of `PushEq` can be found. -/
theorem exists_run_lowerSide {h : ℕ} {v : V} {l r : LinkedTree V}
    (hrep : Represents s.nodes q (node a h v l r)) :
    ∃ d, (AvlTreeBase.lowerSide a : AvlM ι V (Option Dir)).run s = some (d, s) := by
  obtain ⟨ha, hl, hr⟩ := hrep
  obtain ⟨lh, hlh⟩ := exists_run_heightOf hl
  obtain ⟨rh, hrh⟩ := exists_run_heightOf hr
  have hleft : (childHeight .left a : AvlM ι V ℕ).run s = some (lh, s) :=
    (run_bind_of_keeps (run_load ha) _).trans hlh
  have hright : (childHeight .right a : AvlM ι V ℕ).run s = some (rh, s) :=
    (run_bind_of_keeps (run_load ha) _).trans hrh
  exact ⟨_, (run_bind_of_keeps hleft _).trans (run_bind_of_keeps hright _)⟩

/-- Memory holds one tree that is as the operations keep it. -/
def HoldsAvl (s : AvlHeap Unit V) : Prop := ∃ t e, Focus () 0 e [] t s ∧ t.Avl

/-- An operation does not get stuck and leaves a tree. -/
theorem avlStep_holdsAvl {s : AvlHeap Unit V} {op : AvlOp K V} (hs : HoldsAvl s)
    (hmem : ∀ a, op = .eraseNode a → Member s () a) :
    ∃ s', avlStep T s op = some s' ∧ HoldsAvl s' := by
  obtain ⟨t, e, hfocus, hAvl⟩ := hs
  obtain ⟨s', t', e', hrun, hmakes, hs'⟩ := avlStep_makes (T := T) hfocus hmem
  exact ⟨s', hrun, t', e', hs', hmakes.avl hAvl⟩

/-- Each search of a key makes at most `n` passes. -/
structure SearchesWithin (T : AvlTraits K V) (n : ℕ) (root : ι) (key : K) (s : AvlHeap ι V) :
    Prop where
  find : AgreeAt s (findLoop T key n (s.roots root)) (findNode T root key)
  lower : AgreeAt s (boundLoop T (0 ≤ ·) key n (s.roots root) none) (lowerBound T root key)
  upper : AgreeAt s (boundLoop T (0 < ·) key n (s.roots root) none) (upperBound T root key)
  insert : AgreeAt s (descend T key (fun _ => return none) (n + 1) (.root root) none)
    (do descend T key (fun _ => return none) ((← bound) + 1) (.root root) none)
  insertEq : AgreeAt s (descend T key AvlTreeBase.lowerSide (n + 1) (.root root) none)
    (do descend T key AvlTreeBase.lowerSide ((← bound) + 1) (.root root) none)

/-- The searches follow a path of the tree and need no more fuel than its height. -/
theorem searchesWithin (hroot : s.roots root = t.root) (hrep : Represents s.nodes none t)
    (hn : t.calculateHeight ≤ n) (hnext : t.calculateHeight ≤ s.next) :
    SearchesWithin T n root key s := by
  have hnext' : t.calculateHeight ≤ s.next + 1 := by omega
  have hslot : (readSlot (.root root)).run s = some (t.root, s) := by
    rw [← hroot]
    rfl
  have hfind : AgreeAt s (findLoop T key n (s.roots root))
      (findLoop T key (s.next + 1) (s.roots root)) := by
    rw [hroot]
    exact findLoop_agree hrep hn hnext'
  have hbound (isBehind : ℤ → Bool) : AgreeAt s (boundLoop T isBehind key n (s.roots root) none)
      (boundLoop T isBehind key (s.next + 1) (s.roots root) none) := by
    rw [hroot]
    exact boundLoop_agree hrep hn hnext'
  exact ⟨hfind, hbound _, hbound _, descend_agree (fun _ => ⟨_, rfl⟩) hrep hslot hn hnext,
    descend_agree exists_run_lowerSide hrep hslot hn hnext⟩

end

/-- **A search is logarithmic.**  After any operations, for any comparator, a search in a tree
of fewer than `fib (n + 3) - 1` entries makes at most `n` passes of its loop, and finds what it
finds without a bound: `FindNode`, `LowerBound`, `UpperBound`, and the ways down of the
insertions. -/
theorem avl_search_logarithmic {K V : Type} (T : AvlTraits K V) (ops : List (AvlOp K V))
    (hmem : Transition.AllSteps (avlStep T) (fun s op => ∀ a, op = .eraseNode a → Member s () a)
      AvlHeap.empty ops) :
    ∃ s, Transition.run (avlStep T) AvlHeap.empty ops = some s ∧ ∃ t : LinkedTree V,
      s.roots () = t.root ∧ Represents s.nodes none t
        ∧ ∀ n, t.inorder.length + 1 < Nat.fib (n + 3) → ∀ key, SearchesWithin T n () key s := by
  obtain ⟨s, hrun, t, e, hs, hAvl⟩ := Transition.exists_run_of_allSteps (I := HoldsAvl)
    (fun s op hs hop => avlStep_holdsAvl hs hop) ⟨_, _, focus_empty, Or.inl trivial⟩ hmem
  obtain ⟨hroot, hrep⟩ := represents_of_focus hs
  refine ⟨s, hrun, t, hroot, hrep, fun n hn key => ?_⟩
  have hnext : t.calculateHeight ≤ s.next := by
    have hlength := length_le_of_focus hs
    rw [← hs.next, List.length_nil, add_zero] at hlength
    exact t.calculateHeight_le_length.trans hlength
  exact searchesWithin hroot hrep (hAvl.heightBalanced.height_le hn) hnext

theorem avl_search_logarithmic_equalRun :
    ∃ s, Transition.run (avlStep intTraits) AvlHeap.empty equalRun = some s ∧ ∃ t : LinkedTree ℤ,
      s.roots () = t.root ∧ Represents s.nodes none t
        ∧ ∀ n, t.inorder.length + 1 < Nat.fib (n + 3) →
          ∀ key, SearchesWithin intTraits n () key s :=
  avl_search_logarithmic intTraits equalRun (members_of_no_eraseNode (by simp [equalRun]))

end Mmkvc
