/-
# Search trees

What the operations of `AvlTreeBase` do to a tree as a whole: where a search for a
key ends, what an insertion and a removal make of the tree, and what they make of its
entries.  The entries stay sorted for every comparator that orders the keys.
-/
import Mmkvc.AvlShape
import Mmkvc.AvlTreeBase

namespace Mmkvc

open LinkedTree

variable {K V : Type}

/-! ## Comparators -/

/-- A comparator that orders the keys up to equivalence: `cmp x y` is negative, zero or
positive where `x` is before, with or after `y`. -/
structure LawfulCompare (cmp : K → K → ℤ) : Prop where
  swap : ∀ x y, cmp x y < 0 ↔ 0 < cmp y x
  trans : ∀ x y z, cmp x y ≤ 0 → cmp y z ≤ 0 → cmp x z ≤ 0

namespace LawfulCompare

variable {cmp : K → K → ℤ} {x y z : K}

theorem le_swap (h : LawfulCompare cmp) : cmp x y ≤ 0 ↔ 0 ≤ cmp y x := by
  have hswap := h.swap y x
  omega

/-- Being equivalent is symmetric. -/
theorem eq_swap (h : LawfulCompare cmp) : cmp x y = 0 ↔ cmp y x = 0 := by
  have hswap := h.swap x y
  have hswap' := h.swap y x
  omega

theorem refl (h : LawfulCompare cmp) (x : K) : cmp x x = 0 := by
  have hswap := h.swap x x
  omega

/-- A strict step and a weak one make a strict step. -/
theorem lt_of_lt_of_le (h : LawfulCompare cmp) (hxy : cmp x y < 0) (hyz : cmp y z ≤ 0) :
    cmp x z < 0 := by
  by_contra hxz
  have hzx := h.le_swap.mpr (not_lt.mp hxz)
  have hyx := h.trans y z x hyz hzx
  have hswap := (h.swap x y).mp hxy
  omega

/-- A weak step and a strict one make a strict step. -/
theorem lt_of_le_of_lt (h : LawfulCompare cmp) (hxy : cmp x y ≤ 0) (hyz : cmp y z < 0) :
    cmp x z < 0 := by
  by_contra hxz
  have hzx := h.le_swap.mpr (not_lt.mp hxz)
  have hzy := h.trans z x y hzx hxy
  have hswap := (h.swap y z).mp hyz
  omega

/-- Equivalent keys compare alike with any other key. -/
theorem eq_trans (h : LawfulCompare cmp) (hxy : cmp x y = 0) (hyz : cmp y z = 0) :
    cmp x z = 0 := by
  have hxz := h.trans x y z hxy.le hyz.le
  have hzx := h.trans z y x (h.eq_swap.mp hyz).le (h.eq_swap.mp hxy).le
  have hswap := h.le_swap.mp hzx
  omega

end LawfulCompare

/-- The entry comes before the other, or is with it. -/
def AvlTraits.le (T : AvlTraits K V) (x y : Addr × V) : Prop := T.cmp (T.gk x.2) (T.gk y.2) ≤ 0

/-- The entry comes strictly before the other. -/
def AvlTraits.lt (T : AvlTraits K V) (x y : Addr × V) : Prop := T.cmp (T.gk x.2) (T.gk y.2) < 0

/-- Keys that compare as equivalent. -/
def AvlTraits.Equiv (T : AvlTraits K V) (x y : K) : Prop := T.cmp x y = 0

/-- The key of an entry. -/
def AvlTraits.keyOf (T : AvlTraits K V) (e : Addr × V) : K := T.gk e.2

instance AvlTraits.decidableEquiv (T : AvlTraits K V) : DecidableRel T.Equiv :=
  fun x y => inferInstanceAs (Decidable (T.cmp x y = 0))

/-- The keys fall into classes. -/
theorem LawfulCompare.equivalence {T : AvlTraits K V} (h : LawfulCompare T.cmp) :
    Equivalence T.Equiv where
  refl := h.refl
  symm hxy := h.eq_swap.mp hxy
  trans hxy hyz := h.eq_trans hxy hyz

namespace LinkedTree

/-! ## Search -/

/-- The side on which the search for a key goes on at a node; at a node with the key,
`onEq` says. -/
def side (T : AvlTraits K V) (key : K) (onEq : LinkedTree V → LinkedTree V → Option Dir)
    (v : V) (l r : LinkedTree V) : Option Dir :=
  if 0 < T.cmp (T.gk v) key then some .left
  else if T.cmp (T.gk v) key < 0 then some .right
  else onEq l r

/-- The place where the search for a key ends, and the subtree there. -/
def locate (T : AvlTraits K V) (key : K) (onEq : LinkedTree V → LinkedTree V → Option Dir) :
    Place V → LinkedTree V → Place V × LinkedTree V
  | c, nil => (c, nil)
  | c, node a h v l r =>
    match side T key onEq v l r with
    | some .left => locate T key onEq (⟨.left, a, h, v, r⟩ :: c) l
    | some .right => locate T key onEq (⟨.right, a, h, v, l⟩ :: c) r
    | none => (c, node a h v l r)

/-- The end of a search at an entry with the key. -/
def stop : LinkedTree V → LinkedTree V → Option Dir := fun _ _ => none

/-- The side of `PushEq` at an entry with the key. -/
def lowerSide (l r : LinkedTree V) : Option Dir :=
  some (if l.height < r.height then .left else .right)

variable {T : AvlTraits K V} {key : K} {onEq : LinkedTree V → LinkedTree V → Option Dir}
  {c : Place V} {t l r : LinkedTree V} {a : Addr} {h : ℕ} {v : V}

/-- A search changes nothing. -/
theorem plug_locate (T : AvlTraits K V) (key : K)
    (onEq : LinkedTree V → LinkedTree V → Option Dir) (c : Place V) (t : LinkedTree V) :
    Place.plug (locate T key onEq c t).1 (locate T key onEq c t).2 = Place.plug c t := by
  induction t generalizing c with
  | nil => rfl
  | node a h v l r ihl ihr =>
    rw [locate]
    rcases side T key onEq v l r with _ | _ | _
    · rfl
    · exact ihl _
    · exact ihr _

/-- The search passes by entries that go before the place and behind it. -/
theorem inorder_locate (T : AvlTraits K V) (key : K)
    (onEq : LinkedTree V → LinkedTree V → Option Dir) (t : LinkedTree V) :
    t.inorder = Place.before (locate T key onEq [] t).1
    ++ (locate T key onEq [] t).2.inorder ++ Place.after (locate T key onEq [] t).1 := by
  rw [← Place.inorder_plug, plug_locate, Place.plug_nil]

/-- The subtree where a search ends is empty, or `onEq` ends it at its root. -/
theorem locate_end (T : AvlTraits K V) (key : K)
    (onEq : LinkedTree V → LinkedTree V → Option Dir) (c : Place V) (t : LinkedTree V) :
    (locate T key onEq c t).2 = nil ∨ ∃ a h v l r,
      (locate T key onEq c t).2 = node a h v l r ∧ side T key onEq v l r = none := by
  induction t generalizing c with
  | nil => exact Or.inl rfl
  | node a h v l r ihl ihr =>
    rw [locate]
    rcases hside : side T key onEq v l r with _ | _ | _
    · exact Or.inr ⟨a, h, v, l, r, rfl, hside⟩
    · exact ihl _
    · exact ihr _

/-- A search that stops at the key ends with nothing, or at an entry that has it. -/
theorem locate_stop_end (T : AvlTraits K V) (key : K) (c : Place V) (t : LinkedTree V) :
    (locate T key stop c t).2 = nil ∨ ∃ a h v l r,
      (locate T key stop c t).2 = node a h v l r ∧ T.cmp (T.gk v) key = 0 := by
  rcases locate_end T key stop c t with hnil | ⟨a, h, v, l, r, hnode, hside⟩
  · exact Or.inl hnil
  · refine Or.inr ⟨a, h, v, l, r, hnode, ?_⟩
    unfold side at hside
    split_ifs at hside
    omega

/-- A search that goes on at the key ends with nothing. -/
theorem locate_lower_end (T : AvlTraits K V) (key : K) (c : Place V) (t : LinkedTree V) :
    (locate T key lowerSide c t).2 = nil := by
  rcases locate_end T key lowerSide c t with hnil | ⟨a, h, v, l, r, hnode, hside⟩
  · exact hnil
  · unfold side lowerSide at hside
    split_ifs at hside

/-- What holds of the entries at which a search turns holds of all entries on that side
of its end, if the order of the entries carries it there. -/
theorem locate_bounds {R : Addr × V → Addr × V → Prop} {P Q : Addr × V → Prop}
    (hleft : ∀ a v l r, side T key onEq v l r = some .left → Q (a, v))
    (hright : ∀ a v l r, side T key onEq v l r = some .right → P (a, v))
    (hQ : ∀ x y, R x y → Q x → Q y) (hP : ∀ x y, R x y → P y → P x)
    (hsorted : t.inorder.Pairwise R) (hbefore : ∀ x ∈ Place.before c, P x)
    (hafter : ∀ x ∈ Place.after c, Q x) :
    (∀ x ∈ Place.before (locate T key onEq c t).1, P x)
      ∧ ∀ x ∈ Place.after (locate T key onEq c t).1, Q x := by
  induction t generalizing c with
  | nil => exact ⟨hbefore, hafter⟩
  | node a h v l r ihl ihr =>
    rw [inorder_node, List.pairwise_append, List.pairwise_cons] at hsorted
    obtain ⟨hl, ⟨hvr, hr⟩, hlv⟩ := hsorted
    rw [locate]
    rcases hside : side T key onEq v l r with _ | _ | _
    · exact ⟨hbefore, hafter⟩
    · refine ihl hl hbefore fun x hx => ?_
      rw [Place.after, List.cons_append, List.mem_cons, List.mem_append] at hx
      rcases hx with rfl | hx | hx
      · exact hleft a v l r hside
      · exact hQ _ _ (hvr x hx) (hleft a v l r hside)
      · exact hafter x hx
    · refine ihr hr (fun x hx => ?_) hafter
      rw [Place.before, List.mem_append, List.mem_append, List.mem_singleton] at hx
      rcases hx with (hx | hx) | rfl
      · exact hbefore x hx
      · exact hP _ _ (hlv x hx (a, v) List.mem_cons_self) (hright a v l r hside)
      · exact hright a v l r hside

/-- A search that stops at the key has smaller keys before its end and greater ones after
it. -/
theorem locate_stop_bounds (key : K) (hT : LawfulCompare T.cmp) (hsorted : t.inorder.Pairwise T.le) :
    (∀ x ∈ Place.before (locate T key stop [] t).1, T.cmp (T.gk x.2) key < 0)
      ∧ ∀ x ∈ Place.after (locate T key stop [] t).1, 0 < T.cmp (T.gk x.2) key := by
  refine locate_bounds (R := T.le) ?_ ?_ ?_ ?_ hsorted (by simp [Place.before])
    (by simp [Place.after])
  · intro a v l r hside
    change 0 < T.cmp (T.gk v) key
    unfold side stop at hside
    split_ifs at hside <;> first | omega | cases hside
  · intro a v l r hside
    change T.cmp (T.gk v) key < 0
    unfold side stop at hside
    split_ifs at hside <;> first | omega | cases hside
  · intro x y hxy hx
    exact (hT.swap _ _).mp (hT.lt_of_lt_of_le ((hT.swap _ _).mpr hx) hxy)
  · intro x y hxy hy
    exact hT.lt_of_le_of_lt hxy hy

/-- A search that goes on at the key has no greater key before its end and no smaller one
after it. -/
theorem locate_lower_bounds (key : K) (hT : LawfulCompare T.cmp) (hsorted : t.inorder.Pairwise T.le) :
    (∀ x ∈ Place.before (locate T key lowerSide [] t).1, T.cmp (T.gk x.2) key ≤ 0)
      ∧ ∀ x ∈ Place.after (locate T key lowerSide [] t).1, 0 ≤ T.cmp (T.gk x.2) key := by
  refine locate_bounds (R := T.le) ?_ ?_ ?_ ?_ hsorted (by simp [Place.before])
    (by simp [Place.after])
  · intro a v l r hside
    change 0 ≤ T.cmp (T.gk v) key
    unfold side at hside
    split_ifs at hside <;> first | omega | cases hside
  · intro a v l r hside
    change T.cmp (T.gk v) key ≤ 0
    unfold side at hside
    split_ifs at hside <;> first | omega | cases hside
  · intro x y hxy hx
    exact hT.le_swap.mp (hT.trans _ _ _ (hT.le_swap.mpr hx) hxy)
  · intro x y hxy hy
    exact hT.trans _ _ _ hxy hy

/-- `FindNode`. -/
def find (T : AvlTraits K V) (key : K) (t : LinkedTree V) : Option Addr :=
  (locate T key stop [] t).2.root

/-- `FindNode` finds the entry with the key where there is one. -/
theorem find_spec (key : K) (hT : LawfulCompare T.cmp) (hsorted : t.inorder.Pairwise T.le) :
    (find T key t = none ∧ ∀ x ∈ t.inorder, T.cmp (T.gk x.2) key ≠ 0)
      ∨ ∃ a v, find T key t = some a ∧ (a, v) ∈ t.inorder ∧ T.cmp (T.gk v) key = 0 := by
  obtain ⟨hbefore, hafter⟩ := locate_stop_bounds key hT hsorted
  have hentries := inorder_locate T key stop t
  rcases locate_stop_end T key [] t with hnil | ⟨a, h, v, l, r, hnode, hkey⟩
  · refine Or.inl ⟨by rw [find, hnil]; rfl, fun x hx => ?_⟩
    rw [hentries, hnil, inorder_nil, List.append_nil, List.mem_append] at hx
    rcases hx with hx | hx
    · exact (hbefore x hx).ne
    · exact (hafter x hx).ne'
  · refine Or.inr ⟨a, v, by rw [find, hnode]; rfl, ?_, ?_⟩
    · rw [hentries, hnode]
      simp
    · exact hkey

/-! ## Insertion -/

/-- What the insertion of the entry `v` as the node `x` makes of a tree: the entry with the
key, if there is one, and the tree. -/
def insertNew (T : AvlTraits K V) (key : K) (x : Addr) (h : ℕ) (v : V) (t : LinkedTree V) :
    Option Addr × LinkedTree V :=
  match t with
  | nil => (none, node x h v nil nil)
  | node a h' v' l r =>
    if l.root = none ∧ r.root = none then
      if 0 < T.cmp key (T.gk v') then (none, node a h' v' l (node x h v nil nil))
      else if T.cmp key (T.gk v') < 0 then (none, node a h' v' (node x h v nil nil) r)
      else (some a, t)
    else
      match locate T key stop [] t with
      | (c, nil) => (none, insertUp c (node x h v nil nil))
      | (_, node b _ _ _ _) => (some b, t)

/-- What `PushEq` makes of a tree. -/
def insertEqNew (T : AvlTraits K V) (x : Addr) (h : ℕ) (v : V) (t : LinkedTree V) : LinkedTree V :=
  insertUp (locate T (T.gk v) lowerSide [] t).1 (node x h v nil nil)

/-- The two outcomes of an insertion: the entry goes between those with smaller and those
with greater keys, or an entry with the key is there and the tree stays. -/
def InsertOutcome (T : AvlTraits K V) (key : K) (x : Addr) (v : V) (t : LinkedTree V)
    (out : Option Addr × LinkedTree V) : Prop :=
  (out.1 = none ∧ ∃ L R, t.inorder = L ++ R ∧ out.2.inorder = L ++ (x, v) :: R
      ∧ (∀ y ∈ L, T.cmp (T.gk y.2) key < 0) ∧ ∀ y ∈ R, 0 < T.cmp (T.gk y.2) key)
    ∨ ∃ a w, out = (some a, t) ∧ (a, w) ∈ t.inorder ∧ T.cmp (T.gk w) key = 0

theorem root_eq_none : t.root = none ↔ t = nil := by
  cases t <;> simp

/-- An insertion finds an entry with the key, or puts the new one where it belongs. -/
theorem insertNew_outcome (hT : LawfulCompare T.cmp) (hsorted : t.inorder.Pairwise T.le)
    (x : Addr) (h : ℕ) (v : V) : InsertOutcome T key x v t (insertNew T key x h v t) := by
  cases t with
  | nil => exact Or.inl ⟨rfl, [], [], rfl, rfl, by simp, by simp⟩
  | node a h' v' l r =>
    rw [insertNew]
    have hswap := hT.swap (T.gk v') key
    have hswap' := hT.swap key (T.gk v')
    by_cases hsingle : l.root = none ∧ r.root = none
    · rw [if_pos hsingle]
      rw [root_eq_none, root_eq_none] at hsingle
      obtain ⟨rfl, rfl⟩ := hsingle
      split_ifs with hgt hlt
      · exact Or.inl ⟨rfl, [(a, v')], [], rfl, rfl, by simpa using by omega, by simp⟩
      · exact Or.inl ⟨rfl, [], [(a, v')], rfl, rfl, by simp, by simpa using by omega⟩
      · exact Or.inr ⟨a, v', rfl, by simp, hT.eq_swap.mp (by omega)⟩
    · rw [if_neg hsingle]
      generalize node a h' v' l r = t at hsorted ⊢
      obtain ⟨hbefore, hafter⟩ := locate_stop_bounds key hT hsorted
      have hentries := inorder_locate T key stop t
      rcases locate_stop_end T key [] t with hnil | ⟨b, hb, w, l, r, hnode, hkey⟩
      · generalize locate T key stop [] t = z at hbefore hafter hentries hnil ⊢
        obtain ⟨c, s⟩ := z
        dsimp only at hnil
        subst hnil
        refine Or.inl ⟨rfl, Place.before c, Place.after c, ?_, ?_, hbefore, hafter⟩
        · simpa using hentries
        · rw [inorder_insertUp, Place.inorder_plug]
          simp
      · refine Or.inr ⟨b, w, ?_, ?_, ?_⟩
        · generalize locate T key stop [] t = z at hnode ⊢
          obtain ⟨c, s⟩ := z
          dsimp only at hnode
          subst hnode
          rfl
        · rw [hentries, hnode]
          simp
        · exact hkey

/-- An entry with the key stays in the tree as it was. -/
theorem insertNew_of_some {x : Addr}
    (hsome : (insertNew T key x h v t).1 ≠ none) : (insertNew T key x h v t).2 = t := by
  cases t with
  | nil => exact absurd rfl hsome
  | node a h' v' l r =>
    rw [insertNew] at hsome ⊢
    split_ifs at hsome ⊢
    · exact absurd rfl hsome
    · exact absurd rfl hsome
    · rfl
    · generalize locate T key stop [] (node a h' v' l r) = z at hsome ⊢
      obtain ⟨c, s⟩ := z
      cases s with
      | nil => exact absurd rfl hsome
      | node _ _ _ _ _ => rfl

/-- An insertion that finds no entry with the key adds one entry. -/
theorem length_insertNew (x : Addr) (h : ℕ) (v : V) :
    (insertNew T key x h v t).2.inorder.length
      = t.inorder.length + if (insertNew T key x h v t).1.isNone then 1 else 0 := by
  cases t with
  | nil => rfl
  | node a h' v' l r =>
    rw [insertNew]
    by_cases hsingle : l.root = none ∧ r.root = none
    · rw [if_pos hsingle]
      rw [root_eq_none, root_eq_none] at hsingle
      obtain ⟨rfl, rfl⟩ := hsingle
      by_cases hgt : 0 < T.cmp key (T.gk v')
      · rw [if_pos hgt]
        rfl
      · rw [if_neg hgt]
        by_cases hlt : T.cmp key (T.gk v') < 0
        · rw [if_pos hlt]
          rfl
        · rw [if_neg hlt]
          rfl
    · rw [if_neg hsingle]
      generalize node a h' v' l r = t
      have hentries := congrArg List.length (inorder_locate T key stop t)
      generalize locate T key stop [] t = z at hentries ⊢
      obtain ⟨c, s⟩ := z
      cases s with
      | nil =>
        rw [hentries]
        simp [inorder_insertUp, Place.inorder_plug]
        omega
      | node _ _ _ _ _ => rfl

/-- `PushEq` adds an entry, whatever its key is. -/
theorem length_insertEqNew (x : Addr) (h : ℕ) (v : V) :
    (insertEqNew T x h v t).inorder.length = t.inorder.length + 1 := by
  have hentries := congrArg List.length (inorder_locate T (T.gk v) lowerSide t)
  rw [locate_lower_end, inorder_nil, List.append_nil] at hentries
  rw [hentries, insertEqNew, inorder_insertUp, Place.inorder_plug]
  simp
  omega

/-- `PushEq` puts the entry between those with smaller or equivalent keys and those with
greater or equivalent ones. -/
theorem inorder_insertEqNew (hT : LawfulCompare T.cmp) (hsorted : t.inorder.Pairwise T.le)
    (x : Addr) (h : ℕ) (v : V) : ∃ L R, t.inorder = L ++ R
      ∧ (insertEqNew T x h v t).inorder = L ++ (x, v) :: R
      ∧ (∀ y ∈ L, T.cmp (T.gk y.2) (T.gk v) ≤ 0) ∧ ∀ y ∈ R, 0 ≤ T.cmp (T.gk y.2) (T.gk v) := by
  obtain ⟨hbefore, hafter⟩ := locate_lower_bounds (T.gk v) hT hsorted
  have hentries := inorder_locate T (T.gk v) lowerSide t
  rw [locate_lower_end, inorder_nil, List.append_nil] at hentries
  refine ⟨_, _, hentries, ?_, hbefore, hafter⟩
  rw [insertEqNew, inorder_insertUp, Place.inorder_plug]
  simp

/-- A new entry between entries in order. -/
theorem pairwise_insert {R : Addr × V → Addr × V → Prop} {L M : List (Addr × V)} {x : Addr × V}
    (hLM : (L ++ M).Pairwise R) (hL : ∀ y ∈ L, R y x) (hM : ∀ y ∈ M, R x y) :
    (L ++ x :: M).Pairwise R := by
  rw [List.pairwise_append] at hLM ⊢
  obtain ⟨hl, hm, hlm⟩ := hLM
  refine ⟨hl, List.pairwise_cons.mpr ⟨hM, hm⟩, fun y hy z hz => ?_⟩
  rcases List.mem_cons.mp hz with rfl | hz
  · exact hL y hy
  · exact hlm y hy z hz

theorem AvlTraits.lt.le {x y : Addr × V} (h : T.lt x y) : T.le x y := Int.le_of_lt h

/-- An insertion keeps the order. -/
theorem sorted_insertNew (hT : LawfulCompare T.cmp) (hsorted : t.inorder.Pairwise T.le) (x : Addr)
    (h : ℕ) (v : V) : (insertNew T (T.gk v) x h v t).2.inorder.Pairwise T.le := by
  rcases insertNew_outcome hT hsorted x h v with ⟨-, L, R, hent, hent', hL, hR⟩ | ⟨a, w, hsome, -⟩
  · rw [hent] at hsorted
    rw [hent']
    exact pairwise_insert hsorted (fun y hy => (hL y hy).le) fun y hy => hT.le_swap.mpr (hR y hy).le
  · rw [hsome]
    exact hsorted

/-- An insertion that finds the key leaves the order strict, as does one of a new key. -/
theorem strict_insertNew (hT : LawfulCompare T.cmp) (hsorted : t.inorder.Pairwise T.lt) (x : Addr)
    (h : ℕ) (v : V) : (insertNew T (T.gk v) x h v t).2.inorder.Pairwise T.lt := by
  have hle : t.inorder.Pairwise T.le := hsorted.imp fun hlt => hlt.le
  rcases insertNew_outcome hT hle x h v with ⟨-, L, R, hent, hent', hL, hR⟩ | ⟨a, w, hsome, -⟩
  · rw [hent] at hsorted
    rw [hent']
    exact pairwise_insert hsorted hL fun y hy => (hT.swap _ _).mpr (hR y hy)
  · rw [hsome]
    exact hsorted

/-- `PushEq` leaves the order, in which keys may repeat. -/
theorem sorted_insertEqNew (hT : LawfulCompare T.cmp) (hsorted : t.inorder.Pairwise T.le) (x : Addr)
    (h : ℕ) (v : V) : (insertEqNew T x h v t).inorder.Pairwise T.le := by
  obtain ⟨L, R, hent, hent', hL, hR⟩ := inorder_insertEqNew hT hsorted x h v
  rw [hent] at hsorted
  rw [hent']
  exact pairwise_insert hsorted hL fun y hy => hT.le_swap.mpr (hR y hy)

/-- An insertion repairs the heights. -/
theorem Avl.insertNew {x : Addr} (ht : t.Avl) : (insertNew T key x 1 v t).2.Avl := by
  cases t with
  | nil => exact Or.inl (by simp [LinkedTree.insertNew, Balanced])
  | node a h' v' l r =>
    rw [LinkedTree.insertNew]
    by_cases hsingle : l.root = none ∧ r.root = none
    · rw [if_pos hsingle]
      rw [root_eq_none, root_eq_none] at hsingle
      obtain ⟨rfl, rfl⟩ := hsingle
      split_ifs
      · exact ht.shortcut (d := .right)
      · exact ht.shortcut (d := .left)
      · exact ht
    · rw [if_neg hsingle]
      generalize node a h' v' l r = t at ht ⊢
      have hplug : (Place.plug (locate T key stop [] t).1 (locate T key stop [] t).2).Avl := by
        rwa [plug_locate]
      generalize locate T key stop [] t = z at hplug ⊢
      obtain ⟨c, s⟩ := z
      cases s with
      | nil => exact hplug.insertUp
      | node _ _ _ _ _ => exact ht

/-- An insertion of a repeated key repairs the heights. -/
theorem Avl.insertEqNew {x : Addr} (ht : t.Avl) : (insertEqNew T x 1 v t).Avl := by
  have hplug : (Place.plug (locate T (T.gk v) lowerSide [] t).1
      (locate T (T.gk v) lowerSide [] t).2).Avl := by
    rwa [plug_locate]
  rw [locate_lower_end] at hplug
  exact hplug.insertUp

/-! ## Removal -/

/-- What `Extract(key)` and `Erase(key)` make of a tree: the entry with the key, if there is
one, and the tree. -/
def eraseKey (T : AvlTraits K V) (key : K) (t : LinkedTree V) :
    Option (Addr × ℕ × V) × LinkedTree V :=
  match locate T key stop [] t with
  | (_, nil) => (none, t)
  | (c, node a h v l r) => (some (a, h, v), eraseAt c (node a h v l r))

/-- The removal of an entry takes it out of the entries of the tree. -/
theorem inorder_plug_eraseAt : ∃ L R, (Place.plug c (node a h v l r)).inorder = L ++ (a, v) :: R
    ∧ (eraseAt c (node a h v l r)).inorder = L ++ R := by
  refine ⟨Place.before c ++ l.inorder, r.inorder ++ Place.after c, ?_, ?_⟩
  · rw [Place.inorder_plug]
    simp
  · rw [inorder_eraseAt]
    simp

/-- `Erase` finds no entry with the key, or takes out one that has it. -/
theorem eraseKey_outcome (key : K) (hT : LawfulCompare T.cmp) (hsorted : t.inorder.Pairwise T.le) :
    (eraseKey T key t = (none, t) ∧ ∀ x ∈ t.inorder, T.cmp (T.gk x.2) key ≠ 0)
      ∨ ∃ a h v, (eraseKey T key t).1 = some (a, h, v) ∧ T.cmp (T.gk v) key = 0
        ∧ ∃ L R, t.inorder = L ++ (a, v) :: R ∧ (eraseKey T key t).2.inorder = L ++ R := by
  have hplug := plug_locate T key stop [] t
  have hfind := find_spec key hT hsorted
  unfold find at hfind
  have hend := locate_stop_end T key [] t
  unfold eraseKey
  generalize locate T key stop [] t = z at hplug hfind hend ⊢
  obtain ⟨c, s⟩ := z
  rcases hfind with ⟨hnone, hall⟩ | ⟨a, v, hsome, hmem, heq⟩
  · obtain rfl := root_eq_none.mp hnone
    exact Or.inl ⟨rfl, hall⟩
  · rcases hend with hnil | ⟨b, h, w, l, r, hnode, hkey⟩
    · dsimp only at hnil hsome
      rw [hnil] at hsome
      cases hsome
    · dsimp only at hnode
      subst hnode
      rw [Place.plug_nil] at hplug
      exact Or.inr ⟨b, h, w, rfl, hkey, hplug ▸ inorder_plug_eraseAt⟩

/-- Where there is no entry with the key nothing is removed. -/
theorem eraseKey_of_none (h : (eraseKey T key t).1 = none) : (eraseKey T key t).2 = t := by
  unfold eraseKey at h ⊢
  generalize locate T key stop [] t = z at h ⊢
  obtain ⟨c, s⟩ := z
  cases s with
  | nil => rfl
  | node _ _ _ _ _ => cases h

/-- A removal keeps the entries that are left as they were. -/
theorem sublist_eraseAt :
    (eraseAt c (node a h v l r)).inorder.Sublist (Place.plug c (node a h v l r)).inorder := by
  obtain ⟨L, R, hent, hent'⟩ := inorder_plug_eraseAt (c := c) (a := a) (h := h) (v := v) (l := l)
    (r := r)
  rw [hent, hent']
  exact (List.sublist_cons_self _ R).append_left L

/-- Taking a node out makes one entry less. -/
theorem length_eraseAt : (eraseAt c (node a h v l r)).inorder.length + 1
    = (Place.plug c (node a h v l r)).inorder.length := by
  obtain ⟨L, R, hent, hent'⟩ := inorder_plug_eraseAt (c := c) (a := a) (h := h) (v := v) (l := l)
    (r := r)
  rw [hent, hent']
  simp
  omega

/-- What `Find` does not find is not removed. -/
theorem eraseKey_of_find (h : find T key t = none) : eraseKey T key t = (none, t) := by
  unfold find at h
  unfold eraseKey
  generalize locate T key stop [] t = z at h ⊢
  obtain ⟨c, s⟩ := z
  obtain rfl := root_eq_none.mp h
  rfl

/-- What `Find` finds is removed. -/
theorem exists_eraseKey_of_find (h : find T key t = some a) :
    ∃ h v, (eraseKey T key t).1 = some (a, h, v) := by
  unfold find at h
  unfold eraseKey
  generalize locate T key stop [] t = z at h ⊢
  obtain ⟨c, s⟩ := z
  cases s with
  | nil => cases h
  | node b h' v l r =>
    obtain rfl := Option.some.inj h
    exact ⟨h', v, rfl⟩

/-- The place of the entry that is removed. -/
theorem exists_place_of_eraseKey (h' : (eraseKey T key t).1 = some (a, h, v)) :
    ∃ c l r, t = Place.plug c (node a h v l r)
      ∧ (eraseKey T key t).2 = eraseAt c (node a h v l r) := by
  have hplug := plug_locate T key stop [] t
  unfold eraseKey at h' ⊢
  generalize locate T key stop [] t = z at h' hplug ⊢
  obtain ⟨c, s⟩ := z
  cases s with
  | nil => cases h'
  | node a' h'' v' l r =>
    cases h'
    exact ⟨c, l, r, hplug.symm, rfl⟩

/-- The entries that stay are in the order in which they were. -/
theorem sublist_eraseKey (T : AvlTraits K V) (key : K) (t : LinkedTree V) :
    (eraseKey T key t).2.inorder.Sublist t.inorder := by
  cases hout : (eraseKey T key t).1 with
  | none => rw [eraseKey_of_none hout]
  | some x =>
    obtain ⟨a, h, v⟩ := x
    obtain ⟨c, l, r, rfl, hafter⟩ := exists_place_of_eraseKey hout
    rw [hafter]
    exact sublist_eraseAt

/-- `Erase` makes one entry less if it finds the key. -/
theorem length_eraseKey (T : AvlTraits K V) (key : K) (t : LinkedTree V) :
    (eraseKey T key t).2.inorder.length + (if (eraseKey T key t).1.isSome then 1 else 0)
      = t.inorder.length := by
  cases hout : (eraseKey T key t).1 with
  | none =>
    rw [eraseKey_of_none hout]
    rfl
  | some x =>
    obtain ⟨a, h, v⟩ := x
    obtain ⟨c, l, r, rfl, hafter⟩ := exists_place_of_eraseKey hout
    rw [hafter]
    exact length_eraseAt

/-- `Erase` repairs the heights. -/
theorem Avl.eraseKey (ht : t.Avl) : (eraseKey T key t).2.Avl := by
  have hplug : (Place.plug (locate T key stop [] t).1 (locate T key stop [] t).2).Avl := by
    rwa [plug_locate]
  unfold LinkedTree.eraseKey
  generalize locate T key stop [] t = z at hplug ⊢
  obtain ⟨c, s⟩ := z
  cases s with
  | nil => exact ht
  | node _ _ _ _ _ => exact hplug.eraseAt

/-! ## Handing out all nodes -/

/-- The order in which `ReuseAllNodes` hands out the nodes: both subtrees before the root. -/
def postorder : LinkedTree V → List (Addr × V)
  | nil => []
  | node a _ v l r => l.postorder ++ r.postorder ++ [(a, v)]

/-- The rounds of the loop of `ReuseAllNodes` from the root on: down into each subtree, and
one for the root when it is a leaf. -/
def rounds : LinkedTree V → ℕ
  | nil => 0
  | node _ _ _ l r => (if l.root = none then 0 else l.rounds + 1)
      + (if r.root = none then 0 else r.rounds + 1) + 1

/-- Both orders have the same entries. -/
theorem postorder_perm_inorder (t : LinkedTree V) : t.postorder.Perm t.inorder := by
  induction t with
  | nil => exact List.Perm.refl _
  | node a h v l r ihl ihr =>
    rw [postorder, inorder_node, List.append_assoc]
    refine ihl.append ?_
    exact (List.perm_append_singleton _ _).trans (ihr.cons _)

/-- The loop of `ReuseAllNodes` needs two rounds for each node at most. -/
theorem rounds_le (t : LinkedTree V) :
    (if t.root = none then 0 else t.rounds + 1) ≤ 2 * t.inorder.length := by
  induction t with
  | nil => exact Nat.zero_le _
  | node a h v l r ihl ihr =>
    rw [if_neg (by simp), rounds, inorder_node, List.length_append, List.length_cons]
    omega

end LinkedTree

end Mmkvc
