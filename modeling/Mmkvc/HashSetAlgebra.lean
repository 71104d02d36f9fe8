/-
# Union, Intersection and Difference of two sets

One set is iterated over while the other one is searched, so the searches may go on with a
rehash of the other set and change the order of its lists, but the iterator's set stays.
-/
import Mmkvc.HashSet
import Mmkvc.TableIteration

namespace Mmkvc

open Slist Tables HashTable

variable {K : Type}

/-! ## Keys among entries -/

namespace EqualTraits

variable {V : Type}

/-- One of the entries has the key. -/
def Among (T : EqualTraits K V) (M : Multiset (Addr × V)) (k : K) : Prop :=
  ∃ e ∈ M, T.Equiv (T.keyOf e) k

instance decidableAmong (T : EqualTraits K V) (M : Multiset (Addr × V)) :
    DecidablePred (T.Among M) := fun _ => Multiset.decidableExistsMultiset

end EqualTraits

/-- `Find` finds the keys among the entries. -/
theorem find_isSome_spec {V : Type} {T : EqualTraits K V} (hT : LawfulEqual T) (k : K)
    {M : Multiset (Addr × V)} {H : Multiset (Addr × SNode V)} {top : ℕ} :
    Triple (fun s => ∃ l, Contains T l M H top s) (find T k)
      fun x s => x.isSome = decide (T.Among M k) ∧ ∃ l, Contains T l M H top s := by
  rintro s ⟨l, hs⟩
  obtain ⟨o, ho⟩ := Inventory.Holds.exists_has (c := ⟨l, M, H, top⟩) hs hT k
  obtain ⟨x, s', hrun, rfl, hs'⟩ := find_spec hT ho s hs
  refine ⟨_, s', hrun, ?_, _, hs'⟩
  rw [Option.isSome_map]
  cases o with
  | none => exact (decide_eq_false fun ⟨e, he, hk⟩ => ho e he hk).symm
  | some e => exact (decide_eq_true ⟨e, ho⟩).symm

namespace HashSet

section

variable {T : EqualTraits K K} {M : Multiset (Addr × K)} {k : K}

/-- Each element is there once. -/
theorem countP_elements (hT : LawfulEqual T) (hid : T.gk = id) {es : List (Addr × K)}
    (hunique : Unique T.Equiv T.keyOf (es : Multiset (Addr × K))) :
    (es.map Prod.snd).countP (T.equalKey · k) = if T.Among es k then 1 else 0 := by
  induction es with
  | nil => rfl
  | cons e es ih =>
    rw [← Multiset.cons_coe, unique_cons hT.equivalence] at hunique
    have hkey : T.keyOf e = e.2 := congrFun hid e.2
    rw [List.map_cons, List.countP_cons, ih hunique.2]
    by_cases he : T.equalKey e.2 k = true
    · have hrest : ¬ T.Among es k := by
        rintro ⟨e', he', hk⟩
        refine hunique.1 e' he' (hT.equivalence.trans ?_ (hT.equivalence.symm hk))
        rw [hkey]
        exact he
      have hall : T.Among ((e :: es : List _) : Multiset (Addr × K)) k :=
        ⟨e, List.mem_cons_self, by rw [hkey]; exact he⟩
      rw [if_neg hrest, if_pos he, if_pos hall]
    · have hiff : T.Among ((e :: es : List _) : Multiset (Addr × K)) k ↔ T.Among es k := by
        constructor
        · rintro ⟨e', he', hk⟩
          rcases List.mem_cons.mp he' with rfl | he'
          · rw [hkey] at hk
            exact absurd hk he
          · exact ⟨e', he', hk⟩
        · rintro ⟨e', he', hk⟩
          exact ⟨e', List.mem_cons_of_mem e he', hk⟩
      rw [if_neg he, add_zero]
      exact if_congr hiff.symm rfl rfl

/-- Some of the elements are chosen by their keys. -/
theorem countP_filter_key {q : K → Bool} (hq : ∀ m, T.equalKey m k = true → q m = q k) (ms : List K) :
    (ms.filter q).countP (T.equalKey · k) = if q k then ms.countP (T.equalKey · k) else 0 := by
  rw [List.countP_filter]
  cases hk : q k with
  | true =>
    refine List.countP_congr fun m _ => ?_
    rw [Bool.and_eq_true]
    exact ⟨And.left, fun h => ⟨h, (hq m h).trans hk⟩⟩
  | false =>
    refine List.countP_eq_zero.mpr fun m _ h => ?_
    rw [Bool.and_eq_true] at h
    rw [hq m h.1, hk] at h
    cases h.2

theorem among_congr (hT : LawfulEqual T) {m : K} (h : T.equalKey m k = true) :
    decide (T.Among M m) = decide (T.Among M k) :=
  decide_eq_decide.mpr ⟨fun ⟨e, he, hk⟩ => ⟨e, he, hT.equivalence.trans hk h⟩,
    fun ⟨e, he, hk⟩ => ⟨e, he, hT.equivalence.trans hk (hT.equivalence.symm h)⟩⟩

end

/-! ## Two sets -/

/-- Two sets, one as `J` says and the other as `R` says. -/
def Both (o : Operand) (J R : HashTable K → Prop) (s : Operand → HashTable K) : Prop :=
  J (s o) ∧ R (s o.other)

section

variable {o : Operand} {J J' R : HashTable K → Prop} {α : Type} {p : HashM K α} {Q : α → Prop}

theorem Operand.other_ne (o : Operand) : o.other ≠ o := by
  cases o <;> nofun

@[simp] theorem Operand.other_other (o : Operand) : o.other.other = o := by
  cases o <;> rfl

theorem Operand.eq_or_other (o o' : Operand) : o' = o ∨ o' = o.other := by
  cases o <;> cases o' <;> simp [Operand.other]

/-- An operation of one set leaves the other as it is. -/
theorem apart_spec (h : Triple J p fun a s => Q a ∧ J' s) :
    Triple (Both o J R) (apart o p) fun a s => Q a ∧ Both o J' R s := by
  intro s hs
  obtain ⟨a, s', hrun, hQ, hJ⟩ := h (s o) hs.1
  refine ⟨a, Function.update s o s', ?_, hQ, ?_, ?_⟩
  · change ((p.run (s o)).map _) = _
    rw [hrun]
    rfl
  · rw [Function.update_self]
    exact hJ
  · rw [Function.update_of_ne o.other_ne]
    exact hs.2

/-- An operation on one set leaves the other one alone. -/
theorem apart_other_spec (h : Triple R p fun a s => Q a ∧ R s) :
    Triple (Both o J R) (apart o.other p) fun a s => Q a ∧ Both o J R s := by
  have hswap : ∀ s, Both o J R s ↔ Both o.other R J s := fun s => by
    unfold Both
    rw [Operand.other_other]
    exact and_comm
  exact (apart_spec (o := o.other) (R := J) h).conseq (fun s hs => (hswap s).mp hs)
    fun a s hs => ⟨hs.1, (hswap s).mpr hs.2⟩

/-- The choice of the smaller set changes neither. -/
theorem exists_lessSet (s : Operand → HashTable K) : ∃ o, (lessSet apart).run s = some (o, s) := by
  have hread : ∀ o, (apart o (read getSize)).run s = some ((s o).getSize, s) := fun o =>
    congrArg (fun t => some ((s o).getSize, t)) (Function.update_eq_self o s)
  refine ⟨if (s .this).getSize < (s .hs).getSize then .this else .hs, ?_⟩
  simp only [lessSet, StateT.run_bind, hread, Option.bind_eq_bind, Option.bind_some]
  rfl

end

section

variable {T : EqualTraits K K} {o : Operand} {l : Layout} {f : Bucket → List (Addr × K)}
  {H H' : Multiset (Addr × SNode K)} {M : Multiset (Addr × K)} {top top' : ℕ}

/-- The elements of a set in the order of the iterator. -/
def elements (l : Layout) (f : Bucket → List (Addr × K)) : List K :=
  (rest l.size f .table1 0).map Prod.snd

/-- **The loop over one set.** -/
theorem forEach_spec {R : HashTable K → Prop}
    {body : K → StateT (Operand → HashTable K) Option (List K)} {g : K → List K}
    (hbody : ∀ m, Triple (Both o (HashTable.Holds l f H top) R) (body m)
      fun r s => r = g m ∧ Both o (HashTable.Holds l f H top) R s) :
    Triple (Both o (HashTable.Holds l f H top) R) (forEach apart o body)
      fun r s => r = (elements l f).flatMap g ∧ Both o (HashTable.Holds l f H top) R s := by
  have hload : ∀ e ∈ rest l.size f .table1 0, Triple (HashTable.Holds l f H top)
      (onHeap (load e.1)) fun n s => n.value = e.2 ∧ HashTable.Holds l f H top s := by
    intro e he
    rw [← Multiset.mem_coe, coe_rest] at he
    obtain ⟨b, hb, hmem⟩ := mem_gather.mp he
    obtain ⟨next, hnext⟩ := exists_mem_cells hmem
    have hcell : (e.1, ⟨e.2, next⟩) ∈ gather l.size (fun b => cells (f b)) + H :=
      Multiset.mem_add.mpr (Or.inl (mem_gather.mpr ⟨b, hb, hnext⟩))
    have hread : Triple (Lists l.size f H top) (load e.1)
        fun n h => n = ⟨e.2, next⟩ ∧ Lists l.size f H top h := by
      have hspec := Slist.load_bind (p := pure) hcell
        (triple_pure (Q := fun n h => n = ⟨e.2, next⟩ ∧ Lists l.size f H top h)
          fun h hh => ⟨rfl, hh⟩)
      rwa [bind_pure] at hspec
    exact (onHeap_lists hread).post fun n s hs => ⟨by rw [hs.1], hs.2⟩
  refine (forAll_spec (g := fun e => g e.2) (walks l f H top) (fun h => apart_spec h)
    fun e he => Triple.bind (apart_spec (hload e he)) fun n => ?_).post fun r s hs => ⟨?_, hs.2⟩
  · refine Triple.of_pre (C := n.value = e.2) (fun hn => ?_) fun s hs => hs.1
    rw [hn]
    exact (hbody e.2).pre fun s hs => hs.2
  · rw [hs.1, elements, List.flatMap_map]

/-- A set with its lists, and the other one with its entries. -/
def Sets (T : EqualTraits K K) (o : Operand) (l : Layout) (f : Bucket → List (Addr × K))
    (H : Multiset (Addr × SNode K)) (top : ℕ) (M : Multiset (Addr × K))
    (H' : Multiset (Addr × SNode K)) (top' : ℕ) : (Operand → HashTable K) → Prop :=
  Both o (HashTable.Holds l f H top) fun s => ∃ l', Contains T l' M H' top' s

/-- The loop that calls the callback on the elements which the other set has, or has not. -/
theorem forEach_find_spec (hT : LawfulEqual T) {q : Option Addr → Bool} (c : Bool)
    (hq : ∀ x, q x = (x.isSome == c)) :
    Triple (Sets T o l f H top M H' top')
      (forEach apart o fun m => do return if q (← apart o.other (find T m)) then [m] else [])
      fun r s => r = (elements l f).filter (fun m => decide (T.Among M m) == c)
        ∧ Sets T o l f H top M H' top' s := by
  refine (forEach_spec (g := fun m => if decide (T.Among M m) == c then [m] else [])
    fun m => ?_).post fun r s hs => ⟨?_, hs.2⟩
  · refine Triple.bind (apart_other_spec (find_isSome_spec hT m)) fun x => ?_
    exact triple_pure fun s hs => ⟨by rw [hq, hs.1], hs.2⟩
  · rw [hs.1]
    induction elements l f with
    | nil => rfl
    | cons m ms ih =>
      rw [List.flatMap_cons, ih, List.filter_cons]
      split_ifs <;> rfl

end

/-! ## The calls of the callback -/

/-- The callback is called once on each element with `P`, equal ones taken as one, and on no
other. -/
def CalledOnce (T : EqualTraits K K) (called : List K) (P : K → Prop) : Prop :=
  ∀ k, (P k → called.countP (T.equalKey · k) = 1) ∧ (¬ P k → called.countP (T.equalKey · k) = 0)

/-- The set has an element that is equal to `k`. -/
def Member (T : EqualTraits K K) (s : HashTable K) (k : K) : Prop :=
  ∃ M, Stores s M ∧ T.Among M k

/-- A program ends with a call on each element with `P`, and the sets keep their elements. -/
def Calls (T : EqualTraits K K) (p : StateT (Operand → HashTable K) Option (List K))
    (s : Operand → HashTable K) (P : K → Prop) : Prop :=
  ∃ called s', p.run s = some (called, s') ∧ CalledOnce T called P
    ∧ ∀ o M, Stores (s o) M → Stores (s' o) M

section

variable {T : EqualTraits K K} {o : Operand} {l : Layout} {f : Bucket → List (Addr × K)}
  {H H' : Multiset (Addr × SNode K)} {M : Multiset (Addr × K)} {top top' : ℕ}
  {s s' : Operand → HashTable K} {k : K}

/-- A member is a key of an entry. -/
theorem member_iff {s : HashTable K} (hs : Stores s M) : Member T s k ↔ T.Among M k := by
  constructor
  · rintro ⟨M', hM', hk⟩
    rwa [hM'.eq hs] at hk
  · exact fun hk => ⟨M, hs, hk⟩

/-- Both sets keep their elements. -/
theorem Sets.stores (hs : Sets T o l f H top M H' top' s) (hs' : Sets T o l f H top M H' top' s')
    (hf : ListsInv T l f) : ∀ o M, Stores (s o) M → Stores (s' o) M := by
  intro o' N hN
  rcases Operand.eq_or_other o o' with rfl | rfl
  · have hstores := stores_of_contains (T := T) ⟨f, hf, rfl, hs.1⟩
    rw [hN.eq hstores]
    exact stores_of_contains ⟨f, hf, rfl, hs'.1⟩
  · obtain ⟨l', hcontains⟩ := hs.2
    obtain ⟨l'', hcontains'⟩ := hs'.2
    rw [hN.eq (stores_of_contains hcontains)]
    exact stores_of_contains hcontains'

/-- Two sets with their lists. -/
theorem exists_lists (hT : LawfulEqual T) {s : HashTable K} (hs : Reachable T s) :
    ∃ l f H top, ListsInv T l f ∧ HashTable.Holds l f H top s := by
  obtain ⟨c, f, hf, -, hc⟩ := hs.exists_holds hT
  exact ⟨c.layout, f, c.loose, c.top, hf, hc⟩

/-- Among the elements, a key is counted once if it is there, and else not at all. -/
theorem countP_elements_lists (hT : LawfulEqual T) (hid : T.gk = id) (hf : ListsInv T l f) :
    (elements l f).countP (T.equalKey · k) = if T.Among (gather l.size (listed f)) k then 1 else 0 := by
  have hcoe : ((rest l.size f .table1 0 : List _) : Multiset (Addr × K)) = gather l.size (listed f) :=
    coe_rest l.size f
  rw [elements, countP_elements hT hid (hcoe ▸ hf.unique), hcoe]

/-- The elements that the other set has, or has not. -/
theorem countP_filter_elements (hT : LawfulEqual T) (hid : T.gk = id) (hf : ListsInv T l f)
    (M : Multiset (Addr × K)) (c : Bool) :
    ((elements l f).filter fun m => decide (T.Among M m) == c).countP (T.equalKey · k)
      = if decide (T.Among M k) == c then (if T.Among (gather l.size (listed f)) k then 1 else 0)
        else 0 := by
  rw [countP_filter_key (fun m hm => by rw [among_congr hT hm]), countP_elements_lists hT hid hf]

theorem member_iff_of_holds {s : HashTable K} (hf : ListsInv T l f) (hs : HashTable.Holds l f H top s) :
    Member T s k ↔ T.Among (gather l.size (listed f)) k :=
  member_iff (stores_of_contains (T := T) ⟨f, hf, rfl, hs⟩)

theorem and_operands (P : Operand → Prop) (o : Operand) : P o ∧ P o.other ↔ P .this ∧ P .hs := by
  cases o with
  | this => exact Iff.rfl
  | hs => exact and_comm

theorem or_operands (P : Operand → Prop) (o : Operand) : P o ∨ P o.other ↔ P .this ∨ P .hs := by
  cases o with
  | this => exact Iff.rfl
  | hs => exact or_comm

/-- **`Difference`.** -/
theorem difference_calls (hT : LawfulEqual T) (hid : T.gk = id) (hs : ∀ o, Reachable T (s o)) :
    Calls T (difference apart T) s fun k => Member T (s .this) k ∧ ¬ Member T (s .hs) k := by
  obtain ⟨l, f, H, top, hf, hl⟩ := exists_lists hT (hs .this)
  obtain ⟨l', f', H', top', hf', hl'⟩ := exists_lists hT (hs .hs)
  have hsets : Sets T .this l f H top (gather l'.size (listed f')) H' top' s :=
    ⟨hl, l', f', hf', rfl, hl'⟩
  obtain ⟨called, s', hrun, rfl, hs'⟩ := forEach_find_spec (q := Option.isNone) hT false
    (fun x => by cases x <;> rfl) s hsets
  refine ⟨_, s', hrun, fun k => ?_, hsets.stores hs' hf⟩
  beta_reduce
  rw [countP_filter_elements hT hid hf, member_iff_of_holds hf hl, member_iff_of_holds hf' hl']
  by_cases hmem : T.Among (gather l.size (listed f)) k <;>
    by_cases hmem' : T.Among (gather l'.size (listed f')) k <;> simp [hmem, hmem']

/-- **`Intersection`.** -/
theorem intersection_calls (hT : LawfulEqual T) (hid : T.gk = id) (hs : ∀ o, Reachable T (s o)) :
    Calls T (intersection apart T) s fun k => Member T (s .this) k ∧ Member T (s .hs) k := by
  obtain ⟨o, hless⟩ := exists_lessSet s
  obtain ⟨l, f, H, top, hf, hl⟩ := exists_lists hT (hs o)
  obtain ⟨l', f', H', top', hf', hl'⟩ := exists_lists hT (hs o.other)
  have hsets : Sets T o l f H top (gather l'.size (listed f')) H' top' s :=
    ⟨hl, l', f', hf', rfl, hl'⟩
  obtain ⟨called, s', hrun, rfl, hs'⟩ := forEach_find_spec (q := Option.isSome) hT true
    (fun x => by cases x <;> rfl) s hsets
  refine ⟨_, s', run_bind_eq hless hrun, fun k => ?_, hsets.stores hs' hf⟩
  beta_reduce
  rw [countP_filter_elements hT hid hf, ← and_operands (fun o => Member T (s o) k) o,
    member_iff_of_holds hf hl, member_iff_of_holds hf' hl']
  by_cases hmem : T.Among (gather l.size (listed f)) k <;>
    by_cases hmem' : T.Among (gather l'.size (listed f')) k <;> simp [hmem, hmem']

/-- **`Union`.** -/
theorem union_calls (hT : LawfulEqual T) (hid : T.gk = id) (hs : ∀ o, Reachable T (s o)) :
    Calls T (union apart T) s fun k => Member T (s .this) k ∨ Member T (s .hs) k := by
  obtain ⟨o, hless⟩ := exists_lessSet s
  obtain ⟨l, f, H, top, hf, hl⟩ := exists_lists hT (hs o)
  obtain ⟨l', f', H', top', hf', hl'⟩ := exists_lists hT (hs o.other)
  have hboth : Both o.other (HashTable.Holds l' f' H' top') (HashTable.Holds l f H top) s := by
    refine ⟨hl', ?_⟩
    rw [Operand.other_other]
    exact hl
  -- all elements of the larger set
  have hall : Triple (Both o.other (HashTable.Holds l' f' H' top') (HashTable.Holds l f H top))
      (forEach apart o.other fun m => return [m]) fun r s =>
        r = (elements l' f').flatMap (fun m => [m])
          ∧ Both o.other (HashTable.Holds l' f' H' top') (HashTable.Holds l f H top) s :=
    forEach_spec fun m => triple_pure fun s hs => ⟨rfl, hs⟩
  obtain ⟨called₁, s₁, hrun₁, rfl, hs₁⟩ := hall s hboth
  have hsets₁ : Sets T o l f H top (gather l'.size (listed f')) H' top' s₁ := by
    have hholds := hs₁.2
    rw [Operand.other_other] at hholds
    exact ⟨hholds, l', f', hf', rfl, hs₁.1⟩
  -- those of the smaller one that it has not
  obtain ⟨called₂, s₂, hrun₂, rfl, hs₂⟩ := forEach_find_spec (q := Option.isNone) hT false
    (fun x => by cases x <;> rfl) s₁ hsets₁
  have hsets : Sets T o l f H top (gather l'.size (listed f')) H' top' s :=
    ⟨hl, l', f', hf', rfl, hl'⟩
  refine ⟨_, s₂, run_bind_eq hless (run_bind_eq hrun₁ (run_bind_eq hrun₂ rfl)), fun k => ?_,
    hsets.stores hs₂ hf⟩
  have hfirst : (elements l' f').flatMap (fun m => [m]) = elements l' f' := by
    rw [← List.map_eq_flatMap, List.map_id'']
    exact fun _ => rfl
  beta_reduce
  rw [hfirst, List.countP_append, countP_filter_elements hT hid hf, countP_elements_lists hT hid hf',
    ← or_operands (fun o => Member T (s o) k) o, member_iff_of_holds hf hl,
    member_iff_of_holds hf' hl']
  by_cases hmem : T.Among (gather l.size (listed f)) k <;>
    by_cases hmem' : T.Among (gather l'.size (listed f')) k <;> simp [hmem, hmem']

end

/-- **Union, Intersection and Difference** of two different sets call the callback once on each
element of the union, the intersection and the difference, whatever the phases of their
rehashes, and both sets keep their elements. -/
theorem calls_of_reachable {hash : K → BitVec 64} {equalKey : K → K → Bool}
    (hT : LawfulEqual (setTraits hash equalKey)) (s : Operand → HashTable K)
    (hs : ∀ o, Reachable (setTraits hash equalKey) (s o)) :
    let T := setTraits hash equalKey
    Calls T (union apart T) s (fun k => Member T (s .this) k ∨ Member T (s .hs) k)
      ∧ Calls T (intersection apart T) s (fun k => Member T (s .this) k ∧ Member T (s .hs) k)
      ∧ Calls T (difference apart T) s (fun k => Member T (s .this) k ∧ ¬ Member T (s .hs) k) := by
  intro T
  exact ⟨union_calls hT rfl hs, intersection_calls hT rfl hs, difference_calls hT rfl hs⟩

/-- A set in the middle of a rehash and one with keys that share a bucket. -/
theorem calls_of_reachable_rehashing : ∃ s : Operand → HashTable ℤ,
    (s .this).rehashMoveBucketIndex = some 1
      ∧ Calls intKeys (union apart intKeys) s
        (fun k => Member intKeys (s .this) k ∨ Member intKeys (s .hs) k)
      ∧ Calls intKeys (intersection apart intKeys) s
        (fun k => Member intKeys (s .this) k ∧ Member intKeys (s .hs) k)
      ∧ Calls intKeys (difference apart intKeys) s
        (fun k => Member intKeys (s .this) k ∧ ¬ Member intKeys (s .hs) k) := by
  have hthis : ((HashTable.construct (V := ℤ)).bind fun s₀ =>
      (Transition.run (step intKeys) s₀ ([1, 2, 5, 9, 3].map .insert)).map
        (·.rehashMoveBucketIndex)) = some (some 1) := by decide +kernel
  have hhs : ((HashTable.construct (V := ℤ)).bind fun s₀ =>
      (Transition.run (step intKeys) s₀ ([5, 1, 7].map .insert)).map
        (·.rehashMoveBucketIndex)) = some none := by decide +kernel
  obtain ⟨s₀, hs₀, hrun⟩ := Option.bind_eq_some_iff.mp hthis
  obtain ⟨A, hA, hmoved⟩ := Option.map_eq_some_iff.mp hrun
  obtain ⟨t₀, ht₀, hrun'⟩ := Option.bind_eq_some_iff.mp hhs
  obtain ⟨B, hB, -⟩ := Option.map_eq_some_iff.mp hrun'
  let s : Operand → HashTable ℤ := fun o => o.rec A B
  have hreach : ∀ o, Reachable intKeys (s o) := by
    rintro (_ | _)
    · exact ⟨s₀, _, hs₀, hA⟩
    · exact ⟨t₀, _, ht₀, hB⟩
  exact ⟨s, hmoved, calls_of_reachable lawfulEqual_int s hreach⟩

end HashSet

end Mmkvc
