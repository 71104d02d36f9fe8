/-
# The entries of a `HashTable`

`Contains T l M H top` says that a table with the layout `l` has the entries `M`, in whatever
buckets and in whatever order.  Each operation is told by what it does to the entries.
-/
import Mmkvc.ListTableOperations

namespace Mmkvc

open Slist Tables

variable {K V : Type}

namespace HashTable

/-- A table with the entries `M`, and the nodes `H` beside its lists. -/
def Contains (T : EqualTraits K V) (l : Layout) (M : Multiset (Addr × V))
    (H : Multiset (Addr × SNode V)) (top : ℕ) (s : HashTable V) : Prop :=
  ∃ f, ListsInv T l f ∧ gather l.size (listed f) = M ∧ Holds l f H top s

/-- The same, where the entry `e` is at the front of the bucket `b`. -/
def Fronts (T : EqualTraits K V) (l : Layout) (M : Multiset (Addr × V))
    (H : Multiset (Addr × SNode V)) (top : ℕ) (b : Bucket) (e : Addr × V) (s : HashTable V) : Prop :=
  ∃ f es, ListsInv T l f ∧ gather l.size (listed f) = M ∧ b.2 < l.size b.1 ∧ f b = e :: es
    ∧ Holds l f H top s

/-- The entries with the one that may have been found. -/
def withEntry (o : Option (Addr × V)) (M : Multiset (Addr × V)) : Multiset (Addr × V) :=
  o.elim M fun e => e ::ₘ M

section

variable {T : EqualTraits K V} {l : Layout} {f : Bucket → List (Addr × V)} {M : Multiset (Addr × V)}
  {H : Multiset (Addr × SNode V)} {top : ℕ} {b : Bucket} {v : V} {k : K} {e : Addr × V}
  {es : List (Addr × V)} {o : Option (Addr × V)} {α : Type}

/-- A table with some entries has them in lists. -/
theorem triple_of_lists {p : HashM V α} {Q : α → HashTable V → Prop}
    (h : ∀ f, ListsInv T l f → gather l.size (listed f) = M → Triple (Holds l f H top) p Q) :
    Triple (Contains T l M H top) p Q := by
  rintro s ⟨f, hf, hM, hs⟩
  exact h f hf hM s hs

/-- There is one entry with the key. -/
theorem ListsInv.locate_eq (hf : ListsInv T l f) (hT : LawfulEqual T)
    (ho : Lookup T.Equiv T.keyOf k (gather l.size (listed f)) o) :
    (locate T l f k).map Prod.snd = o :=
  Lookup.eq hT.equivalence hf.unique (hf.locate_spec hT k) ho

/-- A new entry keeps the invariant. -/
theorem ListsInv.insert (hf : ListsInv T l f) (hT : LawfulEqual T) {a : Addr}
    (ho : Lookup T.Equiv T.keyOf (T.gk v) (gather l.size (listed f)) none) :
    let b := target T l (T.gk v)
    ListsInv T l (Function.update f b ((a, v) :: f b))
      ∧ gather l.size (listed (Function.update f b ((a, v) :: f b)))
        = (a, v) ::ₘ gather l.size (listed f) := by
  intro b
  have hfits : Fits l (T.hashOf v) b := by
    change Fits l (T.hashOf v) (bucketIn T l (T.gk v) (if l.moved.isSome then .table2 else .table1))
    cases hr : l.moved with
    | none => exact ⟨rfl, by rw [hr]; exact Nat.zero_le _⟩
    | some r => exact ⟨rfl, by rw [hr]; nofun⟩
  have hb := hfits.lt hf.sound
  have hgather : gather l.size (listed (Function.update f b ((a, v) :: f b)))
      = (a, v) ::ₘ gather l.size (listed f) := by
    rw [gather_listed_update hb, gather_listed hb, ← Multiset.cons_coe, Multiset.cons_add]
  refine ⟨hf.update (fun e he => ?_) ?_, hgather⟩
  · rcases List.mem_cons.mp he with rfl | he
    · exact hfits
    · exact hf.placed b e he
  · rw [hgather]
    exact (unique_cons hT.equivalence).mpr
      ⟨fun e he hk => ho e he (hT.equivalence.symm hk), hf.unique⟩

/-- An entry is taken out of its bucket. -/
theorem ListsInv.remove (hf : ListsInv T l f) (hT : LawfulEqual T) (hb : b.2 < l.size b.1)
    (hes : (f b : Multiset (Addr × V)) = e ::ₘ (es : Multiset (Addr × V))) :
    ListsInv T l (Function.update f b es)
      ∧ gather l.size (listed f) = e ::ₘ gather l.size (listed (Function.update f b es)) := by
  refine ⟨hf.shrink hT hb ?_, ?_⟩
  · rw [hes]
    exact Multiset.le_cons_self _ _
  · rw [gather_listed_update hb, gather_listed hb, hes, Multiset.cons_add]

/-- The entry that was found, and the others. -/
theorem coe_of_found {pred : V → Bool} (h : found pred es = some e) :
    (es : Multiset (Addr × V)) = e ::ₘ (without pred es : Multiset (Addr × V)) := by
  have hcoe := coe_without pred es
  rw [h] at hcoe
  exact hcoe.trans (Multiset.singleton_add _ _)

/-- **`InsertWithDuplicate`.** -/
theorem insertWithDuplicate_spec (hT : LawfulEqual T) (ho : Lookup T.Equiv T.keyOf (T.gk v) M o) :
    Triple (Contains T l M H top) (insertWithDuplicate T v) fun x s =>
      x = (o.isNone, (o.map Prod.fst).getD top)
        ∧ Contains T (if o.isNone then l.start.advance.add else l.start.advance)
            (if o.isNone then (top, v) ::ₘ M else M) H (if o.isNone then top + 1 else top) s := by
  refine triple_of_lists fun f hf hM => (insertWithDuplicate_lists hf hT).post fun x s hs => ?_
  obtain ⟨hf₁, hgather⟩ := hf.start.1.advance
  rw [hf.start.2, hM] at hgather
  rw [← hgather] at ho
  have hlocate := hf₁.locate_eq hT ho
  cases h : locate T l.start.advance (advanceLists T l.start f) (T.gk v) with
  | some y =>
    rw [h] at hs hlocate
    obtain rfl : some y.2 = o := hlocate
    exact ⟨hs.1, _, hf₁, hgather, hs.2⟩
  | none =>
    rw [h] at hs hlocate
    obtain rfl : none = o := hlocate
    obtain ⟨hinv, hadd⟩ := hf₁.insert hT ho (a := top)
    exact ⟨hs.1, _, hinv.congr rfl rfl, hadd.trans (congrArg _ hgather), hs.2⟩

/-- **`Insert`.** -/
theorem insert_spec (hT : LawfulEqual T) (ho : Lookup T.Equiv T.keyOf (T.gk v) M o) :
    Triple (Contains T l M H top) (insert T v) fun x s =>
      x = (if o.isNone then some top else none)
        ∧ Contains T (if o.isNone then l.start.advance.add else l.start.advance)
            (if o.isNone then (top, v) ::ₘ M else M) H (if o.isNone then top + 1 else top) s := by
  refine Triple.bind_eq (insertWithDuplicate_spec hT ho) (triple_pure fun s hs => ⟨?_, hs⟩)
  cases o <;> rfl

/-- **`FindSlot`.** -/
theorem findSlot_spec (hT : LawfulEqual T) (ho : Lookup T.Equiv T.keyOf k M o) :
    Triple (Contains T l M H top) (findSlot T k) fun x s =>
      match o with
      | none => x = none ∧ Contains T l.advance M H top s
      | some e => ∃ b, x = some b ∧ Fronts T l.advance M H top b e s := by
  refine triple_of_lists fun f hf hM => (findSlot_lists hf).post fun x s hs => ?_
  obtain ⟨hf₁, hgather⟩ := hf.advance
  rw [hM] at hgather
  rw [← hgather] at ho
  have hlocate := hf₁.locate_eq hT ho
  cases h : locate T l.advance (advanceLists T l f) k with
  | none =>
    rw [h] at hs hlocate
    obtain rfl : none = o := hlocate
    exact ⟨hs.1, _, hf₁, hgather, hs.2⟩
  | some y =>
    obtain ⟨b, e⟩ := y
    obtain ⟨hfound, hb⟩ := locate_some hf₁ h
    rw [h] at hs hlocate
    obtain rfl : some e = o := hlocate
    have hcoe := coe_of_found hfound
    rw [Multiset.cons_coe] at hcoe
    refine ⟨b, hs.1, _, _, hf₁.shrink hT hb (le_of_eq hcoe.symm), ?_, hb, Function.update_self ..,
      hs.2⟩
    rw [gather_listed_update hb, ← hcoe, ← gather_listed hb, hgather]

/-- **`Find`.** -/
theorem find_spec (hT : LawfulEqual T) (ho : Lookup T.Equiv T.keyOf k M o) :
    Triple (Contains T l M H top) (find T k) fun x s =>
      x = o.map Prod.fst ∧ Contains T l.advance M H top s := by
  refine Triple.bind (findSlot_spec hT ho) fun x => ?_
  cases o with
  | none =>
    intro s hs
    obtain ⟨rfl, hs⟩ := hs
    exact ⟨none, s, rfl, rfl, hs⟩
  | some e =>
    rintro s ⟨b, rfl, hs⟩
    obtain ⟨f, es, hf, hM, hb, hfront, hs⟩ := hs
    have hspec : Triple (Holds l.advance f H top) (do return some (← onHeap (front b)))
        fun x s => x = some e.1 ∧ Contains T l.advance M H top s :=
      Triple.bind_eq (onHeap_lists (Lists.front_spec hfront))
        (triple_pure fun s hs => ⟨rfl, f, hf, hM, hs⟩)
    exact hspec s hs

/-- **`EraseAfterFindSlot`.** -/
theorem eraseAfterFindSlot_spec (hT : LawfulEqual T) :
    Triple (Fronts T l (e ::ₘ M) H top b e) (eraseAfterFindSlot b)
      fun _ => Contains T l M H top := by
  rintro s ⟨f, es, hf, hM, hb, hfront, hs⟩
  have hcoe : (f b : Multiset (Addr × V)) = e ::ₘ (es : Multiset (Addr × V)) := by
    rw [hfront, Multiset.cons_coe]
  obtain ⟨hinv, hgather⟩ := hf.remove hT hb hcoe
  rw [hM] at hgather
  have hrest := (Multiset.cons_inj_right e).mp hgather
  exact ((onHeap_unit (Lists.eraseAfterFindSlot_spec hb hfront)).post fun _ s hs =>
    ⟨_, hinv, hrest.symm, hs⟩) s hs

/-- **`Extract`.** -/
theorem extract_spec (hT : LawfulEqual T) (ho : Lookup T.Equiv T.keyOf k (withEntry o M) o) :
    Triple (Contains T l (withEntry o M) H top) (extract T k) fun x s =>
      x = o.map Prod.fst ∧ Contains T (if o.isSome then l.advance.remove else l.advance) M
        (released o + H) top s := by
  refine triple_of_lists fun f hf hM => (extract_lists hf).post fun x s hs => ?_
  obtain ⟨hf₁, hgather⟩ := hf.advance
  rw [hM] at hgather
  rw [← hgather] at ho
  have hlocate := hf₁.locate_eq hT ho
  cases h : locate T l.advance (advanceLists T l f) k with
  | none =>
    rw [h] at hs hlocate
    obtain rfl : none = o := hlocate
    rw [released, zero_add]
    exact ⟨hs.1, _, hf₁, hgather, hs.2⟩
  | some y =>
    obtain ⟨b, e⟩ := y
    obtain ⟨hfound, hb⟩ := locate_some hf₁ h
    rw [h] at hs hlocate
    obtain rfl : some e = o := hlocate
    obtain ⟨hinv, hrest⟩ := hf₁.remove hT hb (coe_of_found hfound)
    rw [hgather] at hrest
    exact ⟨hs.1, _, hinv.congr rfl rfl, ((Multiset.cons_inj_right e).mp hrest).symm, hs.2⟩

/-- **`Erase`.** -/
theorem erase_spec (hT : LawfulEqual T) (ho : Lookup T.Equiv T.keyOf k (withEntry o M) o) :
    Triple (Contains T l (withEntry o M) H top) (erase T k) fun x s =>
      x = (if o.isSome then 1 else 0)
        ∧ Contains T (if o.isSome then l.advance.remove else l.advance) M H top s := by
  refine Triple.bind_eq (extract_spec hT ho) ?_
  cases o with
  | none =>
    refine triple_pure fun s hs => ⟨rfl, ?_⟩
    rwa [released, zero_add] at hs
  | some e =>
    refine triple_of_lists fun f hf hM => ?_
    exact Triple.bind (onHeap_unit Lists.dropNode_spec) fun _ =>
      triple_pure fun s hs => ⟨rfl, f, hf, hM, hs⟩

/-- **`EraseRandom`.** -/
theorem eraseRandom_spec (hT : LawfulEqual T) :
    Triple (Contains T l M H top) (eraseRandom T) fun x s =>
      (x = 0 ∧ M = 0 ∧ Contains T l.advance M H top s)
      ∨ (x = 1 ∧ ∃ e M', M = e ::ₘ M' ∧ Contains T l.advance M' H top s) := by
  refine triple_of_lists fun f hf hM => (eraseRandom_lists hf).post fun x s hs => ?_
  obtain ⟨hf₁, hgather⟩ := hf.advance
  rw [hM] at hgather
  rcases hs with ⟨hx, hzero, hs⟩ | ⟨hx, b, e, es, hb, hfront, hs⟩
  · exact Or.inl ⟨hx, hgather.symm.trans hzero, _, hf₁, hgather, hs⟩
  · have hcoe : (advanceLists T l f b : Multiset (Addr × V)) = e ::ₘ (es : Multiset (Addr × V)) := by
      rw [hfront, Multiset.cons_coe]
    obtain ⟨hinv, hrest⟩ := hf₁.remove hT hb hcoe
    exact Or.inr ⟨hx, e, _, hgather.symm.trans hrest, _, hinv, rfl, hs⟩

/-- **`Clear`.** -/
theorem clear_contains : Triple (Contains T l M H top) clear
    fun _ => Contains T Layout.fresh 0 H top :=
  triple_of_lists fun _ hf _ => (clear_spec hf).post fun _ _ hs =>
    ⟨_, listsInv_fresh, gather_listed_nil _, hs⟩

end

end HashTable

end Mmkvc
