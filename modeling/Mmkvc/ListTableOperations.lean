/-
# What the operations of `HashTable` return and leave

A table is told by its layout and the lists of its buckets.  An operation moves a bucket if a
rehash is on, goes to the bucket that a key may be in, and changes the list of this bucket alone.
-/
import Mmkvc.HashSet
import Mmkvc.ListTables

namespace Mmkvc

open Slist Tables

variable {K V : Type}

namespace HashTable

section

variable {T : EqualTraits K V} {l : Layout} {f : Bucket → List (Addr × V)}
  {H : Multiset (Addr × SNode V)} {top r : ℕ} {b : Bucket} {v : V} {k : K}
  {e : Addr × V} {es : List (Addr × V)} {α : Type}

/-! ## Looking for a key -/

/-- The bucket of a key in a table. -/
def bucketIn (T : EqualTraits K V) (l : Layout) (k : K) (t : TableName) : Bucket :=
  (t, (T.hash k).toNat % l.size t)

/-- The entry with a key and its bucket, in the first table or in the second one. -/
def locate (T : EqualTraits K V) (l : Layout) (f : Bucket → List (Addr × V)) (k : K) :
    Option (Bucket × (Addr × V)) :=
  match found (T.has k) (f (bucketIn T l k .table1)) with
  | some e => some (bucketIn T l k .table1, e)
  | none =>
    if l.moved.isSome then
      (found (T.has k) (f (bucketIn T l k .table2))).map fun e => (bucketIn T l k .table2, e)
    else none

/-- The bucket of a key is one that exists. -/
theorem ListsInv.bucketIn_lt (hf : ListsInv T l f) {t : TableName} (ht : t = .table2 → l.moved ≠ none) :
    (bucketIn T l k t).2 < l.size (bucketIn T l k t).1 := by
  have hpos := hf.sound.size_pos
  cases t with
  | table1 => exact Nat.mod_lt _ hpos
  | table2 =>
    obtain ⟨r, hr⟩ := Option.ne_none_iff_exists'.mp (ht rfl)
    have hsize := (hf.sound.rehashing r hr).1
    exact Nat.mod_lt _ (by omega)

/-- What is located is found in its bucket. -/
theorem locate_some (hf : ListsInv T l f) (h : locate T l f k = some (b, e)) :
    found (T.has k) (f b) = some e ∧ b.2 < l.size b.1 := by
  unfold locate at h
  cases h1 : found (T.has k) (f (bucketIn T l k .table1)) with
  | some e' =>
    rw [h1] at h
    obtain ⟨rfl, rfl⟩ := Prod.mk.inj (Option.some.inj h)
    exact ⟨h1, hf.bucketIn_lt nofun⟩
  | none =>
    rw [h1] at h
    cases hr : l.moved with
    | none =>
      rw [hr] at h
      cases h
    | some r =>
      rw [hr] at h
      obtain ⟨e', he', heq⟩ := Option.map_eq_some_iff.mp h
      obtain ⟨rfl, rfl⟩ := Prod.mk.inj heq
      exact ⟨he', hf.bucketIn_lt fun _ => by simp [hr]⟩

/-- **The entry of a key is located.** -/
theorem ListsInv.locate_spec (hf : ListsInv T l f) (hT : LawfulEqual T) (k : K) :
    Lookup T.Equiv T.keyOf k (gather l.size (listed f)) ((locate T l f k).map Prod.snd) := by
  cases h : locate T l f k with
  | some x =>
    obtain ⟨hfound, hb⟩ := locate_some hf h
    obtain ⟨hmem, hkey⟩ := mem_of_found hfound
    exact ⟨mem_gather.mpr ⟨_, hb, hmem⟩, hkey⟩
  | none =>
    intro e he hk
    have hhash : T.hashOf e.2 = (T.hash k).toNat := congrArg _ (hT.hash _ _ hk)
    unfold locate at h
    cases h1 : found (T.has k) (f (bucketIn T l k .table1)) with
    | some e' => simp [h1] at h
    | none =>
      rcases hf.placed.mem_cases he with hmem | ⟨hmoved, hmem⟩
      · rw [hhash] at hmem
        exact ne_of_found h1 e hmem hk
      · rw [hhash] at hmem
        rw [h1, if_pos (Option.isSome_iff_ne_none.mpr hmoved), Option.map_eq_none_iff] at h
        exact ne_of_found h e hmem hk

/-- **The loop over the tables**: what it gives for a key is what its body gives where the key is
located. -/
theorem forTables_spec {g : Bucket → HashM V (Option α)}
    {R : Option (Bucket × (Addr × V)) → Option α → HashTable V → Prop} (hf : ListsInv T l f)
    (hmiss : ∀ b : Bucket, b.2 < l.size b.1 → found (T.has k) (f b) = none →
      Triple (Holds l f H top) (g b) fun x s => x = none ∧ Holds l f H top s)
    (hhit : ∀ (b : Bucket) e, b.2 < l.size b.1 → found (T.has k) (f b) = some e →
      Triple (Holds l f H top) (g b) fun x s => x.isSome ∧ R (some (b, e)) x s)
    (hnone : ∀ s, Holds l f H top s → R none none s) :
    Triple (Holds l f H top) (forTables (T.hash k) g) (R (locate T l f k)) := by
  have hlt1 := hf.bucketIn_lt (k := k) (t := .table1) nofun
  unfold forTables locate
  refine read_bind (x := l.moved.isSome) (fun s hs => by rw [hs.moved_eq])
    (bucketOf_bind hf.sound nofun ?_)
  cases h1 : found (T.has k) (f (bucketIn T l k .table1)) with
  | some e =>
    refine Triple.bind (hhit _ e hlt1 h1) fun x => ?_
    cases x with
    | some y => exact triple_pure fun s hs => hs.2
    | none => exact Triple.of_pre (C := False) nofun fun s hs => absurd hs.1 nofun
  | none =>
    refine Triple.bind_eq (hmiss _ hlt1 h1) ?_
    cases hr : l.moved with
    | none => exact triple_pure hnone
    | some r =>
      have hmoved : l.moved ≠ none := by simp [hr]
      have hlt2 := hf.bucketIn_lt (k := k) (t := .table2) fun _ => hmoved
      dsimp only [Option.isSome_some]
      rw [if_pos rfl, if_pos rfl]
      refine bucketOf_bind hf.sound (fun _ => hmoved) ?_
      cases h2 : found (T.has k) (f (bucketIn T l k .table2)) with
      | some e => exact (hhit _ e hlt2 h2).post fun x s hs => hs.2
      | none =>
        refine (hmiss _ hlt2 h2).post fun x s hs => ?_
        rw [hs.1]
        exact hnone s hs.2

/-! ## Insertion -/

/-- The bucket that gets a new entry: of the second table during a rehash. -/
def target (T : EqualTraits K V) (l : Layout) (k : K) : Bucket :=
  bucketIn T l k (if l.moved.isSome then .table2 else .table1)

/-- The search for a duplicate finds the first entry with the key. -/
theorem getDuplicate_spec (hT : LawfulEqual T) (hb : b.2 < l.size b.1) :
    Triple (Holds l f H top) (onHeap (getDuplicate T b v))
      fun x s => x = (found (T.has (T.gk v)) (f b)).map Prod.fst ∧ Holds l f H top s := by
  have hpred : (fun val => T.equalKey (T.gk v) (T.gk val)) = T.has (T.gk v) := by
    funext val
    exact Bool.eq_iff_iff.mpr ⟨hT.equivalence.symm, hT.equivalence.symm⟩
  unfold getDuplicate
  rw [hpred]
  exact onHeap_lists (Lists.searchNodeIf_spec hb)

/-- Without a duplicate the insertion goes on. -/
theorem checkDuplicate_none {after : HashM V (Bool × Addr)} {R : Bool × Addr → HashTable V → Prop}
    (hT : LawfulEqual T) (hb : b.2 < l.size b.1) (hfound : found (T.has (T.gk v)) (f b) = none)
    (h : Triple (Holds l f H top) after R) :
    Triple (Holds l f H top) (checkDuplicate T b v after) R := by
  refine Triple.bind_eq (getDuplicate_spec hT hb) ?_
  rw [hfound]
  exact h

/-- With a duplicate the insertion ends there. -/
theorem checkDuplicate_some {after : HashM V (Bool × Addr)} (hT : LawfulEqual T)
    (hb : b.2 < l.size b.1) (hfound : found (T.has (T.gk v)) (f b) = some e) :
    Triple (Holds l f H top) (checkDuplicate T b v after)
      fun x s => x = (false, e.1) ∧ Holds l f H top s := by
  refine Triple.bind_eq (getDuplicate_spec hT hb) ?_
  rw [hfound]
  exact triple_pure fun s hs => ⟨rfl, hs⟩

/-- A new entry becomes the front of its bucket and is counted. -/
theorem emplace_spec (hb : b.2 < l.size b.1) :
    Triple (Holds l f H top) (emplace b v)
      fun x s => x = (true, top)
        ∧ Holds l.add (Function.update f b ((top, v) :: f b)) H (top + 1) s := by
  refine Triple.bind (onHeap_unit (Lists.emplaceFront_spec hb)) fun _ => ?_
  refine Triple.bind_eq (onHeap_lists (Lists.front_spec (Function.update_self ..))) ?_
  exact Triple.bind setUsed_spec fun _ => triple_pure fun s hs => ⟨rfl, hs⟩

/-- **`InsertWithDuplicate`.** -/
theorem insertWithDuplicate_lists (hf : ListsInv T l f) (hT : LawfulEqual T) :
    let l₁ := l.start.advance
    let f₁ := advanceLists T l.start f
    Triple (Holds l f H top) (insertWithDuplicate T v) fun x s =>
      match locate T l₁ f₁ (T.gk v) with
      | some (_, e) => x = (false, e.1) ∧ Holds l₁ f₁ H top s
      | none => x = (true, top) ∧ Holds l₁.add (Function.update f₁ (target T l₁ (T.gk v))
          ((top, v) :: f₁ (target T l₁ (T.gk v)))) H (top + 1) s := by
  intro l₁ f₁
  have hf₁ : ListsInv T l₁ f₁ := hf.start.1.advance.1
  have hlt1 := hf₁.bucketIn_lt (k := T.gk v) (t := .table1) nofun
  unfold insertWithDuplicate
  refine Triple.bind (rehash_spec hf) fun _ => ?_
  refine Triple.bind (incrementalRehash_spec hf.start.1) fun _ => ?_
  refine read_bind (fun s hs => bucketIndex_table1 hf₁.sound _ hs) ?_
  refine read_bind (fun s hs => hs.moved_eq) ?_
  cases hr : l₁.moved with
  | none =>
    have htarget : target T l₁ (T.gk v) = bucketIn T l₁ (T.gk v) .table1 := by
      unfold target
      rw [hr]
      rfl
    rw [htarget]
    unfold locate
    refine bucket_bind hlt1 ?_
    cases h1 : found (T.has (T.gk v)) (f₁ (bucketIn T l₁ (T.gk v) .table1)) with
    | some e => exact checkDuplicate_some hT hlt1 h1
    | none =>
      rw [hr]
      exact checkDuplicate_none hT hlt1 h1 (emplace_spec hlt1)
  | some r =>
    have hmoved : l₁.moved ≠ none := by simp [hr]
    have hlt2 := hf₁.bucketIn_lt (k := T.gk v) (t := .table2) fun _ => hmoved
    have htarget : target T l₁ (T.gk v) = bucketIn T l₁ (T.gk v) .table2 := by
      unfold target
      rw [hr]
      rfl
    -- the second table is looked at last, and gets the entry
    have hsecond : Triple (Holds l₁ f₁ H top)
        (do
          let b ← bucket .table2 ((T.hash (T.gk v)).toNat % l₁.size .table2)
          checkDuplicate T b v (emplace b v))
        fun x s => match (found (T.has (T.gk v)) (f₁ (bucketIn T l₁ (T.gk v) .table2))) with
          | some e => x = (false, e.1) ∧ Holds l₁ f₁ H top s
          | none => x = (true, top) ∧ Holds l₁.add (Function.update f₁ (bucketIn T l₁ (T.gk v) .table2)
              ((top, v) :: f₁ (bucketIn T l₁ (T.gk v) .table2))) H (top + 1) s := by
      refine bucket_bind hlt2 ?_
      cases h2 : found (T.has (T.gk v)) (f₁ (bucketIn T l₁ (T.gk v) .table2)) with
      | some e => exact checkDuplicate_some hT hlt2 h2
      | none => exact checkDuplicate_none hT hlt2 h2 (emplace_spec hlt2)
    have hlocate : found (T.has (T.gk v)) (f₁ (bucketIn T l₁ (T.gk v) .table1)) = none →
        locate T l₁ f₁ (T.gk v) = (found (T.has (T.gk v)) (f₁ (bucketIn T l₁ (T.gk v) .table2))).map
          fun e => (bucketIn T l₁ (T.gk v) .table2, e) := by
      intro h1
      rw [locate, h1, hr]
      rfl
    rw [htarget]
    refine read_bind (fun s hs => bucketIndex_eq hf₁.sound (fun _ => hmoved) _ hs) ?_
    refine Triple.ite (fun hlt => ?_) fun hge => ?_
    · -- the bucket of the first table has been moved
      have hnil : f₁ (bucketIn T l₁ (T.gk v) .table1) = [] := by
        refine (Multiset.coe_eq_zero _).mp (Multiset.eq_zero_of_forall_notMem fun e he => ?_)
        have hle : l₁.moved.getD 0 ≤ _ := (hf₁.placed (bucketIn T l₁ (T.gk v) .table1) e he).2
        rw [hr, Option.getD_some] at hle
        exact absurd hlt (not_lt.mpr hle)
      rw [hlocate (by rw [hnil]; rfl)]
      refine hsecond.post fun x s hs => ?_
      cases h2 : found (T.has (T.gk v)) (f₁ (bucketIn T l₁ (T.gk v) .table2)) with
      | some e => rwa [h2] at hs
      | none => rwa [h2] at hs
    · refine bucket_bind hlt1 ?_
      cases h1 : found (T.has (T.gk v)) (f₁ (bucketIn T l₁ (T.gk v) .table1)) with
      | some e =>
        have hlocate1 : locate T l₁ f₁ (T.gk v) = some (bucketIn T l₁ (T.gk v) .table1, e) := by
          rw [locate, h1]
        rw [hlocate1]
        exact checkDuplicate_some hT hlt1 h1
      | none =>
        rw [hlocate h1]
        refine checkDuplicate_none hT hlt1 h1 (hsecond.post fun x s hs => ?_)
        cases h2 : found (T.has (T.gk v)) (f₁ (bucketIn T l₁ (T.gk v) .table2)) with
        | some e => rwa [h2] at hs
        | none => rwa [h2] at hs

/-! ## Search and removal -/

/-- Nothing is taken out of a bucket without such an entry. -/
theorem extractNodeIf_none {pred : V → Bool} (hb : b.2 < l.size b.1)
    (hfound : found pred (f b) = none) :
    Triple (Holds l f H top) (onHeap (extractNodeIf b pred))
      fun x s => x = none ∧ Holds l f H top s := by
  have hspec := @Lists.extractNodeIf_spec _ _ f H top _ pred hb
  rw [hfound, without_of_found_eq_none hfound, Function.update_eq_self, released, zero_add] at hspec
  exact onHeap_lists hspec

/-- The first such entry is taken out of a bucket, and is loose. -/
theorem extractNodeIf_some {pred : V → Bool} (hb : b.2 < l.size b.1)
    (hfound : found pred (f b) = some e) :
    Triple (Holds l f H top) (onHeap (extractNodeIf b pred))
      fun x s => x = some e.1
        ∧ Holds l (Function.update f b (without pred (f b))) (released (some e) + H) top s := by
  have hspec := @Lists.extractNodeIf_spec _ _ f H top _ pred hb
  rw [hfound] at hspec
  exact onHeap_lists hspec

/-- **`FindSlot`**, and the entry that it moves to the front. -/
theorem findSlot_lists (hf : ListsInv T l f) :
    let f₁ := advanceLists T l f
    Triple (Holds l f H top) (findSlot T k) fun x s =>
      match locate T l.advance f₁ k with
      | some (b, e) => x = some b
          ∧ Holds l.advance (Function.update f₁ b (e :: without (T.has k) (f₁ b))) H top s
      | none => x = none ∧ Holds l.advance f₁ H top s := by
  intro f₁
  have hf₁ : ListsInv T l.advance f₁ := hf.advance.1
  unfold findSlot
  refine Triple.bind (incrementalRehash_spec hf) fun _ => ?_
  -- the entry is taken out of its bucket first, and then put to the front of it
  refine Triple.bind (Q := fun x s => match locate T l.advance f₁ k with
      | some (b, e) => x = some (b, e.1)
          ∧ Holds l.advance (Function.update f₁ b (without (T.has k) (f₁ b))) (released (some e) + H)
              top s
      | none => x = none ∧ Holds l.advance f₁ H top s) ?_ fun x => ?_
  · refine forTables_spec (R := fun o x s => match o with
      | some (b, e) => x = some (b, e.1)
          ∧ Holds l.advance (Function.update f₁ b (without (T.has k) (f₁ b))) (released (some e) + H)
              top s
      | none => x = none ∧ Holds l.advance f₁ H top s) hf₁ (fun b hb hmiss => ?_)
      (fun b e hb hhit => ?_) fun s hs => ⟨rfl, hs⟩
    · exact Triple.bind_eq (extractNodeIf_none hb hmiss) (triple_pure fun s hs => ⟨rfl, hs⟩)
    · exact Triple.bind_eq (extractNodeIf_some hb hhit) (triple_pure fun s hs => ⟨rfl, rfl, hs⟩)
  · cases hlocate : locate T l.advance f₁ k with
    | none =>
      intro s hs
      obtain ⟨rfl, hs⟩ := hs
      exact ⟨none, s, rfl, rfl, hs⟩
    | some y =>
      obtain ⟨b, e⟩ := y
      obtain ⟨-, hb⟩ := locate_some hf₁ hlocate
      intro s hs
      obtain ⟨rfl, hs⟩ := hs
      have hfront : Triple (Holds l.advance (Function.update f₁ b (without (T.has k) (f₁ b)))
          ({(e.1, ⟨e.2, none⟩)} + H) top) (do
            onHeap (emplaceFrontNode b e.1)
            if (← onHeap (header b)) = some e.1 then return some b else failure)
          fun x s => x = some b
            ∧ Holds l.advance (Function.update f₁ b (e :: without (T.has k) (f₁ b))) H top s := by
        refine Triple.bind (onHeap_unit (Lists.emplaceFrontNode_spec hb)) fun _ => ?_
        rw [Function.update_idem, Function.update_self]
        refine Triple.bind_eq (onHeap_lists Lists.header_spec) ?_
        rw [Function.update_self, first_cons, if_pos rfl]
        exact triple_pure fun s hs => ⟨rfl, hs⟩
      exact hfront s hs

/-- **`Extract`.** -/
theorem extract_lists (hf : ListsInv T l f) :
    let f₁ := advanceLists T l f
    Triple (Holds l f H top) (extract T k) fun x s =>
      match locate T l.advance f₁ k with
      | some (b, e) => x = some e.1 ∧ Holds l.advance.remove
          (Function.update f₁ b (without (T.has k) (f₁ b))) (released (some e) + H) top s
      | none => x = none ∧ Holds l.advance f₁ H top s := by
  intro f₁
  have hf₁ : ListsInv T l.advance f₁ := hf.advance.1
  unfold extract
  refine Triple.bind (incrementalRehash_spec hf) fun _ => ?_
  refine forTables_spec (R := fun o x s => match o with
    | some (b, e) => x = some e.1 ∧ Holds l.advance.remove
        (Function.update f₁ b (without (T.has k) (f₁ b))) (released (some e) + H) top s
    | none => x = none ∧ Holds l.advance f₁ H top s) hf₁ (fun b hb hmiss => ?_)
    (fun b e hb hhit => ?_) fun s hs => ⟨rfl, hs⟩
  · exact Triple.bind_eq (extractNodeIf_none hb hmiss) (triple_pure fun s hs => ⟨rfl, hs⟩)
  · refine Triple.bind_eq (extractNodeIf_some hb hhit) ?_
    exact Triple.bind setUsed_spec fun _ => triple_pure fun s hs => ⟨rfl, rfl, hs⟩

/-- The loop of `EraseRandom` over a table. -/
theorem eraseFirst_spec {t : TableName} {j n : ℕ} (hn : j + n ≤ l.size t) :
    Triple (Holds l f H top) (eraseFirst t j n) fun x s =>
      (x = false ∧ (∀ i, j ≤ i → i < j + n → f (t, i) = []) ∧ Holds l f H top s)
      ∨ (x = true ∧ ∃ b e es, b.2 < l.size b.1 ∧ f b = e :: es
          ∧ Holds l (Function.update f b es) H top s) := by
  induction n generalizing j with
  | zero => exact triple_pure fun s hs => Or.inl ⟨rfl, fun i _ _ => by omega, hs⟩
  | succ n ih =>
    have hb : ((t, j) : Bucket).2 < l.size ((t, j) : Bucket).1 := by
      change j < l.size t
      omega
    rw [eraseFirst]
    refine bucket_bind hb (Triple.bind_eq (a := (first (f (t, j))).isNone)
      (onHeap_lists (Triple.bind_eq Lists.header_spec (triple_pure fun s hs => ⟨rfl, hs⟩))) ?_)
    cases hf : f (t, j) with
    | nil =>
      refine (ih (by omega)).post fun x s hs => hs.imp (fun hs => ⟨hs.1, fun i hle hlt => ?_, hs.2.2⟩)
        fun hs => hs
      rcases Nat.eq_or_lt_of_le hle with rfl | hlt'
      · exact hf
      · exact hs.2.1 i hlt' (by omega)
    | cons e es =>
      refine Triple.bind (onHeap_unit (Lists.popFront_spec hb hf)) fun _ => triple_pure fun s hs => ?_
      exact Or.inr ⟨rfl, (t, j), e, es, hb, hf, hs⟩

/-- **`EraseRandom`** finds an entry if there is one. -/
theorem eraseRandom_lists (hf : ListsInv T l f) :
    let f₁ := advanceLists T l f
    Triple (Holds l f H top) (eraseRandom T) fun x s =>
      (x = 0 ∧ gather l.advance.size (listed f₁) = 0 ∧ Holds l.advance f₁ H top s)
      ∨ (x = 1 ∧ ∃ b e es, b.2 < l.advance.size b.1 ∧ f₁ b = e :: es
          ∧ Holds l.advance (Function.update f₁ b es) H top s) := by
  intro f₁
  have hf₁ : ListsInv T l.advance f₁ := hf.advance.1
  -- no entry is outside the buckets that are looked at
  have hzero : (∀ i, l.advance.moved.getD 0 ≤ i → i < l.advance.size .table1 → f₁ (.table1, i) = [])
      → (∀ i, i < l.advance.size .table2 → f₁ (.table2, i) = [])
      → gather l.advance.size (listed f₁) = 0 := by
    intro h1 h2
    refine Multiset.eq_zero_of_forall_notMem fun e he => ?_
    obtain ⟨⟨t, i⟩, hlt, hmem⟩ := mem_gather.mp he
    change e ∈ ((f₁ (t, i) : List (Addr × V)) : Multiset (Addr × V)) at hmem
    cases t with
    | table1 =>
      rw [h1 i (hf₁.placed (.table1, i) e hmem).2 hlt] at hmem
      cases hmem
    | table2 =>
      rw [h2 i hlt] at hmem
      cases hmem
  unfold eraseRandom
  refine Triple.bind (incrementalRehash_spec hf) fun _ => ?_
  refine read_bind (fun s hs => congrFun hs.size_eq .table1) (read_bind (fun s hs => hs.moved_eq) ?_)
  cases hr : l.advance.moved with
  | none =>
    refine Triple.bind (eraseFirst_spec (by simp)) fun x => triple_pure fun s hs => ?_
    rcases hs with ⟨rfl, hnil, hs⟩ | ⟨rfl, hs⟩
    · refine Or.inl ⟨rfl, hzero (fun i _ hlt => hnil i (Nat.zero_le i) (by omega)) ?_, hs⟩
      rw [hf₁.sound.idle hr]
      exact fun i hlt => absurd hlt (Nat.not_lt_zero i)
    · exact Or.inr ⟨rfl, hs⟩
  | some r =>
    obtain ⟨-, hlt⟩ := hf₁.sound.rehashing r hr
    rw [hr, Option.getD_some] at hzero
    refine Triple.bind (eraseFirst_spec (by omega)) fun x => ?_
    cases x with
    | true =>
      refine triple_pure fun s hs => Or.inr ⟨rfl, ?_⟩
      rcases hs with ⟨hfalse, -⟩ | ⟨-, hs⟩
      · cases hfalse
      · exact hs
    | false =>
      refine Triple.of_pre (C := ∀ i, r ≤ i → i < r + (l.advance.size .table1 - r) →
        f₁ (.table1, i) = []) (fun hnil => ?_) fun s hs => ?_
      · refine Triple.pre (P := Holds l.advance f₁ H top) ?_ fun s hs => ?_
        · refine read_bind (fun s hs => congrFun hs.size_eq .table2) ?_
          refine Triple.bind (eraseFirst_spec (by simp)) fun x => triple_pure fun s hs => ?_
          rcases hs with ⟨rfl, hnil2, hs⟩ | ⟨rfl, hs⟩
          · refine Or.inl ⟨rfl, hzero (fun i hle hlt => hnil i hle (by omega)) ?_, hs⟩
            exact fun i hlt => hnil2 i (Nat.zero_le i) (by omega)
          · exact Or.inr ⟨rfl, hs⟩
        · rcases hs with ⟨-, -, hs⟩ | ⟨hfalse, -⟩
          · exact hs
          · cases hfalse
      · rcases hs with ⟨-, hnil, -⟩ | ⟨hfalse, -⟩
        · exact hnil
        · cases hfalse

end

end HashTable

end Mmkvc
