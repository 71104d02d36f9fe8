/-
# Copies of sets

`Clone` takes the lists of the second table as they are and hashes the elements that are yet to
be moved again, which is right since no element is in a bucket that has been moved.
-/
import Mmkvc.HashSetAlgebra
import Mmkvc.HashTableAnswers

namespace Mmkvc

open Slist Tables HashTable Transition

variable {K V : Type}

/-! ## Values in new nodes -/

/-- The lists of a first table with `N` buckets and the next address, after a value has been put
in at the front of its bucket. -/
def put (T : EqualTraits K V) (N : ℕ) (c : (Bucket → List (Addr × V)) × ℕ) (v : V) :
    (Bucket → List (Addr × V)) × ℕ :=
  let b : Bucket := (.table1, T.hashOf v % N)
  (Function.update c.1 b ((c.2, v) :: c.1 b), c.2 + 1)

/-- The layout of a set with `N` buckets in which no rehash is going on. -/
def idle (N used : ℕ) : Layout := ⟨sizes N 0, used, none⟩

section

variable {T : EqualTraits K V} {N : ℕ} {c : (Bucket → List (Addr × V)) × ℕ} {v : V} {vs : List V}
  {M M' : Multiset (Addr × V)}

/-- A value is put where its hash value belongs. -/
theorem placed_put (hc : Placed (fun e : Addr × V => T.hashOf e.2) (idle N 0) (listed c.1)) :
    Placed (fun e : Addr × V => T.hashOf e.2) (idle N 0) (listed (put T N c v).1) := by
  change Placed _ _ (listed (Function.update _ _ _))
  rw [listed_update]
  refine hc.update fun e he => ?_
  rcases List.mem_cons.mp he with rfl | he
  · exact ⟨rfl, Nat.zero_le _⟩
  · exact hc _ e he

/-- All values are put where their hash values belong. -/
theorem placed_puts (hc : Placed (fun e : Addr × V => T.hashOf e.2) (idle N 0) (listed c.1)) :
    Placed (fun e : Addr × V => T.hashOf e.2) (idle N 0) (listed (vs.foldl (put T N) c).1) := by
  induction vs generalizing c with
  | nil => exact hc
  | cons v vs ih => exact ih (placed_put hc)

/-- A value more. -/
theorem values_put (hN : 0 < N) : (gather (sizes N 0) (listed (put T N c v).1)).map Prod.snd
    = v ::ₘ (gather (sizes N 0) (listed c.1)).map Prod.snd := by
  have hb : ((.table1, T.hashOf v % N) : Bucket).2 < (idle N 0).size .table1 := Nat.mod_lt _ hN
  change (gather (idle N 0).size (listed (Function.update _ _ _))).map _ = _
  rw [gather_listed_update hb, ← Multiset.cons_coe, Multiset.cons_add, ← gather_listed hb,
    Multiset.map_cons]
  rfl

/-- Each value is there once more. -/
theorem values_puts (hN : 0 < N) : (gather (sizes N 0) (listed (vs.foldl (put T N) c).1)).map Prod.snd
    = vs + (gather (sizes N 0) (listed c.1)).map Prod.snd := by
  induction vs generalizing c with
  | nil => exact (zero_add _).symm
  | cons v vs ih =>
    rw [List.foldl_cons, ih, values_put hN, ← Multiset.cons_coe, Multiset.cons_add, Multiset.add_cons]

/-- Entries have different keys if their keys are different as keys. -/
theorem unique_map {E : Type} {eqv : K → K → Prop} (heqv : Equivalence eqv) {key : E → K}
    {M : Multiset E} : Unique eqv key M ↔ Unique eqv id (M.map key) := by
  induction M using Quotient.inductionOn with
  | h l =>
    rw [Multiset.quot_mk_to_coe, Multiset.map_coe, unique_coe heqv, unique_coe heqv,
      List.pairwise_map]
    rfl

/-- Only the values matter for their keys to be different. -/
theorem unique_of_values (hT : LawfulEqual T) (h : M'.map Prod.snd = M.map Prod.snd)
    (hM : Unique T.Equiv T.keyOf M) : Unique T.Equiv T.keyOf M' := by
  rw [unique_map hT.equivalence] at hM ⊢
  have hkeys : ∀ M : Multiset (Addr × V), M.map T.keyOf = (M.map Prod.snd).map T.gk := fun M => by
    rw [Multiset.map_map]
    rfl
  rwa [hkeys, h, ← hkeys]

end

namespace HashSet

/-- Two sets. -/
def sets (this hs : HashTable K) : Operand → HashTable K
  | .this => this
  | .hs => hs

section

variable {T : EqualTraits K K} {l : Layout} {f : Bucket → List (Addr × K)}
  {H : Multiset (Addr × SNode K)} {top N i n : ℕ} {t : TableName} {sh : HashTable K}
  {c : (Bucket → List (Addr × K)) × ℕ} {α β : Type}

/-- The copy has its elements in the lists `c`, and the other set is as it was. -/
def Copying (sh : HashTable K) (N used : ℕ) (c : (Bucket → List (Addr × K)) × ℕ) :
    (Operand → HashTable K) → Prop :=
  Both .this (HashTable.Holds (idle N used) c.1 0 c.2) (· = sh)

/-- The other set is read. -/
theorem other_bind {J : HashTable K → Prop} {p : HashM K α} {x : α}
    {q : α → StateT (Operand → HashTable K) Option β} {Q : β → (Operand → HashTable K) → Prop}
    (hp : p.run sh = some (x, sh)) (hq : Triple (Both .this J (· = sh)) (q x) Q) :
    Triple (Both .this J (· = sh)) (apart .hs p >>= q) Q := by
  have hread : Triple (· = sh) p fun y s => y = x ∧ s = sh := by
    rintro s rfl
    exact ⟨x, s, hp, rfl, rfl⟩
  exact Triple.bind_eq (apart_other_spec (o := .this) hread) hq

/-- The copy gets an element. -/
theorem emplaceFront_spec (hN : 0 < N) (v : K) {used : ℕ} :
    Triple (Copying sh N used c) (apart .this (onHeap (emplaceFront (.table1, T.hashOf v % N) v)))
      fun _ => Copying sh N used (put T N c v) := by
  have hb : ((.table1, T.hashOf v % N) : Bucket).2 < (idle N used).size .table1 := Nat.mod_lt _ hN
  have hspec : Triple (HashTable.Holds (idle N used) c.1 0 c.2)
      (onHeap (emplaceFront (.table1, T.hashOf v % N) v)) _ :=
    onHeap_unit (Lists.emplaceFront_spec (v := v) hb)
  refine (apart_spec (Q := fun _ => True) (hspec.post fun _ s hs => ⟨trivial, hs⟩)).post fun _ s hs => ?_
  exact hs.2

/-- The nodes of a list are visited in order, and each value is put into the copy. -/
theorem forNodes_spec {each : K → StateT (Operand → HashTable K) Option Unit} {used : ℕ}
    {es : List (Addr × K)} {p : Option Addr} {fuel : ℕ}
    (heach : ∀ e ∈ es, ∀ c, Triple (Copying sh N used c) (each e.2)
      fun _ => Copying sh N used (put T N c e.2))
    (hp : Chained sh.heap.nodes p es) (hfuel : es.length ≤ fuel) :
    Triple (Copying sh N used c) (forNodes apart each fuel p)
      fun _ => Copying sh N used ((es.map Prod.snd).foldl (put T N) c) := by
  induction es generalizing c p fuel with
  | nil =>
    obtain rfl := hp
    cases fuel <;> exact triple_pure fun _ hs => hs
  | cons e es ih =>
    obtain ⟨rfl, next, hnode, hrest⟩ := hp
    cases fuel with
    | zero => exact absurd hfuel (Nat.not_succ_le_zero _)
    | succ fuel =>
      rw [forNodes]
      refine other_bind (x := ⟨e.2, next⟩) ?_ ?_
      · change ((sh.heap.nodes e.1).map fun n => (n, sh.heap)).map _ = _
        rw [hnode]
        rfl
      · refine Triple.bind (heach e List.mem_cons_self c) fun _ => ?_
        exact ih (fun e he => heach e (List.mem_cons_of_mem _ he)) hrest (Nat.le_of_succ_le_succ hfuel)

/-- The elements of the lists of a table from `i` on, `n` of them. -/
def valuesFrom (f : Bucket → List (Addr × K)) (t : TableName) (i n : ℕ) : List K :=
  (List.range' i n).flatMap fun j => (f (t, j)).map Prod.snd

/-- **A loop over the lists of the other set.** -/
theorem forLists_spec {body : ℕ → StateT (Operand → HashTable K) Option
      (K → StateT (Operand → HashTable K) Option Unit)}
    (each : ℕ → K → StateT (Operand → HashTable K) Option Unit) {used : ℕ}
    (hsh : HashTable.Holds l f H top sh) (hn : i + n ≤ l.size t)
    (hbody : ∀ j, j < i + n → ∀ c, Triple (Copying sh N used c) (body j)
      fun g s => g = each j ∧ Copying sh N used c s)
    (heach : ∀ j, i ≤ j → j < i + n → ∀ e ∈ f (t, j), ∀ c, Triple (Copying sh N used c) (each j e.2)
      fun _ => Copying sh N used (put T N c e.2)) :
    Triple (Copying sh N used c) (forLists apart t body i n)
      fun _ => Copying sh N used ((valuesFrom f t i n).foldl (put T N) c) := by
  induction n generalizing c i with
  | zero => exact triple_pure fun _ hs => hs
  | succ n ih =>
    have hi : ((t, i) : Bucket).2 < l.size ((t, i) : Bucket).1 := by
      dsimp only
      omega
    have hchained := chained_of_holds hsh hi
    have hlength : (f (t, i)).length ≤ sh.heap.next := by
      have hmem := hsh.mem
      unfold Lists at hmem
      rw [Lists.focus_eq hi] at hmem
      rw [hmem.next]
      exact length_le hmem
    rw [forLists]
    refine Triple.bind_eq (hbody i (by omega) c) ?_
    refine other_bind (x := (t, i)) ?_ (other_bind (x := sh.heap.next) rfl
      (other_bind (x := sh.heap.headers (t, i)) rfl ?_))
    · change (if i < sh.size t then _ else _) = _
      rw [hsh.size_eq]
      exact if_pos hi
    · refine Triple.bind (forNodes_spec (heach i le_rfl (by omega)) hchained (by omega)) fun _ => ?_
      refine (ih (by omega) (fun j hj => hbody j (by omega)) fun j hle hlt =>
        heach j (by omega) (by omega)).post fun _ s hs => ?_
      rw [valuesFrom, List.range'_succ, List.flatMap_cons, List.foldl_append]
      exact hs

/-- The elements of a list are copied where they belong, if that is where they are. -/
theorem copyList_spec {used : ℕ} (hsh : HashTable.Holds l f H top sh) (hn : i + n ≤ l.size t)
    (hN : i + n ≤ N) (hplaced : ∀ j, i ≤ j → j < i + n → ∀ e ∈ f (t, j), T.hashOf e.2 % N = j) :
    Triple (Copying sh N used c) (forLists apart t (copyList apart) i n)
      fun _ => Copying sh N used ((valuesFrom f t i n).foldl (put T N) c) := by
  refine forLists_spec (fun j val => apart .this (onHeap (emplaceFront (.table1, j) val)))
    hsh hn (fun j hj c => ?_) fun j hle hlt e he c => ?_
  · have hbucket : Triple (HashTable.Holds (idle N used) c.1 0 c.2) (bucket .table1 j)
        fun b s => b = (.table1, j) ∧ HashTable.Holds (idle N used) c.1 0 c.2 s := by
      intro s hs
      refine ⟨(.table1, j), s, if_pos ?_, rfl, hs⟩
      rw [hs.size_eq]
      exact hj.trans_le hN
    exact Triple.bind_eq (apart_spec hbucket) (triple_pure fun s hs => ⟨rfl, hs⟩)
  · have hindex := hplaced j hle hlt e he
    have hspec : Triple (Copying sh N used c)
        (apart .this (onHeap (emplaceFront (.table1, T.hashOf e.2 % N) e.2)))
        fun _ => Copying sh N used (put T N c e.2) := emplaceFront_spec (by omega) e.2
    rwa [hindex] at hspec

/-- The elements of a list are hashed again. -/
theorem rehashList_spec {used : ℕ} (hid : T.gk = id) (hsh : HashTable.Holds l f H top sh)
    (hn : i + n ≤ l.size t) (hN : (idle N used).Sound) :
    Triple (Copying sh N used c) (forLists apart t (rehashList apart T) i n)
      fun _ => Copying sh N used ((valuesFrom f t i n).foldl (put T N) c) := by
  refine forLists_spec _ hsh hn (fun j hj c => triple_pure fun s hs => ⟨rfl, hs⟩)
    fun j hle hlt e he c => ?_
  have hindex : Triple (HashTable.Holds (idle N used) c.1 0 c.2) (bucketOf .table1 (T.hash e.2))
      fun b s => b = (.table1, T.hashOf e.2 % N) ∧ HashTable.Holds (idle N used) c.1 0 c.2 s := by
    have hspec := bucketOf_bind (I := fun size => Lists size c.1 0 c.2) (t := .table1)
      (h := T.hash e.2) (p := pure) (Q := fun b s => b = (.table1, T.hashOf e.2 % N)
        ∧ HashTable.Holds (idle N used) c.1 0 c.2 s) hN nofun
      (triple_pure fun s hs => ⟨by unfold EqualTraits.hashOf; rw [hid]; rfl, hs⟩)
    rwa [bind_pure] at hspec
  exact Triple.bind_eq (apart_spec hindex) (emplaceFront_spec hN.size_pos e.2)

/-- `Grow` of a new set. -/
theorem grow_spec (hN : 4 ≤ N) :
    Triple (Both .this (HashTable.Holds Layout.fresh (fun _ => ([] : List (Addr × K))) 0 0) (· = sh))
      (apart .this (grow listBuckets .table1 N)) fun _ => Copying sh N 0 (fun _ => [], 0) := by
  have hspec : Triple (HashTable.Holds Layout.fresh (fun _ => ([] : List (Addr × K))) 0 0)
      (grow listBuckets .table1 N)
      fun _ => HashTable.Holds (idle N 0) (fun _ => ([] : List (Addr × K))) 0 0 := by
    refine triple_of_has fun mask _ _ => ?_
    have hsizes : ∀ M, Function.update (sizes 4 0) .table1 M = sizes M 0 := by
      intro M
      funext t
      cases t <;> rfl
    have hgrow : Triple (Has (fun size => Lists size (fun _ => ([] : List (Addr × K))) 0 0)
        Layout.fresh mask) (growArray listBuckets .table1 N)
        fun _ => Has (fun size => Lists size (fun _ => ([] : List (Addr × K))) 0 0) (idle N 0) mask := by
      rcases hN.eq_or_lt with rfl | hlt
      · unfold growArray
        refine has_read_bind (fun s hs => congrFun hs.size_eq .table1) ?_
        exact triple_pure fun s hs => hs
      · have hspec : Triple (Has (fun size => Lists size (fun _ => ([] : List (Addr × K))) 0 0)
            Layout.fresh mask) _ _ :=
          growArray_spec (bucketLaws (V := K) 0 0) (t := .table1) (n := N) (fun _ _ => rfl) hlt
        have hfresh : Function.update Layout.fresh.size .table1 N = sizes N 0 := hsizes N
        rw [hfresh] at hspec
        exact hspec
    refine Triple.bind hgrow fun _ => has_setSizeMask.post fun _ s hs => ?_
    exact Has.holds hs (Function.update_self ..) fun h => absurd rfl h
  refine (apart_spec (Q := fun _ => True) (hspec.post fun _ s hs => ⟨trivial, hs⟩)).post fun _ s hs => ?_
  exact hs.2

/-- The elements in the order in which they are copied. -/
def copied (l : Layout) (f : Bucket → List (Addr × K)) : List K :=
  match l.moved with
  | some r => valuesFrom f .table2 0 (l.size .table2) ++ valuesFrom f .table1 r (l.size .table1 - r)
  | none => valuesFrom f .table1 0 (l.size .table1)

/-- The number of buckets of a copy. -/
def cloneSize (l : Layout) : ℕ := l.size (if l.moved.isSome then .table2 else .table1)

/-- A copy has sound sizes. -/
theorem sound_idle (hl : l.Sound) (used : ℕ) : (idle (cloneSize l) used).Sound := by
  refine ⟨?_, fun _ => rfl, nofun⟩
  obtain ⟨k, hk⟩ := hl.pow
  change ∃ k, cloneSize l = 2 ^ (k + 2)
  unfold cloneSize
  cases hr : l.moved with
  | none => exact ⟨k, hk⟩
  | some r =>
    refine ⟨k + 1, ?_⟩
    rw [Option.isSome_some, if_pos rfl, (hl.rehashing r hr).1, hk]
    ring

/-- **`Clone`.** -/
theorem clone_spec (hid : T.gk = id) (hf : ListsInv T l f) (hsh : HashTable.Holds l f H top sh) :
    Triple (Both .this (HashTable.Holds Layout.fresh (fun _ => []) 0 0) (· = sh)) (clone apart T)
      fun _ => Copying sh (cloneSize l) l.used
        ((copied l f).foldl (put T (cloneSize l)) (fun _ => [], 0)) := by
  have hsound := sound_idle hf.sound
  have hused : ∀ c N, Triple (Copying sh N 0 c)
      (do
        let used ← apart .hs (Tables.read getSize)
        apart .this (setUsed fun _ => used))
      fun _ => Copying sh N l.used c := by
    intro c N
    refine other_bind (x := l.used) ?_ ?_
    · rw [← Tables.Holds.used_eq hsh]
      rfl
    · refine (apart_spec (Q := fun _ => True) (setUsed_spec.post fun _ s hs => ⟨trivial, hs⟩)).post
        fun _ s hs => ?_
      exact hs.2
  have hmoved : (Tables.read (·.rehashMoveBucketIndex)).run sh = some (l.moved, sh) := by
    rw [← Tables.Holds.moved_eq hsh]
    rfl
  have hsize : ∀ t, (Tables.read (·.size t)).run sh = some (l.size t, sh) := by
    intro t
    rw [← Tables.Holds.size_eq hsh]
    rfl
  unfold clone copied
  refine other_bind hmoved ?_
  cases hr : l.moved with
  | none =>
    have hN : cloneSize l = l.size .table1 := by simp [cloneSize, hr]
    rw [hN]
    refine other_bind (hsize .table1) (Triple.bind (grow_spec hf.sound.four_le) fun _ => ?_)
    refine Triple.bind (copyList_spec hsh (by omega) (by omega) fun j _ _ e he => ?_) fun _ => hused _ _
    exact (hf.placed (.table1, j) e he).1
  | some r =>
    obtain ⟨hdouble, hlt⟩ := hf.sound.rehashing r hr
    have hN : cloneSize l = l.size .table2 := by simp [cloneSize, hr]
    rw [hN] at hsound ⊢
    have hfour := hf.sound.four_le
    refine other_bind (hsize .table2) (Triple.bind (grow_spec (by omega)) fun _ => ?_)
    refine Triple.bind (copyList_spec (T := T) hsh (by omega) (by omega) fun j _ _ e he => ?_) fun _ => ?_
    · exact (hf.placed (.table2, j) e he).1
    · refine other_bind (hsize .table1) ?_
      rw [List.foldl_append]
      exact Triple.bind (rehashList_spec hid hsh (by omega) (hsound 0)) fun _ => hused _ _

/-! ## The copy as a set -/

/-- The values of a stretch of buckets. -/
theorem coe_valuesFrom (f : Bucket → List (Addr × K)) (t : TableName) (i n : ℕ) :
    (valuesFrom f t i n : Multiset K)
      = ∑ j ∈ Finset.range n, (listed f (t, i + j)).map Prod.snd := by
  induction n with
  | zero => rfl
  | succ n ih =>
    unfold valuesFrom at ih ⊢
    rw [List.range'_concat, List.flatMap_append, ← Multiset.coe_add, ih, Finset.sum_range_succ,
      List.flatMap_singleton, mul_comm, mul_one]
    rfl

/-- **Each element is copied once**: the buckets before the index of the rehash are empty. -/
theorem coe_copied (hf : ListsInv T l f) :
    (copied l f : Multiset K) = (gather l.size (listed f)).map Prod.snd := by
  have hgather : (gather l.size (listed f)).map Prod.snd
      = gather l.size fun b => (listed f b).map Prod.snd :=
    map_gather (Multiset.mapAddMonoidHom Prod.snd)
  rw [hgather]
  unfold copied gather
  cases hr : l.moved with
  | none =>
    dsimp only
    rw [coe_valuesFrom, hf.sound.idle hr, Finset.range_zero, Finset.sum_empty, add_zero]
    simp only [Nat.zero_add]
  | some r =>
    obtain ⟨-, hlt⟩ := hf.sound.rehashing r hr
    dsimp only
    rw [← Multiset.coe_add, coe_valuesFrom, coe_valuesFrom, add_comm]
    simp only [Nat.zero_add]
    congr 1
    obtain ⟨n, hn⟩ := Nat.exists_eq_add_of_lt hlt
    have hmovedBuckets : ∑ j ∈ Finset.range r, (listed f (.table1, j)).map Prod.snd = 0 := by
      refine Finset.sum_eq_zero fun j hj => ?_
      have hempty : listed f (.table1, j) = 0 := by
        refine Multiset.eq_zero_of_forall_notMem fun e he => ?_
        have hle : l.moved.getD 0 ≤ j := (hf.placed (.table1, j) e he).2
        rw [hr, Option.getD_some] at hle
        exact absurd (Finset.mem_range.mp hj) (not_lt.mpr hle)
      rw [hempty, Multiset.map_zero]
    rw [show l.size .table1 = r + (n + 1) by omega, Finset.sum_range_add, hmovedBuckets, zero_add,
      Nat.add_sub_cancel_left]

/-- The lists of a copy keep the invariant, and have the elements of the other set. -/
theorem listsInv_copied (hT : LawfulEqual T) (hf : ListsInv T l f) (used : ℕ) :
    let c := (copied l f).foldl (put T (cloneSize l)) (fun _ => [], 0)
    ListsInv T (idle (cloneSize l) used) c.1
      ∧ (gather (sizes (cloneSize l) 0) (listed c.1)).map Prod.snd
        = (gather l.size (listed f)).map Prod.snd := by
  intro c
  have hsound := sound_idle hf.sound used
  have hvalues : (gather (sizes (cloneSize l) 0) (listed c.1)).map Prod.snd
      = (gather l.size (listed f)).map Prod.snd := by
    have hputs : (gather (sizes (cloneSize l) 0)
          (listed ((copied l f).foldl (put T (cloneSize l)) (fun _ => [], 0)).1)).map Prod.snd = _ :=
      values_puts hsound.size_pos
    rwa [gather_listed_nil, Multiset.map_zero, add_zero, coe_copied hf] at hputs
  exact ⟨⟨hsound, placed_puts fun b e he => (by cases he), unique_of_values hT hvalues hf.unique⟩,
    hvalues⟩

/-- The map of the entries of a table. -/
theorem exists_abstracts (hT : LawfulEqual T) {c : Inventory K} (hs : c.Holds T sh) :
    ∃ m : EntryMap T, c.Abstracts m := by
  obtain ⟨f, hf, hM, -⟩ := hs
  have hunique := hf.unique
  rw [hM] at hunique
  obtain ⟨es, hes⟩ := Quotient.exists_rep c.entries
  rw [← hes] at hunique
  have hpairwise := (unique_coe hT.equivalence).mp hunique
  exact ⟨⟨⟨es, hpairwise.imp fun h h' => h (hT.equivalence.symm h')⟩, c.top⟩, hes.symm, rfl⟩

/-- Every element is in the list that its hash value selects. -/
def InBuckets (T : EqualTraits K K) (s : HashTable K) : Prop :=
  ∀ i < s.size .table1, ∃ es, Chained s.heap.nodes (s.heap.headers (.table1, i)) es
    ∧ ∀ e ∈ es, bucketIndex .table1 (T.hash e.2) s = i

/-- **`Clone` copies a set in any phase of a rehash.**  In a new set it makes the same elements,
each once in the list that its hash value selects, with the same count and without a rehash; the other
set stays as it is, and the copy answers in every later run as a finite set of its elements
does. -/
theorem clone_of_run (hT : LawfulEqual T) (hid : T.gk = id) (ops : List (HashTableOp K K))
    (hops : ∀ op ∈ ops, OfMap op) : ∃ new s t M M', HashTable.construct = some new
      ∧ run (step T) new ops = some s ∧ (clone apart T).run (sets new s) = some ((), sets t s)
      ∧ Stores s M ∧ Stores t M' ∧ M'.map Prod.snd = M.map Prod.snd ∧ Unique T.Equiv T.keyOf M'
      ∧ InBuckets T t ∧ t.size .table2 = 0 ∧ t.rehashMoveBucketIndex = none ∧ t.getSize = s.getSize
      ∧ ∃ m : EntryMap T, M' = m.map.entries
        ∧ ∀ later : List (HashTableOp K K), (∀ op ∈ later, OfMap op) → ∃ rs t' m',
          outputs (answer T) t later = some (rs, t')
          ∧ outputs EntryMap.answer m later = some (rs, m') ∧ Stores t' m'.map.entries := by
  obtain ⟨new, hnew, hfresh⟩ := HashTable.construct_spec (V := K)
  have hcall : ∀ s op, (∃ c : Inventory K, c.Holds T s ∧ c.Counted) → OfMap op →
      ∃ s', step T s op = some s' ∧ ∃ c : Inventory K, c.Holds T s' ∧ c.Counted := by
    rintro s op ⟨c, hs, hcount⟩ hop
    obtain ⟨r, s', c', -, hstep, -, hs', hcount'⟩ := exists_step_counted hT hs hcount hop
    exact ⟨s', hstep, c', hs', hcount'⟩
  have hinit : ∃ c : Inventory K, c.Holds T new ∧ c.Counted :=
    ⟨Inventory.fresh, ⟨_, listsInv_fresh, gather_listed_nil _, hfresh⟩, rfl⟩
  obtain ⟨s, hrun, ⟨l, M, H, top⟩, ⟨f, hf, hM, hs⟩, hcount⟩ :=
    exists_run_of_allSteps hcall hinit (allSteps_of_forall hops)
  obtain rfl : gather l.size (listed f) = M := hM
  have hcount : l.used = Multiset.card (gather l.size (listed f)) := hcount
  obtain ⟨_, both, hclone, hcopy⟩ := clone_spec hid hf hs (sets new s) ⟨hfresh, rfl⟩
  obtain ⟨hinv, hvalues⟩ := listsInv_copied hT hf l.used
  generalize (copied l f).foldl (put T (cloneSize l)) (fun _ => [], 0) = c at hcopy hinv hvalues
  have hboth : both = sets (both .this) s := by
    funext o
    cases o with
    | this => rfl
    | hs => exact hcopy.2
  have ht : HashTable.Holds (idle (cloneSize l) l.used) c.1 0 c.2 (both .this) := hcopy.1
  generalize both .this = t at hboth ht
  obtain rfl := hboth
  set copy : Inventory K := ⟨idle (cloneSize l) l.used, gather (sizes (cloneSize l) 0) (listed c.1), 0, c.2⟩
  have hcontains : copy.Holds T t := ⟨c.1, hinv, rfl, ht⟩
  have hcounted : copy.Counted := by
    have hcard := congrArg Multiset.card hvalues
    rw [Multiset.card_map, Multiset.card_map] at hcard
    exact hcount.trans hcard.symm
  obtain ⟨m, hm⟩ := exists_abstracts hT hcontains
  refine ⟨new, s, t, _, copy.entries, hnew, hrun, hclone, stores_of_contains ⟨f, hf, rfl, hs⟩,
    stores_of_contains hcontains, hvalues, hinv.unique, fun i hi => ?_, congrFun ht.size_eq .table2,
    ht.moved_eq, ht.used_eq.trans hs.used_eq.symm, m, hm.entries, fun later hlater =>
      exists_outputs hT ⟨copy, hcontains, hcounted, hm⟩ hlater⟩
  rw [ht.size_eq] at hi
  refine ⟨c.1 (.table1, i), chained_of_holds ht hi, fun e he => ?_⟩
  have hindex : T.hashOf e.2 % cloneSize l = i := (hinv.placed (.table1, i) e he).1
  rw [bucketIndex_table1 hinv.sound _ ht, ← hindex]
  unfold EqualTraits.hashOf
  rw [hid]
  rfl

/-- A run that ends while a rehash is going on. -/
def rehashRun : List (HashTableOp ℤ ℤ) :=
  [.insert 1, .insert 5, .insert 9, .insert 13, .insert 2, .extract 1]

theorem clone_of_rehashRun : ∃ new s t M M', HashTable.construct = some new
    ∧ run (step intKeys) new rehashRun = some s
    ∧ (clone apart intKeys).run (sets new s) = some ((), sets t s)
    ∧ Stores s M ∧ Stores t M' ∧ M'.map Prod.snd = M.map Prod.snd
    ∧ Unique intKeys.Equiv intKeys.keyOf M' ∧ InBuckets intKeys t ∧ t.size .table2 = 0
    ∧ t.rehashMoveBucketIndex = none ∧ t.getSize = s.getSize
    ∧ ∃ m : EntryMap intKeys, M' = m.map.entries
      ∧ ∀ later : List (HashTableOp ℤ ℤ), (∀ op ∈ later, OfMap op) → ∃ rs t' m',
        outputs (answer intKeys) t later = some (rs, t')
        ∧ outputs EntryMap.answer m later = some (rs, m') ∧ Stores t' m'.map.entries :=
  clone_of_run lawfulEqual_int rfl rehashRun (by simp [rehashRun, OfMap])

end

end HashSet

end Mmkvc
