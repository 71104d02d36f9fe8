/-
# The lists of all buckets in one memory

`Lists size f H top` says that memory holds the list `f b` for each bucket `b` of two
tables and the nodes `H` beside them.
-/
import Mmkvc.HashTable
import Mmkvc.SlistOperations

namespace Mmkvc

open Slist

variable {K V : Type}

/-- Memory holds a list for each bucket and the nodes `H` beside them. -/
abbrev Lists (size : TableName → ℕ) (f : Bucket → List (Addr × V)) (H : Multiset (Addr × SNode V))
    (top : ℕ) : SlistHeap Bucket V → Prop :=
  SlistMem (gather size (fun b => cells (f b)) + H) (fun b => first (f b)) top

namespace Lists

variable {size : TableName → ℕ} {f : Bucket → List (Addr × V)} {H : Multiset (Addr × SNode V)}
  {top r : ℕ} {b : Bucket} {es : List (Addr × V)} {e : Addr × V} {s : SlistHeap Bucket V} {a : Addr}
  {v : V} {n : SNode V} {pred : V → Bool}

/-! ## Focus on one bucket -/

/-- The nodes of all lists but one. -/
def others (size : TableName → ℕ) (f : Bucket → List (Addr × V)) (b : Bucket) :
    Multiset (Addr × SNode V) := gather size (Function.update (fun b => cells (f b)) b 0)

/-- The nodes of a bucket that is changed. -/
theorem cells_update (f : Bucket → List (Addr × V)) (b : Bucket) (es : List (Addr × V)) :
    (fun b' => cells (Function.update f b es b'))
      = Function.update (fun b' => cells (f b')) b (cells es) := by
  funext b'
  exact Function.apply_update (fun _ es => cells es) f b es b'

/-- The header of a bucket that is changed. -/
theorem first_update (f : Bucket → List (Addr × V)) (b : Bucket) (es : List (Addr × V)) :
    (fun b' => first (Function.update f b es b'))
      = Function.update (fun b' => first (f b')) b (first es) := by
  funext b'
  exact Function.apply_update (fun _ es => first es) f b es b'

theorem focus_eq (hb : b.2 < size b.1) (H : Multiset (Addr × SNode V)) :
    gather size (fun b => cells (f b)) + H = cells (f b) + (others size f b + H) := by
  rw [gather_eq (f := fun b => cells (f b)) hb, add_assoc]
  rfl

/-- Memory in which one list has changed. -/
theorem eq_focus (hb : b.2 < size b.1) : Lists size (Function.update f b es) H top
    = SlistMem (cells es + (others size f b + H))
        (Function.update (fun b' => first (f b')) b (first es)) top := by
  unfold Lists
  rw [cells_update, first_update, gather_update hb, add_assoc]
  rfl

/-! ## Nodes beside the lists -/

/-- A new node is in no list. -/
theorem createNode_spec : Triple (Lists size f H top) (createNode v : SlistM Bucket V Addr)
    fun r s => r = top ∧ Lists size f ({(top, ⟨v, none⟩)} + H) (top + 1) s := by
  unfold Lists
  rw [add_left_comm]
  exact Slist.createNode_spec

/-- A loose node is given back. -/
theorem dropNode_spec : Triple (Lists size f ({(a, n)} + H) top) (dropNode a)
    fun _ => Lists size f H top := by
  unfold Lists
  rw [add_left_comm]
  exact Slist.dropNode_spec

/-! ## Operations of one bucket -/

theorem header_spec : Triple (Lists size f H top) (header b)
    fun r s => r = first (f b) ∧ Lists size f H top s :=
  fun s hs => ⟨s.headers b, s, rfl, congrFun hs.headers b, hs⟩

/-- The front of a bucket that is not empty. -/
theorem front_spec (hb : f b = e :: es) : Triple (Lists size f H top) (front b)
    fun r s => r = e.1 ∧ Lists size f H top s := by
  unfold front
  refine header_bind ?_
  rw [hb]
  exact triple_pure fun s hs => ⟨rfl, hs⟩

/-- A loose node becomes the front of a bucket. -/
theorem emplaceFrontNode_spec (hb : b.2 < size b.1) :
    Triple (Lists size f ({(a, ⟨v, none⟩)} + H) top) (emplaceFrontNode b a)
      fun _ => Lists size (Function.update f b ((a, v) :: f b)) H top := by
  rw [eq_focus hb]
  unfold Lists
  rw [focus_eq hb, add_left_comm (others size f b), add_left_comm]
  exact Slist.emplaceFrontNode_spec rfl

theorem emplaceFront_spec (hb : b.2 < size b.1) :
    Triple (Lists size f H top) (emplaceFront b v)
      fun _ => Lists size (Function.update f b ((top, v) :: f b)) H (top + 1) :=
  Triple.bind_eq createNode_spec (emplaceFrontNode_spec hb)

/-- The front of a bucket is taken out and left loose. -/
theorem extractFront_spec (hb : b.2 < size b.1) (hf : f b = (a, v) :: es) :
    Triple (Lists size f H top) (extractFront b)
      fun r s => r = a ∧ Lists size (Function.update f b es) ({(a, ⟨v, none⟩)} + H) top s := by
  rw [eq_focus hb, add_left_comm (others size f b), add_left_comm]
  unfold Lists
  rw [focus_eq hb, hf]
  exact Slist.extractFront_spec (by rw [hf]; rfl)

/-- The front of a bucket is taken out and given back. -/
theorem popFront_spec (hb : b.2 < size b.1) (hf : f b = e :: es) :
    Triple (Lists size f H top) (popFront b)
      fun _ => Lists size (Function.update f b es) H top :=
  Triple.bind_eq (extractFront_spec hb hf) dropNode_spec

/-- The search in a bucket. -/
theorem searchNodeIf_spec (hb : b.2 < size b.1) :
    Triple (Lists size f H top) (searchNodeIf b pred)
      fun r s => r = (found pred (f b)).map Prod.fst ∧ Lists size f H top s := by
  unfold Lists
  rw [focus_eq hb]
  exact Slist.searchNodeIf_spec rfl

/-- The first entry of a bucket that satisfies the predicate is taken out. -/
theorem extractNodeIf_spec (hb : b.2 < size b.1) :
    Triple (Lists size f H top) (extractNodeIf b pred)
      fun r s => r = (found pred (f b)).map Prod.fst
        ∧ Lists size (Function.update f b (without pred (f b))) (released (found pred (f b)) + H)
            top s := by
  rw [eq_focus hb, add_left_comm (others size f b)]
  unfold Lists
  rw [focus_eq hb]
  exact Slist.extractNodeIf_spec rfl

/-- A bucket is emptied. -/
theorem clear_spec (hb : b.2 < size b.1) :
    Triple (Lists size f H top) (Slist.clear b)
      fun _ => Lists size (Function.update f b []) H top := by
  rw [eq_focus hb, cells_nil, zero_add]
  unfold Lists
  rw [focus_eq hb]
  exact Slist.clear_spec rfl

/-- `EraseAfterFindSlot` takes the first entry out. -/
theorem eraseAfterFindSlot_spec (hb : b.2 < size b.1) (hf : f b = e :: es) :
    Triple (Lists size f H top)
      (do
        let old ← front b
        setHeader b (← load old).next
        dropNode old)
      fun _ => Lists size (Function.update f b es) H top := by
  refine Triple.bind_eq (front_spec hf) ?_
  rw [eq_focus hb]
  unfold Lists
  rw [focus_eq hb, hf, cells_cons, add_assoc]
  refine Slist.load_bind (n := ⟨e.2, first es⟩) (by simp) ?_
  exact Triple.bind setHeader_spec fun _ => Slist.dropNode_spec

end Lists

/-! ## Moving the nodes of one bucket -/

/-- The lists after the bucket `r` of the first table has been moved, entry by entry from the
front. -/
def moveLists (dest : V → ℕ) (r : ℕ) (f : Bucket → List (Addr × V)) : Bucket → List (Addr × V)
  | (.table1, i) => if i = r then [] else f (.table1, i)
  | (.table2, i) => ((f (.table1, r)).filter fun e => dest e.2 = i).reverse ++ f (.table2, i)

section

variable {size : TableName → ℕ} {f : Bucket → List (Addr × V)} {H : Multiset (Addr × SNode V)}
  {top r : ℕ} {es : List (Addr × V)} {e : Addr × V} {dest : V → ℕ}

theorem moveLists_table1 (i : ℕ) :
    moveLists dest r f (.table1, i) = if i = r then [] else f (.table1, i) := rfl

theorem moveLists_table2 (i : ℕ) : moveLists dest r f (.table2, i)
    = ((f (.table1, r)).filter fun e => dest e.2 = i).reverse ++ f (.table2, i) := rfl

/-- Moving an empty bucket changes nothing. -/
theorem moveLists_of_nil (hf : f (.table1, r) = []) : moveLists dest r f = f := by
  funext ⟨t, i⟩
  cases t with
  | table1 =>
    rw [moveLists_table1]
    split_ifs with hi
    · rw [hi, hf]
    · rfl
  | table2 =>
    rw [moveLists_table2, hf]
    rfl

/-- The first entry goes, and then the others. -/
theorem moveLists_of_cons (hf : f (.table1, r) = e :: es) :
    moveLists dest r (Function.update (Function.update f (.table1, r) es) (.table2, dest e.2)
      (e :: f (.table2, dest e.2))) = moveLists dest r f := by
  funext ⟨t, i⟩
  cases t with
  | table1 =>
    rw [moveLists_table1, moveLists_table1]
    split_ifs with hi
    · rfl
    · rw [Function.update_of_ne (by simp), Function.update_of_ne (by simpa using hi)]
  | table2 =>
    rw [moveLists_table2, moveLists_table2, Function.update_of_ne (by simp), Function.update_self, hf]
    by_cases hi : dest e.2 = i
    · subst hi
      rw [Function.update_self, List.filter_cons_of_pos (by simp), List.reverse_cons,
        List.append_assoc]
      rfl
    · have hne : ((.table2, i) : Bucket) ≠ (.table2, dest e.2) := by simpa using Ne.symm hi
      rw [Function.update_of_ne hne, Function.update_of_ne (by simp),
        List.filter_cons_of_neg (by simpa using hi)]

/-- **The loop of `IncrementalRehash`.** -/
theorem Lists.moveLoop_spec {T : EqualTraits K V} {mask2 : BitVec 64} {fuel : ℕ}
    (hr : r < size .table1) (hdest : ∀ v, (T.hash (T.gk v) &&& mask2).toNat = dest v)
    (hlt : ∀ v, dest v < size .table2) (hfuel : (f (.table1, r)).length < fuel) :
    Triple (Lists size f H top) (HashTable.moveLoop T (.table1, r) (size .table2) mask2 fuel)
      fun _ => Lists size (moveLists dest r f) H top := by
  induction fuel generalizing f with
  | zero => exact absurd hfuel (Nat.not_lt_zero _)
  | succ fuel ih =>
    rw [HashTable.moveLoop]
    refine Triple.bind_eq (a := (first (f (.table1, r))).isNone) (Triple.bind_eq header_spec
      (triple_pure fun s hs => ⟨rfl, hs⟩)) ?_
    cases hf : f (.table1, r) with
    | nil =>
      rw [moveLists_of_nil hf]
      exact triple_pure fun _ hs => hs
    | cons e es =>
      obtain ⟨a, v⟩ := e
      refine Triple.bind_eq (extractFront_spec hr hf) ?_
      refine Slist.load_bind (n := ⟨v, none⟩) (by simp) ?_
      dsimp only
      rw [hdest, if_pos (hlt v)]
      have hne : ((.table2, dest v) : Bucket) ≠ (.table1, r) := nofun
      have hmoved : moveLists dest r _ = moveLists dest r f := moveLists_of_cons hf
      rw [← Function.update_of_ne hne es f] at hmoved
      refine Triple.bind (emplaceFrontNode_spec (hlt v)) fun _ => ?_
      rw [← hmoved]
      refine ih ?_
      rw [Function.update_of_ne hne.symm, Function.update_self]
      rw [hf] at hfuel
      exact Nat.lt_of_succ_lt_succ hfuel

end

end Mmkvc
