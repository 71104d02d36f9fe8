/-
# Runs of the dictionary

`Contents.call` is the dictionary as its callers see it: a partial function from keys to
values.  Every run of the calls, with the values read and written through the pointers and
references that they give, answers as the partial function does (`outputs_dictionary_eq`).
-/
import Mmkvc.AvlDictionary
import Mmkvc.ComparatorUtil

namespace Mmkvc

open AvlM TreeHashTable Transition

variable {K V : Type}

/-- The calls of `AvlDictionary`, each with what is done with the pointer that it gives. -/
inductive DictionaryOp (K V : Type) where
  | insertKv (key : K) (value : V)
  | insertKvWithDuplicate (key : K) (value : V)
  | insertOrAssign (key : K) (value : V)
  | find (key : K)
  | subscript (key : K)
  | assign (key : K) (value : V)
  | erase (key : K)
  | clear
  deriving DecidableEq, Repr

namespace AvlDictionary

section

variable (comparator : K → K → ℤ) (hf : K → BitVec 64)

/-- What is at a pointer, unless it is null. -/
def deref : Option Addr → HtM (KeyValue K V) (Option V)
  | none => return none
  | some p => do return some (← valueAt p)

/-- A call, and the value at the pointer that it gives.  `insertOrAssign` is
`InsertKvWithDuplicate` with a write to the duplicate, and `assign` a write through
`operator[]`. -/
def call (fallback : V) : DictionaryOp K V → HtM (KeyValue K V) (Bool × Option V)
  | .insertKv key value => do
    let p ← insertKv comparator hf key value
    return (p.isSome, ← deref p)
  | .insertKvWithDuplicate key value => do
    let (ok, duplicate) ← insertKvWithDuplicate comparator hf key value
    return (ok, ← deref duplicate)
  | .insertOrAssign key value => do
    match ← insertKvWithDuplicate comparator hf key value with
    | (true, p) => return (true, ← deref p)
    | (false, some p) => do
      setValue p value
      return (false, some (← valueAt p))
    | (false, none) => failure
  | .find key => do
    let p ← find comparator hf key
    return (p.isSome, ← deref p)
  | .subscript key => do
    let p ← subscript comparator hf fallback key
    return (true, some (← valueAt p))
  | .assign key value => do
    let p ← subscript comparator hf fallback key
    setValue p value
    return (true, some (← valueAt p))
  | .erase key => do return (0 < (← erase (traits V comparator hf) key), none)
  | .clear => do
    clear
    return (true, none)

/-- A call, the number of entries after it, and the state. -/
def answer (fallback : V) (s : AvlDictionary K V) (op : DictionaryOp K V) :
    Option (((Bool × Option V) × ℕ) × AvlDictionary K V) :=
  ((call comparator hf fallback op).run s).map fun r => ((r.1, r.2.getSize), r.2)

end

end AvlDictionary

/-! ## The partial function -/

/-- A partial function from keys to values. -/
abbrev Contents (K V : Type) := K → Option V

namespace Contents

variable [DecidableEq K]

/-- The calls on a partial function. -/
def call (fallback : V) (D : Contents K V) : DictionaryOp K V → (Bool × Option V) × Contents K V
  | .insertKv k v =>
    (((D k).isNone, if (D k).isNone then some v else none), AvlDictionary.put D k v)
  | .insertKvWithDuplicate k v => (((D k).isNone, some ((D k).getD v)), AvlDictionary.put D k v)
  | .insertOrAssign k v => (((D k).isNone, some v), Function.update D k (some v))
  | .find k => (((D k).isSome, D k), D)
  | .subscript k => ((true, some ((D k).getD fallback)), AvlDictionary.put D k fallback)
  | .assign k v => ((true, some v), Function.update D k (some v))
  | .erase k => (((D k).isSome, none), Function.update D k none)
  | .clear => ((true, none), fun _ => none)

/-- A call, the number of keys that have a value after it, and the partial function. -/
noncomputable def answer (fallback : V) (D : Contents K V) (op : DictionaryOp K V) :
    Option (((Bool × Option V) × ℕ) × Contents K V) :=
  let r := call fallback D op
  some ((r.1, {k | (r.2 k).isSome}.ncard), r.2)

end Contents

/-! ## The dictionary as the partial function -/

namespace AvlDictionary

variable {comparator : K → K → ℤ} {hf : K → BitVec 64} {D : K → Option V} {k : K} {a : Addr}

/-- The value of the entry is read at its address. -/
theorem deref_some_spec : Triple (HoldingAt (traits V comparator hf) · D k a) (deref (some a))
    fun v s => v = D k ∧ Holding (traits V comparator hf) s D := by
  refine valueAt_spec.bind fun v => triple_pure fun s hs => ⟨hs.1.symm, hs.2.holding⟩

variable [DecidableEq K]

/-- A write and a read of what was written. -/
theorem setValue_valueAt_spec (heq : ∀ x y, comparator x y = 0 ↔ x = y) (v : V) (b : Bool) :
    Triple (HoldingAt (traits V comparator hf) · D k a)
      (do setValue a v; return (b, some (← valueAt a)))
      fun r s => r = (b, some v)
        ∧ Holding (traits V comparator hf) s (Function.update D k (some v)) := by
  refine (setValue_spec heq v).bind fun _ => valueAt_spec.bind fun w => triple_pure fun s hs => ?_
  obtain ⟨hw, hs⟩ := hs
  rw [Function.update_self] at hw
  exact ⟨by rw [Option.some.inj hw], hs.holding⟩

/-- `Erase`. -/
theorem erase_spec (heq : ∀ x y, comparator x y = 0 ↔ x = y)
    (hT : LawfulHash (traits V comparator hf)) (k : K) :
    Triple (Holding (traits V comparator hf) · D) (erase (traits V comparator hf) k)
      fun n s => decide (0 < n) = (D k).isSome
        ∧ Holding (traits V comparator hf) s (Function.update D k none) := by
  rintro s ⟨c, m, h⟩
  obtain ⟨r, s', c', m', hrun, hcall, hm', hcount⟩ :=
    h.call hT (nofun : TreeHashTable.PushesLoose s (.erase k)) nofun
  obtain ⟨⟨n, s''⟩, herase, hret⟩ := Option.bind_eq_some_iff.mp hrun
  obtain ⟨rfl, rfl⟩ := Prod.mk.inj (Option.some.inj hret)
  obtain ⟨hfound, rfl⟩ := Prod.mk.inj (Option.some.inj hcall)
  have hsome : (m.map.lookup k).isSome = decide (0 < n) := congrArg Prod.fst hfound
  refine ⟨n, s'', herase, ?_, c', _, hm', hcount, fun k' => ?_⟩
  · rw [← hsome, h.values, Option.isSome_map]
  · show _ = ((m.map.erase k).lookup k').map _
    rw [FiniteMap.lookup_erase hT.cmp.equivalence]
    by_cases hk : k' = k
    · subst hk
      have hself : (traits V comparator hf).Equiv k' k' := (heq k' k').mpr rfl
      rw [Function.update_self, if_pos hself, Option.map_none]
    · have hne : ¬ (traits V comparator hf).Equiv k k' := fun he => hk ((heq k k').mp he).symm
      rw [Function.update_of_ne hk, if_neg hne, h.values]

omit [DecidableEq K] in
/-- `Clear`. -/
theorem clear_spec (hT : LawfulHash (traits V comparator hf)) :
    Triple (Holding (traits V comparator hf) · D) clear
      fun _ s => Holding (traits V comparator hf) s fun _ => none := by
  rintro s ⟨c, m, h⟩
  obtain ⟨r, s', c', m', hrun, hcall, hm', hcount⟩ :=
    h.call hT (nofun : TreeHashTable.PushesLoose s .clear) nofun
  obtain ⟨⟨u, s''⟩, hclear, hret⟩ := Option.bind_eq_some_iff.mp hrun
  obtain ⟨-, rfl⟩ := Prod.mk.inj (Option.some.inj hret)
  obtain ⟨-, rfl⟩ := Prod.mk.inj (Option.some.inj hcall)
  exact ⟨u, s'', hclear, c', _, hm', hcount, fun _ => rfl⟩

/-- **Each call answers as the partial function does.** -/
theorem call_holding (heq : ∀ x y, comparator x y = 0 ↔ x = y)
    (hT : LawfulHash (traits V comparator hf)) (fallback : V) (op : DictionaryOp K V) :
    Triple (Holding (traits V comparator hf) · D) (call comparator hf fallback op)
      fun r s => r = (Contents.call fallback D op).1
        ∧ Holding (traits V comparator hf) s (Contents.call fallback D op).2 := by
  have hassign : ∀ k v w, Function.update (put D k w) k (some v) = Function.update D k (some v) :=
    fun k v w => Function.update_idem _ _ _
  intro s hs
  cases op with
  | insertKv k v =>
    obtain ⟨p, s₁, hrun, a, rfl, h₁⟩ := insertKv_spec heq hT k v s hs
    cases hD : D k with
    | none =>
      rw [hD] at hrun
      obtain ⟨w, s₂, hread, rfl, h₂⟩ := deref_some_spec s₁ h₁
      refine ⟨_, s₂, run_bind_eq hrun (run_bind_eq hread rfl), ?_, h₂⟩
      rw [Contents.call, put, Function.update_self, hD]
      rfl
    | some w =>
      rw [hD] at hrun
      refine ⟨_, s₁, run_bind_eq hrun rfl, ?_, h₁.holding⟩
      rw [Contents.call, hD]
      rfl
  | insertKvWithDuplicate k v =>
    obtain ⟨_, s₁, hrun, a, rfl, h₁⟩ := insertKvWithDuplicate_spec heq hT k v s hs
    obtain ⟨w, s₂, hread, rfl, h₂⟩ := deref_some_spec s₁ h₁
    refine ⟨_, s₂, run_bind_eq hrun (run_bind_eq hread rfl), ?_, h₂⟩
    rw [Contents.call, put, Function.update_self]
  | insertOrAssign k v =>
    obtain ⟨_, s₁, hrun, a, rfl, h₁⟩ := insertKvWithDuplicate_spec heq hT k v s hs
    cases hD : D k with
    | none =>
      rw [hD] at hrun
      obtain ⟨w, s₂, hread, rfl, h₂⟩ := deref_some_spec s₁ h₁
      rw [put, hD] at h₂
      refine ⟨_, s₂, run_bind_eq hrun (run_bind_eq hread rfl), ?_, h₂⟩
      rw [Contents.call, put, Function.update_self, hD]
      rfl
    | some w =>
      rw [hD] at hrun
      obtain ⟨r, s₂, hwrite, rfl, h₂⟩ := setValue_valueAt_spec heq v false s₁ h₁
      rw [hassign] at h₂
      exact ⟨_, s₂, run_bind_eq hrun hwrite, by rw [Contents.call, hD]; rfl, h₂⟩
  | find k =>
    obtain ⟨p, s₁, hrun, ⟨hD, rfl, h₁⟩ | ⟨a, v, hD, rfl, h₁⟩⟩ := find_spec hT k s hs
    · exact ⟨_, s₁, run_bind_eq hrun rfl, by rw [Contents.call, hD]; rfl, h₁⟩
    · obtain ⟨w, s₂, hread, rfl, h₂⟩ := deref_some_spec s₁ h₁
      exact ⟨_, s₂, run_bind_eq hrun (run_bind_eq hread rfl), by rw [Contents.call, hD]; rfl, h₂⟩
  | subscript k =>
    obtain ⟨a, s₁, hrun, h₁⟩ := subscript_spec heq hT fallback k s hs
    obtain ⟨w, s₂, hread, hw, h₂⟩ := valueAt_spec s₁ h₁
    rw [put, Function.update_self] at hw
    refine ⟨_, s₂, run_bind_eq hrun (run_bind_eq hread rfl), ?_, h₂.holding⟩
    rw [Contents.call, hw]
  | assign k v =>
    obtain ⟨a, s₁, hrun, h₁⟩ := subscript_spec heq hT fallback k s hs
    obtain ⟨r, s₂, hwrite, rfl, h₂⟩ := setValue_valueAt_spec heq v true s₁ h₁
    rw [hassign] at h₂
    exact ⟨_, s₂, run_bind_eq hrun hwrite, rfl, h₂⟩
  | erase k =>
    obtain ⟨n, s₁, hrun, hn, h₁⟩ := erase_spec heq hT k s hs
    exact ⟨_, s₁, run_bind_eq hrun rfl, congrArg (·, none) hn, h₁⟩
  | clear =>
    obtain ⟨u, s₁, hrun, h₁⟩ := clear_spec hT s hs
    exact ⟨_, s₁, run_bind_eq hrun rfl, rfl, h₁⟩

/-- **A dictionary is a partial function.**  In every run of calls the dictionary gives the flags,
the values at its pointers and the sizes that a partial function gives, and in the end it has the
values of that function. -/
theorem outputs_dictionary_eq (hcmp : LawfulCompare comparator)
    (heq : ∀ x y, comparator x y = 0 ↔ x = y) (hf : K → BitVec 64) (fallback : V)
    (ops : List (DictionaryOp K V)) :
    ∃ s, construct = some s ∧ ∃ rs s' D,
      outputs (answer comparator hf fallback) s ops = some (rs, s')
        ∧ outputs (Contents.answer fallback) (fun _ => none) ops = some (rs, D)
        ∧ Holding (traits V comparator hf) s' D := by
  have hagree : ∀ s D op, Holding (traits V comparator hf) s D → True →
      ∃ b s' D', answer comparator hf fallback s op = some (b, s')
        ∧ Contents.answer fallback D op = some (b, D')
        ∧ Holding (traits V comparator hf) s' D' := by
    intro s D op h _
    obtain ⟨r, s', hrun, rfl, h'⟩ := call_holding heq (lawfulHash hcmp heq hf) fallback op s h
    obtain ⟨c, m, hrep⟩ := h'
    refine ⟨_, s', _, ?_, rfl, c, m, hrep⟩
    rw [answer, hrun, Option.map_some, hrep.getSize_eq heq]
  obtain ⟨s, hs, h⟩ := exists_holding comparator hf
  have htrue : AllSteps (next (answer comparator hf fallback)) (fun _ _ => True) s ops :=
    allSteps_of_forall fun _ _ => trivial
  exact ⟨s, hs, exists_outputs_of_allSteps hagree h htrue⟩

/-- A run with a rehash, writes to keys that are there and to keys that are not. -/
def shardRun : List (DictionaryOp (BitVec 64) ℕ) :=
  [.insertKv 1 10, .assign 5 50, .insertOrAssign 9 90, .insertOrAssign 1 11, .subscript 13,
    .insertKvWithDuplicate 5 51, .erase 9, .find 9, .assign 13 130, .insertKv 5 52, .find 5, .clear]

theorem outputs_dictionary_shardRun : ∃ s, construct = some s ∧ ∃ rs s' D,
    outputs (answer Comparator.compareUint id 0) s shardRun = some (rs, s')
      ∧ outputs (Contents.answer 0) (fun _ => none) shardRun = some (rs, D)
      ∧ Holding (traits ℕ Comparator.compareUint id) s' D :=
  outputs_dictionary_eq Comparator.lawfulCompare_uint
    (fun _ _ => Comparator.compareUint_eq_zero) id 0 shardRun

end AvlDictionary

end Mmkvc
