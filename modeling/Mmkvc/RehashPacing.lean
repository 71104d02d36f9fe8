/-
# The pace of a rehash

Each call other than `Clear` moves a bucket while a rehash goes on, and adds at most one entry.
So a rehash ends when as many calls have been made as the first table has buckets, before the
second table is full, and until then every index is within its table.
-/
import Mmkvc.TableIteration

namespace Mmkvc

open Tables Transition

variable {K V : Type}

/-! ## Layouts -/

namespace Layout

/-- What a call other than `Clear` makes of a layout. -/
inductive Moves (l : Layout) : Layout → Prop
  | duplicate : Moves l l.start.advance
  | insert : Moves l l.start.advance.add
  | find : Moves l l.advance
  | extract : Moves l l.advance.remove

/-- The invariant of the layouts. -/
def InStep (l : Layout) : Prop := l.Sound ∧ l.Paced

section

variable {l l' : Layout} {r : ℕ}

theorem inStep_fresh : fresh.InStep := ⟨sound_fresh, paced_fresh⟩

/-- **The invariant is kept.** -/
theorem Moves.inStep (h : l.Moves l') (hl : l.InStep) : l'.InStep := by
  obtain ⟨hs, hp⟩ := hl
  cases h with
  | duplicate => exact ⟨hs.start.advance, hp.start.advance hs.start⟩
  | insert => exact ⟨hs.start.advance.add, (hp.room hs).add⟩
  | find => exact ⟨hs.advance, hp.advance hs⟩
  | extract => exact ⟨hs.advance.remove, (hp.advance hs).remove⟩

/-- In the middle of a rehash every call goes one step on. -/
theorem Moves.size_moved (h : l.Moves l') (hr : l.moved = some r) :
    l'.size = l.advance.size ∧ l'.moved = l.advance.moved := by
  cases h with
  | duplicate | insert => rw [start_of_moved hr]; exact ⟨rfl, rfl⟩
  | find | extract => exact ⟨rfl, rfl⟩

/-- A call moves one bucket of a rehash that is not at its end. -/
theorem Moves.next (h : l.Moves l') (hr : l.moved = some r) (hlt : r + 1 ≠ l.size .table1) :
    l'.size .table1 = l.size .table1 ∧ l'.moved = some (r + 1) := by
  obtain ⟨hsize, hmoved⟩ := h.size_moved hr
  rw [advance_of_moved hr, if_neg hlt] at hsize hmoved
  exact ⟨congrFun hsize .table1, hmoved⟩

/-- The last step. -/
theorem Moves.last (h : l.Moves l') (hl : l.Sound) (hr : l.moved = some r)
    (hlast : r + 1 = l.size .table1) : l'.size .table1 = 2 * l.size .table1 ∧ l'.moved = none := by
  obtain ⟨hsize, hmoved⟩ := h.size_moved hr
  rw [advance_of_moved hr, if_pos hlast] at hsize hmoved
  refine ⟨?_, hmoved⟩
  rw [hsize]
  exact (hl.rehashing r hr).1

/-- The call that starts a rehash moves the first bucket. -/
theorem Moves.first (h : l.Moves l') (hl : l.Sound) (hidle : l.moved = none) (hr : l'.moved ≠ none) :
    l'.size .table1 = l.size .table1 ∧ l'.moved = some 1 := by
  have hadvance : l.advance.moved = none := by
    rw [advance_of_idle hidle]
    exact hidle
  have hstart : l.start.advance.moved ≠ none → l.start.advance.size .table1 = l.size .table1
      ∧ l.start.advance.moved = some 1 := by
    unfold start
    split_ifs with hfull
    · intro _
      have hone : 0 + 1 ≠ sizes (l.size .table1) (2 * l.size .table1) .table1 := by
        have hfour := hl.four_le
        rw [sizes_table1]
        omega
      rw [advance_of_moved rfl, if_neg hone]
      exact ⟨rfl, rfl⟩
    · exact fun hne => absurd hadvance hne
  cases h with
  | duplicate | insert => exact hstart hr
  | find | extract => exact absurd hadvance hr

end

end Layout

/-! ## Tables in pace -/

namespace Tables

variable {M α : Type}

/-- The sizes, the count and the index of a rehash go together, the table that gets the entries
is not full, and every index is within its table. -/
structure InPace (s : Tables M) : Prop where
  size : ∃ k, s.size .table1 = 2 ^ (k + 2)
  sizeMask : s.sizeMask .table1 = BitVec.ofNat 64 (s.size .table1 - 1)
  idle : s.rehashMoveBucketIndex = none → s.used ≤ s.size .table1
  rehashing : ∀ r, s.rehashMoveBucketIndex = some r → s.size .table2 = 2 * s.size .table1
    ∧ r < s.size .table1 ∧ s.used ≤ s.size .table1 + r ∧ s.used < s.size .table2
  bucketIndex : ∀ t hashVal, (t = .table2 → s.rehashMoveBucketIndex ≠ none) →
    bucketIndex t hashVal s < s.size t

/-- A rehash of a table of `N` buckets is over when `N` calls that meet `P` have been made, the one
that starts it among them. -/
def FinishesInTime (step : Tables M → α → Option (Tables M)) (P : Tables M → α → Prop)
    (s : Tables M) : Prop :=
  s.rehashMoveBucketIndex = none → ∀ op s', P s op → step s op = some s' →
    s'.rehashMoveBucketIndex ≠ none → ∀ ops, AllSteps step P s' ops →
      ops.length + 1 = s.size .table1 → ∃ s'', run step s' ops = some s''
        ∧ s''.rehashMoveBucketIndex = none ∧ s''.size .table1 = 2 * s.size .table1

section

variable {I : (TableName → ℕ) → M → Prop} {l : Layout} {s : Tables M} {r : ℕ}

/-- A table in step is in pace. -/
theorem Holds.inPace (hs : Holds I l s) (hl : l.InStep) : InPace s := by
  obtain ⟨hsound, hpaced⟩ := hl
  have hused : l.used ≤ l.size .table1 + l.moved.getD 0 := hpaced
  refine ⟨?_, ?_, fun hidle => ?_, fun r hr => ?_, fun t hashVal ht => ?_⟩
  · rw [hs.size_eq]
    exact hsound.pow
  · rw [hs.mask1, hs.size_eq]
    have hpos := hsound.size_pos
    obtain ⟨n, hn⟩ := Nat.exists_eq_add_one_of_ne_zero hpos.ne'
    rw [hn, Nat.add_sub_cancel, BitVec.ofNat_add]
    exact BitVec.add_sub_cancel _ _
  · rw [hs.moved_eq] at hidle
    rw [hs.used_eq, hs.size_eq]
    rwa [hidle] at hused
  · rw [hs.moved_eq] at hr
    obtain ⟨hsize, hlt⟩ := hsound.rehashing r hr
    rw [hs.used_eq, hs.size_eq]
    rw [hr] at hused
    exact ⟨hsize, hlt, hused, hpaced.used_lt hsound hr⟩
  · rw [hs.moved_eq] at ht
    rw [bucketIndex_eq hsound ht hashVal hs, hs.size_eq]
    refine Nat.mod_lt _ ?_
    cases t with
    | table1 => exact hsound.size_pos
    | table2 =>
      obtain ⟨r, hr⟩ := Option.ne_none_iff_exists'.mp (ht rfl)
      have hsize := (hsound.rehashing r hr).1
      have hpos := hsound.size_pos
      omega

variable {step : Tables M → α → Option (Tables M)} {J : Tables M → Prop} {P : Tables M → α → Prop}

/-- **A rehash in the middle** is over after the calls that are left. -/
theorem run_finishes
    (hstep : ∀ s op, J s → P s op → ∃ s', step s op = some s' ∧ J s' ∧ s.layout.Moves s'.layout)
    (hJ : ∀ s, J s → s.layout.Sound) {s : Tables M} {r : ℕ} {ops : List α} (hs : J s)
    (hr : s.rehashMoveBucketIndex = some r) (hP : AllSteps step P s ops)
    (hlength : ops.length + r = s.size .table1) :
    ∃ s', run step s ops = some s' ∧ s'.rehashMoveBucketIndex = none
      ∧ s'.size .table1 = 2 * s.size .table1 := by
  have hlt : r < s.size .table1 := ((hJ s hs).rehashing r hr).2
  induction ops generalizing s r with
  | nil =>
    rw [List.length_nil] at hlength
    omega
  | cons op ops ih =>
    rw [List.length_cons] at hlength
    obtain ⟨t, ht, hJt, hmoves⟩ := hstep s op hs hP.1
    by_cases hlast : r + 1 = s.size .table1
    · obtain ⟨hsize, hmoved⟩ := hmoves.last (hJ s hs) hr hlast
      have hnil : ops = [] := List.length_eq_zero_iff.mp (by omega)
      subst hnil
      exact ⟨t, run_cons.mpr ⟨t, ht, rfl⟩, hmoved, hsize⟩
    · obtain ⟨hsize, hmoved⟩ := hmoves.next hr hlast
      have hsize' : t.size .table1 = s.size .table1 := hsize
      obtain ⟨s', hrun, hidle, hdouble⟩ := ih hJt hmoved (hP.2 t ht) (by omega)
        ((hJ t hJt).rehashing (r + 1) hmoved).2
      exact ⟨s', run_cons.mpr ⟨t, ht, hrun⟩, hidle, hdouble.trans (by rw [hsize'])⟩

/-- A rehash is over after as many calls as it has buckets. -/
theorem finishesInTime
    (hstep : ∀ s op, J s → P s op → ∃ s', step s op = some s' ∧ J s' ∧ s.layout.Moves s'.layout)
    (hJ : ∀ s, J s → s.layout.Sound) (hs : J s) : FinishesInTime step P s := by
  intro hidle op s' hop hs' hne ops hops hlength
  obtain ⟨t, ht, hJt, hmoves⟩ := hstep s op hs hop
  obtain rfl := Option.some.inj (ht.symm.trans hs')
  obtain ⟨hsize, hmoved⟩ := hmoves.first (hJ s hs) hidle hne
  have hsize' : t.size .table1 = s.size .table1 := hsize
  obtain ⟨s'', hrun, hidle', hdouble⟩ := run_finishes hstep hJ hJt hmoved hops (by omega)
  exact ⟨s'', hrun, hidle', hdouble.trans (by rw [hsize'])⟩

end

end Tables

/-! ## The calls of both tables -/

namespace HashTable

variable {T : EqualTraits K V} {c c' : Inventory V} {op : HashTableOp K V} {r : Bool × Option Addr}
  {s : HashTable V}

/-- A call other than `Clear` moves a bucket. -/
theorem moves_layout (h : c.Moves T op r c') (hop : op ≠ .clear) : c.layout.Moves c'.layout := by
  cases op with
  | insert v | insertWithDuplicate v =>
    obtain ⟨o, -, rfl, -⟩ := h
    cases o with
    | none => exact .insert
    | some e => exact .duplicate
  | find k | findSlot k =>
    obtain ⟨o, -, rfl, -⟩ := h
    exact .find
  | extract k | erase k =>
    obtain ⟨o, M, -, -, rfl, -⟩ := h
    cases o with
    | none => exact .find
    | some e => exact .extract
  | eraseSlot k | eraseRandom =>
    obtain ⟨o, M, -, -, rfl, -⟩ := h
    exact .find
  | clear => exact absurd rfl hop

/-- A call keeps the table in step. -/
theorem inStep_of_moves (h : c.Moves T op r c') (hc : c.layout.InStep) : c'.layout.InStep := by
  by_cases hop : op = .clear
  · subst hop
    obtain ⟨rfl, -⟩ := h
    exact Layout.inStep_fresh
  · exact (moves_layout h hop).inStep hc

/-- A table in pace. -/
def Paced (T : EqualTraits K V) (s : HashTable V) : Prop :=
  ∃ c : Inventory V, c.Holds T s ∧ c.layout.InStep

theorem layout_of_holds (hs : c.Holds T s) : s.layout = c.layout := by
  obtain ⟨f, -, -, hs⟩ := hs
  exact hs.layout

/-- A call keeps the pace and moves a bucket. -/
theorem Paced.step (hT : LawfulEqual T) (hs : Paced T s) (op : HashTableOp K V) :
    ∃ s', step T s op = some s' ∧ Paced T s' ∧ (op ≠ .clear → s.layout.Moves s'.layout) := by
  obtain ⟨c, hc, hpaced⟩ := hs
  obtain ⟨r, s', c', -, hstep, hmoves, hc'⟩ := exists_step hT hc op
  refine ⟨s', hstep, ⟨c', hc', inStep_of_moves hmoves hpaced⟩, fun hop => ?_⟩
  rw [layout_of_holds hc, layout_of_holds hc']
  exact moves_layout hmoves hop

/-- Every reachable table is paced. -/
theorem Reachable.paced (hT : LawfulEqual T) (h : Reachable T s) : Paced T s := by
  obtain ⟨s₀, ops, hs₀, hrun⟩ := h
  obtain ⟨t, ht, hholds⟩ := HashTable.exists_holds T
  obtain rfl := Option.some.inj (ht.symm.trans hs₀)
  refine invariant_of_run (fun s op s' hs hstep => ?_) ⟨_, hholds, Layout.inStep_fresh⟩ hrun
  obtain ⟨t, ht, hpaced, -⟩ := hs.step hT op
  obtain rfl := Option.some.inj (ht.symm.trans hstep)
  exact hpaced

theorem Paced.inPace (hs : Paced T s) : InPace s := by
  obtain ⟨c, ⟨f, -, -, hc⟩, hpaced⟩ := hs
  exact Tables.Holds.inPace hc hpaced

end HashTable

namespace TreeHashTable

variable {T : HashTraits K V} {c c' : Snapshot V} {op : TreeTableOp K V} {r : Bool × Option Addr}
  {s : TreeHashTable V}

/-- The calls that go on with a rehash. -/
def Rehashes : TreeTableOp K V → Prop
  | .create _ | .clear | .clearApply => False
  | .insert _ | .insertWithDuplicate _ | .push _ | .find _ | .extract _ | .erase _ | .eraseNode _ =>
    True

/-- An insertion adds one entry at most. -/
theorem layout_insertFresh (c : Snapshot V) (v : V) :
    (c.insertFresh T v).layout = c.layout ∨ (c.insertFresh T v).layout = c.layout.add := by
  unfold Snapshot.insertFresh
  dsimp only
  split_ifs
  · exact Or.inr rfl
  · exact Or.inl rfl

/-- A call that rehashes moves a bucket. -/
theorem moves_layout (h : c.Moves T op r c') (hop : Rehashes op) : c.layout.Moves c'.layout := by
  cases op with
  | insert v | insertWithDuplicate v =>
    obtain ⟨-, rfl⟩ := h
    rcases layout_insertFresh (T := T) (c.start.advance T) v with heq | heq
    · rw [heq]
      exact .duplicate
    · rw [heq]
      exact .insert
  | push a =>
    obtain ⟨n, L, -, -, rfl⟩ := h
    split_ifs
    · exact .insert
    · exact .duplicate
  | find k | eraseNode k =>
    obtain ⟨-, rfl⟩ := h
    exact .find
  | extract k | erase k =>
    obtain ⟨-, rfl⟩ := h
    dsimp only
    split_ifs
    · exact .extract
    · exact .find
  | create v | clear | clearApply => exact hop.elim

/-- A call keeps the table in step. -/
theorem inStep_of_moves (h : c.Moves T op r c') (hc : c.layout.InStep) : c'.layout.InStep := by
  by_cases hop : Rehashes op
  · exact (moves_layout h hop).inStep hc
  · cases op with
    | create v =>
      obtain ⟨-, rfl⟩ := h
      exact hc
    | clear | clearApply =>
      obtain ⟨-, rfl⟩ := h
      exact Layout.inStep_fresh
    | insert v | insertWithDuplicate v | push a | find k | extract k | erase k | eraseNode k =>
      exact absurd trivial hop

/-- A table in pace. -/
def Paced (T : HashTraits K V) (s : TreeHashTable V) : Prop :=
  ∃ c m, Refines T c s m ∧ c.layout.InStep

/-- A call keeps the pace and moves a bucket, if it rehashes. -/
theorem Paced.step (hT : LawfulHash T) (hs : Paced T s) (hpush : PushesLoose s op) :
    ∃ s', step T s op = some s' ∧ Paced T s' ∧ (Rehashes op → s.layout.Moves s'.layout) := by
  obtain ⟨c, m, href, hpaced⟩ := hs
  obtain ⟨r, s', c', m', hrun, hmoves, -, href', -⟩ := href.call hT hpush
  refine ⟨s', by rw [TreeHashTable.step, exec, hrun]; rfl, ⟨c', m', href',
    inStep_of_moves hmoves hpaced⟩, fun hop => ?_⟩
  rw [href.holds.layout, href'.holds.layout]
  exact moves_layout hmoves hop

/-- Every reachable table is paced. -/
theorem Reachable.paced (hT : LawfulHash T) (h : Reachable T s) : Paced T s := by
  obtain ⟨s₀, ops, hs₀, hpush, hrun⟩ := h
  obtain ⟨t, ht, href, -⟩ := TreeHashTable.exists_refines T
  obtain rfl := Option.some.inj (ht.symm.trans hs₀)
  refine invariant_of_allSteps (fun s op s' hs hop hstep => ?_) ⟨_, _, href, Layout.inStep_fresh⟩
    hpush hrun
  obtain ⟨t, ht, hpaced, -⟩ := hs.step hT hop
  obtain rfl := Option.some.inj (ht.symm.trans hstep)
  exact hpaced

theorem Paced.inPace (hs : Paced T s) : InPace s := by
  obtain ⟨c, m, href, hpaced⟩ := hs
  exact Tables.Holds.inPace href.holds hpaced

end TreeHashTable

/-! ## Every run -/

/-- **Rehashes are paced and every index is in its table**: in every state of either table the
sizes, the count and the index go together, no call gets stuck on a bucket, and a rehash is over
in time unless the table is cleared. -/
theorem reachable_inPace {T : EqualTraits K V} {T' : HashTraits K V} (hT : LawfulEqual T)
    (hT' : LawfulHash T') :
    (∀ s : HashTable V, HashTable.Reachable T s → InPace s
      ∧ (∀ op, ∃ s', HashTable.step T s op = some s')
      ∧ FinishesInTime (HashTable.step T) (fun _ op => op ≠ .clear) s)
    ∧ ∀ s : TreeHashTable V, TreeHashTable.Reachable T' s → InPace s
      ∧ (∀ op, TreeHashTable.PushesLoose s op → ∃ s', TreeHashTable.step T' s op = some s')
      ∧ FinishesInTime (TreeHashTable.step T')
        (fun s op => TreeHashTable.PushesLoose s op ∧ TreeHashTable.Rehashes op) s := by
  constructor
  · intro s hs
    have hpaced := hs.paced hT
    refine ⟨hpaced.inPace, fun op => ?_, finishesInTime (J := HashTable.Paced T)
      (fun s op hs hop => ?_) (fun s hs => ?_) hpaced⟩
    · obtain ⟨s', hs', -⟩ := hpaced.step hT op
      exact ⟨s', hs'⟩
    · obtain ⟨s', hs', hpaced', hmoves⟩ := hs.step hT op
      exact ⟨s', hs', hpaced', hmoves hop⟩
    · obtain ⟨c, hc, hsound, -⟩ := hs
      rw [HashTable.layout_of_holds hc]
      exact hsound
  · intro s hs
    have hpaced := hs.paced hT'
    refine ⟨hpaced.inPace, fun op hop => ?_, finishesInTime (J := TreeHashTable.Paced T')
      (fun s op hs hop => ?_) (fun s hs => ?_) hpaced⟩
    · obtain ⟨s', hs', -⟩ := hpaced.step hT' hop
      exact ⟨s', hs'⟩
    · obtain ⟨s', hs', hpaced', hmoves⟩ := hs.step hT' hop.1
      exact ⟨s', hs', hpaced', hmoves hop.2⟩
    · obtain ⟨c, m, href, hsound, -⟩ := hs
      rw [href.holds.layout]
      exact hsound

/-- A rehash of four buckets that begins with an insertion. -/
theorem reachable_inPace_fourBuckets : ∃ s s' s'' : HashTable ℤ,
    HashTable.Reachable HashTable.intKeys s ∧ InPace s ∧ s.rehashMoveBucketIndex = none
      ∧ HashTable.step HashTable.intKeys s (.insert 3) = some s' ∧ s'.rehashMoveBucketIndex = some 1
      ∧ run (HashTable.step HashTable.intKeys) s' [.find 1, .insert 4, .erase 5] = some s''
      ∧ s''.rehashMoveBucketIndex = none ∧ s''.size .table1 = 2 * s.size .table1 := by
  have hcalc : ((HashTable.construct (V := ℤ)).bind fun s₀ =>
      (run (HashTable.step HashTable.intKeys) s₀ ([1, 2, 5, 9].map .insert)).bind fun s =>
        (HashTable.step HashTable.intKeys s (.insert 3)).map fun s' =>
          (s.rehashMoveBucketIndex, s.size .table1, s'.rehashMoveBucketIndex))
      = some (none, 4, some 1) := by decide +kernel
  obtain ⟨s₀, hs₀, hcalc⟩ := Option.bind_eq_some_iff.mp hcalc
  obtain ⟨s, hs, hcalc⟩ := Option.bind_eq_some_iff.mp hcalc
  obtain ⟨s', hs', hcalc⟩ := Option.map_eq_some_iff.mp hcalc
  obtain ⟨hidle, hrest⟩ := Prod.mk.inj hcalc
  obtain ⟨hsize, hmoved⟩ := Prod.mk.inj hrest
  have hreach : HashTable.Reachable HashTable.intKeys s := ⟨s₀, _, hs₀, hs⟩
  obtain ⟨hpace, -, hfinish⟩ := (reachable_inPace HashTable.lawfulEqual_int
    TreeHashTable.lawfulHash_int).1 s hreach
  have hne : s'.rehashMoveBucketIndex ≠ none := by
    rw [hmoved]
    nofun
  obtain ⟨s'', hrun, hidle', hdouble⟩ := hfinish hidle (.insert 3) s' nofun hs' hne
    [.find 1, .insert 4, .erase 5] (allSteps_of_forall (P := fun op : HashTableOp ℤ ℤ => op ≠ .clear) (by simp))
    (by rw [hsize]; rfl)
  exact ⟨s, s', s'', hreach, hpace, hidle, hs', hmoved, hrun, hidle', hdouble⟩

end Mmkvc
