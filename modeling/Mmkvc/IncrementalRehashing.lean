/-
# Incremental rehashing

A hash table that grows without a pause has two tables of buckets.  When it is full,
a second table of twice the size is set up, and from then on every operation moves one
bucket of the first table into it.  When the last one has been moved the second table
takes the place of the first.

This file is about any such table: how the sizes and the number of entries go along, and
where an entry may be.  What a bucket is made of does not matter, only which entries it has.
-/
import Mathlib

namespace Mmkvc

/-- The two elements of `tables_`. -/
inductive TableName where
  | table1
  | table2
  deriving DecidableEq, Repr

/-- The other table. -/
def TableName.other : TableName → TableName
  | .table1 => .table2
  | .table2 => .table1

/-- A bucket: a table and an index. -/
abbrev Bucket := TableName × ℕ

/-! ## Sizes and counts -/

/-- The sizes of the tables, the number of entries, and the number of buckets that have been
moved, if a rehash is going on. -/
structure Layout where
  size : TableName → ℕ
  used : ℕ
  moved : Option ℕ

/-- A size for each table. -/
def sizes (n₁ n₂ : ℕ) : TableName → ℕ
  | .table1 => n₁
  | .table2 => n₂

@[simp] theorem sizes_table1 (n₁ n₂ : ℕ) : sizes n₁ n₂ .table1 = n₁ := rfl
@[simp] theorem sizes_table2 (n₁ n₂ : ℕ) : sizes n₁ n₂ .table2 = n₂ := rfl

namespace Layout

/-- A full table starts a rehash. -/
def start (l : Layout) : Layout :=
  if l.moved = none ∧ l.size .table1 ≤ l.used then
    { l with size := sizes (l.size .table1) (2 * l.size .table1), moved := some 0 }
  else l

/-- The second table takes the place of the first. -/
def finish (l : Layout) : Layout :=
  { l with size := sizes (l.size .table2) 0, moved := none }

/-- A bucket is moved. -/
def advance (l : Layout) : Layout :=
  match l.moved with
  | none => l
  | some r => if r + 1 = l.size .table1 then l.finish else { l with moved := some (r + 1) }

/-- An entry is added, or removed. -/
def add (l : Layout) : Layout := { l with used := l.used + 1 }

def remove (l : Layout) : Layout := { l with used := l.used - 1 }

/-- The layout of a new table. -/
def fresh : Layout := ⟨sizes 4 0, 0, none⟩

/-- What holds of the sizes at all times. -/
structure Sound (l : Layout) : Prop where
  pow : ∃ k, l.size .table1 = 2 ^ (k + 2)
  idle : l.moved = none → l.size .table2 = 0
  rehashing : ∀ r, l.moved = some r → l.size .table2 = 2 * l.size .table1 ∧ r < l.size .table1

/-- There are no more entries than there are buckets in the first table and moved ones. -/
def Paced (l : Layout) : Prop := l.used ≤ l.size .table1 + l.moved.getD 0

/-- There is room for another entry. -/
def Room (l : Layout) : Prop := l.used < l.size .table1 + l.moved.getD 0

variable {l : Layout} {r : ℕ}

theorem sound_fresh : fresh.Sound := ⟨⟨0, rfl⟩, fun _ => rfl, nofun⟩

theorem paced_fresh : fresh.Paced := Nat.zero_le _

theorem Sound.add (h : l.Sound) : l.add.Sound := ⟨h.pow, h.idle, h.rehashing⟩

theorem Sound.remove (h : l.Sound) : l.remove.Sound := ⟨h.pow, h.idle, h.rehashing⟩

/-- The first table has four buckets at least. -/
theorem Sound.four_le (h : l.Sound) : 4 ≤ l.size .table1 := by
  obtain ⟨k, hk⟩ := h.pow
  have hpow : 2 ^ 2 ≤ 2 ^ (k + 2) := Nat.pow_le_pow_right (by omega) (by omega)
  omega

theorem Room.add (h : l.Room) : l.add.Paced := h

theorem Room.paced (h : l.Room) : l.Paced := Nat.le_of_lt h

theorem Paced.remove (h : l.Paced) : l.remove.Paced := (Nat.sub_le _ _).trans h

theorem start_of_moved (h : l.moved = some r) : l.start = l := if_neg (by simp [h])

theorem advance_of_idle (h : l.moved = none) : l.advance = l := by
  rw [advance, h]

/-- A rehash ends with the last bucket of the first table. -/
theorem advance_of_moved (h : l.moved = some r) : l.advance
    = if r + 1 = l.size .table1 then l.finish else { l with moved := some (r + 1) } := by
  rw [advance, h]

@[simp] theorem used_start : l.start.used = l.used := by
  unfold Layout.start
  split_ifs <;> rfl

/-- A step of a rehash leaves the count alone. -/
@[simp] theorem used_advance : l.advance.used = l.used := by
  cases hr : l.moved with
  | none => rw [advance_of_idle hr]
  | some r =>
    rw [advance_of_moved hr]
    split_ifs <;> rfl

/-- A rehash starts with a second table of twice the size. -/
theorem Sound.start (h : l.Sound) : l.start.Sound := by
  unfold Layout.start
  split_ifs with hfull
  · have hpos : 0 < l.size .table1 := by
      obtain ⟨k, hk⟩ := h.pow
      rw [hk]
      positivity
    refine ⟨h.pow, nofun, fun r hr => ?_⟩
    obtain rfl := Option.some.inj hr
    exact ⟨rfl, hpos⟩
  · exact h

/-- A step of a rehash keeps the sizes sound. -/
theorem Sound.advance (h : l.Sound) : l.advance.Sound := by
  unfold Layout.advance
  cases hr : l.moved with
  | none => exact h
  | some r =>
    obtain ⟨hsize, hlt⟩ := h.rehashing r hr
    dsimp only
    split_ifs with hlast
    · refine ⟨?_, fun _ => rfl, nofun⟩
      obtain ⟨k, hk⟩ := h.pow
      refine ⟨k + 1, ?_⟩
      change l.size .table2 = _
      rw [hsize, hk, ← pow_succ']
    · refine ⟨h.pow, nofun, fun r' hr' => ?_⟩
      obtain rfl := Option.some.inj hr'
      exact ⟨hsize, by change r + 1 < l.size .table1; omega⟩

/-- A full table starts a rehash, and there is room again. -/
theorem Paced.start (h : l.Paced) : l.start.Paced := by
  unfold Layout.start
  split_ifs with hfull
  · have hle : l.used ≤ l.size .table1 + l.moved.getD 0 := h
    rw [hfull.1] at hle
    exact hle
  · exact h

/-- Moving a bucket makes room. -/
theorem Paced.advance (hs : l.Sound) (h : l.Paced) : l.advance.Paced := by
  have hle : l.used ≤ l.size .table1 + l.moved.getD 0 := h
  unfold Layout.advance
  cases hr : l.moved with
  | none => exact h
  | some r =>
    obtain ⟨hsize, hlt⟩ := hs.rehashing r hr
    rw [hr, Option.getD_some] at hle
    dsimp only
    split_ifs with hlast
    · change l.used ≤ l.size .table2 + 0
      omega
    · change l.used ≤ l.size .table1 + (r + 1)
      omega

/-- Where an insertion looks for a place, there is room. -/
theorem Paced.room (hs : l.Sound) (h : l.Paced) : l.start.advance.Room := by
  have hle : l.used ≤ l.size .table1 + l.moved.getD 0 := h
  unfold Layout.start Layout.advance
  cases hr : l.moved with
  | none =>
    have hfour := hs.four_le
    rw [hr, Option.getD_none] at hle
    split_ifs with hfull
    · dsimp only
      rw [if_neg (by rw [sizes_table1]; omega)]
      change l.used < l.size .table1 + (0 + 1)
      omega
    · rw [hr]
      change l.used < l.size .table1 + l.moved.getD 0
      have hlt : l.used < l.size .table1 := not_le.mp fun hge => hfull ⟨rfl, hge⟩
      omega
  | some r =>
    obtain ⟨hsize, hlt⟩ := hs.rehashing r hr
    rw [hr, Option.getD_some] at hle
    rw [if_neg (by simp), hr]
    dsimp only
    split_ifs with hlast
    · change l.used < l.size .table2 + 0
      omega
    · change l.used < l.size .table1 + (r + 1)
      omega

/-- Before a rehash ends, the second table is not full. -/
theorem Paced.used_lt (hs : l.Sound) (h : l.Paced) (hr : l.moved = some r) :
    l.used < l.size .table2 := by
  obtain ⟨hsize, hlt⟩ := hs.rehashing r hr
  have hle : l.used ≤ l.size .table1 + l.moved.getD 0 := h
  rw [hr, Option.getD_some] at hle
  omega

end Layout

/-! ## Bucket indices -/

/-- The mask of a power of two takes the remainder, also where the power does not fit. -/
theorem toNat_and_mask (h : BitVec 64) (k : ℕ) :
    (h &&& (BitVec.ofNat 64 (2 ^ k) - 1)).toNat = h.toNat % 2 ^ k := by
  rw [BitVec.toNat_and]
  rcases Nat.lt_or_ge k 64 with hlt | hge
  · have hpow : 2 ^ k < 2 ^ 64 := Nat.pow_lt_pow_right (by omega) hlt
    have hpos : 0 < 2 ^ k := by positivity
    have hmask : (BitVec.ofNat 64 (2 ^ k) - 1).toNat = 2 ^ k - 1 := by
      rw [BitVec.toNat_sub, BitVec.toNat_ofNat, Nat.mod_eq_of_lt hpow]
      change (2 ^ 64 - 1 + 2 ^ k) % 2 ^ 64 = _
      omega
    rw [hmask, Nat.and_two_pow_sub_one_eq_mod]
  · have hdvd : 2 ^ 64 ∣ 2 ^ k := Nat.pow_dvd_pow 2 hge
    have hmask : BitVec.ofNat 64 (2 ^ k) - 1 = BitVec.allOnes 64 := by
      have hzero : BitVec.ofNat 64 (2 ^ k) = 0 :=
        BitVec.eq_of_toNat_eq (by rw [BitVec.toNat_ofNat, Nat.mod_eq_zero_of_dvd hdvd]; rfl)
      rw [hzero]
      rfl
    rw [hmask, BitVec.toNat_allOnes, Nat.and_two_pow_sub_one_eq_mod,
      Nat.mod_eq_of_lt h.isLt, Nat.mod_eq_of_lt (h.isLt.trans_le (Nat.le_of_dvd (by positivity) hdvd))]

/-! ## Sums over the buckets -/

section

variable {M : Type} [AddCommMonoid M]

/-- What the buckets of both tables have together. -/
def gather (size : TableName → ℕ) (f : Bucket → M) : M :=
  ∑ i ∈ Finset.range (size .table1), f (.table1, i)
    + ∑ i ∈ Finset.range (size .table2), f (.table2, i)

variable {size : TableName → ℕ} {f g : Bucket → M} {b : Bucket} {m : M}

/-- Only the buckets that exist count. -/
theorem gather_congr (h : ∀ b : Bucket, b.2 < size b.1 → f b = g b) :
    gather size f = gather size g :=
  congrArg₂ (· + ·) (Finset.sum_congr rfl fun i hi => h (.table1, i) (Finset.mem_range.mp hi))
    (Finset.sum_congr rfl fun i hi => h (.table2, i) (Finset.mem_range.mp hi))

/-- One bucket and the others. -/
theorem gather_update (hb : b.2 < size b.1) :
    gather size (Function.update f b m) = m + gather size (Function.update f b 0) := by
  obtain ⟨t, i⟩ := b
  have hsum : ∀ m' : M, ∑ j ∈ Finset.range (size t), Function.update f (t, i) m' (t, j)
      = m' + ∑ j ∈ (Finset.range (size t)).erase i, f (t, j) := by
    intro m'
    rw [← Finset.add_sum_erase _ _ (Finset.mem_range.mpr hb), Function.update_self]
    congr 1
    refine Finset.sum_congr rfl fun j hj => ?_
    rw [Function.update_of_ne (by simpa using (Finset.mem_erase.mp hj).1)]
  have hother : ∀ (m' : M) (t' : TableName), t' ≠ t →
      ∑ j ∈ Finset.range (size t'), Function.update f (t, i) m' (t', j)
        = ∑ j ∈ Finset.range (size t'), f (t', j) := by
    intro m' t' ht
    refine Finset.sum_congr rfl fun j _ => ?_
    rw [Function.update_of_ne (by simp [ht])]
  unfold gather
  cases t with
  | table1 =>
    rw [hsum m, hsum 0, hother m .table2 nofun, hother 0 .table2 nofun, zero_add, add_assoc]
  | table2 =>
    rw [hsum m, hsum 0, hother m .table1 nofun, hother 0 .table1 nofun, zero_add, add_left_comm]

/-- What one bucket has can be set aside. -/
theorem gather_eq (hb : b.2 < size b.1) :
    gather size f = f b + gather size (Function.update f b 0) := by
  rw [← gather_update hb, Function.update_eq_self]

/-- Buckets without content come and go. -/
theorem gather_resize {t : TableName} {n : ℕ} (hzero : ∀ i, size t ≤ i ∨ n ≤ i → f (t, i) = 0) :
    gather (Function.update size t n) f = gather size f := by
  have hsum : ∀ m, min (size t) n ≤ m → ∑ i ∈ Finset.range m, f (t, i)
      = ∑ i ∈ Finset.range (min (size t) n), f (t, i) := by
    intro m hm
    refine (Finset.sum_subset (Finset.range_subset_range.mpr hm) fun i _ hi => ?_).symm
    exact hzero i (min_le_iff.mp (not_lt.mp fun hlt => hi (Finset.mem_range.mpr hlt)))
  unfold gather
  cases t with
  | table1 =>
    rw [Function.update_self, Function.update_of_ne (by simp), hsum n (min_le_right _ _),
      hsum (size .table1) (min_le_left _ _)]
  | table2 =>
    rw [Function.update_self, Function.update_of_ne (by simp), hsum n (min_le_right _ _),
      hsum (size .table2) (min_le_left _ _)]

/-- Empty buckets have nothing together. -/
theorem gather_zero (size : TableName → ℕ) : gather size (fun _ => (0 : M)) = 0 := by
  unfold gather
  rw [Finset.sum_const_zero, Finset.sum_const_zero, add_zero]

/-- Tables without buckets have nothing in them. -/
theorem gather_zero_size (f : Bucket → M) : gather (fun _ => 0) f = 0 := by
  unfold gather
  rw [Finset.range_zero, Finset.sum_empty, Finset.sum_empty, add_zero]

/-- The tables are exchanged. -/
theorem gather_other : gather (fun t => size t.other) (fun b => f (b.1.other, b.2)) = gather size f :=
  add_comm _ _

/-- Sums over the buckets commute with what commutes with sums. -/
theorem map_gather {N : Type} [AddCommMonoid N] (φ : M →+ N) :
    φ (gather size f) = gather size fun b => φ (f b) := by
  unfold gather
  rw [map_add, map_sum, map_sum]

end

/-- What is gathered is in a bucket that exists. -/
theorem mem_gather {E : Type} {size : TableName → ℕ} {f : Bucket → Multiset E} {e : E} :
    e ∈ gather size f ↔ ∃ b : Bucket, b.2 < size b.1 ∧ e ∈ f b := by
  unfold gather
  rw [Multiset.mem_add, Multiset.mem_sum, Multiset.mem_sum]
  constructor
  · rintro (⟨i, hi, he⟩ | ⟨i, hi, he⟩)
    · exact ⟨(.table1, i), Finset.mem_range.mp hi, he⟩
    · exact ⟨(.table2, i), Finset.mem_range.mp hi, he⟩
  · rintro ⟨⟨t, i⟩, hi, he⟩
    cases t with
    | table1 => exact Or.inl ⟨i, Finset.mem_range.mpr hi, he⟩
    | table2 => exact Or.inr ⟨i, Finset.mem_range.mpr hi, he⟩

/-! ## Where entries are -/

section

variable {E : Type} {l : Layout} {B B' : Bucket → Multiset E} {b : Bucket} {e : E} {r : ℕ}

/-- A bucket in which an entry with the hash value `h` may be. -/
def Fits (l : Layout) (h : ℕ) : Bucket → Prop
  | (.table1, i) => h % l.size .table1 = i ∧ l.moved.getD 0 ≤ i
  | (.table2, i) => h % l.size .table2 = i ∧ l.moved ≠ none

/-- Every entry is where it may be. -/
def Placed (hash : E → ℕ) (l : Layout) (B : Bucket → Multiset E) : Prop :=
  ∀ b, ∀ e ∈ B b, Fits l (hash e) b

/-- The second table has entries from buckets that have been moved only. -/
def Behind (hash : E → ℕ) (l : Layout) (B : Bucket → Multiset E) : Prop :=
  ∀ i, ∀ e ∈ B (.table2, i), hash e % l.size .table1 < l.moved.getD 0

/-- The contents after the bucket `r` of the first table has been moved. -/
def moveBucket (hash : E → ℕ) (l : Layout) (r : ℕ) (B : Bucket → Multiset E) : Bucket → Multiset E
  | (.table1, i) => if i = r then 0 else B (.table1, i)
  | (.table2, i) => B (.table2, i)
      + (B (.table1, r)).filter fun e => hash e % l.size .table2 = i

/-- The contents after the second table has taken the place of the first. -/
def takeOver {C : Type} (empty : C) (f : Bucket → C) : Bucket → C
  | (.table1, i) => f (.table2, i)
  | (.table2, _) => empty

/-- The contents after a step of a rehash. -/
def advanceBuckets (hash : E → ℕ) (l : Layout) (B : Bucket → Multiset E) : Bucket → Multiset E :=
  match l.moved with
  | none => B
  | some r =>
    if r + 1 = l.size .table1 then takeOver 0 (moveBucket hash l r B) else moveBucket hash l r B

variable {hash : E → ℕ}

/-- Layouts that agree but for the count. -/
theorem Layout.eq_withUsed {l' : Layout} (hsize : l'.size = l.size) (hmoved : l'.moved = l.moved) :
    l' = { l with used := l'.used } := by
  rw [← hsize, ← hmoved]

/-- The count is not part of a layout's being sound. -/
theorem Layout.Sound.withUsed (h : l.Sound) (used : ℕ) : Sound { l with used := used } :=
  ⟨h.pow, h.idle, h.rehashing⟩

/-- The first table has a bucket. -/
theorem Layout.Sound.size_pos (h : l.Sound) : 0 < l.size .table1 := by
  obtain ⟨k, hk⟩ := h.pow
  rw [hk]
  positivity

/-- A bucket in which an entry may be exists. -/
theorem Fits.lt (hs : l.Sound) {h : ℕ} (hb : Fits l h b) : b.2 < l.size b.1 := by
  obtain ⟨t, i⟩ := b
  have hpos := hs.size_pos
  cases t with
  | table1 =>
    obtain ⟨rfl, -⟩ := hb
    exact Nat.mod_lt _ hpos
  | table2 =>
    obtain ⟨rfl, hmoved⟩ := hb
    obtain ⟨r, hr⟩ := Option.ne_none_iff_exists'.mp hmoved
    have hsize := (hs.rehashing r hr).1
    exact Nat.mod_lt _ (by omega)

/-- A bucket that does not exist has no entries. -/
theorem Placed.eq_zero (hs : l.Sound) (hB : Placed hash l B) (hb : ¬ b.2 < l.size b.1) : B b = 0 :=
  Multiset.eq_zero_of_forall_notMem fun e he => hb ((hB b e he).lt hs)

theorem Placed.mem_gather (hs : l.Sound) (hB : Placed hash l B) (he : e ∈ B b) :
    e ∈ gather l.size B := Mmkvc.mem_gather.mpr ⟨b, (hB b e he).lt hs, he⟩

/-- An entry is in its bucket of the first table, or during a rehash in its bucket of the
second one. -/
theorem Placed.mem_cases (hB : Placed hash l B) (he : e ∈ gather l.size B) :
    e ∈ B (.table1, hash e % l.size .table1)
      ∨ l.moved ≠ none ∧ e ∈ B (.table2, hash e % l.size .table2) := by
  obtain ⟨⟨t, i⟩, -, hmem⟩ := Mmkvc.mem_gather.mp he
  have hfits := hB _ e hmem
  cases t with
  | table1 =>
    obtain ⟨rfl, -⟩ := hfits
    exact Or.inl hmem
  | table2 =>
    obtain ⟨rfl, hmoved⟩ := hfits
    exact Or.inr ⟨hmoved, hmem⟩

theorem Placed.mono (hB : Placed hash l B) (h : ∀ b, B' b ⊆ B b) : Placed hash l B' :=
  fun b e he => hB b e (h b he)

/-- Fewer entries are behind the rehash as well. -/
theorem Behind.mono (hB : Behind hash l B) (h : ∀ b, B' b ⊆ B b) : Behind hash l B' :=
  fun i e he => hB i e (h _ he)

/-- A bucket gets entries that may be in it. -/
theorem Placed.update {M : Multiset E} (hB : Placed hash l B) (h : ∀ e ∈ M, Fits l (hash e) b) :
    Placed hash l (Function.update B b M) := by
  intro b' e he
  by_cases hb : b' = b
  · subst hb
    rw [Function.update_self] at he
    exact h e he
  · rw [Function.update_of_ne hb] at he
    exact hB b' e he

/-- A bucket gets entries of which those in the second table are behind the rehash. -/
theorem Behind.update {M : Multiset E} (hB : Behind hash l B)
    (h : ∀ i, b = (.table2, i) → ∀ e ∈ M, hash e % l.size .table1 < l.moved.getD 0) :
    Behind hash l (Function.update B b M) := by
  intro i e he
  by_cases hb : (.table2, i) = b
  · rw [hb, Function.update_self] at he
    exact h i hb.symm e he
  · rw [Function.update_of_ne hb] at he
    exact hB i e he

/-! ### Starting a rehash -/

/-- The start of a rehash moves nothing. -/
theorem Placed.start (hB : Placed hash l B) :
    Placed hash l.start B ∧ gather l.start.size B = gather l.size B := by
  unfold Layout.start
  split_ifs with hfull
  · have hempty : ∀ i, B (.table2, i) = 0 := by
      intro i
      refine Multiset.eq_zero_of_forall_notMem fun e he => ?_
      exact (hB (.table2, i) e he).2 hfull.1
    constructor
    · rintro ⟨t, i⟩ e he
      cases t with
      | table1 => exact ⟨(hB _ e he).1, Nat.zero_le _⟩
      | table2 =>
        rw [hempty] at he
        cases he
    · unfold gather
      congr 1
      simp only [hempty, Finset.sum_const_zero]
  · exact ⟨hB, rfl⟩

/-- When a rehash starts, the second table is empty. -/
theorem Behind.start (hP : Placed hash l B) (hB : Behind hash l B) :
    Behind hash l.start B := by
  intro i e he
  unfold Layout.start
  split_ifs with hfull
  · exact absurd hfull.1 (hP _ e he).2
  · exact hB i e he

/-! ### Moving a bucket -/

/-- Entries sorted by remainder. -/
theorem sum_filter_mod {n : ℕ} (hn : 0 < n) (M : Multiset E) :
    ∑ i ∈ Finset.range n, M.filter (fun e => hash e % n = i) = M := by
  induction M using Multiset.induction_on with
  | empty => simp
  | cons e M ih =>
    have hcons : ∀ i, (e ::ₘ M).filter (fun e => hash e % n = i)
        = (if hash e % n = i then {e} else 0) + M.filter (fun e => hash e % n = i) := by
      intro i
      rw [Multiset.filter_cons]
    rw [Finset.sum_congr rfl fun i _ => hcons i, Finset.sum_add_distrib, ih, Finset.sum_ite_eq,
      if_pos (Finset.mem_range.mpr (Nat.mod_lt _ hn)), Multiset.singleton_add]

/-- Moving a bucket keeps what the buckets have together. -/
theorem gather_moveBucket (hr : r < l.size .table1) (hsize : 0 < l.size .table2) :
    gather l.size (moveBucket hash l r B) = gather l.size B := by
  have hfirst : ∑ i ∈ Finset.range (l.size .table1), moveBucket hash l r B (.table1, i)
      = ∑ i ∈ (Finset.range (l.size .table1)).erase r, B (.table1, i) := by
    rw [← Finset.add_sum_erase _ _ (Finset.mem_range.mpr hr)]
    rw [show moveBucket hash l r B (.table1, r) = 0 from if_pos rfl, zero_add]
    refine Finset.sum_congr rfl fun i hi => ?_
    exact if_neg (Finset.mem_erase.mp hi).1
  have hsecond : ∑ i ∈ Finset.range (l.size .table2), moveBucket hash l r B (.table2, i)
      = ∑ i ∈ Finset.range (l.size .table2), B (.table2, i) + B (.table1, r) := by
    rw [← sum_filter_mod hsize (B (.table1, r))]
    rw [← Finset.sum_add_distrib]
    rfl
  unfold gather
  rw [hfirst, hsecond, ← Finset.add_sum_erase _ _ (Finset.mem_range.mpr hr), ← add_assoc,
    add_right_comm, add_comm (∑ i ∈ (Finset.range (l.size .table1)).erase r, _)]

/-- **Moving a bucket** loses no entry and leaves every entry where it may be. -/
theorem Placed.advance (hs : l.Sound) (hB : Placed hash l B) :
    Placed hash l.advance (advanceBuckets hash l B)
      ∧ gather l.advance.size (advanceBuckets hash l B) = gather l.size B := by
  unfold Layout.advance advanceBuckets
  cases hr : l.moved with
  | none => exact ⟨hB, rfl⟩
  | some r =>
    obtain ⟨hsize, hlt⟩ := hs.rehashing r hr
    have hmove : gather l.size (moveBucket hash l r B) = gather l.size B :=
      gather_moveBucket hlt (by omega)
    -- what is left of the first table is behind the bucket that was moved
    have hfirst : ∀ i, ∀ e ∈ moveBucket hash l r B (.table1, i),
        hash e % l.size .table1 = i ∧ r + 1 ≤ i := by
      intro i e he
      change e ∈ (if i = r then 0 else B (.table1, i)) at he
      split_ifs at he with hi
      · cases he
      · obtain ⟨hmod, hle⟩ := hB _ e he
        rw [hr, Option.getD_some] at hle
        exact ⟨hmod, by omega⟩
    have hsecond : ∀ i, ∀ e ∈ moveBucket hash l r B (.table2, i), hash e % l.size .table2 = i := by
      intro i e he
      rcases Multiset.mem_add.mp he with he | he
      · exact (hB _ e he).1
      · exact (Multiset.mem_filter.mp he).2
    dsimp only
    split_ifs with hlast
    · constructor
      · rintro ⟨t, i⟩ e he
        cases t with
        | table1 => exact ⟨hsecond i e he, Nat.zero_le _⟩
        | table2 => cases he
      · -- nothing is left in the first table
        rw [← hmove]
        unfold gather
        rw [Finset.sum_eq_zero (s := Finset.range (l.size .table1)), zero_add]
        · exact add_zero _
        · intro i hi
          refine Multiset.eq_zero_of_forall_notMem fun e he => ?_
          have hle := (hfirst i e he).2
          have hi' := Finset.mem_range.mp hi
          omega
    · refine ⟨?_, hmove⟩
      rintro ⟨t, i⟩ e he
      cases t with
      | table1 => exact hfirst i e he
      | table2 => exact ⟨hsecond i e he, nofun⟩

/-- Behind a step of a rehash there is one more bucket. -/
theorem Behind.advance (hP : Placed hash l B) (hB : Behind hash l B) :
    Behind hash l.advance (advanceBuckets hash l B) := by
  unfold Layout.advance advanceBuckets
  cases hr : l.moved with
  | none => exact hB
  | some r =>
    dsimp only
    split_ifs with hlast
    · intro i e he
      cases he
    · intro i e he
      change hash e % l.size .table1 < r + 1
      rcases Multiset.mem_add.mp he with he | he
      · have hlt := hB i e he
        rw [hr, Option.getD_some] at hlt
        omega
      · obtain ⟨hmod, -⟩ := hP _ e (Multiset.mem_filter.mp he).1
        omega

/-- Where an entry that has not been moved will go there is nothing yet. -/
theorem Behind.target_empty (hs : l.Sound) (hr : l.moved = some r) (hP : Placed hash l B)
    (hB : Behind hash l B) (he : e ∈ B (.table1, r)) :
    B (.table2, hash e % l.size .table2) = 0 := by
  refine Multiset.eq_zero_of_forall_notMem fun e' he' => ?_
  have hlt := hB _ e' he'
  obtain ⟨hmod, -⟩ := hP _ e he
  obtain ⟨hmod', -⟩ := hP _ e' he'
  have hdvd : l.size .table1 ∣ l.size .table2 := by
    rw [(hs.rehashing r hr).1]
    exact Nat.dvd_mul_left _ _
  rw [hr, Option.getD_some] at hlt
  rw [← Nat.mod_mod_of_dvd _ hdvd, hmod', Nat.mod_mod_of_dvd _ hdvd, hmod] at hlt
  omega

/-! ### Where an entry belongs -/

/-- The bucket of a hash value, in the second table once its bucket has been moved. -/
def home (l : Layout) (h : ℕ) : Bucket :=
  if h % l.size .table1 < l.moved.getD 0 then (.table2, h % l.size .table2)
  else (.table1, h % l.size .table1)

/-- An entry may be in the bucket where it belongs. -/
theorem fits_home (l : Layout) (h : ℕ) : Fits l h (home l h) := by
  unfold home
  split_ifs with hlt
  · refine ⟨rfl, fun hnone => ?_⟩
    rw [hnone] at hlt
    exact absurd hlt (Nat.not_lt_zero _)
  · exact ⟨rfl, not_lt.mp hlt⟩

/-- Every entry is in the bucket where it belongs. -/
theorem Placed.eq_home (hP : Placed hash l B) (hB : Behind hash l B) (he : e ∈ B b) :
    b = home l (hash e) := by
  obtain ⟨t, i⟩ := b
  unfold home
  cases t with
  | table1 =>
    obtain ⟨rfl, hle⟩ := hP _ e he
    rw [if_neg (not_lt.mpr hle)]
  | table2 =>
    rw [if_pos (hB i e he), (hP _ e he).1]

end

/-! ## Entries with different keys -/

section

variable {K E : Type} {eqv : K → K → Prop} {key : E → K} {M N : Multiset E} {e e' : E}

/-- No two entries have equivalent keys. -/
def Unique (eqv : K → K → Prop) (key : E → K) (M : Multiset E) : Prop :=
  M.Pairwise fun e e' => ¬ eqv (key e) (key e')

theorem unique_zero : Unique eqv key (0 : Multiset E) := ⟨[], rfl, List.Pairwise.nil⟩

/-- No two entries of a list have equivalent keys, in whatever order they stand. -/
theorem unique_coe (heqv : Equivalence eqv) {l : List E} :
    Unique eqv key (l : Multiset E) ↔ l.Pairwise fun e e' => ¬ eqv (key e) (key e') := by
  have : Std.Symm fun e e' : E => ¬ eqv (key e) (key e') := ⟨fun _ _ h h' => h (heqv.symm h')⟩
  exact Multiset.pairwise_coe_iff_pairwise

/-- One entry more must have a new key. -/
theorem unique_cons (heqv : Equivalence eqv) :
    Unique eqv key (e ::ₘ M) ↔ (∀ e' ∈ M, ¬ eqv (key e) (key e')) ∧ Unique eqv key M := by
  induction M using Quotient.inductionOn with
  | h l => exact (unique_coe heqv).trans (List.pairwise_cons.trans
      (and_congr_right' (unique_coe heqv).symm))

/-- Fewer entries have different keys as well. -/
theorem Unique.mono (heqv : Equivalence eqv) (h : Unique eqv key N) (hle : M ≤ N) :
    Unique eqv key M := by
  induction M, N using Quotient.inductionOn₂ with
  | h l l' =>
    obtain ⟨l'', hperm, hsub⟩ := Multiset.coe_le.mp hle
    have hpair := ((unique_coe heqv).mp h).sublist hsub
    rw [show (Quotient.mk _ l : Multiset E) = (l'' : Multiset E) from Quotient.sound hperm.symm]
    exact (unique_coe heqv).mpr hpair

/-- Entries with equivalent keys are one. -/
theorem Unique.eq (heqv : Equivalence eqv) (h : Unique eqv key M) (he : e ∈ M) (he' : e' ∈ M)
    (hkey : eqv (key e) (key e')) : e = e' := by
  obtain ⟨M, rfl⟩ := Multiset.exists_cons_of_mem he
  rcases Multiset.mem_cons.mp he' with rfl | hmem
  · rfl
  · exact absurd hkey (((unique_cons heqv).mp h).1 e' hmem)

/-- What a search for a key finds among entries. -/
def Lookup (eqv : K → K → Prop) (key : E → K) (k : K) (M : Multiset E) : Option E → Prop
  | none => ∀ e ∈ M, ¬ eqv (key e) k
  | some e => e ∈ M ∧ eqv (key e) k

/-- There is one answer. -/
theorem Lookup.eq (heqv : Equivalence eqv) (hM : Unique eqv key M) {k : K} {o o' : Option E}
    (h : Lookup eqv key k M o) (h' : Lookup eqv key k M o') : o = o' := by
  cases o with
  | none =>
    cases o' with
    | none => rfl
    | some e' => exact absurd h'.2 (h e' h'.1)
  | some e =>
    cases o' with
    | none => exact absurd h.2 (h' e h.1)
    | some e' => rw [hM.eq heqv h.1 h'.1 (heqv.trans h.2 (heqv.symm h'.2))]

end

end Mmkvc
