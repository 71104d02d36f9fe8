/-
# Comparators (`algo/comparator_util.h`)

`Comparator<int32_t>` and `Comparator<int64_t>` subtract and return an `int`, which is the low
32 bits of the difference; `Comparator<std::string>` is `strcmp`.  Each of them orders the keys of
some sets strictly and totally, and not those of others.
-/
import Mmkvc.SearchTree

namespace Mmkvc

variable {K K' : Type}

/-- On the keys of `S` the comparator is a strict total order. -/
structure StrictTotalOn (cmp : K → K → ℤ) (S : Set K) : Prop where
  eq_zero_iff : ∀ x ∈ S, ∀ y ∈ S, cmp x y = 0 ↔ x = y
  swap : ∀ x ∈ S, ∀ y ∈ S, cmp x y < 0 ↔ 0 < cmp y x
  trans : ∀ x ∈ S, ∀ y ∈ S, ∀ z ∈ S, cmp x y < 0 → cmp y z < 0 → cmp x z < 0

/-! ## The specialisations -/

namespace Comparator

/-- `Comparator<int32_t>`. -/
def compareInt32 (x y : BitVec 32) : ℤ := (x - y).toInt

/-- `Comparator<int64_t>`: the difference is converted to `int`. -/
def compareInt64 (x y : BitVec 64) : ℤ := ((x - y).setWidth 32).toInt

/-- `Comparator<uint32_t>` and its like, which do not subtract. -/
def compareUint {w : ℕ} (x y : BitVec w) : ℤ := if x < y then -1 else if x = y then 0 else 1

/-- `c_str()`. -/
def cStr (x : List UInt8) : List UInt8 := x ++ [0]

/-- `strcmp`, which compares bytes as `unsigned char`, up to a NUL in both strings. -/
def strcmp : List UInt8 → List UInt8 → ℤ
  | x :: xs, y :: ys => if x = y then if x = 0 then 0 else strcmp xs ys else x.toNat - y.toNat
  | _, _ => 0

/-- `Comparator<std::string>`. -/
def compareString (x y : List UInt8) : ℤ := strcmp (cStr x) (cStr y)

/-- What `strcmp` sees of a string. -/
def upToNul (x : List UInt8) : List UInt8 := x.takeWhile (· ≠ 0)

end Comparator

/-! ## Keys that a comparator orders -/

namespace StrictTotalOn

variable {cmp : K → K → ℤ} {S : Set K}

/-- A comparator of images orders the keys that it tells apart. -/
theorem comap_iff {g : K' → K} {S : Set K'} : StrictTotalOn (fun x y => cmp (g x) (g y)) S
    ↔ Set.InjOn g S ∧ StrictTotalOn cmp (g '' S) := by
  constructor
  · intro h
    have hinj : Set.InjOn g S := by
      intro x hx y hy hxy
      refine (h.eq_zero_iff x hx y hy).mp ?_
      have hzero : cmp (g y) (g y) = 0 := (h.eq_zero_iff y hy y hy).mpr rfl
      rwa [← hxy] at hzero ⊢
    refine ⟨hinj, ?_, ?_, ?_⟩
    · rintro _ ⟨x, hx, rfl⟩ _ ⟨y, hy, rfl⟩
      exact (h.eq_zero_iff x hx y hy).trans (hinj.eq_iff hx hy).symm
    · rintro _ ⟨x, hx, rfl⟩ _ ⟨y, hy, rfl⟩
      exact h.swap x hx y hy
    · rintro _ ⟨x, hx, rfl⟩ _ ⟨y, hy, rfl⟩ _ ⟨z, hz, rfl⟩
      exact h.trans x hx y hy z hz
  · rintro ⟨hinj, h⟩
    have hmem : ∀ x ∈ S, g x ∈ g '' S := fun x hx => Set.mem_image_of_mem g hx
    refine ⟨fun x hx y hy => ?_, fun x hx y hy => ?_, fun x hx y hy z hz => ?_⟩
    · exact (h.eq_zero_iff _ (hmem x hx) _ (hmem y hy)).trans (hinj.eq_iff hx hy)
    · exact h.swap _ (hmem x hx) _ (hmem y hy)
    · exact h.trans _ (hmem x hx) _ (hmem y hy) _ (hmem z hz)

/-- There is a first key. -/
theorem exists_first [Finite K] (h : StrictTotalOn cmp S) (hS : S.Nonempty) :
    ∃ c ∈ S, ∀ k ∈ S, 0 ≤ cmp k c := by
  let r : S → S → Prop := fun x y => cmp x y < 0
  have hirrefl : Std.Irrefl r := by
    constructor
    intro x hx
    have hzero := (h.eq_zero_iff x x.2 x x.2).mpr rfl
    have hlt : cmp x x < 0 := hx
    omega
  have htrans : IsTrans S r := ⟨fun x y z hxy hyz => h.trans x x.2 y y.2 z z.2 hxy hyz⟩
  have hwf : WellFounded r := Finite.wellFounded_of_trans_of_irrefl r
  obtain ⟨x, hx⟩ := hS
  obtain ⟨c, -, hmin⟩ := hwf.has_min Set.univ ⟨⟨x, hx⟩, trivial⟩
  exact ⟨c, c.2, fun k hk => not_lt.mp (hmin ⟨k, hk⟩ trivial)⟩

/-- Trees want no more of a comparator on the keys that they are given. -/
theorem lawful (h : StrictTotalOn cmp S) : LawfulCompare fun x y : S => cmp x y where
  swap x y := h.swap x x.2 y y.2
  trans x y z hxy hyz := by
    rcases eq_or_ne x y with rfl | hne
    · exact hyz
    rcases eq_or_ne y z with rfl | hne'
    · exact hxy
    have hx : cmp x y ≠ 0 := fun h0 => hne (Subtype.ext ((h.eq_zero_iff x x.2 y y.2).mp h0))
    have hy : cmp y z ≠ 0 := fun h0 => hne' (Subtype.ext ((h.eq_zero_iff y y.2 z z.2).mp h0))
    have hlt := h.trans x x.2 y y.2 z z.2 (by omega) (by omega)
    omega

end StrictTotalOn

namespace Comparator

/-! ## Integers -/

section

variable {w : ℕ} {x y : BitVec w}

/-- Only equal numbers compare as equal. -/
@[simp] theorem compareUint_eq_zero : compareUint x y = 0 ↔ x = y := by
  unfold compareUint
  split_ifs with hlt heq
  · simp [BitVec.ne_of_lt hlt]
  · simp [heq]
  · simp [heq]

theorem compareUint_neg : compareUint x y < 0 ↔ x < y := by
  unfold compareUint
  split_ifs with hlt <;> simp [hlt]

/-- A positive result says that the first number is greater. -/
theorem compareUint_pos : 0 < compareUint x y ↔ y < x := by
  unfold compareUint
  split_ifs with hlt heq
  · simp [BitVec.lt_asymm hlt]
  · simp [heq]
  · have hgt : y < x := by
      rcases lt_trichotomy x.toNat y.toNat with h | h | h
      · exact absurd h hlt
      · exact absurd (BitVec.eq_of_toNat_eq h) heq
      · exact h
    simp [hgt]

/-- Unsigned keys are ordered, however far they are from each other. -/
theorem lawfulCompare_uint : LawfulCompare (compareUint (w := w)) where
  swap x y := compareUint_neg.trans compareUint_pos.symm
  trans x y z hxy hyz := by
    rw [← not_lt, compareUint_pos, BitVec.lt_def] at hxy hyz ⊢
    omega

end

/-- Below `2 ^ 31` the difference does not wrap around. -/
theorem toInt_sub_of_lt {a b : BitVec 32} (ha : a.toNat < 2 ^ 31) (hb : b.toNat < 2 ^ 31) :
    (a - b).toInt = a.toNat - b.toNat := by
  rw [BitVec.toInt_sub, BitVec.toInt_eq_toNat_of_lt (by omega), BitVec.toInt_eq_toNat_of_lt (by omega),
    Int.bmod_eq_of_le (by omega) (by omega)]

/-- **The keys lie in one half of the circle** of the 32-bit integers. -/
theorem strictTotalOn_int32 {S : Set (BitVec 32)} : StrictTotalOn compareInt32 S
    ↔ ∃ c, ∀ k ∈ S, (k - c).toNat < 2 ^ 31 := by
  constructor
  · intro h
    rcases S.eq_empty_or_nonempty with rfl | hS
    · exact ⟨0, nofun⟩
    · obtain ⟨c, -, hfirst⟩ := h.exists_first hS
      refine ⟨c, fun k hk => ?_⟩
      have hle : 0 ≤ (k - c).toInt := hfirst k hk
      rw [BitVec.toInt_eq_toNat_cond] at hle
      split_ifs at hle <;> omega
  · rintro ⟨c, hc⟩
    -- the comparator orders the keys by their distance from the first one
    have hcmp : ∀ x ∈ S, ∀ y ∈ S, compareInt32 x y = (x - c).toNat - (y - c).toNat := by
      intro x hx y hy
      rw [compareInt32, ← toInt_sub_of_lt (hc x hx) (hc y hy), sub_sub_sub_cancel_right]
    refine ⟨fun x hx y hy => ?_, fun x hx y hy => ?_, fun x hx y hy z hz hxy hyz => ?_⟩
    · rw [hcmp x hx y hy]
      constructor
      · intro h0
        have hdist : x - c = y - c := BitVec.eq_of_toNat_eq (by omega)
        exact sub_left_injective hdist
      · rintro rfl
        omega
    · rw [hcmp x hx y hy, hcmp y hy x hx]
      omega
    · rw [hcmp x hx y hy] at hxy
      rw [hcmp y hy z hz] at hyz
      rw [hcmp x hx z hz]
      omega

/-- The 64-bit comparator looks at the low halves only. -/
theorem compareInt64_eq (x y : BitVec 64) :
    compareInt64 x y = compareInt32 (x.setWidth 32) (y.setWidth 32) := by
  have hsub : (x - y).setWidth 32 = x.setWidth 32 - y.setWidth 32 := by
    apply BitVec.eq_of_toNat_eq
    rw [BitVec.toNat_setWidth, BitVec.toNat_sub, BitVec.toNat_sub, BitVec.toNat_setWidth,
      BitVec.toNat_setWidth]
    omega
  rw [compareInt64, compareInt32, hsub]

/-- **The same for the low halves** of 64-bit integers, which no two keys may share. -/
theorem strictTotalOn_int64 {S : Set (BitVec 64)} : StrictTotalOn compareInt64 S
    ↔ Set.InjOn (BitVec.setWidth 32) S ∧ ∃ c, ∀ k ∈ S, (k.setWidth 32 - c).toNat < 2 ^ 31 := by
  have hcmp : compareInt64 = fun x y => compareInt32 (x.setWidth 32) (y.setWidth 32) := by
    funext x y
    exact compareInt64_eq x y
  rw [hcmp, StrictTotalOn.comap_iff, strictTotalOn_int32]
  simp only [Set.forall_mem_image]

/-! ## Strings -/

theorem upToNul_cons_zero (x : List UInt8) : upToNul (0 :: x) = [] := rfl

theorem upToNul_cons {a : UInt8} (ha : a ≠ 0) (x : List UInt8) :
    upToNul (a :: x) = a :: upToNul x := List.takeWhile_cons_of_pos (by simpa using ha)

/-- A common first character can be left out. -/
theorem compareString_cons_self {a : UInt8} (ha : a ≠ 0) (x y : List UInt8) :
    compareString (a :: x) (a :: y) = compareString x y :=
  (if_pos rfl).trans (if_neg ha)

theorem compareString_cons_of_ne {a b : UInt8} (hab : a ≠ b) (x y : List UInt8) :
    compareString (a :: x) (b :: y) = a.toNat - b.toNat := if_neg hab

theorem toNat_pos {a : UInt8} (ha : a ≠ 0) : 0 < a.toNat :=
  Nat.pos_of_ne_zero fun h0 => ha (UInt8.toNat_inj.mp h0)

/-- `strcmp` is the lexicographic order of what is before the first NUL. -/
theorem compareString_neg_iff (x y : List UInt8) :
    compareString x y < 0 ↔ upToNul x < upToNul y := by
  induction x generalizing y with
  | nil =>
    cases y with
    | nil => simp [compareString, cStr, strcmp, upToNul]
    | cons b y =>
      by_cases hb : b = 0
      · subst hb
        simp [compareString, cStr, strcmp, upToNul]
      · have hpos := toNat_pos hb
        have hcmp : compareString [] (b :: y) = (0 : ℤ) - b.toNat := if_neg (Ne.symm hb)
        rw [hcmp, upToNul_cons hb]
        exact ⟨fun _ => List.nil_lt_cons _ _, fun _ => by omega⟩
  | cons a x ih =>
    by_cases ha : a = 0
    · subst ha
      rw [upToNul_cons_zero]
      cases y with
      | nil => simp [compareString, cStr, strcmp, upToNul]
      | cons b y =>
        by_cases hb : b = 0
        · subst hb
          simp [compareString, cStr, strcmp, upToNul]
        · have hpos := toNat_pos hb
          rw [compareString_cons_of_ne (Ne.symm hb), upToNul_cons hb]
          exact ⟨fun _ => List.nil_lt_cons _ _, fun _ => by simp; omega⟩
    · rw [upToNul_cons ha]
      have hpos := toNat_pos ha
      have hnot : ¬ a :: upToNul x < [] := List.not_lt_nil _
      cases y with
      | nil =>
        have hcmp : compareString (a :: x) [] = (a.toNat : ℤ) - 0 := if_neg ha
        rw [hcmp]
        exact iff_of_false (by omega) hnot
      | cons b y =>
        -- equal characters are passed over, different ones decide
        rcases eq_or_ne a b with rfl | hab
        · rw [compareString_cons_self ha, upToNul_cons ha, ih, List.cons_lt_cons_iff]
          simp
        · rw [compareString_cons_of_ne hab]
          by_cases hb : b = 0
          · subst hb
            exact iff_of_false (by simp) hnot
          · rw [upToNul_cons hb, List.cons_lt_cons_iff, UInt8.lt_iff_toNat_lt]
            simp only [hab, false_and, or_false]
            omega

/-- The comparison from the other side has the other sign. -/
theorem strcmp_swap (x y : List UInt8) : strcmp y x = -strcmp x y := by
  induction x generalizing y with
  | nil => cases y <;> rfl
  | cons a x ih =>
    cases y with
    | nil => rfl
    | cons b y =>
      rw [strcmp, strcmp]
      rcases eq_or_ne a b with rfl | hab
      · rw [if_pos rfl, if_pos rfl, ih]
        split_ifs <;> simp
      · rw [if_neg hab, if_neg (Ne.symm hab)]
        omega

/-- **Strings of which no two are alike up to the first NUL.** -/
theorem strictTotalOn_string {S : Set (List UInt8)} :
    StrictTotalOn compareString S ↔ Set.InjOn upToNul S := by
  have hswap : ∀ x y, compareString x y < 0 ↔ 0 < compareString y x := by
    intro x y
    rw [compareString, compareString, strcmp_swap (cStr x)]
    omega
  have heq : ∀ x y, compareString x y = 0 ↔ upToNul x = upToNul y := by
    intro x y
    have hlt := compareString_neg_iff x y
    have hgt := compareString_neg_iff y x
    have hxy := hswap y x
    constructor
    · intro h0
      have hnlt : ¬ upToNul x < upToNul y := fun h => by
        have := hlt.mpr h
        omega
      have hngt : ¬ upToNul y < upToNul x := fun h => by
        have := hxy.mp (hgt.mpr h)
        omega
      exact List.le_antisymm (List.not_lt.mp hngt) (List.not_lt.mp hnlt)
    · intro heq
      rw [heq] at hlt hgt
      have hirrefl : ¬ upToNul y < upToNul y := List.lt_irrefl _
      have hnlt : ¬ compareString x y < 0 := fun h => hirrefl (hlt.mp h)
      have hngt : ¬ compareString y x < 0 := fun h => hirrefl (hgt.mp h)
      rw [hxy] at hngt
      omega
  constructor
  · intro h x hx y hy hxy
    exact (h.eq_zero_iff x hx y hy).mp ((heq x y).mpr hxy)
  · intro hinj
    refine ⟨fun x hx y hy => ?_, fun x _ y _ => hswap x y, fun x _ y _ z _ hxy hyz => ?_⟩
    · exact (heq x y).trans (hinj.eq_iff hx hy)
    · rw [compareString_neg_iff] at hxy hyz ⊢
      exact List.lt_trans hxy hyz

/-- **The keys that the comparators order.**  32-bit keys must lie on an arc of `2 ^ 31` values,
64-bit keys must have different low halves on such an arc, and strings must differ before their
first NUL.  Nothing less is a strict total order, and nothing more is wanted by the trees. -/
theorem strictTotalOn_iff :
    (∀ S, StrictTotalOn compareInt32 S ↔ ∃ c, ∀ k ∈ S, (k - c).toNat < 2 ^ 31)
    ∧ (∀ S, StrictTotalOn compareInt64 S ↔ Set.InjOn (BitVec.setWidth 32) S
      ∧ ∃ c, ∀ k ∈ S, (BitVec.setWidth 32 k - c).toNat < 2 ^ 31)
    ∧ (∀ S, StrictTotalOn compareString S ↔ Set.InjOn upToNul S)
    ∧ ∀ (cmp : K → K → ℤ) (S : Set K), StrictTotalOn cmp S →
      LawfulCompare fun x y : S => cmp x y :=
  ⟨fun _ => strictTotalOn_int32, fun _ => strictTotalOn_int64, fun _ => strictTotalOn_string,
    fun _ _ h => h.lawful⟩

/-- `0` and `-2 ^ 31` are each before the other; `0` and `2 ^ 32`, and `"a\0b"` and `"a\0c"`, are
the same key. -/
theorem not_strictTotalOn : ¬ StrictTotalOn compareInt32 {0#32, 0x80000000#32}
    ∧ ¬ StrictTotalOn compareInt64 {0#64, 0x100000000#64}
    ∧ ¬ StrictTotalOn compareString {[97, 0, 98], [97, 0, 99]} := by
  refine ⟨fun h => ?_, fun h => ?_, fun h => ?_⟩
  · exact absurd ((h.swap 0#32 (by simp) 0x80000000#32 (by simp)).mp (by decide)) (by decide)
  · exact absurd ((h.eq_zero_iff 0#64 (by simp) 0x100000000#64 (by simp)).mp (by decide)) (by decide)
  · exact absurd ((h.eq_zero_iff [97, 0, 98] (by simp) [97, 0, 99] (by simp)).mp (by decide))
      (by decide)

end Comparator

end Mmkvc
