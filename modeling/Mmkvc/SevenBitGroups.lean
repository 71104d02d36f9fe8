/-
# Numbers of fixed width, read as groups of seven bits

A stream holds sizes, in groups of seven bits, and elements, of a fixed number of
bytes, most significant byte first.  A reader that takes all of them for groups of
seven bits gets the sizes right; the first element puts it out of step, and it never
comes back into step while all that it reads is what was written (`not_inStep`).

The reason is one property that sizes and elements share (`Item.zeros_first`): a number
that is small enough for the groups that are left of its bytes begins with zeros.
-/
import Mmkvc.Externals

namespace Mmkvc

namespace SevenBits

/-! ## Groups -/

/-- The bytes of a number in groups of seven bits, the least significant group first;
every byte but the last announces another one. -/
inductive IsGroups : Bytes → ℕ → Prop
  | last {c : UInt8} (h : c.toNat < 128) : IsGroups [c] c.toNat
  | more {c : UInt8} {r : Bytes} {y : ℕ} (h : 128 ≤ c.toNat) (hr : IsGroups r y) :
    IsGroups (c :: r) (c.toNat - 128 + 128 * y)

/-- One group is the number itself. -/
theorem IsGroups.eq_toNat {c : UInt8} {y : ℕ} (h : IsGroups [c] y) : y = c.toNat := by
  cases h with
  | last h => rfl
  | more h hr => cases hr

theorem IsGroups.ne_nil {r : Bytes} {y : ℕ} (h : IsGroups r y) : r ≠ [] := by
  cases h <;> exact List.cons_ne_nil _ _

/-- As many groups, no larger a number. -/
theorem IsGroups.lt {r : Bytes} {y : ℕ} (h : IsGroups r y) : y < 128 ^ r.length := by
  induction h with
  | last h => exact h
  | @more c r y h _ ih =>
    have hc := c.toNat_lt
    rw [List.length_cons, pow_succ]
    omega

/-- Zeros behind the first `n` bytes are at most one, and then `n` groups are enough. -/
theorem IsGroups.lt_of_zeros {r : Bytes} {y : ℕ} (h : IsGroups r y) {n : ℕ}
    (hz : ∀ c ∈ r.drop n, c = 0) : y < 128 ^ n ∧ r.length ≤ n + 1 := by
  induction h generalizing n with
  | @last c h =>
    cases n with
    | zero =>
      obtain rfl := hz c (List.mem_singleton_self c)
      exact ⟨by norm_num, le_rfl⟩
    | succ n =>
      have hpos : 0 < 128 ^ n := Nat.pow_pos (by norm_num)
      rw [pow_succ, List.length_singleton]
      omega
  | @more c r y h _ ih =>
    cases n with
    | zero =>
      obtain rfl := hz c List.mem_cons_self
      exact absurd h (by decide)
    | succ n =>
      have hc := c.toNat_lt
      obtain ⟨hy, hlen⟩ := ih hz
      rw [pow_succ, List.length_cons]
      omega

/-- One number only is at the front of a stream. -/
theorem IsGroups.unique {r r' : Bytes} {y y' : ℕ} (h : IsGroups r y) (h' : IsGroups r' y')
    {u u' : Bytes} (heq : r ++ u = r' ++ u') : r = r' ∧ y = y' ∧ u = u' := by
  induction h generalizing r' y' with
  | @last c h =>
    cases h' with
    | last h' =>
      obtain ⟨rfl, rfl⟩ := List.cons.inj heq
      exact ⟨rfl, rfl, rfl⟩
    | more h' hr' =>
      obtain ⟨rfl, -⟩ := List.cons.inj heq
      omega
  | @more c r y h _ ih =>
    cases h' with
    | last h' =>
      obtain ⟨rfl, -⟩ := List.cons.inj heq
      omega
    | more h' hr' =>
      obtain ⟨rfl, hrest⟩ := List.cons.inj heq
      obtain ⟨rfl, rfl, rfl⟩ := ih hr' hrest
      exact ⟨rfl, rfl, rfl⟩

/-- The rest of the groups is zero if the number is. -/
theorem IsGroups.zero_cons {r u w : Bytes} {y : ℕ} (h : IsGroups r y)
    (heq : r ++ u = 0 :: w) : y = 0 ∧ u = w := by
  have hzero : IsGroups [0] 0 := IsGroups.last (by decide)
  obtain ⟨-, hy, hu⟩ := h.unique hzero heq
  exact ⟨hy, hu⟩

/-! ## What is written -/

/-- A size or an element. -/
inductive Item where
  | size (n : ℕ)
  | element (n : ℕ)
  deriving DecidableEq, Repr

namespace Item

def value : Item → ℕ
  | .size n => n
  | .element n => n

def IsElement : Item → Prop
  | .size _ => False
  | .element _ => True

section

variable (sizeBytes : ℕ → Bytes) (width : ℕ)

/-- The bytes of an item. -/
def bytes : Item → Bytes
  | .size n => sizeBytes n
  | .element n => beBytes width n

/-- The item is written as it should be: a size in as few groups as can be, an element
in bytes that are enough for it. -/
def Fits : Item → Prop
  | .size n => IsGroups (sizeBytes n) n
      ∧ ((sizeBytes n).length = 1 ∨ 128 ^ ((sizeBytes n).length - 1) ≤ n)
  | .element n => n < 256 ^ width

end

end Item

/-- A component has a byte at least. -/
theorem Item.bytes_ne_nil {sizeBytes : ℕ → Bytes} {width : ℕ} (hwidth : 0 < width) {i : Item}
    (hi : i.Fits sizeBytes width) : i.bytes sizeBytes width ≠ [] := by
  cases i with
  | size n => exact hi.1.ne_nil
  | element n =>
    apply List.ne_nil_of_length_pos
    rw [Item.bytes, length_beBytes]
    exact hwidth

/-- A number that does not need them has zeros for its first bytes. -/
theorem beBytes_take_zeros {k n d : ℕ} (h : n < 256 ^ (k - d)) :
    ∀ c ∈ (beBytes k n).take d, c = 0 := by
  induction k generalizing d with
  | zero =>
    intro c hc
    rw [beBytes, List.take_nil] at hc
    cases hc
  | succ k ih =>
    cases d with
    | zero =>
      intro c hc
      rw [List.take_zero] at hc
      cases hc
    | succ d =>
      rw [Nat.add_sub_add_right] at h
      intro c hc
      rw [beBytes, List.take_succ_cons, List.mem_cons] at hc
      rcases hc with rfl | hc
      · have hlt : n < 256 ^ k := h.trans_le (Nat.pow_le_pow_right (by norm_num) (Nat.sub_le k d))
        rw [Nat.div_eq_of_lt hlt]
        rfl
      · exact ih h c hc

section

variable {sizeBytes : ℕ → Bytes} {width : ℕ}

/-- **Zeros come first.**  If the groups that as many bytes can hold as an item has behind
its first `d` are enough for it, then these first bytes are zeros. -/
theorem Item.zeros_first {i : Item} (hi : i.Fits sizeBytes width) {d : ℕ} (hd : 0 < d)
    (hlt : i.value < 128 ^ ((i.bytes sizeBytes width).length - d)) :
    ∀ c ∈ (i.bytes sizeBytes width).take d, c = 0 := by
  cases i with
  | element n =>
    rw [Item.bytes, length_beBytes] at hlt
    exact beBytes_take_zeros (hlt.trans_le (Nat.pow_le_pow_left (by norm_num) _))
  | size n =>
    obtain ⟨hgroups, hone | hmany⟩ := hi
    · -- one byte, and not even that one is needed
      simp only [Item.bytes, Item.value] at hlt ⊢
      rw [hone, Nat.sub_eq_zero_of_le hd, pow_zero, Nat.lt_one_iff] at hlt
      subst hlt
      obtain ⟨c, hc⟩ := List.length_eq_one_iff.mp hone
      rw [hc] at hgroups ⊢
      intro b hb
      obtain rfl := List.mem_singleton.mp (List.mem_of_mem_take hb)
      exact UInt8.toNat_inj.mp hgroups.eq_toNat.symm
    · simp only [Item.bytes, Item.value] at hlt
      have hle := Nat.pow_le_pow_right (n := 128) (by norm_num)
        (Nat.sub_le_sub_left hd (sizeBytes n).length)
      exact absurd (hmany.trans_lt hlt) (Nat.not_lt.mpr hle)

/-! ## Out of step -/

/-- What is unread and what is written from here on differ: the reader is ahead by bytes
that are not all zero, or it is behind by zeros. -/
inductive OutOfStep (written unread : Bytes) : Prop
  | ahead (passed : Bytes) (h : ∃ c ∈ passed, c ≠ 0) (heq : written = passed ++ unread)
  | behind (left : Bytes) (h : ∀ c ∈ left, c = 0) (hne : left ≠ [])
    (heq : unread = left ++ written)

/-- A reader out of step has not read what was written. -/
theorem OutOfStep.ne {written unread : Bytes} (h : OutOfStep written unread) :
    unread ≠ written := by
  rintro rfl
  cases h with
  | ahead passed h heq =>
    obtain ⟨c, hc, -⟩ := h
    rw [List.self_eq_append_left.mp heq] at hc
    cases hc
  | behind left h hne heq => exact hne (List.self_eq_append_left.mp heq)

/-- The groups read behind `passed` reach over `bytes`, and not with zeros alone. -/
theorem ahead_of_not_zeros {bytes passed r rest unread : Bytes}
    (heq : bytes ++ rest = passed ++ (r ++ unread))
    (h : ¬ ∀ c ∈ (passed ++ r).drop bytes.length, c = 0) : OutOfStep rest unread := by
  push Not at h
  obtain ⟨c, hc, hne⟩ := h
  have hlen : bytes.length < (passed ++ r).length := by
    by_contra hle
    rw [List.drop_of_length_le (Nat.not_lt.mp hle)] at hc
    cases hc
  rw [← List.append_assoc] at heq
  obtain ⟨passed', hp⟩ : bytes <+: passed ++ r :=
    List.prefix_of_prefix_length_le ⟨rest, heq⟩ (List.prefix_append _ _) hlen.le
  rw [← hp, List.append_assoc, List.append_cancel_left_eq] at heq
  rw [← hp, List.drop_left] at hc
  exact .ahead passed' ⟨c, hc, hne⟩ heq

/-- Of two beginnings of one string, what they share is the shorter one. -/
theorem take_length_eq {a b u v : Bytes} (h : a ++ u = b ++ v) :
    a.take b.length = b.take a.length := by
  rcases List.append_eq_append_iff.mp h with ⟨c, rfl, -⟩ | ⟨c, rfl, -⟩
  · rw [List.take_left, List.take_of_length_le (by rw [List.length_append]; omega)]
  · rw [List.take_left, List.take_of_length_le (by rw [List.length_append]; omega)]

/-- **Out of step it stays**, if the number that is read is the one that is written. -/
theorem OutOfStep.step (hwidth : 0 < width) {i : Item} (hi : i.Fits sizeBytes width)
    {rest r unread : Bytes} (hr : IsGroups r i.value)
    (h : OutOfStep (i.bytes sizeBytes width ++ rest) (r ++ unread)) : OutOfStep rest unread := by
  have hne := Item.bytes_ne_nil hwidth hi
  set bytes := i.bytes sizeBytes width with hbytes
  cases h with
  | ahead passed hp heq =>
    refine ahead_of_not_zeros heq fun hz => ?_
    -- the value has to fit in the groups that begin inside the bytes of the item
    have hvalue : i.value < 128 ^ (bytes.length - passed.length) := by
      refine (hr.lt_of_zeros fun c hc => hz c ?_).1
      rw [List.drop_append]
      exact List.mem_append_right _ hc
    have hpos : 0 < passed.length := by
      obtain ⟨c, hc, -⟩ := hp
      exact List.length_pos_of_mem hc
    have hfirst := Item.zeros_first hi hpos hvalue
    -- so all that was passed is zero
    obtain ⟨c, hc, hne⟩ := hp
    refine hne ?_
    rw [← List.take_append_drop bytes.length passed, List.mem_append] at hc
    rcases hc with hc | hc
    · rw [← take_length_eq heq] at hc
      exact hfirst c hc
    · refine hz c ?_
      rw [List.drop_append]
      exact List.mem_append_left _ hc
  | behind left hz hleft heq =>
    obtain ⟨c, left, rfl⟩ := List.exists_cons_of_ne_nil hleft
    obtain rfl := hz c List.mem_cons_self
    obtain ⟨hvalue, rfl⟩ := hr.zero_cons heq
    have hlen : 0 < bytes.length := List.length_pos_of_ne_nil hne
    have hbz := Item.zeros_first hi hlen (by rw [hvalue]; exact Nat.pow_pos (by norm_num))
    rw [← hbytes, List.take_length] at hbz
    refine .behind (left ++ bytes) (fun c hc => ?_) (by simp [hne]) (List.append_assoc _ _ _).symm
    rcases List.mem_append.mp hc with hc | hc
    · exact hz c (List.mem_cons_of_mem _ hc)
    · exact hbz c hc

/-- **The first element puts the reader out of step.** -/
theorem outOfStep_element (hwidth : 2 ≤ width) {n : ℕ} (hn : n < 256 ^ width)
    {rest r unread : Bytes} (hr : IsGroups r n)
    (heq : beBytes width n ++ rest = r ++ unread) : OutOfStep rest unread := by
  obtain ⟨k, rfl⟩ : ∃ k, width = k + 2 := ⟨width - 2, by omega⟩
  rcases Nat.eq_zero_or_pos n with rfl | hpos
  · -- a zero is read from the first byte, and leaves the other ones
    have hzeros : ∀ c ∈ beBytes (k + 2) 0, c = 0 := by
      intro c hc
      rw [← List.take_of_length_le (length_beBytes (k + 2) 0).le] at hc
      exact beBytes_take_zeros (Nat.pow_pos (by norm_num)) c hc
    have hcons : beBytes (k + 2) 0 = 0 :: beBytes (k + 1) 0 := by
      rw [beBytes, Nat.zero_div]
      rfl
    rw [hcons] at heq hzeros
    obtain ⟨-, rfl⟩ := hr.zero_cons heq.symm
    exact .behind _ (fun c hc => hzeros c (List.mem_cons_of_mem _ hc))
      (List.cons_ne_nil _ _) rfl
  · -- the first byte announces more, so that the number is too large for the bytes that it has
    have htop : n / 256 ^ (k + 1) < 256 := by
      rw [Nat.div_lt_iff_lt_mul (Nat.pow_pos (by norm_num)), ← pow_succ']
      exact hn
    have hlarge : 128 * 256 ^ (k + 1) ≤ n := by
      rw [← Nat.le_div_iff_mul_le (Nat.pow_pos (by norm_num))]
      rw [beBytes, Nat.mod_eq_of_lt htop] at heq
      cases hr with
      | @last c h =>
        obtain ⟨hc, -⟩ := List.cons.inj heq
        have hdiv : c.toNat / 256 ^ (k + 1) = c.toNat := by
          rw [← UInt8.toNat_ofNat_of_lt' htop, hc]
        have hlt : c.toNat / 256 ^ (k + 1) < c.toNat :=
          Nat.div_lt_self hpos (Nat.one_lt_pow (Nat.succ_ne_zero k) (by norm_num))
        omega
      | more h hr =>
        obtain ⟨hc, -⟩ := List.cons.inj heq
        rw [← hc, UInt8.toNat_ofNat_of_lt' htop] at h
        exact h
    have hpow : 128 ^ (k + 2) ≤ 128 * 256 ^ (k + 1) := by
      rw [pow_succ']
      exact Nat.mul_le_mul_left _ (Nat.pow_le_pow_left (by norm_num) _)
    have hpassed : beBytes (k + 2) n ++ rest = [] ++ (r ++ unread) := heq
    refine ahead_of_not_zeros hpassed fun hz => ?_
    rw [List.nil_append, length_beBytes] at hz
    exact absurd (hr.lt_of_zeros hz).1 (Nat.not_lt.mpr (hpow.trans hlarge))

/-! ## A whole stream -/

/-- The numbers that are read one after the other. -/
inductive ReadsGroups : List ℕ → Bytes → Bytes → Prop
  | nil (u : Bytes) : ReadsGroups [] u u
  | cons {r : Bytes} {y : ℕ} {ys : List ℕ} {u u' : Bytes} (h : IsGroups r y)
    (hrest : ReadsGroups ys u u') : ReadsGroups (y :: ys) (r ++ u) u'

/-- Numbers that are read one after the other. -/
theorem ReadsGroups.append {xs ys : List ℕ} {b between left : Bytes}
    (hx : ReadsGroups xs b between) (hy : ReadsGroups ys between left) :
    ReadsGroups (xs ++ ys) b left := by
  induction hx with
  | nil u => exact hy
  | cons h _ ih => exact .cons h (ih hy)

/-- Out of step to the end. -/
theorem OutOfStep.run (hwidth : 0 < width) {items : List Item}
    (hfits : ∀ i ∈ items, i.Fits sizeBytes width) {t unread left : Bytes}
    (hread : ReadsGroups (items.map Item.value) unread left)
    (h : OutOfStep (items.flatMap (Item.bytes sizeBytes width) ++ t) unread) :
    OutOfStep t left := by
  induction items generalizing unread with
  | nil =>
    cases hread
    exact h
  | cons i items ih =>
    cases hread with
    | cons hr hrest =>
      rw [List.flatMap_cons, List.append_assoc] at h
      exact ih (fun j hj => hfits j (List.mem_cons_of_mem i hj)) hrest
        (h.step hwidth (hfits i List.mem_cons_self) hr)

/-- **An element is never read back.**  The reader does not end where the items end, if one
of them is an element and all that it reads is what was written. -/
theorem not_inStep (hwidth : 2 ≤ width) {items : List Item}
    (hfits : ∀ i ∈ items, i.Fits sizeBytes width) (helement : ∃ i ∈ items, i.IsElement)
    {t left : Bytes} (hread : ReadsGroups (items.map Item.value)
      (items.flatMap (Item.bytes sizeBytes width) ++ t) left) : left ≠ t := by
  have hpos : 0 < width := by omega
  induction items with
  | nil =>
    obtain ⟨i, hi, -⟩ := helement
    cases hi
  | cons i items ih =>
    have hi := hfits i List.mem_cons_self
    have hitems : ∀ j ∈ items, j.Fits sizeBytes width :=
      fun j hj => hfits j (List.mem_cons_of_mem i hj)
    rw [List.flatMap_cons, List.append_assoc, List.map_cons] at hread
    generalize hstream : i.bytes sizeBytes width
      ++ (items.flatMap (Item.bytes sizeBytes width) ++ t) = stream at hread
    cases hread with
    | cons hr hrest =>
      cases i with
      | size n =>
        -- a size is read as it was written
        obtain ⟨-, -, rfl⟩ := hi.1.unique hr hstream
        refine ih hitems ?_ hrest
        obtain ⟨j, hj, helem⟩ := helement
        rcases List.mem_cons.mp hj with rfl | hj
        · exact absurd helem id
        · exact ⟨j, hj, helem⟩
      | element n =>
        exact ((outOfStep_element hwidth hi hr hstream).run hpos hitems hrest).ne

end

end SevenBits

end Mmkvc
