/-
# Emptying a set (`algo/internal/hash_set_impl.h`)

`EraseRandom` removes the first entry that it comes to behind the buckets that a rehash has
moved.  It finds one as long as there is one, but does not count the removal: a set that is
emptied with it keeps its size.
-/
import Mmkvc.HashTableAnswers

namespace Mmkvc

open Slist Tables Transition

namespace HashTable

variable {K V : Type} {T : EqualTraits K V} {l : Layout} {M : Multiset (Addr × V)}
  {H : Multiset (Addr × SNode V)} {top : ℕ} {s : HashTable V}

/-- The results of `n` calls of `EraseRandom`, and the state after them. -/
def drain (T : EqualTraits K V) (n : ℕ) (s : HashTable V) : Option (List ℕ × HashTable V) :=
  outputs (fun s (_ : Unit) => (eraseRandom T).run s) s (List.replicate n ())

/-- One call, and the others behind it. -/
theorem drain_succ {n x : ℕ} {xs : List ℕ} {s' s'' : HashTable V}
    (hfirst : (eraseRandom T).run s = some (x, s')) (hrest : drain T n s' = some (xs, s'')) :
    drain T (n + 1) s = some (x :: xs, s'') :=
  outputs_cons.mpr ⟨x, s', xs, hfirst, hrest, rfl⟩

/-- The results, where there are `m` entries. -/
def drained (m n : ℕ) : List ℕ := List.replicate (min m n) 1 ++ List.replicate (n - m) 0

/-- An empty table gives zeros. -/
theorem drained_zero_succ (n : ℕ) : drained 0 (n + 1) = 0 :: drained 0 n := by
  simp [drained, List.replicate_succ]

/-- An entry gives a one. -/
theorem drained_succ_succ (m n : ℕ) : drained (m + 1) (n + 1) = 1 :: drained m n := by
  rw [drained, Nat.succ_min_succ, List.replicate_succ, List.cons_append, Nat.add_sub_add_right]
  rfl

/-- **The calls in turn.** -/
theorem exists_drain (hT : LawfulEqual T) (hs : Contains T l M H top s) (n : ℕ) :
    ∃ s' l' M', drain T n s = some (drained (Multiset.card M) n, s')
      ∧ Contains T l' M' H top s' ∧ l'.used = l.used ∧ M' ≤ M
      ∧ Multiset.card M' = Multiset.card M - n := by
  induction n generalizing l M s with
  | zero => exact ⟨s, l, M, by simp [drain, drained, outputs], hs, rfl, le_rfl, rfl⟩
  | succ n ih =>
    obtain ⟨x, s₁, hrun, hx⟩ := eraseRandom_spec hT s hs
    rcases hx with ⟨rfl, rfl, hs₁⟩ | ⟨rfl, e, M₁, rfl, hs₁⟩
    · obtain ⟨s', l', M', hrest, hs', hused, hle, hcard⟩ := ih hs₁
      refine ⟨s', l', M', ?_, hs', hused.trans Layout.used_advance, hle, ?_⟩
      · rw [Multiset.card_zero, drained_zero_succ]
        exact drain_succ hrun hrest
      · rw [hcard, Multiset.card_zero, Nat.zero_sub, Nat.zero_sub]
    · obtain ⟨s', l', M', hrest, hs', hused, hle, hcard⟩ := ih hs₁
      refine ⟨s', l', M', ?_, hs', hused.trans Layout.used_advance,
        hle.trans (Multiset.le_cons_self M₁ e), ?_⟩
      · rw [Multiset.card_cons, drained_succ_succ]
        exact drain_succ hrun hrest
      · rw [hcard, Multiset.card_cons, Nat.add_sub_add_right]

end HashTable

/-- **`EraseRandom` empties a set.**  On a set of `m` entries, in any state that a set can be in,
the first `m` of `n` calls return 1 and the others 0, each 1 for one of the entries that were
there, and neither `size()` nor `empty()` changes: `while (!set.empty()) set.EraseRandom()`
does not end once it is entered. -/
theorem eraseRandom_drains {K V : Type} {T : EqualTraits K V} {s : HashTable V} (hT : LawfulEqual T)
    (hs : HashTable.Reachable T s) (n : ℕ) :
    ∃ M, HashTable.Stores s M ∧ ∃ s' M',
      HashTable.drain T n s = some (HashTable.drained (Multiset.card M) n, s')
        ∧ HashTable.Stores s' M' ∧ M' ≤ M ∧ Multiset.card M' = Multiset.card M - n
        ∧ s'.getSize = s.getSize ∧ s'.isEmpty = s.isEmpty := by
  obtain ⟨c, hc⟩ := hs.exists_holds hT
  obtain ⟨s', l', M', hrun, hs', hused, hle, hcard⟩ := HashTable.exists_drain hT hc n
  have hsize : s'.getSize = s.getSize := by
    rw [HashTable.used_of_contains hs', hused, HashTable.used_of_contains hc]
  refine ⟨c.entries, HashTable.stores_of_contains hc, s', M', hrun, HashTable.stores_of_contains hs',
    hle, hcard, hsize, ?_⟩
  unfold Tables.isEmpty
  rw [hsize]

theorem eraseRandom_drains_rehashing : ∃ s : HashTable ℤ, s.rehashMoveBucketIndex = some 1
    ∧ ∃ M, HashTable.Stores s M ∧ ∃ s' M',
      HashTable.drain HashTable.intKeys 7 s = some (HashTable.drained (Multiset.card M) 7, s')
        ∧ HashTable.Stores s' M' ∧ M' ≤ M ∧ Multiset.card M' = Multiset.card M - 7
        ∧ s'.getSize = s.getSize ∧ s'.isEmpty = s.isEmpty := by
  have hmoved : ((HashTable.construct (V := ℤ)).bind fun s₀ =>
      (run (HashTable.step HashTable.intKeys) s₀ ([1, 2, 5, 9, 3].map .insert)).map
        (·.rehashMoveBucketIndex)) = some (some 1) := by decide +kernel
  obtain ⟨s₀, hs₀, hrun⟩ := Option.bind_eq_some_iff.mp hmoved
  obtain ⟨s, hs, hindex⟩ := Option.map_eq_some_iff.mp hrun
  exact ⟨s, hindex, eraseRandom_drains HashTable.lawfulEqual_int ⟨s₀, _, hs₀, hs⟩ 7⟩

end Mmkvc
