/-
# Threads and their phases

Each of finitely many threads is in a phase, and one thread moves at a time.  A count of the
threads in certain phases, or a bound on the moves that are left, is the sum of a weight of the
phases, and a move changes it by the weights of the phase that is left and of the one entered.
-/
import Mathlib.Algebra.BigOperators.Group.Finset.Piecewise
import Mathlib.Algebra.Order.BigOperators.Group.Finset
import Mathlib.Data.Fintype.BigOperators
import Mathlib.Tactic.Linarith

namespace Mmkvc

namespace Phases

variable {ι φ : Type} [Fintype ι] {w : φ → ℕ} {f : ι → φ} {i : ι} {p q : φ}

/-- The weight of all threads. -/
def total (w : φ → ℕ) (f : ι → φ) : ℕ := ∑ i, w (f i)

/-- **A move of one thread** out of a known phase. -/
theorem total_update [DecidableEq ι] (w : φ → ℕ) (h : f i = q) :
    total w (Function.update f i p) + w q = total w f + w p := by
  have hrest : ∑ j ∈ Finset.univ.erase i, w (Function.update f i p j)
      = ∑ j ∈ Finset.univ.erase i, w (f j) := by
    refine Finset.sum_congr rfl fun j hj => ?_
    rw [Function.update_of_ne (Finset.ne_of_mem_erase hj)]
  unfold total
  rw [← Finset.add_sum_erase _ _ (Finset.mem_univ i), ← Finset.add_sum_erase _ _ (Finset.mem_univ i),
    hrest, Function.update_self, h]
  omega

theorem le_total (w : φ → ℕ) (f : ι → φ) (i : ι) : w (f i) ≤ total w f :=
  Finset.single_le_sum (f := fun i => w (f i)) (fun _ _ => Nat.zero_le _) (Finset.mem_univ i)

/-- Nothing weighs only where no thread does. -/
theorem total_eq_zero : total w f = 0 ↔ ∀ i, w (f i) = 0 := by
  unfold total
  rw [Finset.sum_eq_zero_iff]
  exact forall_congr' fun i => ⟨fun h => h (Finset.mem_univ i), fun h _ => h⟩

/-- Weights that are at most a number. -/
theorem total_le {n : ℕ} (h : ∀ p, w p ≤ n) : total w f ≤ n * Fintype.card ι := by
  unfold total
  rw [Nat.mul_comm]
  exact (Finset.sum_le_card_nsmul _ _ n fun i _ => h (f i)).trans_eq (by simp)

end Phases

end Mmkvc
