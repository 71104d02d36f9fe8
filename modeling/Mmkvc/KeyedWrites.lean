/-
# Writes to a partial function

A write gives its key a value that may depend on whether the key has one already.  What a list
of writes leaves at a key is decided by the writes to this key alone, and by the last of them.
-/
import Mathlib.Logic.Function.Basic
import Mathlib.Data.List.Induction
import Mathlib.Data.List.Count

namespace Mmkvc

namespace KeyedWrites

variable {K V : Type} [DecidableEq K] {f : Bool → V → V} {D : K → Option V} {k : K}
  {ws : List (K × V)}

/-- One write.  The value is `f true v` where the key has a value, else `f false v`. -/
def write (f : Bool → V → V) (D : K → Option V) (w : K × V) : K → Option V :=
  Function.update D w.1 (some (f (D w.1).isSome w.2))

/-- The writes in their order. -/
def writeAll (f : Bool → V → V) (D : K → Option V) (ws : List (K × V)) : K → Option V :=
  ws.foldl (write f) D

/-- The values that are written to a key. -/
def writesTo (k : K) (ws : List (K × V)) : List V :=
  (ws.filter fun w => w.1 = k).map Prod.snd

theorem writeAll_append (ws ws' : List (K × V)) :
    writeAll f D (ws ++ ws') = writeAll f (writeAll f D ws) ws' := List.foldl_append

/-- The values that are written to a key, some and then others. -/
@[simp] theorem writesTo_append (ws ws' : List (K × V)) :
    writesTo k (ws ++ ws') = writesTo k ws ++ writesTo k ws' := by
  unfold writesTo
  rw [List.filter_append, List.map_append]

/-- A write counts for its own key. -/
theorem writesTo_cons (w : K × V) (ws : List (K × V)) :
    writesTo k (w :: ws) = if w.1 = k then w.2 :: writesTo k ws else writesTo k ws := by
  unfold writesTo
  rw [List.filter_cons]
  by_cases hk : w.1 = k
  · simp [hk]
  · simp [hk]

/-- The values written to a key are those of the writes to it. -/
theorem mem_writesTo {v : V} : v ∈ writesTo k ws ↔ (k, v) ∈ ws := by
  unfold writesTo
  rw [List.mem_map]
  constructor
  · rintro ⟨⟨k', v'⟩, hmem, rfl⟩
    obtain ⟨hmem, hk⟩ := List.mem_filter.mp hmem
    rwa [← of_decide_eq_true hk]
  · intro hmem
    exact ⟨(k, v), List.mem_filter.mpr ⟨hmem, decide_eq_true rfl⟩, rfl⟩

/-- A key is written as often as it stands among the keys. -/
theorem length_writesTo : (writesTo k ws).length = (ws.map Prod.fst).count k := by
  induction ws with
  | nil => rfl
  | cons w ws ih =>
    rw [writesTo_cons, List.map_cons, List.count_cons, ← ih]
    by_cases hk : w.1 = k
    · rw [if_pos hk, if_pos (beq_iff_eq.mpr hk), List.length_cons]
    · rw [if_neg hk, if_neg (by simpa using hk), Nat.add_zero]

/-- **The last write decides**, and whether the key had a value before it. -/
theorem writeAll_apply (f : Bool → V → V) (D : K → Option V) (ws : List (K × V)) (k : K) :
    writeAll f D ws k = (writesTo k ws).getLast?.elim (D k) fun v =>
      some (f ((D k).isSome || decide (1 < (writesTo k ws).length)) v) := by
  induction ws using List.reverseRecOn with
  | nil => rfl
  | append_singleton ws w ih =>
    rw [writeAll_append, writesTo_append]
    show write f (writeAll f D ws) w k = _
    unfold write
    by_cases hk : k = w.1
    · subst hk
      have hlast : writesTo w.1 [w] = [w.2] := by
        rw [writesTo_cons, if_pos rfl]
        rfl
      rw [Function.update_self, hlast, List.getLast?_concat, ih]
      cases hvs : writesTo w.1 ws using List.reverseRecOn with
      | nil => simp
      | append_singleton vs v => simp
    · have hnil : writesTo k [w] = [] := by
        rw [writesTo_cons, if_neg (Ne.symm hk)]
        rfl
      rw [Function.update_of_ne hk, hnil, List.append_nil, ih]

end KeyedWrites

end Mmkvc
