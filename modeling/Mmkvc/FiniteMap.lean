/-
# Finite maps by an equivalence of keys

A finite map as the list of its entries, of which no two have equivalent keys.  An entry
with a key that is there already is not put in.
-/
import Mmkvc.IncrementalRehashing

namespace Mmkvc

variable {K E : Type} {eqv : K → K → Prop} {key : E → K}

/-- A list of entries with different keys. -/
structure FiniteMap (eqv : K → K → Prop) (key : E → K) where
  entries : List E
  unique : entries.Pairwise fun e e' => ¬ eqv (key e') (key e)

namespace FiniteMap

variable {m : FiniteMap eqv key} {e : E} {k : K} {M : Multiset E}

/-- The entries have different keys. -/
theorem coe_unique (heqv : Equivalence eqv) : Unique eqv key (m.entries : Multiset E) :=
  (unique_coe heqv).mpr (m.unique.imp fun h h' => h (heqv.symm h'))

variable [DecidableRel eqv]

def empty : FiniteMap eqv key := ⟨[], List.Pairwise.nil⟩

/-- The number of keys. -/
def size (m : FiniteMap eqv key) : ℕ := m.entries.length

/-- The entry with a key. -/
def lookup (m : FiniteMap eqv key) (k : K) : Option E :=
  m.entries.find? fun e => decide (eqv (key e) k)

theorem ne_of_lookup_eq_none (h : m.lookup k = none) : ∀ e ∈ m.entries, ¬ eqv (key e) k := by
  intro e he
  simpa using List.find?_eq_none.mp h e he

/-- The map with an entry, if its key is not there. -/
def insert (m : FiniteMap eqv key) (e : E) : FiniteMap eqv key :=
  if h : m.lookup (key e) = none then
    ⟨e :: m.entries, List.pairwise_cons.mpr ⟨ne_of_lookup_eq_none h, m.unique⟩⟩
  else m

/-- The map without a key. -/
def erase (m : FiniteMap eqv key) (k : K) : FiniteMap eqv key :=
  ⟨m.entries.filter fun e => ¬ eqv (key e) k, m.unique.filter _⟩

/-- The search finds an entry with the key if there is one. -/
theorem lookup_spec (m : FiniteMap eqv key) (k : K) :
    Lookup eqv key k (m.entries : Multiset E) (m.lookup k) := by
  cases h : m.lookup k with
  | none => exact ne_of_lookup_eq_none h
  | some e =>
    have hkey : eqv (key e) k := by simpa using List.find?_some h
    exact ⟨List.mem_of_find?_eq_some h, hkey⟩

/-- There is one answer. -/
theorem lookup_eq (heqv : Equivalence eqv) {o : Option E}
    (h : Lookup eqv key k (m.entries : Multiset E) o) : m.lookup k = o :=
  Lookup.eq heqv (coe_unique heqv) (m.lookup_spec k) h

theorem insert_of_none (h : m.lookup (key e) = none) : (m.insert e).entries = e :: m.entries := by
  rw [insert, dif_pos h]

/-- Behind an insertion, its key is found, and the others as before. -/
theorem lookup_insert_of_none (h : m.lookup (key e) = none) (k : K) :
    (m.insert e).lookup k = if eqv (key e) k then some e else m.lookup k := by
  unfold lookup
  rw [insert_of_none h, List.find?_cons]
  by_cases hk : eqv (key e) k
  · rw [decide_eq_true hk, if_pos hk]
  · rw [decide_eq_false hk, if_neg hk]

theorem insert_of_some {e' : E} (h : m.lookup (key e) = some e') : m.insert e = m := by
  rw [insert, dif_neg (by simp [h])]

/-- What is not there is not removed. -/
theorem erase_of_none (h : m.lookup k = none) : (m.erase k).entries = m.entries := by
  refine List.filter_eq_self.mpr fun e he => ?_
  simpa using ne_of_lookup_eq_none h e he

/-- The entry with the key is taken out. -/
theorem coe_erase (heqv : Equivalence eqv) (hM : (m.entries : Multiset E) = e ::ₘ M)
    (he : eqv (key e) k) : ((m.erase k).entries : Multiset E) = M := by
  have hunique : Unique eqv key (e ::ₘ M) := by
    rw [← hM]
    exact coe_unique heqv
  obtain ⟨hother, -⟩ := (unique_cons heqv).mp hunique
  have hfilter : ((m.erase k).entries : Multiset E)
      = (m.entries : Multiset E).filter fun e => ¬ eqv (key e) k := by
    rw [Multiset.filter_coe]
    rfl
  rw [hfilter, hM, Multiset.filter_cons_of_neg (p := fun e => ¬ eqv (key e) k) M (not_not.mpr he),
    Multiset.filter_eq_self]
  intro e' he' hk
  exact hother e' he' (heqv.trans he (heqv.symm hk))

/-- Behind a removal, its key is not found, and the others as before. -/
theorem lookup_erase (heqv : Equivalence eqv) (m : FiniteMap eqv key) (k k' : K) :
    (m.erase k).lookup k' = if eqv k k' then none else m.lookup k' := by
  unfold lookup erase
  rw [List.find?_filter]
  split_ifs with hk
  · rw [List.find?_eq_none]
    intro e _
    by_cases he : eqv (key e) k'
    · simp [heqv.trans he (heqv.symm hk)]
    · simp [he]
  · congr 1
    funext e
    by_cases he : eqv (key e) k'
    · have hne : ¬ eqv (key e) k := fun h => hk (heqv.trans (heqv.symm h) he)
      simp [he, hne]
    · simp [he]

/-- A new key is an entry more. -/
theorem size_insert_of_none (h : m.lookup (key e) = none) : (m.insert e).size = m.size + 1 := by
  unfold size
  rw [insert_of_none h, List.length_cons]

/-- Nothing is removed, and the size stays. -/
theorem size_erase_of_none (h : m.lookup k = none) : (m.erase k).size = m.size := by
  unfold size
  rw [erase_of_none h]

/-- A removed key is an entry less. -/
theorem size_erase_of_some (heqv : Equivalence eqv) (h : m.lookup k = some e) :
    (m.erase k).size + 1 = m.size := by
  have hspec := m.lookup_spec k
  rw [h] at hspec
  obtain ⟨M, hM⟩ := Multiset.exists_cons_of_mem hspec.1
  have hcard := congrArg Multiset.card (coe_erase heqv hM hspec.2)
  have hcard' := congrArg Multiset.card hM
  rw [Multiset.coe_card] at hcard hcard'
  rw [Multiset.card_cons, ← hcard] at hcard'
  exact hcard'.symm

end FiniteMap

end Mmkvc
