/-
# Total correctness of stateful programs

`StateT σ Option` is the monad of programs that read and write a state and may get
stuck: a null or dangling pointer, a failed assertion, a loop that does not end in
its bound.  `Triple P p Q` says that `p`, from a state that meets `P`, does not
get stuck and ends with a result and a state that meet `Q`.
-/
import Mathlib.Control.Monad.Basic

namespace Mmkvc

section

variable {σ α β : Type}

/-- From every state in `P`, `p` ends in `Q`. -/
def Triple (P : σ → Prop) (p : StateT σ Option α) (Q : α → σ → Prop) : Prop :=
  ∀ s, P s → ∃ a s', p.run s = some (a, s') ∧ Q a s'

/-- The state a program ends in. -/
def exec (p : StateT σ Option α) (s : σ) : Option σ := (p.run s).map Prod.snd

theorem triple_pure {P : σ → Prop} {a : α} {Q : α → σ → Prop} (h : ∀ s, P s → Q a s) :
    Triple P (pure a) Q := fun s hs => ⟨a, s, rfl, h s hs⟩

/-- A run of a first program and what follows. -/
theorem run_bind_eq {p : StateT σ Option α} {f : α → StateT σ Option β} {s s' : σ} {a : α}
    {r : Option (β × σ)} (h : p.run s = some (a, s')) (hf : (f a).run s' = r) :
    (p >>= f).run s = r := by
  rw [StateT.run_bind, h]
  exact hf

namespace Triple

variable {P P' : σ → Prop} {p : StateT σ Option α} {f : α → StateT σ Option β}
  {Q Q' : α → σ → Prop} {R : β → σ → Prop}

/-- A stronger precondition and a weaker postcondition. -/
theorem conseq (h : Triple P p Q) (hP : ∀ s, P' s → P s) (hQ : ∀ a s, Q a s → Q' a s) :
    Triple P' p Q' := by
  intro s hs
  obtain ⟨a, s', hrun, hq⟩ := h s (hP s hs)
  exact ⟨a, s', hrun, hQ a s' hq⟩

theorem post (h : Triple P p Q) (hQ : ∀ a s, Q a s → Q' a s) : Triple P p Q' :=
  h.conseq (fun _ hs => hs) hQ

theorem pre (h : Triple P p Q) (hP : ∀ s, P' s → P s) : Triple P' p Q :=
  h.conseq hP fun _ _ hq => hq

/-- The state that a program leaves. -/
theorem exec_eq {s : σ} (h : Triple P p Q) (hs : P s) : ∃ s', exec p s = some s' ∧ ∃ a, Q a s' := by
  obtain ⟨a, s', hrun, hQ⟩ := h s hs
  exact ⟨s', by rw [exec, hrun]; rfl, a, hQ⟩

/-- One program after the other. -/
theorem bind (h : Triple P p Q) (hf : ∀ a, Triple (Q a) (f a) R) : Triple P (p >>= f) R := by
  intro s hs
  obtain ⟨a, s', hrun, hq⟩ := h s hs
  obtain ⟨b, s'', hrun', hr⟩ := hf a s' hq
  exact ⟨b, s'', run_bind_eq hrun hrun', hr⟩

/-- A first program whose result is known. -/
theorem bind_eq {a : α} {P₁ : σ → Prop} (h : Triple P p fun x s => x = a ∧ P₁ s)
    (hf : Triple P₁ (f a) R) : Triple P (p >>= f) R := by
  refine h.bind fun x => ?_
  intro s hs
  obtain ⟨rfl, hs⟩ := hs
  exact hf s hs

/-- What holds before and is not about the state can be assumed. -/
theorem of_pre {C : Prop} (h : C → Triple P p Q) (hC : ∀ s, P s → C) : Triple P p Q :=
  fun s hs => h (hC s hs) s hs

/-- A precondition that names something. -/
theorem exists_pre {ι : Type} {P : ι → σ → Prop} (h : ∀ i, Triple (P i) p Q) :
    Triple (fun s => ∃ i, P i s) p Q := by
  rintro s ⟨i, hs⟩
  exact h i s hs

/-- Both branches. -/
theorem ite {c : Prop} [Decidable c] {q : StateT σ Option α} (ht : c → Triple P p Q)
    (he : ¬ c → Triple P q Q) : Triple P (if c then p else q) Q := by
  split_ifs with hc
  · exact ht hc
  · exact he hc

end Triple

end

end Mmkvc
