/-
# Reading a byte buffer

A reader consumes a prefix of the readable bytes of a buffer.  What the language
leaves undefined (bytes past the readable region, a value that was never
written) is a fault of its own, so that "reads only inside the buffer" is the
statement that a run does not fault.

The rules at the end compose readers with the byte strings they read:
`Reads p s a` says that `p` consumes exactly `s`, whatever follows it, and
returns `a`.
-/
import Mathlib

namespace Mmkvc

/-- A byte string. -/
abbrev Bytes := List UInt8

/-- What stops a reader for good. -/
inductive Fault where
  /-- Bytes outside the readable region are read or skipped. -/
  | outOfReadable
  /-- A variable is used that was never written. -/
  | indeterminate
  /-- A loop did not come to its end within its bound. -/
  | outOfFuel
  deriving DecidableEq, Repr

/-- A computation that consumes the readable bytes of a buffer. -/
abbrev Reader (α : Type) := StateT Bytes (Except Fault) α

/-! ## Programs with a state that may fail -/

/-- Run on the elements of a list in turn, handing a state from one to the next. -/
def forEach {m : Type → Type} [Monad m] {σ α β : Type} (f : σ → α → m (σ × β)) :
    σ → List α → m (List β)
  | _, [] => pure []
  | s, a :: as => do
    let (s, b) ← f s a
    let bs ← forEach f s as
    return b :: bs

section

variable {σ ε α β : Type} {p : StateT σ (Except ε) α} {f : α → StateT σ (Except ε) β} {s s' : σ}

/-- A sequence goes on where its first part has come to. -/
theorem run_bind_ok {a : α} (h : p.run s = .ok (a, s')) : (p >>= f).run s = (f a).run s' := by
  rw [StateT.run_bind, h]
  rfl

/-- A sequence ends with its first part if this fails. -/
theorem run_bind_error {e : ε} (h : p.run s = .error e) : (p >>= f).run s = .error e := by
  rw [StateT.run_bind, h]
  rfl

/-- A sequence succeeds when both parts do. -/
theorem run_bind_eq_ok {c : β} : (p >>= f).run s = .ok (c, s')
    ↔ ∃ a s₁, p.run s = .ok (a, s₁) ∧ (f a).run s₁ = .ok (c, s') := by
  cases h : p.run s with
  | error e => rw [run_bind_error h]; simp
  | ok r =>
    obtain ⟨a, s₁⟩ := r
    rw [run_bind_ok h]
    simp

/-- It fails in the first part, or in the second after the first. -/
theorem run_bind_eq_error {e : ε} : (p >>= f).run s = .error e
    ↔ p.run s = .error e ∨ ∃ a s₁, p.run s = .ok (a, s₁) ∧ (f a).run s₁ = .error e := by
  cases h : p.run s with
  | error e' => rw [run_bind_error h]; simp
  | ok r =>
    obtain ⟨a, s₁⟩ := r
    rw [run_bind_ok h]
    simp

end

namespace Reader

variable {α β : Type}

/-- The next `n` readable bytes, left unread. -/
def peek (n : ℕ) : Reader Bytes := fun b =>
  if n ≤ b.length then .ok (b.take n, b) else .error .outOfReadable

/-- Skip `n` readable bytes. -/
def advance (n : ℕ) : Reader Unit := fun b =>
  if n ≤ b.length then .ok ((), b.drop n) else .error .outOfReadable

/-- The next `n` readable bytes, consumed. -/
def take (n : ℕ) : Reader Bytes := do
  let s ← peek n
  advance n
  return s

theorem run_peek (n : ℕ) (b : Bytes) :
    (peek n).run b = if n ≤ b.length then .ok (b.take n, b) else .error .outOfReadable := rfl

theorem run_advance (n : ℕ) (b : Bytes) :
    (advance n).run b = if n ≤ b.length then .ok ((), b.drop n) else .error .outOfReadable := rfl

/-- Taking gives the bytes and goes on behind them. -/
theorem run_take (n : ℕ) (b : Bytes) :
    (take n).run b =
      if n ≤ b.length then .ok (b.take n, b.drop n) else .error .outOfReadable := by
  by_cases h : n ≤ b.length
  · rw [take, StateT.run_bind, run_peek, if_pos h, if_pos h]
    show (advance n >>= fun _ => pure (b.take n)).run b = _
    rw [StateT.run_bind, run_advance, if_pos h]
    rfl
  · rw [take, StateT.run_bind, run_peek, if_neg h, if_neg h]
    rfl

theorem run_get (b : Bytes) : (get : Reader Bytes).run b = .ok (b, b) := rfl

/-! ## Readers and the strings they read -/

/-- `p` consumes exactly `s` and returns `a`, whatever bytes follow. -/
def Reads (p : Reader α) (s : Bytes) (a : α) : Prop :=
  ∀ t, p.run (s ++ t) = .ok (a, t)

theorem reads_pure (a : α) : Reads (pure a) [] a := fun _ => rfl

/-- Two readers in sequence read the two strings in sequence. -/
theorem Reads.bind {p : Reader α} {f : α → Reader β} {s₁ s₂ : Bytes} {a : α} {b : β}
    (hp : Reads p s₁ a) (hf : Reads (f a) s₂ b) : Reads (p >>= f) (s₁ ++ s₂) b := by
  intro t
  rw [StateT.run_bind, List.append_assoc, hp (s₂ ++ t)]
  exact hf t

/-- A last reader whose result is only repacked. -/
theorem Reads.bind_pure {p : Reader α} {f : α → Reader β} {s : Bytes} {a : α} {b : β}
    (hp : Reads p s a) (hf : f a = pure b) : Reads (p >>= f) s b := by
  have h := hp.bind (hf ▸ reads_pure b)
  rwa [List.append_nil] at h

/-- Bytes are read back. -/
theorem reads_take (s : Bytes) (n : ℕ) (h : s.length = n) : Reads (take n) s s := by
  intro t
  subst h
  rw [run_take]
  simp

/-- Bytes are skipped. -/
theorem reads_advance (s : Bytes) (n : ℕ) (h : s.length = n) : Reads (advance n) s () := by
  intro t
  subst h
  rw [run_advance]
  simp

/-- Peeking at bytes in front of others. -/
theorem run_peek_append {s : Bytes} {n : ℕ} (h : s.length = n) (t : Bytes) :
    (peek n).run (s ++ t) = .ok (s, s ++ t) := by
  subst h
  rw [run_peek]
  simp

/-- Elements that are read one after the other from the strings `w b` leave a
list of results; what is read into `a` from `w b` may depend on `a`. -/
theorem reads_forEach {σ γ : Type} {f : σ → α → Reader (σ × β)} {w : γ → Bytes} {g : α → γ → β}
    {as : List α} {bs : List γ}
    (h : List.Forall₂ (fun a b => ∀ s, ∃ s', Reads (f s a) (w b) (s', g a b)) as bs) :
    ∀ s, Reads (forEach f s as) (bs.flatMap w) (List.zipWith g as bs) := by
  induction h with
  | nil => intro s; exact reads_pure []
  | cons hab _ ih =>
    intro s
    obtain ⟨s', hs'⟩ := hab s
    exact hs'.bind ((ih s').bind_pure rfl)

/-! ## Readers that only go forward -/

/-- Every run leaves a suffix of what was readable. -/
def Forward (p : Reader α) : Prop := ∀ b a b', p.run b = .ok (a, b') → b' <:+ b

/-- Nothing is read. -/
theorem forward_pure (a : α) : Forward (pure a) := by
  intro b a' b' h
  cases h
  exact List.suffix_rfl

/-- Readers in sequence go forwards. -/
theorem Forward.bind {p : Reader α} {f : α → Reader β} (hp : Forward p)
    (hf : ∀ a, Forward (f a)) : Forward (p >>= f) := by
  intro b c b' h
  obtain ⟨a, b₁, hpb, hfa⟩ := run_bind_eq_ok.mp h
  exact (hf a b₁ c b' hfa).trans (hp b a b₁ hpb)

/-- Skipping goes forwards. -/
theorem forward_advance (n : ℕ) : Forward (advance n) := by
  intro b a b' h
  rw [run_advance] at h
  split_ifs at h
  cases h
  exact List.drop_suffix n b

/-- Peeking leaves the reader where it is. -/
theorem forward_peek (n : ℕ) : Forward (peek n) := by
  intro b a b' h
  rw [run_peek] at h
  split_ifs at h
  cases h
  exact List.suffix_rfl

theorem forward_take (n : ℕ) : Forward (take n) :=
  (forward_peek n).bind fun s => (forward_advance n).bind fun _ => forward_pure s

theorem forward_throw (e : Fault) : Forward (throw e : Reader α) := by
  intro b a b' h
  cases h

/-- Reading element by element goes forwards. -/
theorem forward_forEach {σ : Type} {f : σ → α → Reader (σ × β)} (hf : ∀ s a, Forward (f s a))
    (as : List α) (s : σ) : Forward (forEach f s as) := by
  induction as generalizing s with
  | nil => exact forward_pure []
  | cons a as ih =>
    exact (hf s a).bind fun r => (ih r.1).bind fun bs => forward_pure (r.2 :: bs)

/-! ## What a reader returns -/

/-- A run on fewer than `N` bytes leaves fewer than `N`, and what it returns meets `Q`. -/
def Ensures (N : ℕ) (p : Reader α) (Q : α → Prop) : Prop :=
  ∀ b a b', b.length < N → p.run b = .ok (a, b') → b'.length < N ∧ Q a

section

variable {N : ℕ} {p : Reader α} {f : α → Reader β} {Q : α → Prop} {R : β → Prop}

/-- A result without reading. -/
theorem ensures_pure {a : α} (h : Q a) : Ensures N (pure a) Q := by
  intro b a' b' hb hrun
  cases hrun
  exact ⟨hb, h⟩

/-- A weaker statement about the result. -/
theorem Ensures.post {Q' : α → Prop} (hp : Ensures N p Q) (hQ : ∀ a, Q a → Q' a) :
    Ensures N p Q' := by
  intro b a b' hb hrun
  obtain ⟨hb', ha⟩ := hp b a b' hb hrun
  exact ⟨hb', hQ a ha⟩

/-- Readers in sequence: the second may rely on what the first ensures. -/
theorem Ensures.bind (hp : Ensures N p Q) (hf : ∀ a, Q a → Ensures N (f a) R) :
    Ensures N (p >>= f) R := by
  intro b c b' hb hrun
  obtain ⟨a, b₁, hpb, hfa⟩ := run_bind_eq_ok.mp hrun
  obtain ⟨hb₁, ha⟩ := hp b a b₁ hb hpb
  exact hf a ha b₁ c b' hb₁ hfa

theorem Forward.ensures (hp : Forward p) : Ensures N p fun _ => True := by
  intro b a b' hb hrun
  exact ⟨(hp b a b' hrun).length_le.trans_lt hb, trivial⟩

/-- What is taken has the length that was asked for, and no more than there was. -/
theorem ensures_take (n : ℕ) : Ensures N (take n) fun s => s.length = n ∧ s.length < N := by
  intro b s b' hb hrun
  have hb' := (forward_take n b s b' hrun).length_le
  rw [run_take] at hrun
  split_ifs at hrun with hn
  cases hrun
  have hlength : (b.take n).length = n := List.length_take_of_le hn
  exact ⟨hb'.trans_lt hb, hlength, hlength.trans_lt (hn.trans_lt hb)⟩

/-- Element by element, each result is as ensured. -/
theorem ensures_forEach {σ : Type} {g : σ → α → Reader (σ × β)} {as : List α}
    (hg : ∀ s, ∀ a ∈ as, Ensures N (g s a) fun r => R r.2) (s : σ) :
    Ensures N (forEach g s as) fun bs => bs.length = as.length ∧ ∀ b ∈ bs, R b := by
  induction as generalizing s with
  | nil => exact ensures_pure ⟨rfl, nofun⟩
  | cons a as ih =>
    refine (hg s a List.mem_cons_self).bind fun r hr => ?_
    refine (ih (fun s a ha => hg s a (List.mem_cons_of_mem _ ha)) r.1).bind fun bs hbs => ?_
    exact ensures_pure ⟨congrArg (· + 1) hbs.1, List.forall_mem_cons.mpr ⟨hr, hbs.2⟩⟩

end

/-- A sequence goes on behind what its first part reads. -/
theorem Reads.rest {p : Reader α} {f : α → Reader β} {s t : Bytes} {a : α} {r : β × Bytes}
    (hp : Reads p s a) (h : (p >>= f).run (s ++ t) = .ok r) : (f a).run t = .ok r := by
  rwa [run_bind_ok (hp t)] at h

end Reader

end Mmkvc
