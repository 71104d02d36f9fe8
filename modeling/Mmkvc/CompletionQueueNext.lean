/-
# The completion queue (`thread/completion_queue_next.cc`)

Any number of threads call `Push` and `Next`, and each of their calls goes through its phases:
it locks the mutex, does what is inside, and unlocks it.  Of kanon's `MutexLock` and `Condition`
this is assumed: at most one thread has the mutex; `Wait` unlocks it and goes to sleep in one
step, and returns with the mutex; `Notify` wakes one thread that waits, if there is one.  A thread
may also wake up by itself.

`completionQueueNext_fifo` says which tasks the calls of `Next` take,
`completionQueueNext_no_lost_wakeup` how many of them are left when nobody can move, and
`completionQueueNext_comes_to_rest` that this point is reached.
-/
import Mmkvc.ThreadPhases
import Mmkvc.Transition

namespace Mmkvc

/-- `CompletionStatus`. -/
inductive CompletionStatus where
  | CS_OK
  | CS_FAILURE
  deriving DecidableEq, Repr

/-- `CompletionTask`. -/
structure CompletionTask (Tag : Type) where
  tag : Tag
  status : CompletionStatus
  deriving DecidableEq, Repr

namespace CompletionQueueNext

/-! ## States and steps -/

/-- Which of the pointers that `Next` is called with are not null. -/
structure Outputs where
  tag : Bool
  ok : Bool
  deriving DecidableEq, Repr

/-- How far a thread has got with its call. -/
inductive Phase (Tag : Type) where
  | idle
  | pushLock (task : CompletionTask Tag)
  | pushBack (task : CompletionTask Tag)
  | pushNotify
  | nextLock (o : Outputs)
  | nextTest (o : Outputs)
  | waiting (o : Outputs)
  /-- `Wait` locks the mutex again. -/
  | woken (o : Outputs)
  | nextTake (o : Outputs)
  | unlock
  deriving DecidableEq, Repr

/-- A task that a call of `Next` took, and what it wrote. -/
structure Taken (ι Tag : Type) where
  thread : ι
  outputs : Outputs
  tag : Option Tag
  ok : Option Bool
  deriving DecidableEq, Repr

variable {ι Tag : Type} [DecidableEq ι]

/-- `*tag` and `*ok` are those of the task. -/
def Taken.IsOf (r : Taken ι Tag) (task : CompletionTask Tag) : Prop :=
  r.tag = (if r.outputs.tag then some task.tag else none)
    ∧ r.ok = (if r.outputs.ok then some (decide (task.status = .CS_OK)) else none)

/-- The queue, its mutex and the threads.  `pushed` and `taken` are histories. -/
structure State (ι Tag : Type) where
  cq : List (CompletionTask Tag)
  cqMu : Option ι
  phase : ι → Phase Tag
  pushed : List (CompletionTask Tag)
  taken : List (Taken ι Tag)
  /-- `assert(!cq_.empty())` failed. -/
  faulty : Bool

def init : State ι Tag where
  cq := []
  cqMu := none
  phase := fun _ => .idle
  pushed := []
  taken := []
  faulty := false

inductive Action (ι Tag : Type) where
  /-- A thread calls `Push`. -/
  | push (i : ι) (task : CompletionTask Tag)
  /-- A thread calls `Next`. -/
  | next (i : ι) (o : Outputs)
  | lock (i : ι)
  | pushBack (i : ι)
  /-- `Notify` wakes the thread `j`, or nobody. -/
  | notify (i : ι) (j : Option ι)
  /-- `cq_.empty()`, and `Wait` if it is. -/
  | test (i : ι)
  | take (i : ι)
  | unlock (i : ι)
  /-- A thread that waits wakes up by itself. -/
  | wake (j : ι)
  deriving DecidableEq, Repr

/-- The phase behind the lock. -/
def Phase.locked : Phase Tag → Option (Phase Tag)
  | .pushLock task => some (.pushBack task)
  | .nextLock o => some (.nextTest o)
  | .woken o => some (.nextTest o)
  | _ => none

/-- The phase of a thread that waits, once it is woken. -/
def Phase.wakened : Phase Tag → Option (Phase Tag)
  | .waiting o => some (.woken o)
  | _ => none

/-- Nobody waits. -/
def NobodyWaits [Fintype ι] (s : State ι Tag) : Prop := ∀ i, (s.phase i).wakened = none

instance [Fintype ι] (s : State ι Tag) : Decidable (NobodyWaits s) :=
  decidable_of_iff (∀ i, (s.phase i).wakened.isNone) (by simp [NobodyWaits])

/-- What `Next` does with the front of the queue. -/
def State.takeFront (s : State ι Tag) (i : ι) (o : Outputs) : State ι Tag :=
  match s.cq with
  | [] => { s with faulty := true, phase := Function.update s.phase i .unlock }
  | task :: cq =>
    { s with
      cq := cq
      taken := s.taken ++
        [{ thread := i
           outputs := o
           tag := if o.tag then some task.tag else none
           ok := if o.ok then some (decide (task.status = .CS_OK)) else none }]
      phase := Function.update s.phase i .unlock }

/-- The state after an action, if it is enabled. -/
def step [Fintype ι] (s : State ι Tag) : Action ι Tag → Option (State ι Tag)
  | .push i task =>
    match s.phase i with
    | .idle => some { s with phase := Function.update s.phase i (.pushLock task) }
    | _ => none
  | .next i o =>
    match s.phase i with
    | .idle => some { s with phase := Function.update s.phase i (.nextLock o) }
    | _ => none
  | .lock i =>
    if s.cqMu = none then (s.phase i).locked.map fun p =>
      { s with cqMu := some i, phase := Function.update s.phase i p }
    else none
  | .pushBack i =>
    match s.phase i with
    | .pushBack task => some
      { s with
        cq := s.cq ++ [task]
        pushed := s.pushed ++ [task]
        phase := Function.update s.phase i .pushNotify }
    | _ => none
  | .notify i (some j) =>
    match s.phase i with
    | .pushNotify => (s.phase j).wakened.map fun p =>
      { s with phase := Function.update (Function.update s.phase j p) i .unlock }
    | _ => none
  | .notify i none =>
    match s.phase i with
    | .pushNotify =>
      if NobodyWaits s then some { s with phase := Function.update s.phase i .unlock } else none
    | _ => none
  | .test i =>
    match s.phase i with
    | .nextTest o =>
      if s.cq = [] then some
        { s with cqMu := none, phase := Function.update s.phase i (.waiting o) }
      else some { s with phase := Function.update s.phase i (.nextTake o) }
    | _ => none
  | .take i =>
    match s.phase i with
    | .nextTake o => some (s.takeFront i o)
    | _ => none
  | .unlock i =>
    match s.phase i with
    | .unlock => some { s with cqMu := none, phase := Function.update s.phase i .idle }
    | _ => none
  | .wake j => (s.phase j).wakened.map fun p =>
      { s with phase := Function.update s.phase j p }

/-! ## What a step can do -/

section

variable [Fintype ι] {s s' : State ι Tag} {i j : ι} {o : Outputs} {task : CompletionTask Tag}

/-- A thread that is outside calls `Push`. -/
theorem step_push (h : step s (.push i task) = some s') : s.phase i = .idle
    ∧ s' = { s with phase := Function.update s.phase i (.pushLock task) } := by
  simp only [step] at h
  split at h
  · rename_i hphase
    exact ⟨hphase, (Option.some.inj h).symm⟩
  · cases h

/-- A thread that is outside calls `Next`. -/
theorem step_next (h : step s (.next i o) = some s') : s.phase i = .idle
    ∧ s' = { s with phase := Function.update s.phase i (.nextLock o) } := by
  simp only [step] at h
  split at h
  · rename_i hphase
    exact ⟨hphase, (Option.some.inj h).symm⟩
  · cases h

/-- The mutex is taken when it is free. -/
theorem step_lock (h : step s (.lock i) = some s') : s.cqMu = none
    ∧ ∃ p, (s.phase i).locked = some p
      ∧ s' = { s with cqMu := some i, phase := Function.update s.phase i p } := by
  simp only [step] at h
  split_ifs at h with hmu
  obtain ⟨p, hp, rfl⟩ := Option.map_eq_some_iff.mp h
  exact ⟨hmu, p, hp, rfl⟩

/-- The task goes to the end of the queue. -/
theorem step_pushBack (h : step s (.pushBack i) = some s') :
    ∃ task, s.phase i = .pushBack task ∧ s' =
      { s with
        cq := s.cq ++ [task]
        pushed := s.pushed ++ [task]
        phase := Function.update s.phase i .pushNotify } := by
  simp only [step] at h
  split at h
  · rename_i task hphase
    exact ⟨task, hphase, (Option.some.inj h).symm⟩
  · cases h

/-- A thread that waits is woken. -/
theorem step_notify (h : step s (.notify i (some j)) = some s') : s.phase i = .pushNotify
    ∧ ∃ p, (s.phase j).wakened = some p
      ∧ s' = { s with phase := Function.update (Function.update s.phase j p) i .unlock } := by
  simp only [step] at h
  split at h
  · rename_i hphase
    obtain ⟨p, hp, rfl⟩ := Option.map_eq_some_iff.mp h
    exact ⟨hphase, p, hp, rfl⟩
  · cases h

/-- `Notify` does nothing only if nobody waits. -/
theorem step_notify_nobody (h : step s (.notify i none) = some s') : s.phase i = .pushNotify
    ∧ NobodyWaits s ∧ s' = { s with phase := Function.update s.phase i .unlock } := by
  simp only [step] at h
  split at h
  · rename_i hphase
    split_ifs at h with hnobody
    exact ⟨hphase, hnobody, (Option.some.inj h).symm⟩
  · cases h

/-- An empty queue sends the thread to wait, and gives the mutex back in the same step. -/
theorem step_test (h : step s (.test i) = some s') : ∃ o, s.phase i = .nextTest o
    ∧ ((s.cq = []
        ∧ s' = { s with cqMu := none, phase := Function.update s.phase i (.waiting o) })
      ∨ (s.cq ≠ [] ∧ s' = { s with phase := Function.update s.phase i (.nextTake o) })) := by
  simp only [step] at h
  split at h
  · rename_i o hphase
    split_ifs at h with hempty
    · exact ⟨o, hphase, Or.inl ⟨hempty, (Option.some.inj h).symm⟩⟩
    · exact ⟨o, hphase, Or.inr ⟨hempty, (Option.some.inj h).symm⟩⟩
  · cases h

/-- The front of the queue is taken. -/
theorem step_take (h : step s (.take i) = some s') :
    ∃ o, s.phase i = .nextTake o ∧ s' = s.takeFront i o := by
  simp only [step] at h
  split at h
  · rename_i o hphase
    exact ⟨o, hphase, (Option.some.inj h).symm⟩
  · cases h

/-- The mutex is given back, and the call is over. -/
theorem step_unlock (h : step s (.unlock i) = some s') : s.phase i = .unlock
    ∧ s' = { s with cqMu := none, phase := Function.update s.phase i .idle } := by
  simp only [step] at h
  split at h
  · rename_i hphase
    exact ⟨hphase, (Option.some.inj h).symm⟩
  · cases h

theorem step_wake (h : step s (.wake j) = some s') : ∃ p, (s.phase j).wakened = some p
    ∧ s' = { s with phase := Function.update s.phase j p } := by
  obtain ⟨p, hp, rfl⟩ := Option.map_eq_some_iff.mp h
  exact ⟨p, hp, rfl⟩

end

/-! ## Weights of the phases -/

namespace Phase

/-- The thread has the mutex. -/
def inside : Phase Tag → Bool
  | .pushBack _ | .pushNotify | .nextTest _ | .nextTake _ | .unlock => true
  | _ => false

def waits : Phase Tag → ℕ
  | .waiting _ => 1
  | _ => 0

/-- The thread will look at the queue, or has seen that it is not empty. -/
def looks : Phase Tag → ℕ
  | .woken _ | .nextTest _ | .nextTake _ => 1
  | _ => 0

def notifies : Phase Tag → ℕ
  | .pushNotify => 1
  | _ => 0

/-- A `Push` that has not put its task into the queue. -/
def pushes : Phase Tag → ℕ
  | .pushLock _ | .pushBack _ => 1
  | _ => 0

/-- A `Next` that has not taken a task. -/
def nexts : Phase Tag → ℕ
  | .nextLock _ | .nextTest _ | .waiting _ | .woken _ | .nextTake _ => 1
  | _ => 0

/-- A bound on the steps that are left: a thread that notifies wakes another one. -/
def rank : Phase Tag → ℕ
  | .idle | .waiting _ => 0
  | .unlock => 1
  | .nextTake _ => 2
  | .nextTest _ => 3
  | .nextLock _ | .woken _ => 4
  | .pushNotify => 6
  | .pushBack _ => 7
  | .pushLock _ => 8

theorem rank_le (p : Phase Tag) : p.rank ≤ 8 := by
  cases p <;> simp [rank]

theorem wakened_eq_none {p : Phase Tag} : p.wakened = none ↔ p.waits = 0 := by
  cases p <;> simp [wakened, waits]

end Phase

/-! ## The mutex -/

section

variable {f : ι → Phase Tag} {mu : Option ι} {i : ι} {p : Phase Tag}
  {cq : List (CompletionTask Tag)}

/-- Who has the mutex, when a thread stays inside or outside. -/
theorem holder_stay (h : ∀ k, (f k).inside = true ↔ mu = some k) (hp : p.inside = (f i).inside) :
    ∀ k, (Function.update f i p k).inside = true ↔ mu = some k := by
  intro k
  by_cases hk : k = i
  · subst hk
    rw [Function.update_self, hp, h]
  · rw [Function.update_of_ne hk, h]

/-- The thread that takes the free mutex is the only one inside. -/
theorem holder_lock (h : ∀ k, (f k).inside = true ↔ (none : Option ι) = some k)
    (hp : p.inside = true) :
    ∀ k, (Function.update f i p k).inside = true ↔ some i = some k := by
  intro k
  by_cases hk : k = i
  · subst hk
    rw [Function.update_self]
    exact iff_of_true hp rfl
  · rw [Function.update_of_ne hk, h]
    exact iff_of_false nofun fun hik => hk (Option.some.inj hik).symm

/-- When the one thread inside leaves, nobody is inside. -/
theorem holder_unlock (h : ∀ k, (f k).inside = true ↔ mu = some k) (hi : (f i).inside = true)
    (hp : p.inside = false) :
    ∀ k, (Function.update f i p k).inside = true ↔ (none : Option ι) = some k := by
  intro k
  refine iff_of_false ?_ nofun
  by_cases hk : k = i
  · subst hk
    rw [Function.update_self, hp]
    exact Bool.false_ne_true
  · rw [Function.update_of_ne hk, h, (h i).mp hi]
    exact fun hik => hk (Option.some.inj hik).symm

/-- A thread that takes the front has seen a task in the queue. -/
theorem nonempty_update (h : ∀ k o, f k = .nextTake o → cq ≠ [])
    (hp : ∀ o, p = .nextTake o → cq ≠ []) :
    ∀ k o, Function.update f i p k = .nextTake o → cq ≠ [] := by
  intro k o hk
  by_cases hki : k = i
  · subst hki
    rw [Function.update_self] at hk
    exact hp o hk
  · rw [Function.update_of_ne hki] at hk
    exact h k o hk

end

/-! ## The invariant -/

open Phases

/-- What holds after `np` calls of `Push` and `nn` calls of `Next`: the thread inside has the
mutex; the tasks taken are the first ones pushed, and the others are in the queue; and while a
thread waits, every task in the queue has a thread that will look for it, or be notified. -/
structure Inv [Fintype ι] (np nn : ℕ) (s : State ι Tag) : Prop where
  holder : ∀ i, (s.phase i).inside = true ↔ s.cqMu = some i
  nonempty : ∀ i o, s.phase i = .nextTake o → s.cq ≠ []
  taken : List.Forall₂ Taken.IsOf s.taken (s.pushed.take s.taken.length)
  cq : s.cq = s.pushed.drop s.taken.length
  notFaulty : s.faulty = false
  notLost : 0 < total Phase.waits s.phase →
    s.cq.length ≤ total Phase.looks s.phase + total Phase.notifies s.phase
  pushes : s.pushed.length + total Phase.pushes s.phase = np
  nexts : s.taken.length + total Phase.nexts s.phase = nn

section

variable [Fintype ι] {np nn np' nn' : ℕ} {s s' : State ι Tag} {mu : Option ι} {i j : ι}
  {p q : Phase Tag} {o : Outputs} {task : CompletionTask Tag} {cq : List (CompletionTask Tag)}

omit [DecidableEq ι] in
/-- At first nobody has called anything. -/
theorem inv_init : Inv 0 0 (init : State ι Tag) where
  holder := fun i => iff_of_false Bool.false_ne_true nofun
  nonempty := by rintro i o ⟨⟩
  taken := List.Forall₂.nil
  cq := rfl
  notFaulty := rfl
  notLost := fun _ => Nat.zero_le _
  pushes := by
    have hidle : total Phase.pushes (init : State ι Tag).phase = 0 := total_eq_zero.mpr fun _ => rfl
    rw [hidle]
    rfl
  nexts := by
    have hidle : total Phase.nexts (init : State ι Tag).phase = 0 := total_eq_zero.mpr fun _ => rfl
    rw [hidle]
    rfl

/-- **A move of one thread** that leaves the queue alone. -/
theorem Inv.move (h : Inv np nn s) (hq : s.phase i = q)
    (hholder : ∀ k, (Function.update s.phase i p k).inside = true ↔ mu = some k)
    (htake : ∀ o, p = .nextTake o → s.cq ≠ [])
    (hlost : 0 < total Phase.waits (Function.update s.phase i p) →
      s.cq.length ≤ total Phase.looks (Function.update s.phase i p)
        + total Phase.notifies (Function.update s.phase i p))
    (hpushes : np' + q.pushes = np + p.pushes) (hnexts : nn' + q.nexts = nn + p.nexts) :
    Inv np' nn' { s with cqMu := mu, phase := Function.update s.phase i p } where
  holder := hholder
  nonempty := nonempty_update h.nonempty htake
  taken := h.taken
  cq := h.cq
  notFaulty := h.notFaulty
  notLost := hlost
  pushes := by
    have hmove := total_update (p := p) Phase.pushes hq
    have hbefore := h.pushes
    show s.pushed.length + total _ (Function.update s.phase i p) = np'
    omega
  nexts := by
    have hmove := total_update (p := p) Phase.nexts hq
    have hbefore := h.nexts
    show s.taken.length + total _ (Function.update s.phase i p) = nn'
    omega

/-- A move that makes nobody wait, and does not take away a thread that looks or notifies. -/
theorem Inv.notLost_update (h : Inv np nn s) (hq : s.phase i = q) (hwaits : p.waits ≤ q.waits)
    (hlooks : q.looks + q.notifies ≤ p.looks + p.notifies) :
    0 < total Phase.waits (Function.update s.phase i p) →
      s.cq.length ≤ total Phase.looks (Function.update s.phase i p)
        + total Phase.notifies (Function.update s.phase i p) := by
  intro hpos
  have hwait := total_update (p := p) Phase.waits hq
  have hlook := total_update (p := p) Phase.looks hq
  have hnotify := total_update (p := p) Phase.notifies hq
  have hbefore := h.notLost (by omega)
  omega

/-! ### The actions -/

/-- A call of `Push` is counted. -/
theorem Inv.push (h : Inv np nn s) (hstep : step s (.push i task) = some s') :
    Inv (np + 1) nn s' := by
  obtain ⟨hq, rfl⟩ := step_push hstep
  exact h.move hq (holder_stay h.holder (by rw [hq]; rfl)) nofun
    (h.notLost_update hq le_rfl le_rfl) rfl rfl

/-- A call of `Next` is counted. -/
theorem Inv.next (h : Inv np nn s) (hstep : step s (.next i o) = some s') :
    Inv np (nn + 1) s' := by
  obtain ⟨hq, rfl⟩ := step_next hstep
  exact h.move hq (holder_stay h.holder (by rw [hq]; rfl)) nofun
    (h.notLost_update hq le_rfl le_rfl) rfl rfl

/-- Taking the mutex keeps the invariant. -/
theorem Inv.lock (h : Inv np nn s) (hstep : step s (.lock i) = some s') : Inv np nn s' := by
  obtain ⟨hmu, p, hp, rfl⟩ := step_lock hstep
  have hholder := h.holder
  rw [hmu] at hholder
  cases hq : s.phase i with
  | pushLock task =>
    rw [hq] at hp
    cases hp
    exact h.move hq (holder_lock hholder rfl) nofun (h.notLost_update hq le_rfl le_rfl) rfl rfl
  | nextLock o =>
    rw [hq] at hp
    cases hp
    exact h.move hq (holder_lock hholder rfl) nofun
      (h.notLost_update hq le_rfl (Nat.zero_le _)) rfl rfl
  | woken o =>
    rw [hq] at hp
    cases hp
    exact h.move hq (holder_lock hholder rfl) nofun (h.notLost_update hq le_rfl le_rfl) rfl rfl
  | idle | pushBack | pushNotify | nextTest | waiting | nextTake | unlock =>
    rw [hq] at hp
    cases hp

/-- The task that is put into the queue has a thread that will notify. -/
theorem Inv.pushBack (h : Inv np nn s) (hstep : step s (.pushBack i) = some s') : Inv np nn s' := by
  obtain ⟨task, hq, rfl⟩ := step_pushBack hstep
  have hle : s.taken.length ≤ s.pushed.length := by
    have hlen := h.taken.length_eq
    rw [List.length_take] at hlen
    omega
  refine ⟨holder_stay h.holder (by rw [hq]; rfl), fun k o _ => ?_, ?_, ?_, h.notFaulty, ?_, ?_, ?_⟩
  · exact List.append_ne_nil_of_right_ne_nil _ (List.cons_ne_nil _ _)
  · rw [List.take_append_of_le_length hle]
    exact h.taken
  · rw [List.drop_append_of_le_length hle, ← h.cq]
  · have hwait := total_update (p := .pushNotify) Phase.waits hq
    have hlook := total_update (p := .pushNotify) Phase.looks hq
    have hnotify := total_update (p := .pushNotify) Phase.notifies hq
    have hbefore := h.notLost
    simp only [Phase.waits, Phase.looks, Phase.notifies, Nat.add_zero] at hwait hlook hnotify
    rw [hwait, hlook, hnotify, List.length_append]
    exact fun hpos => Nat.add_le_add_right (hbefore hpos) 1
  · have hpush := total_update (p := .pushNotify) Phase.pushes hq
    have hbefore := h.pushes
    simp only [Phase.pushes] at hpush
    show (s.pushed ++ [task]).length + total _ (Function.update s.phase i _) = np
    rw [List.length_append, List.length_singleton]
    omega
  · have hnext := total_update (p := .pushNotify) Phase.nexts hq
    have hbefore := h.nexts
    simp only [Phase.nexts] at hnext
    show s.taken.length + total _ (Function.update s.phase i _) = nn
    omega

/-- A thread that wakes by itself asks for the mutex again and has counted as a waiting one before.
-/
theorem Inv.wake (h : Inv np nn s) (hstep : step s (.wake j) = some s') : Inv np nn s' := by
  obtain ⟨p, hp, rfl⟩ := step_wake hstep
  cases hq : s.phase j with
  | waiting o =>
    rw [hq] at hp
    cases hp
    exact h.move hq (holder_stay h.holder (by rw [hq]; rfl)) nofun
      (h.notLost_update hq (Nat.zero_le _) (Nat.zero_le _)) rfl rfl
  | idle | pushLock | pushBack | pushNotify | nextLock | nextTest | woken | nextTake | unlock =>
    rw [hq] at hp
    cases hp

/-- The thread that is woken will look for the task. -/
theorem Inv.notify (h : Inv np nn s) (hstep : step s (.notify i (some j)) = some s') :
    Inv np nn s' := by
  obtain ⟨hq, p, hp, rfl⟩ := step_notify hstep
  have hne : i ≠ j := by
    rintro rfl
    rw [hq] at hp
    cases hp
  have hwoken : step s (.wake j) = some { s with phase := Function.update s.phase j p } := by
    rw [step, hp]
    rfl
  have hq' : Function.update s.phase j p i = .pushNotify := by rw [Function.update_of_ne hne, hq]
  refine (h.wake hwoken).move hq' ?_ nofun ?_ rfl rfl
  · exact holder_stay (h.wake hwoken).holder (congrArg Phase.inside hq').symm
  · cases hw : s.phase j with
    | waiting o =>
      rw [hw] at hp
      cases hp
      intro _
      show s.cq.length ≤ total _ (Function.update (Function.update s.phase j _) i _)
        + total _ (Function.update (Function.update s.phase j _) i _)
      have hwait := total_update (p := .woken o) Phase.waits hw
      have hlook := total_update (p := .woken o) Phase.looks hw
      have hnotify := total_update (p := .woken o) Phase.notifies hw
      have hlook' := total_update (p := .unlock) Phase.looks hq'
      have hnotify' := total_update (p := .unlock) Phase.notifies hq'
      simp only [Phase.waits, Phase.looks, Phase.notifies] at hwait hlook hnotify hlook' hnotify'
      have hbefore := h.notLost (by omega)
      omega
    | idle | pushLock | pushBack | pushNotify | nextLock | nextTest | woken | nextTake | unlock =>
      rw [hw] at hp
      cases hp

omit [DecidableEq ι] in
theorem total_waits_eq_zero (h : NobodyWaits s) : total Phase.waits s.phase = 0 :=
  total_eq_zero.mpr fun i => Phase.wakened_eq_none.mp (h i)

/-- A notification that reaches nobody is not needed by anyone. -/
theorem Inv.notify_nobody (h : Inv np nn s) (hstep : step s (.notify i none) = some s') :
    Inv np nn s' := by
  obtain ⟨hq, hnobody, rfl⟩ := step_notify_nobody hstep
  refine h.move hq (holder_stay h.holder (by rw [hq]; rfl)) nofun (fun hpos => ?_) rfl rfl
  have hwait := total_update (p := .unlock) Phase.waits hq
  have hzero := total_waits_eq_zero hnobody
  simp only [Phase.waits] at hwait
  omega

/-- A thread that finds the queue empty waits, and there is no task that it misses. -/
theorem Inv.test (h : Inv np nn s) (hstep : step s (.test i) = some s') : Inv np nn s' := by
  obtain ⟨o, hq, ⟨hempty, rfl⟩ | ⟨hne, rfl⟩⟩ := step_test hstep
  · refine h.move hq (holder_unlock h.holder (by rw [hq]; rfl) rfl) nofun (fun _ => ?_) rfl rfl
    rw [hempty]
    exact Nat.zero_le _
  · exact h.move hq (holder_stay h.holder (by rw [hq]; rfl)) (fun _ _ => hne)
      (h.notLost_update hq le_rfl le_rfl) rfl rfl

omit [Fintype ι] in
/-- Taking the front of a queue that is not empty. -/
theorem takeFront_cons (o : Outputs) (h : s.cq = task :: cq) : s.takeFront i o =
    { s with
      cq := cq
      taken := s.taken ++
        [{ thread := i
           outputs := o
           tag := if o.tag then some task.tag else none
           ok := if o.ok then some (decide (task.status = .CS_OK)) else none }]
      phase := Function.update s.phase i .unlock } := by
  rw [State.takeFront, h]

/-- **The assertion holds**, and the front of the queue is the task pushed next after those that
were taken. -/
theorem Inv.take (h : Inv np nn s) (hstep : step s (.take i) = some s') : Inv np nn s' := by
  obtain ⟨o, hq, rfl⟩ := step_take hstep
  have hne := h.nonempty i o hq
  cases hcq : s.cq with
  | nil => exact absurd hcq hne
  | cons task cq =>
    rw [takeFront_cons o hcq]
    have hfront := h.cq
    rw [hcq] at hfront
    -- the front of the queue is the first task that is not taken
    have hlt : s.taken.length < s.pushed.length := by
      by_contra hle
      rw [List.drop_eq_nil_of_le (Nat.le_of_not_lt hle)] at hfront
      cases hfront
    rw [List.drop_eq_getElem_cons hlt, List.cons.injEq] at hfront
    have hmu := (h.holder i).mp (by rw [hq]; rfl)
    refine ⟨holder_stay h.holder (by rw [hq]; rfl), fun k o' hk => ?_, ?_, ?_, h.notFaulty, ?_, ?_,
      ?_⟩
    · -- nobody else is inside
      have hk : Function.update s.phase i .unlock k = .nextTake o' := hk
      have hinside : (Function.update s.phase i .unlock k).inside = true := by rw [hk]; rfl
      have hki := (holder_stay h.holder (by rw [hq]; rfl) k).mp hinside
      obtain rfl := Option.some.inj (hmu.symm.trans hki)
      rw [Function.update_self] at hk
      cases hk
    · rw [List.length_append, List.length_singleton, List.take_succ_eq_append_getElem hlt]
      refine List.rel_append h.taken (List.Forall₂.cons ?_ List.Forall₂.nil)
      rw [← hfront.1]
      exact ⟨rfl, rfl⟩
    · rw [hfront.2, List.length_append]
      rfl
    · show 0 < total _ (Function.update s.phase i _) → cq.length
        ≤ total _ (Function.update s.phase i _) + total _ (Function.update s.phase i _)
      have hwait := total_update (p := .unlock) Phase.waits hq
      have hlook := total_update (p := .unlock) Phase.looks hq
      have hnotify := total_update (p := .unlock) Phase.notifies hq
      have hbefore := h.notLost
      simp only [Phase.waits, Phase.looks, Phase.notifies] at hwait hlook hnotify
      rw [hcq, List.length_cons] at hbefore
      -- one task less and one thread less that looks at the queue
      intro hpos
      have hle := hbefore (by omega)
      omega
    · have hpush := total_update (p := .unlock) Phase.pushes hq
      have hbefore := h.pushes
      simp only [Phase.pushes] at hpush
      show s.pushed.length + total _ (Function.update s.phase i _) = np
      omega
    · have hnext := total_update (p := .unlock) Phase.nexts hq
      have hbefore := h.nexts
      simp only [Phase.nexts] at hnext
      show (s.taken ++ [_]).length + total _ (Function.update s.phase i _) = nn
      rw [List.length_append, List.length_singleton]
      omega

theorem Inv.unlock (h : Inv np nn s) (hstep : step s (.unlock i) = some s') : Inv np nn s' := by
  obtain ⟨hq, rfl⟩ := step_unlock hstep
  exact h.move hq (holder_unlock h.holder (by rw [hq]; rfl) rfl) nofun
    (h.notLost_update hq le_rfl le_rfl) rfl rfl

/-! ### Runs -/

/-- The action is a call of `Push`. -/
def Action.isPush : Action ι Tag → Bool
  | .push _ _ => true
  | _ => false

/-- The action is a call of `Next`. -/
def Action.isNext : Action ι Tag → Bool
  | .next _ _ => true
  | _ => false

/-- **Every step keeps the invariant.** -/
theorem Inv.step {a : Action ι Tag} (h : Inv np nn s)
    (hstep : CompletionQueueNext.step s a = some s') :
    Inv (np + [a].countP Action.isPush) (nn + [a].countP Action.isNext) s' := by
  cases a with
  | push i task => exact h.push hstep
  | next i o => exact h.next hstep
  | lock i => exact h.lock hstep
  | pushBack i => exact h.pushBack hstep
  | notify i j =>
    cases j with
    | none => exact h.notify_nobody hstep
    | some j => exact h.notify hstep
  | test i => exact h.test hstep
  | take i => exact h.take hstep
  | unlock i => exact h.unlock hstep
  | wake j => exact h.wake hstep

/-- The invariant holds after every run, with the calls counted. -/
theorem inv_of_run {acts : List (Action ι Tag)}
    (hrun : Transition.run CompletionQueueNext.step init acts = some s) :
    Inv (acts.countP Action.isPush) (acts.countP Action.isNext) s := by
  refine Transition.invariant_of_history (I := fun acts s =>
    Inv (acts.countP Action.isPush) (acts.countP Action.isNext) s) ?_ inv_init hrun
  intro acts s a s' h hstep
  rw [List.countP_append, List.countP_append]
  exact h.step hstep

/-! ## Rest -/

/-- Each thread is outside, or waits for a task. -/
def AtRest (s : State ι Tag) : Prop := ∀ i, s.phase i = .idle ∨ ∃ o, s.phase i = .waiting o

/-- An action of a call in progress. -/
def Action.isOwn : Action ι Tag → Bool
  | .push _ _ | .next _ _ | .wake _ => false
  | _ => true

omit [DecidableEq ι] in
/-- At rest, a weight that idle and waiting threads do not have adds up to nothing. -/
theorem total_eq_zero_of_atRest (h : AtRest s) {w : Phase Tag → ℕ} (hidle : w .idle = 0)
    (hwaiting : ∀ o, w (.waiting o) = 0) : total w s.phase = 0 := by
  refine total_eq_zero.mpr fun i => ?_
  rcases h i with hi | ⟨o, hi⟩
  · rw [hi, hidle]
  · rw [hi, hwaiting]

omit [DecidableEq ι] in
/-- The calls of `Next` that are left at rest are those that wait. -/
theorem total_nexts_of_atRest (h : AtRest s) :
    total Phase.nexts s.phase = total Phase.waits s.phase := by
  refine Finset.sum_congr rfl fun i _ => ?_
  rcases h i with hi | ⟨o, hi⟩ <;> rw [hi] <;> rfl

omit [DecidableEq ι] in
/-- A task is in the queue, or a thread waits for one, but not both. -/
theorem Inv.length_taken_of_atRest (h : Inv np nn s) (hrest : AtRest s) :
    s.pushed.length = np ∧ s.taken.length = min np nn := by
  have hpush : total Phase.pushes s.phase = 0 := total_eq_zero_of_atRest hrest rfl fun _ => rfl
  have hlook : total Phase.looks s.phase = 0 := total_eq_zero_of_atRest hrest rfl fun _ => rfl
  have hnotify : total Phase.notifies s.phase = 0 := total_eq_zero_of_atRest hrest rfl fun _ => rfl
  have hnexts := total_nexts_of_atRest hrest
  have hcq := congrArg List.length h.cq
  have hle := h.taken.length_eq
  have hlost := h.notLost
  have hpushes := h.pushes
  have hnext := h.nexts
  rw [List.length_drop] at hcq
  rw [List.length_take] at hle
  refine ⟨by omega, ?_⟩
  rcases Nat.eq_zero_or_pos (total Phase.waits s.phase) with hzero | hpos
  · rw [min_eq_right (by omega)]
    omega
  · have hzero := hlost hpos
    rw [min_eq_left (by omega)]
    omega

/-- **Each step of a call in progress** takes some of what is left to do. -/
theorem rank_lt {a : Action ι Tag} (ha : a.isOwn = true)
    (hstep : CompletionQueueNext.step s a = some s') :
    total Phase.rank s'.phase < total Phase.rank s.phase := by
  have hmove : ∀ {i : ι} {p q : Phase Tag}, s.phase i = q → p.rank < q.rank →
      total Phase.rank (Function.update s.phase i p) < total Phase.rank s.phase := by
    intro i p q hq hlt
    have hupdate := total_update (p := p) Phase.rank hq
    omega
  cases a with
  | push | next | wake => cases ha
  | lock i =>
    obtain ⟨-, p, hp, rfl⟩ := step_lock hstep
    refine hmove (q := s.phase i) rfl ?_
    cases hq : s.phase i with
    | pushLock | nextLock | woken =>
      rw [hq] at hp
      cases hp
      exact Nat.lt_succ_self _
    | idle | pushBack | pushNotify | nextTest | waiting | nextTake | unlock =>
      rw [hq] at hp
      cases hp
  | pushBack i =>
    obtain ⟨task, hq, rfl⟩ := step_pushBack hstep
    exact hmove hq (Nat.lt_succ_self 6)
  | notify i j =>
    cases j with
    | none =>
      obtain ⟨hq, -, rfl⟩ := step_notify_nobody hstep
      exact hmove hq (show 1 < 6 by decide)
    | some j =>
      obtain ⟨hq, p, hp, rfl⟩ := step_notify hstep
      cases hw : s.phase j with
      | waiting o =>
        rw [hw] at hp
        cases hp
        have hne : i ≠ j := by
          rintro rfl
          rw [hq] at hw
          cases hw
        have hq' : Function.update s.phase j (.woken o) i = .pushNotify := by
          rw [Function.update_of_ne hne, hq]
        -- the thread that is woken goes up by less than the one that notifies goes down
        have hwoken := total_update (p := .woken o) Phase.rank hw
        have hunlock := total_update (p := .unlock) Phase.rank hq'
        simp only [Phase.rank] at hwoken hunlock
        show total _ (Function.update (Function.update s.phase j _) i _) < _
        omega
      | idle | pushLock | pushBack | pushNotify | nextLock | nextTest | woken | nextTake
      | unlock =>
        rw [hw] at hp
        cases hp
  | test i =>
    obtain ⟨o, hq, ⟨-, rfl⟩ | ⟨-, rfl⟩⟩ := step_test hstep
    · exact hmove hq (show 0 < 3 by decide)
    · exact hmove hq (show 2 < 3 by decide)
  | take i =>
    obtain ⟨o, hq, rfl⟩ := step_take hstep
    have hphase : (s.takeFront i o).phase = Function.update s.phase i .unlock := by
      unfold State.takeFront
      cases s.cq <;> rfl
    rw [hphase]
    exact hmove hq (show 1 < 2 by decide)
  | unlock i =>
    obtain ⟨hq, rfl⟩ := step_unlock hstep
    exact hmove hq Nat.zero_lt_one

/-- Every own step brings a call nearer to rest, so that there are not many. -/
theorem length_le_rank {acts : List (Action ι Tag)} (hown : ∀ a ∈ acts, a.isOwn = true)
    (hrun : Transition.run CompletionQueueNext.step s acts = some s') :
    acts.length ≤ total Phase.rank s.phase := by
  induction acts generalizing s with
  | nil => exact Nat.zero_le _
  | cons a acts ih =>
    obtain ⟨t, ht, hrun⟩ := Transition.run_cons.mp hrun
    have hlt := rank_lt (hown a List.mem_cons_self) ht
    have hle := ih (fun b hb => hown b (List.mem_cons_of_mem a hb)) hrun
    rw [List.length_cons]
    omega

/-- **Some call can go on**, unless all are at rest. -/
theorem Inv.exists_step (h : Inv np nn s) (hrest : ¬ AtRest s) :
    ∃ (a : Action ι Tag) (s' : State ι Tag), a.isOwn = true
      ∧ CompletionQueueNext.step s a = some s' := by
  cases hmu : s.cqMu with
  | some i =>
    -- the thread inside
    have hinside := (h.holder i).mpr hmu
    cases hq : s.phase i with
    | pushBack task => exact ⟨.pushBack i, _, rfl, by simp only [CompletionQueueNext.step, hq]; rfl⟩
    | pushNotify =>
      by_cases hnobody : NobodyWaits s
      · exact ⟨.notify i none, _, rfl, by
          simp only [CompletionQueueNext.step, hq, if_pos hnobody]; rfl⟩
      · obtain ⟨j, hj⟩ := not_forall.mp hnobody
        obtain ⟨p, hp⟩ := Option.ne_none_iff_exists'.mp hj
        exact ⟨.notify i (some j), _, rfl, by
          simp only [CompletionQueueNext.step, hq, hp, Option.map_some]; rfl⟩
    | nextTest o =>
      by_cases hempty : s.cq = []
      · exact ⟨.test i, _, rfl, by
          simp only [CompletionQueueNext.step, hq, if_pos hempty]; rfl⟩
      · exact ⟨.test i, _, rfl, by
          simp only [CompletionQueueNext.step, hq, if_neg hempty]; rfl⟩
    | nextTake o => exact ⟨.take i, _, rfl, by simp only [CompletionQueueNext.step, hq]; rfl⟩
    | unlock => exact ⟨.unlock i, _, rfl, by simp only [CompletionQueueNext.step, hq]; rfl⟩
    | idle | pushLock | nextLock | waiting | woken =>
      rw [hq] at hinside
      cases hinside
  | none =>
    -- a thread that wants to be inside
    obtain ⟨i, hi⟩ := not_forall.mp hrest
    rw [not_or, not_exists] at hi
    have hlocked : ∀ p, (s.phase i).locked = some p → ∃ (a : Action ι Tag) (s' : State ι Tag),
        a.isOwn = true ∧ CompletionQueueNext.step s a = some s' := by
      intro p hp
      exact ⟨.lock i, _, rfl, by
        simp only [CompletionQueueNext.step, if_pos hmu, hp, Option.map_some]; rfl⟩
    have houtside : (s.phase i).inside ≠ true := by
      rw [ne_eq, h.holder i, hmu]
      exact nofun
    cases hq : s.phase i with
    | idle => exact absurd hq hi.1
    | waiting o => exact absurd hq (hi.2 o)
    | pushLock | nextLock | woken => exact hlocked _ (by rw [hq]; rfl)
    | pushBack | pushNotify | nextTest | nextTake | unlock =>
      rw [hq] at houtside
      exact absurd rfl houtside

/-- The calls in progress can run until all is at rest.  The induction is on what is left of them.
-/
theorem exists_atRest (n : ℕ) : ∀ s : State ι Tag, Inv np nn s → total Phase.rank s.phase = n →
    ∃ more s', (∀ a ∈ more, a.isOwn = true)
      ∧ Transition.run CompletionQueueNext.step s more = some s' ∧ AtRest s' := by
  induction n using Nat.strong_induction_on generalizing np nn with
  | _ n ih =>
    intro s h hn
    by_cases hrest : AtRest s
    · exact ⟨[], s, by simp, rfl, hrest⟩
    · obtain ⟨a, t, ha, hstep⟩ := h.exists_step hrest
      obtain ⟨more, s', hmore, hrun, hrest'⟩ :=
        ih _ (hn ▸ rank_lt ha hstep) t (h.step hstep) rfl
      exact ⟨a :: more, s', List.forall_mem_cons.mpr ⟨ha, hmore⟩,
        Transition.run_cons.mpr ⟨t, hstep, hrun⟩, hrest'⟩

end

/-- Two threads wait in `Next` before a third one calls `Push`.  One of them takes the task; the
other, which wakes by itself, waits again. -/
def waitsFirst : List (Action (Fin 3) ℕ) :=
  [.next 0 ⟨true, true⟩, .lock 0, .test 0, .next 2 ⟨true, false⟩, .lock 2, .test 2,
    .push 1 ⟨7, .CS_OK⟩, .lock 1, .pushBack 1, .notify 1 (some 0), .unlock 1,
    .lock 0, .test 0, .take 0, .unlock 0, .wake 2, .lock 2, .test 2]

end CompletionQueueNext

/-- **First in, first out.**  Whatever the order in which threads call and run, one thread at a
time is inside, the assertion of `Next` holds, the `k`-th `Next` to take a task writes the
tag and the status of the `k`-th task pushed, and the other tasks are in the queue. -/
theorem completionQueueNext_fifo {ι Tag : Type} [DecidableEq ι] [Fintype ι]
    {acts : List (CompletionQueueNext.Action ι Tag)} {s : CompletionQueueNext.State ι Tag}
    (hrun : Transition.run CompletionQueueNext.step CompletionQueueNext.init acts = some s) :
    (∀ i j, (s.phase i).inside = true → (s.phase j).inside = true → i = j)
      ∧ s.faulty = false
      ∧ List.Forall₂ CompletionQueueNext.Taken.IsOf s.taken (s.pushed.take s.taken.length)
      ∧ s.cq = s.pushed.drop s.taken.length := by
  have h := CompletionQueueNext.inv_of_run hrun
  refine ⟨fun i j hi hj => ?_, h.notFaulty, h.taken, h.cq⟩
  exact Option.some.inj (((h.holder i).mp hi).symm.trans ((h.holder j).mp hj))

theorem completionQueueNext_fifo_waitsFirst :
    ∃ s, Transition.run CompletionQueueNext.step CompletionQueueNext.init
        CompletionQueueNext.waitsFirst = some s
      ∧ s.taken = [⟨0, ⟨true, true⟩, some 7, some true⟩]
      ∧ s.cq = s.pushed.drop s.taken.length := by
  obtain ⟨s, hs, htaken⟩ : ∃ s, Transition.run CompletionQueueNext.step CompletionQueueNext.init
      CompletionQueueNext.waitsFirst = some s
        ∧ s.taken = [⟨0, ⟨true, true⟩, some 7, some true⟩] := ⟨_, rfl, rfl⟩
  exact ⟨s, hs, htaken, (completionQueueNext_fifo hs).2.2.2⟩

/-- **No wakeup is lost.**  When every thread is outside or waits for a task, every `Push` has put
its task into the queue, and either every `Next` has taken a task or every task is taken: nobody
waits while there is one. -/
theorem completionQueueNext_no_lost_wakeup {ι Tag : Type} [DecidableEq ι] [Fintype ι]
    {acts : List (CompletionQueueNext.Action ι Tag)} {s : CompletionQueueNext.State ι Tag}
    (hrun : Transition.run CompletionQueueNext.step CompletionQueueNext.init acts = some s)
    (hrest : CompletionQueueNext.AtRest s) :
    s.pushed.length = acts.countP CompletionQueueNext.Action.isPush
      ∧ s.taken.length = min (acts.countP CompletionQueueNext.Action.isPush)
          (acts.countP CompletionQueueNext.Action.isNext) :=
  (CompletionQueueNext.inv_of_run hrun).length_taken_of_atRest hrest

theorem completionQueueNext_no_lost_wakeup_waitsFirst :
    ∃ s, Transition.run CompletionQueueNext.step CompletionQueueNext.init
        CompletionQueueNext.waitsFirst = some s ∧ s.taken.length = 1 := by
  obtain ⟨s, hs, h0, h1, h2⟩ : ∃ s, Transition.run CompletionQueueNext.step
      CompletionQueueNext.init CompletionQueueNext.waitsFirst = some s
        ∧ s.phase 0 = .idle ∧ s.phase 1 = .idle ∧ s.phase 2 = .waiting ⟨true, false⟩ :=
    ⟨_, rfl, by decide, by decide, by decide⟩
  refine ⟨s, hs, (completionQueueNext_no_lost_wakeup hs fun i => ?_).2⟩
  obtain rfl | rfl | rfl := (by decide : ∀ i : Fin 3, i = 0 ∨ i = 1 ∨ i = 2) i
  · exact Or.inl h0
  · exact Or.inl h1
  · exact Or.inr ⟨_, h2⟩

/-- **The calls come to rest.**  From any state that can be reached, the calls in progress take at
most eight steps times the number of threads in all, in whatever order; they go on until every thread is outside
or waits for a task; and they can get there. -/
theorem completionQueueNext_comes_to_rest {ι Tag : Type} [DecidableEq ι] [Fintype ι]
    {acts : List (CompletionQueueNext.Action ι Tag)} {s : CompletionQueueNext.State ι Tag}
    (hrun : Transition.run CompletionQueueNext.step CompletionQueueNext.init acts = some s) :
    (∀ more s', (∀ a ∈ more, a.isOwn = true) →
        Transition.run CompletionQueueNext.step s more = some s' →
        more.length ≤ 8 * Fintype.card ι
          ∧ ((∀ a, a.isOwn = true → CompletionQueueNext.step s' a = none) →
            CompletionQueueNext.AtRest s'))
      ∧ ∃ more s', (∀ a ∈ more, a.isOwn = true)
          ∧ Transition.run CompletionQueueNext.step s more = some s'
          ∧ CompletionQueueNext.AtRest s' := by
  have h := CompletionQueueNext.inv_of_run hrun
  refine ⟨fun more s' hmore hrun' => ⟨?_, fun hstuck => ?_⟩,
    CompletionQueueNext.exists_atRest _ s h rfl⟩
  · exact (CompletionQueueNext.length_le_rank hmore hrun').trans
      (Phases.total_le CompletionQueueNext.Phase.rank_le)
  · have h' := CompletionQueueNext.inv_of_run (Transition.run_append.mpr ⟨s, hrun, hrun'⟩)
    by_contra hrest
    obtain ⟨a, t, ha, hstep⟩ := h'.exists_step hrest
    rw [hstuck a ha] at hstep
    cases hstep

theorem completionQueueNext_comes_to_rest_waitsFirst :
    ∃ s, Transition.run CompletionQueueNext.step CompletionQueueNext.init
        (CompletionQueueNext.waitsFirst.take 10) = some s
      ∧ ∃ more s', Transition.run CompletionQueueNext.step s more = some s'
        ∧ CompletionQueueNext.AtRest s' := by
  obtain ⟨s, hs⟩ : ∃ s, Transition.run CompletionQueueNext.step CompletionQueueNext.init
      (CompletionQueueNext.waitsFirst.take 10) = some s := ⟨_, rfl⟩
  obtain ⟨-, more, s', -, hmore, hrest⟩ := completionQueueNext_comes_to_rest hs
  exact ⟨s, hs, more, s', hmore, hrest⟩

end Mmkvc
