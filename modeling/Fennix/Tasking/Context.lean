import Fennix.Tasking.Runs

/-
  Contexts over whole histories.

  A history keeps the state before each event, so that the most recent capture of a thread's context
  can be read off: the frame and bases at its last preemption, or the values it was created with.
-/

namespace Fennix

open List

variable {t : Nat} {i : Interrupt} {fuel : Nat} {r : Scheduled}

open Multitasking

structure Moment where
  state : Multitasking
  event : TaskEvent

def HistoryStep (s : Multitasking) (m : Moment) (s' : Multitasking) : Prop :=
  m.state = s ∧ TaskStep s m.event s'

def Preempts (s : Multitasking) (t : Nat) : Prop :=
  s.schedulerEnabled = true ∧ s.currentValid = true ∧ t = s.currentThread

instance (s : Multitasking) (t : Nat) : Decidable (Preempts s t) :=
  inferInstanceAs (Decidable (_ ∧ _ ∧ _))

def captured (t : Nat) (m : Moment) : Option Context :=
  match m.event with
  | .schedule i =>
    if Preempts m.state t then
      some ⟨i.regs, m.state.fsBase, m.state.shadowGsBase⟩
    else none
  | .createThread r =>
    if t = r.address then m.state.creationContext r
    else none
  | _ => none

def lastCaptured (t : Nat) (ms : List Moment) : Option Context :=
  ms.reverse.findSome? (captured t)

theorem lastCaptured_snoc (t : Nat) (ms : List Moment) (m : Moment) : lastCaptured t (ms ++ [m]) =
    (captured t m).or (lastCaptured t ms) := by
  unfold lastCaptured
  rw [reverse_append, reverse_singleton, singleton_append, findSome?_cons]
  cases captured t m with
  | none => rfl
  | some c => rfl

def NotIdle (s : Multitasking) (t : Nat) : Prop :=
  s.idleProcess ≠ 0 → t ≠ s.idleThread

def Remembers (ms : List Moment) (s : Multitasking) : Prop :=
  ∀ t, IsThread s t → NotIdle s t → lastCaptured t ms = some (s.tcb t).context

variable {s s' : Multitasking} {ms : List Moment}

theorem Remembers.keep {m : Moment} (hRemembers : Remembers ms s) (hThread : IsThread s t)
    (hNotIdle : NotIdle s t) (hCaptured : captured t m = none)
    (hContext : (s'.tcb t).context = (s.tcb t).context) :
    lastCaptured t (ms ++ [m]) = some (s'.tcb t).context := by
  rw [lastCaptured_snoc, hCaptured, Option.none_or, hContext]
  exact hRemembers t hThread hNotIdle

theorem context_atSelection (s : Multitasking) (regs : ThreadRegisters) (t : Nat) :
    ((s.atSelection regs).tcb t).context = if s.currentValid = true ∧ t = s.currentThread then
    ⟨regs, s.fsBase, s.shadowGsBase⟩ else (s.tcb t).context := by
  unfold atSelection
  cases hValid : s.currentValid with
  | true =>
    rw [if_pos rfl, context_preempt]
    simp
  | false =>
    rw [if_neg (by simp), if_neg (by simp)]

theorem tcb_withIdle (hFresh : FreshIdle s i) (hOther : s.idleProcess = 0 → t ≠ i.idleThread) :
    (s.withIdle i).tcb t = s.tcb t := by
  unfold withIdle
  by_cases hMade : s.idleProcess = 0
  · rw [if_pos hMade]
    rcases s.idleCreated (hFresh hMade).1.1 with ⟨s₁, r, c, s₂, hProcess, hAddress, _, hThread, hEq⟩
    rw [hEq]
    show s₂.tcb t = s.tcb t
    have hNe : t ≠ r.address := by
      rw [hAddress]
      exact hOther hMade
    rw [hThread.old t hNe]
    show s₁.tcb t = s.tcb t
    rw [hProcess.tcb]
  · rw [if_neg hMade]

theorem withIdle_idleThread (hFresh : FreshIdle s i) : (s.withIdle i).idleProcess ≠ 0 ∧
    (s.withIdle i).idleThread = if s.idleProcess = 0 then i.idleThread else s.idleThread := by
  unfold withIdle
  by_cases hMade : s.idleProcess = 0
  · rw [if_pos hMade, if_pos hMade]
    rcases s.idleCreated (hFresh hMade).1.1 with ⟨s₁, r, c, s₂, _, _, _, hThread, hEq⟩
    have hIdleP : s₂.idleProcess = i.idleProcess := hThread.idle.1
    rw [hEq]
    refine ⟨?_, rfl⟩
    show s₂.idleProcess ≠ 0
    rw [hIdleP]
    exact (hFresh hMade).1.1
  · rw [if_neg hMade, if_neg hMade]
    exact ⟨hMade, rfl⟩

section

variable (hFresh : FreshIdle s i)
variable (hHandler : s.multiTaskingSchedulerHandler Beyond.null fuel i = some r)

include hFresh hHandler

theorem context_schedule (hThread : IsThread s t) : (r.state.tcb t).context = if Preempts s t then
    ⟨i.regs, s.fsBase, s.shadowGsBase⟩ else (s.tcb t).context := by
  have hSelect := context_atSelection s i.regs t
  have hPreempt : s.schedulerEnabled = true → ((s.atSelection i.regs).tcb t).context =
      if Preempts s t then
        ⟨i.regs, s.fsBase, s.shadowGsBase⟩
      else (s.tcb t).context := by
    intro hEnabled
    rw [hSelect]
    simp [Preempts, hEnabled]
  rcases handler_null_cases hHandler with ⟨hOff, hEq⟩ | ⟨hEnabled, reads, ⟨p, u, _, hEq⟩ | ⟨_, hEq⟩⟩
  · rw [hEq, if_neg]
    rintro ⟨hOn, _⟩
    rw [hOff] at hOn
    cases hOn
  · rw [hEq, context_success]
    exact hPreempt hEnabled
  · rw [hEq, context_idle, tcb_withIdle (hFresh.atSelection i.regs)]
    · exact hPreempt hEnabled
    intro hMade hNew
    rw [(atSelection_shape s i.regs).2.1] at hMade
    rw [hNew] at hThread
    exact (hFresh hMade).2.2 hThread

theorem threads_schedule (hThread : IsThread r.state t) (hNotIdle : NotIdle r.state t) :
    IsThread s t ∧ NotIdle s t := by
  rcases atSelection_shape s i.regs with ⟨hShape, hIdleP, hIdleT⟩
  rcases handler_null_cases hHandler with ⟨_, hEq⟩ | ⟨_, reads, ⟨p, u, _, hEq⟩ | ⟨_, hEq⟩⟩
  · rw [hEq] at hThread hNotIdle
    exact ⟨hThread, hNotIdle⟩
  · rw [hEq] at hThread hNotIdle
    rw [(sameShape_success _ i p u reads).isThread_iff, hShape.isThread_iff] at hThread
    refine ⟨hThread, ?_⟩
    unfold NotIdle at hNotIdle ⊢
    rw [success_idleProcess, success_idleThread, hIdleP, hIdleT] at hNotIdle
    exact hNotIdle
  · rw [hEq] at hThread hNotIdle
    have hFresh' := hFresh.atSelection i.regs
    rcases withIdle_idleThread hFresh' with ⟨hMade, hWhere⟩
    rcases idle_currents (s.atSelection i.regs) i reads with ⟨_, _, hNowP, hNowT⟩
    have hNe := hNotIdle (by rw [hNowP]; exact hMade)
    rw [hNowT, hWhere, hIdleP, hIdleT] at hNe
    rw [(sameShape_idle _ i reads).isThread_iff] at hThread
    unfold IsThread at hThread
    rw [tcb_withIdle hFresh'] at hThread
    · refine ⟨(hShape.isThread_iff t).mp hThread, ?_⟩
      intro hOld
      rw [if_neg hOld] at hNe
      exact hNe
    intro hNew
    rw [hIdleP] at hNew
    rw [if_pos hNew] at hNe
    exact hNe

end

theorem Remembers.createThread {r : ThreadRequest} (hRemembers : Remembers ms s) :
    Remembers (ms ++ [⟨s, .createThread r⟩]) (s.createThread r).1 := by
  intro t hThread hNotIdle
  have hCaptured : captured t ⟨s, .createThread r⟩ =
      if t = r.address then s.creationContext r
      else none := rfl
  rcases s.createThread_cases r with ⟨hNone, _, n, hSame⟩ | ⟨c, hSome, _, hCreated⟩
  · rw [hSame] at hThread hNotIdle ⊢
    apply hRemembers.keep hThread hNotIdle _ rfl
    rw [hCaptured, hNone, ite_self]
  by_cases hNew : t = r.address
  · rw [if_pos hNew, hSome] at hCaptured
    rw [lastCaptured_snoc, hCaptured, hNew, hCreated.new.2.2.1]
    rfl
  rw [if_neg hNew] at hCaptured
  unfold IsThread at hThread
  unfold NotIdle at hNotIdle
  rw [hCreated.old t hNew] at hThread
  rw [hCreated.idle.1, hCreated.idle.2] at hNotIdle
  apply hRemembers.keep hThread hNotIdle hCaptured
  rw [hCreated.old t hNew]

theorem Remembers.schedule (hRemembers : Remembers ms s) (hFresh : FreshIdle s i)
    (hHandler : s.multiTaskingSchedulerHandler Beyond.null fuel i = some r) :
    Remembers (ms ++ [⟨s, .schedule i⟩]) r.state := by
  intro t hThread hNotIdle
  rcases threads_schedule hFresh hHandler hThread hNotIdle with ⟨hOld, hOldIdle⟩
  have hContext := context_schedule hFresh hHandler hOld
  have hCaptured : captured t ⟨s, .schedule i⟩ =
      if Preempts s t then
        some ⟨i.regs, s.fsBase, s.shadowGsBase⟩
      else none := rfl
  by_cases hPreempts : Preempts s t
  · rw [if_pos hPreempts] at hContext hCaptured
    rw [lastCaptured_snoc, hCaptured, hContext]
    rfl
  · rw [if_neg hPreempts] at hContext hCaptured
    exact hRemembers.keep hOld hOldIdle hCaptured hContext

theorem Remembers.step {m : Moment} (hRemembers : Remembers ms s) (hStep : HistoryStep s m s') :
    Remembers (ms ++ [m]) s' := by
  rcases m with ⟨s₀, e⟩
  rcases hStep with ⟨hState, hStep⟩
  dsimp only at hState hStep
  subst hState
  cases e with
  | createProcess r =>
    intro t hThread hNotIdle
    rcases hStep with ⟨_, hEq⟩
    have hCreated := s₀.processCreated r
    rw [← hEq] at hCreated
    unfold IsThread at hThread
    unfold NotIdle at hNotIdle
    rw [hCreated.tcb] at hThread
    rw [hCreated.idle.1, hCreated.idle.2] at hNotIdle
    apply hRemembers.keep hThread hNotIdle rfl
    rw [hCreated.tcb]
  | createThread r =>
    rcases hStep with ⟨_, hEq⟩
    rw [hEq]
    exact hRemembers.createThread
  | exit code =>
    intro t hThread hNotIdle
    rcases hStep with ⟨_, _, hEq⟩
    have hShape : SameShape s₀ s' := by
      rw [hEq]
      exact SameShape.updateTCB s₀ s₀.currentThread (fun _ => ⟨rfl, rfl⟩)
    rw [hShape.isThread_iff] at hThread
    rw [hEq] at hNotIdle ⊢
    apply hRemembers.keep hThread hNotIdle rfl
    unfold threadDoExit updateTCB
    dsimp only
    split <;> rfl
  | registers fsBase gsBase shadowGsBase fpu =>
    cases hStep
    exact fun _ hThread hNotIdle => hRemembers.keep hThread hNotIdle rfl rfl
  | enable enabled =>
    cases hStep
    exact fun _ hThread hNotIdle => hRemembers.keep hThread hNotIdle rfl rfl
  | schedule i =>
    rcases hStep with ⟨hFresh, fuel, r, hHandler, hEq⟩
    subst hEq
    exact hRemembers.schedule hFresh hHandler

theorem remembers_run {s₀ s : Multitasking} {ms : List Moment} (hStart : NoTasks s₀)
    (hRun : Run HistoryStep s₀ ms s) : TaskInvariant s ∧ Remembers ms s := by
  induction hRun with
  | nil =>
    refine ⟨hStart.invariant, ?_⟩
    intro t ht
    exact (hStart.threads t ht).elim
  | snoc _ hStep ih =>
    exact ⟨ih.1.step hStep.2, ih.2.step hStep⟩

theorem context_integrity {s₀ s : Multitasking} {ms : List Moment} {i : Interrupt} {fuel : Nat}
    {r : Scheduled}
    (hStart : NoTasks s₀)
    (hRun : Run HistoryStep s₀ ms s)
    (hFresh : FreshIdle s i)
    (hHandler : s.multiTaskingSchedulerHandler Beyond.null fuel i = some r) :
    (∀ p t, r.outcome = .thread p t →
      ∃ c, lastCaptured t (ms ++ [⟨s, .schedule i⟩]) = some c ∧
        r.regs = c.registers ∧ r.state.fsBase = c.fs ∧
        ((r.state.pcb p).elevation = .user → r.state.shadowGsBase = c.gs)) ∧
    ∀ t, IsThread s t → ¬ Preempts s t →
      (r.state.tcb t).context = (s.tcb t).context := by
  rcases remembers_run hStart hRun with ⟨hInv, hRemembers⟩
  constructor
  · intro p t hOutcome
    rcases handler_null_cases hHandler with ⟨_, hEq⟩ | ⟨_, reads, ⟨q, u, hSelected, hEq⟩ | ⟨_, hEq⟩⟩
    · rw [hEq] at hOutcome
      cases hOutcome
    · have hBoth : q = p ∧ u = t := by
        rw [hEq] at hOutcome
        cases hOutcome
        exact ⟨rfl, rfl⟩
      rcases hBoth with ⟨rfl, rfl⟩
      rcases atSelection_shape s i.regs with ⟨hShape, hIdleP, hIdleT⟩
      have hThread : IsThread s u := (hShape.isThread_iff u).mp
        (invalidTCB_eq_false hSelected.thread).1
      have hNotIdle : NotIdle s u := by
        intro hMade
        have hNe := (hInv.atRest i.regs).2.ne_of_valid
          (by rw [hIdleP]; exact hMade) hSelected.thread
        rw [hIdleT] at hNe
        exact hNe
      -- the history goes on with this invocation
      have hNext : HistoryStep s ⟨s, .schedule i⟩ r.state := ⟨rfl, hFresh, fuel, r, hHandler, rfl⟩
      have hLast := (hRemembers.step hNext) u
      rw [hEq] at hLast ⊢
      rw [(sameShape_success _ i q u reads).isThread_iff, hShape.isThread_iff,
        context_success] at hLast
      have hKept : NotIdle ((s.atSelection i.regs).success i q u reads).state u := by
        unfold NotIdle
        rw [success_idleProcess, success_idleThread, hIdleP, hIdleT]
        exact hNotIdle
      refine ⟨_, hLast hThread hKept, ?_⟩
      rcases success_installs (s.atSelection i.regs) i q u reads with ⟨hRegs, hFs, hGs⟩
      refine ⟨hRegs, hFs, ?_⟩
      intro hUser
      rw [(sameShape_success _ i q u reads).elevation] at hUser
      exact hGs hUser
    · rw [hEq] at hOutcome
      cases hOutcome
  · intro t ht hPreempts
    rw [context_schedule hFresh hHandler ht, if_neg hPreempts]

/- The first thread of the two is resumed where it was preempted. -/
theorem context_integrity_switched : ∃ r, ∃ c : Context,
    switched.multiTaskingSchedulerHandler Beyond.null 4 (interruptAt 0x500020) = some r ∧
    r.outcome = .thread 0x1000 0x2000 ∧ r.regs = c.registers ∧ c.registers.rip = 0x400010 ∧
    r.state.fsBase = c.fs := by
  have hEval : (switched.multiTaskingSchedulerHandler Beyond.null 4 (interruptAt 0x500020)).map
      (fun r => (r.outcome, r.regs.rip)) = some (.thread 0x1000 0x2000, 0x400010) := by
    decide +kernel
  rcases Option.map_eq_some_iff.mp hEval with ⟨r, hHandler, hFacts⟩
  rw [Prod.mk.injEq] at hFacts
  rcases steps_switched with ⟨hProcess, hFirst, hSecond, hDispatch, hSwitch⟩
  have hMoment : ∀ {s e s'}, TaskStep s e s' → HistoryStep s ⟨s, e⟩ s' := fun h => ⟨rfl, h⟩
  have hRun := ((((Run.nil.snoc (hMoment hProcess)).snoc (hMoment hFirst)).snoc
    (hMoment hSecond)).snoc (hMoment hDispatch)).snoc (hMoment hSwitch)
  have hFresh : FreshIdle switched (interruptAt 0x500020) := by
    intro _
    refine ⟨⟨by decide, by decide +kernel⟩, by decide, ?_⟩
    unfold IsThread
    decide +kernel
  rcases (context_integrity noTasks_emptyTasks hRun hFresh hHandler).1 _ _ hFacts.1 with
    ⟨c, _, hRegs, hFs, _⟩
  exact ⟨r, c, hHandler, hFacts.1, hRegs, hRegs ▸ hFacts.2, hFs⟩

end Fennix
