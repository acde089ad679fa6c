import Fennix.Library.Ledger
import Fennix.Tasking.Runs

/-
  The time that threads have used.
-/

namespace Fennix

variable {i : Interrupt}

open Multitasking

def lastCharge (info : GeneralProcessInfo) : Nat :=
  if info.oldUsedTime = 0 then info.spawnTime
  else info.oldUsedTime

/- The used time is the time from the spawn to the last charge. -/
structure TimeCharged (info : GeneralProcessInfo) : Prop where
  spawned : info.spawnTime ≤ lastCharge info
  used : info.usedTime + info.spawnTime = lastCharge info

theorem charged_setInfo (now : Nat) : TimeCharged (setInfo now) ∧ lastCharge (setInfo now) = now :=
  ⟨⟨Nat.le_refl _, Nat.zero_add _⟩, rfl⟩

theorem updateTimeUsed_spawnTime (now : Nat) (info : GeneralProcessInfo) :
    (updateTimeUsed now info).spawnTime = info.spawnTime :=
  rfl

theorem TimeCharged.updateTimeUsed {info : GeneralProcessInfo} {now : Nat} (h : TimeCharged info)
    (hNow : lastCharge info ≤ now) (hWord : now < 2 ^ 64) : TimeCharged (updateTimeUsed now info) ∧
    lastCharge (updateTimeUsed now info) = now := by
  have hSpawned := h.spawned
  have hUsed := h.used
  have hCharge : (Fennix.updateTimeUsed now info).usedTime =
    info.usedTime + (now - lastCharge info) := by
    show u64 (info.usedTime + sub64 now (lastCharge info)) = _
    rw [sub64_of_le hNow hWord]
    exact u64_of_lt (by omega)
  have hLast : lastCharge (Fennix.updateTimeUsed now info) = now := by
    show (if now = 0 then info.spawnTime else now) = now
    split <;> omega
  refine ⟨⟨?_, ?_⟩, hLast⟩
  · rw [hLast, updateTimeUsed_spawnTime]
    omega
  · rw [hLast, updateTimeUsed_spawnTime, hCharge]
    omega

------ What a Step does to the Times

variable {s s' : Multitasking}

theorem createThread_info {r : ThreadRequest} {c : Context}
    (hContext : s.creationContext r = some c) : ((s.createThread r).1.tcb r.address).info =
    setInfo r.time := by
  unfold creationContext at hContext
  split at hContext
  · cases hContext
  rename_i hParent
  rcases Option.map_eq_some_iff.mp hContext with ⟨start, hStart, _⟩
  simp [createThread, if_neg hParent, hStart, updatePCB, updateTCB]

theorem atSelection_info (s : Multitasking) (regs : ThreadRegisters) (u : Nat) :
    ((s.atSelection regs).tcb u).info = (s.tcb u).info := by
  unfold atSelection
  split
  · unfold preempt updateTCB updatePCB
    dsimp only
    split
    · split <;> rfl
    · rfl
  · rfl

theorem createIdle_info (hProcess : i.idleProcess ≠ 0) (hThread : i.idleThread ≠ 0) (u : Nat) :
    ((s.createIdle i).tcb u).info = if u = i.idleThread then setInfo i.idleThreadTime
    else (s.tcb u).info := by
  rcases s.idleCreated hProcess with ⟨s₁, r, c, s₂, hCreated, hAddress, _, hMade, hEq⟩
  split
  · rename_i hu
    rw [hu]
    -- the request that `createIdle` makes is not refused
    have hIdle : (s.createIdle i).idleThread = i.idleThread := by
      rw [hEq]
    rcases createThread_cases { s.createProcess i.processRequest with idleProcess := i.idleProcess }
        (i.threadRequest i.idleProcess (s.createProcess i.processRequest).idleProcessLoop) with
      ⟨_, hNull, _⟩ | ⟨c', hContext, _, _⟩
    · rw [createIdle] at hIdle
      dsimp only at hIdle
      rw [hNull] at hIdle
      exact (hThread hIdle.symm).elim
    · exact createThread_info hContext
  rename_i hu
  rw [hEq]
  show (s₂.tcb u).info = _
  rw [hMade.old u (by rw [hAddress]; exact hu)]
  show (s₁.tcb u).info = _
  rw [hCreated.tcb]

def IdleMade (s s' : Multitasking) : Prop :=
  s.idleProcess = 0 ∧ s'.idleProcess ≠ 0

instance (s s' : Multitasking) : Decidable (IdleMade s s') :=
  inferInstanceAs (Decidable (_ ∧ _))

def beforeCharge (s s' : Multitasking) (i : Interrupt) (u : Nat) : GeneralProcessInfo :=
  if IdleMade s s' ∧ u = i.idleThread then
    setInfo i.idleThreadTime
  else (s.tcb u).info

/- Only the thread that is dispatched is charged. -/
structure ChargesCurrent (s s' : Multitasking) (i : Interrupt) : Prop where
  info : ∀ u, (s'.tcb u).info =
    if u = s'.currentThread then
      updateTimeUsed i.threadTime (beforeCharge s s' i u)
    else beforeCharge s s' i u
  threads : ∀ u, IsThread s' u ↔ IsThread s u ∨ IdleMade s s' ∧ u = i.idleThread
  current : IsThread s' s'.currentThread

theorem chargesCurrent_success {p t : Nat} (hSelected : Selected (s.atSelection i.regs) p t)
    (reads : List Read) : ChargesCurrent s ((s.atSelection i.regs).success i p t reads).state
    i := by
  have hShape := (atSelection_shape s i.regs).1.trans
    (sameShape_success (s.atSelection i.regs) i p t reads)
  have hNotMade : ¬ IdleMade s ((s.atSelection i.regs).success i p t reads).state := by
    rintro ⟨hZero, hSome⟩
    rw [success_idleProcess, (atSelection_shape s i.regs).2.1] at hSome
    exact hSome hZero
  refine ⟨?_, ?_, ?_⟩
  · intro u
    have hBefore : beforeCharge s ((s.atSelection i.regs).success i p t reads).state
      i u = ((s.atSelection i.regs).tcb u).info := by
      rw [beforeCharge, if_neg (fun h => hNotMade h.1), atSelection_info]
    rw [success_tcb, success_currentThread, hBefore]
    split <;> rfl
  · intro u
    rw [hShape.isThread_iff]
    exact (or_iff_left (fun h => hNotMade h.1)).symm
  · rw [success_currentThread, (sameShape_success (s.atSelection i.regs) i p t reads).isThread_iff]
    exact (invalidTCB_eq_false hSelected.thread).1

theorem withIdle_info (hFresh : FreshIdle s i) (u : Nat) : ((s.withIdle i).tcb u).info =
    if s.idleProcess = 0 ∧ u = i.idleThread then setInfo i.idleThreadTime
    else (s.tcb u).info := by
  unfold withIdle
  split
  · rename_i hMade
    rcases hFresh hMade with ⟨hProcess, hThread⟩
    rw [createIdle_info hProcess.1 hThread.1]
    simp only [hMade, true_and]
  · rename_i hMade
    rw [if_neg (fun h => hMade h.1)]

theorem withIdle_isThread (hFresh : FreshIdle s i) (u : Nat) : IsThread (s.withIdle i) u ↔
    IsThread s u ∨ s.idleProcess = 0 ∧ u = i.idleThread := by
  unfold withIdle
  split
  · rename_i hMade
    rcases s.idleCreated (hFresh hMade).1.1 with ⟨s₁, r, c, s₂, hProcess, hAddress, _, hThread, hEq⟩
    rw [hEq]
    show (s₂.tcb u).checksum = threadChecksum ↔ _
    by_cases hu : u = i.idleThread
    · rw [hu, ← hAddress]
      exact iff_of_true hThread.new.2.2.2 (.inr ⟨hMade, rfl⟩)
    rw [hThread.old u (by rw [hAddress]; exact hu)]
    show (s₁.tcb u).checksum = threadChecksum ↔ _
    rw [hProcess.tcb]
    exact (or_iff_left (fun h => hu h.2)).symm
  · rename_i hMade
    exact (or_iff_left (fun h => hMade h.1)).symm

theorem chargesCurrent_idle (hInv : TaskInvariant s) (hFresh : FreshIdle s i) (reads : List Read) :
    ChargesCurrent s ((s.atSelection i.regs).idle i reads).state i := by
  rcases atSelection_shape s i.regs with ⟨hShape, hIdleP, hIdleT⟩
  rcases hInv.atRest i.regs with ⟨hRest, hIdle⟩
  have hFresh' := hFresh.atSelection i.regs
  rcases hRest.withIdle hIdle hFresh' with ⟨_, hIdle', hMade⟩
  rcases (s.atSelection i.regs).idle_currents i reads with ⟨_, hCurrent, hProcess, _⟩
  have hIff : IdleMade s ((s.atSelection i.regs).idle i reads).state ↔
    (s.atSelection i.regs).idleProcess = 0 := by
    rw [IdleMade, hProcess, hIdleP]
    exact and_iff_left hMade
  refine ⟨?_, ?_, ?_⟩
  · intro u
    have hBefore : beforeCharge s ((s.atSelection i.regs).idle i reads).state i u =
      (((s.atSelection i.regs).withIdle i).tcb u).info := by
      rw [beforeCharge, withIdle_info hFresh', atSelection_info]
      simp only [hIff]
    rw [idle_tcb, hCurrent, hBefore]
    split <;> rfl
  · intro u
    rw [(sameShape_idle _ i reads).isThread_iff, withIdle_isThread hFresh', hShape.isThread_iff,
      hIff]
  · rw [hCurrent, (sameShape_idle _ i reads).isThread_iff]
    exact (hIdle'.thread hMade).1

theorem scheduled_charges (hInv : TaskInvariant s) (hEnabled : s.schedulerEnabled = true)
    (hStep : TaskStep s (.schedule i) s') : ChargesCurrent s s' i := by
  rcases hStep with ⟨hFresh, fuel, r, hHandler, hEq⟩
  rcases handler_null_cases hHandler with
    ⟨hDisabled, _⟩ | ⟨_, reads, ⟨p, t, hSelected, hr⟩ | ⟨_, hr⟩⟩
  · rw [hEnabled] at hDisabled
    cases hDisabled
  · rw [hEq, hr]
    exact chargesCurrent_success hSelected reads
  · rw [hEq, hr]
    exact chargesCurrent_idle hInv hFresh reads

theorem scheduled_disabled (hDisabled : s.schedulerEnabled = false)
    (hStep : TaskStep s (.schedule i) s') : s' = s := by
  rcases hStep with ⟨_, fuel, r, hHandler, hEq⟩
  rw [multiTaskingSchedulerHandler, if_pos hDisabled] at hHandler
  cases hHandler
  exact hEq

------ Runs With a Clock

structure TimedTasks where
  tasks : Multitasking
  ledger : TimeLedger Nat
  heldAt : Nat → Nat
  waitedAt : Nat → Nat

structure TimedEvent where
  event : TaskEvent
  switch : Nat

namespace TimedTasks

def withIdleThread (s : TimedTasks) (i : Interrupt) (s' : Multitasking) : TimeLedger Nat :=
  if IdleMade s.tasks s' then
    (s.ledger.advance s.tasks.currentThread i.idleThreadTime).enter i.idleThread
  else s.ledger

def dispatched (s : TimedTasks) (i : Interrupt) (switch : Nat)
    (s' : Multitasking) : TimeLedger Nat :=
  ((s.withIdleThread i s').advance s.tasks.currentThread
    switch).advance s'.currentThread i.threadTime

def account (s : TimedTasks) (e : TimedEvent) (s' : Multitasking) : TimedTasks :=
  match e.event with
  | .createProcess r =>
    { s with tasks := s', ledger := s.ledger.advance s.tasks.currentThread r.time }
  | .createThread r =>
    { tasks := s'
      ledger := (s.ledger.advance s.tasks.currentThread r.time).enter r.address
      heldAt := fun t =>
        if t = r.address then 0 else s.heldAt t
      waitedAt := fun t =>
        if t = r.address then 0 else s.waitedAt t }
  | .schedule i =>
    if s.tasks.schedulerEnabled then
      let ledger := s.dispatched i e.switch s'
      { tasks := s'
        ledger := ledger
        heldAt := fun t =>
          if t = s'.currentThread then ledger.held t
          else if IdleMade s.tasks s' ∧ t = i.idleThread
            then 0
          else s.heldAt t
        waitedAt := fun t =>
          if t = s'.currentThread then ledger.waited t
          else if IdleMade s.tasks s' ∧ t = i.idleThread
            then 0
          else s.waitedAt t }
    else { s with tasks := s' }
  | _ => { s with tasks := s' }

def Monotone (s : TimedTasks) (e : TimedEvent) (s' : Multitasking) : Prop :=
  match e.event with
  | .createProcess r =>
    s.ledger.clock ≤ r.time ∧ r.time < 2 ^ 64
  | .createThread r =>
    s.ledger.clock ≤ r.time ∧ r.time < 2 ^ 64
  | .schedule i =>
    s.tasks.schedulerEnabled = true → (IdleMade s.tasks s' → s.ledger.clock ≤ i.idleProcessTime ∧
          i.idleProcessTime ≤ i.idleThreadTime) ∧
      (s.withIdleThread i s').clock ≤ e.switch ∧
      e.switch ≤ i.processTime ∧
      i.processTime ≤ i.threadTime ∧ i.threadTime < 2 ^ 64
  | _ => True

end TimedTasks

def TimedStep (s : TimedTasks) (e : TimedEvent) (s' : TimedTasks) : Prop :=
  TaskStep s.tasks e.event s'.tasks ∧ s.Monotone e s'.tasks ∧ s' = s.account e s'.tasks

def TimedTasks.start (s : Multitasking) (clock : Nat) : TimedTasks where
  tasks := s
  ledger := ⟨clock, fun _ => 0, fun _ => 0⟩
  heldAt := fun _ => 0
  waitedAt := fun _ => 0

structure InAccount (ledger : TimeLedger Nat) (t heldAt waitedAt : Nat)
    (info : GeneralProcessInfo) : Prop where
  charged : TimeCharged info
  past : lastCharge info ≤ ledger.clock
  since : ledger.Since t info.spawnTime
  last : heldAt + waitedAt + info.spawnTime = lastCharge info
  held : heldAt ≤ ledger.held t

structure TimeAccounted (s : TimedTasks) : Prop where
  invariant : TaskInvariant s.tasks
  threads : ∀ t, IsThread s.tasks t → InAccount s.ledger t (s.heldAt t) (s.waitedAt t)
      (s.tasks.tcb t).info

namespace InAccount

variable {l : TimeLedger Nat} {t heldAt waitedAt now : Nat} {info : GeneralProcessInfo}

theorem advance (h : InAccount l t heldAt waitedAt info) (hNow : l.clock ≤ now) (owner : Nat) :
    InAccount (l.advance owner now) t heldAt waitedAt info where
  charged := h.charged
  past := Nat.le_trans h.past hNow
  since := h.since.advance hNow owner
  last := h.last
  held := Nat.le_trans h.held (l.held_le_advance owner now t)

theorem enter (h : InAccount l t heldAt waitedAt info) {u : Nat} (hOther : t ≠ u) :
    InAccount (l.enter u) t heldAt waitedAt info where
  charged := h.charged
  past := h.past
  since := h.since.enter hOther
  last := h.last
  held := by
    rw [l.held_enter hOther]
    exact h.held

theorem new (l : TimeLedger Nat) (owner t now : Nat) :
    InAccount ((l.advance owner now).enter t) t 0 0 (setInfo now) where
  charged := (charged_setInfo now).1
  past := Nat.le_of_eq (charged_setInfo now).2
  since := TimeLedger.since_enter _ t
  last := by
    rw [(charged_setInfo now).2, Nat.add_zero]
    exact Nat.zero_add now
  held := Nat.zero_le _

theorem charge (h : InAccount l t heldAt waitedAt info) (hWord : l.clock < 2 ^ 64) :
    InAccount l t (l.held t) (l.waited t) (updateTimeUsed l.clock info) := by
  rcases h.charged.updateTimeUsed h.past hWord with ⟨hCharged, hLast⟩
  refine ⟨hCharged, Nat.le_of_eq hLast, h.since, ?_, Nat.le_refl _⟩
  rw [hLast]
  exact h.since

end InAccount

namespace TimeAccounted

variable {a a' : TimedTasks} {e : TimedEvent}

theorem of_same (h : TimeAccounted a) (hInv : TaskInvariant s')
    (hSame : ∀ t, (s'.tcb t).checksum = (a.tasks.tcb t).checksum ∧
    (s'.tcb t).info = (a.tasks.tcb t).info) : TimeAccounted { a with tasks := s' } := by
  refine ⟨hInv, ?_⟩
  intro t ht
  rcases hSame t with ⟨hSum, hInfo⟩
  dsimp only
  rw [hInfo]
  exact h.threads t (hSum.symm.trans ht)

theorem createThread {r : ThreadRequest} (h : TimeAccounted a)
    (hFresh : FreshThread a.tasks r.address) (hEq : s' = (a.tasks.createThread r).1)
    (hTime : a.ledger.clock ≤ r.time) : ∀ t, IsThread s' t → InAccount
    ((a.ledger.advance a.tasks.currentThread r.time).enter r.address) t
    (if t = r.address then 0 else a.heldAt t) (if t = r.address then 0 else a.waitedAt t)
    (s'.tcb t).info := by
  have hOld : ∀ t, IsThread a.tasks t → InAccount ((a.ledger.advance a.tasks.currentThread
    r.time).enter r.address) t (if t = r.address then 0 else a.heldAt t)
    (if t = r.address then 0 else a.waitedAt t) (a.tasks.tcb t).info := by
    intro t ht
    have hNe : t ≠ r.address := by
      intro hSame
      rw [hSame] at ht
      exact hFresh.2 ht
    rw [if_neg hNe, if_neg hNe]
    exact ((h.threads t ht).advance hTime _).enter hNe
  intro t ht
  rcases a.tasks.createThread_cases r with ⟨_, _, n, hSame⟩ | ⟨c, hContext, _, hCreated⟩
  · rw [hEq, hSame] at ht ⊢
    exact hOld t ht
  by_cases hNew : t = r.address
  · rw [if_pos hNew, if_pos hNew, hNew, hEq, createThread_info hContext]
    exact InAccount.new _ _ _ _
  unfold IsThread at ht
  rw [hEq, hCreated.old t hNew] at ht ⊢
  exact hOld t ht

theorem beforeCharge {i : Interrupt} (h : TimeAccounted a)
    (hTimes : IdleMade a.tasks s' → a.ledger.clock ≤ i.idleThreadTime) {t : Nat}
    (ht : IsThread a.tasks t ∨ IdleMade a.tasks s' ∧ t = i.idleThread) :
    InAccount (a.withIdleThread i s') t
    (if IdleMade a.tasks s' ∧ t = i.idleThread then 0 else a.heldAt t)
    (if IdleMade a.tasks s' ∧ t = i.idleThread then 0 else a.waitedAt t)
    (beforeCharge a.tasks s' i t) := by
  unfold TimedTasks.withIdleThread Fennix.beforeCharge
  by_cases hMade : IdleMade a.tasks s'
  · rw [if_pos hMade]
    by_cases hNew : t = i.idleThread
    · rw [if_pos ⟨hMade, hNew⟩, if_pos ⟨hMade, hNew⟩, if_pos ⟨hMade, hNew⟩, hNew]
      exact InAccount.new _ _ _ _
    have hOld := ht.resolve_right (fun h => hNew h.2)
    rw [if_neg (fun h => hNew h.2), if_neg (fun h => hNew h.2), if_neg (fun h => hNew h.2)]
    exact ((h.threads t hOld).advance (hTimes hMade) _).enter hNew
  have hOld := ht.resolve_right (fun h => hMade h.1)
  rw [if_neg hMade, if_neg (fun h => hMade h.1), if_neg (fun h => hMade h.1),
    if_neg (fun h => hMade h.1)]
  exact h.threads t hOld

theorem schedule {i : Interrupt} {switch : Nat} (h : TimeAccounted a)
    (hCharges : ChargesCurrent a.tasks s' i)
    (hTimes : IdleMade a.tasks s' → a.ledger.clock ≤ i.idleThreadTime)
    (hSwitch : (a.withIdleThread i s').clock ≤ switch) (hEnd : switch ≤ i.threadTime)
    (hWord : i.threadTime < 2 ^ 64) {t : Nat} (ht : IsThread s' t) :
    InAccount (a.dispatched i switch s') t
    (if t = s'.currentThread then (a.dispatched i switch s').held t
    else if IdleMade a.tasks s' ∧ t = i.idleThread then 0 else a.heldAt t)
    (if t = s'.currentThread then (a.dispatched i switch s').waited t
    else if IdleMade a.tasks s' ∧ t = i.idleThread then 0 else a.waitedAt t)
    (s'.tcb t).info := by
  have hBefore := ((h.beforeCharge hTimes ((hCharges.threads t).mp ht)).advance hSwitch
    a.tasks.currentThread).advance hEnd s'.currentThread
  rw [hCharges.info]
  by_cases hCurrent : t = s'.currentThread
  · rw [if_pos hCurrent, if_pos hCurrent, if_pos hCurrent]
    exact hBefore.charge hWord
  · rw [if_neg hCurrent, if_neg hCurrent, if_neg hCurrent]
    exact hBefore

theorem step (h : TimeAccounted a) (hStep : TimedStep a e a') : TimeAccounted a' := by
  rcases hStep with ⟨hTask, hTimes, hAccount⟩
  have hInv := h.invariant.step hTask
  rcases e with ⟨event, switch⟩
  cases event with
  | createProcess r =>
    rcases hTask with ⟨_, hEq⟩
    rw [hAccount]
    refine ⟨hInv, ?_⟩
    intro t ht
    unfold IsThread at ht
    dsimp only [TimedTasks.account] at ht ⊢
    rw [hEq, (a.tasks.processCreated r).tcb] at ht ⊢
    exact (h.threads t ht).advance hTimes.1 _
  | createThread r =>
    rcases hTask with ⟨hFresh, hEq⟩
    rw [hAccount]
    exact ⟨hInv, h.createThread hFresh hEq hTimes.1⟩
  | exit code =>
    rcases hTask with ⟨_, _, hEq⟩
    rw [hAccount]
    refine h.of_same hInv ?_
    intro t
    rw [hEq, threadDoExit, updateTCB]
    dsimp only
    split <;> exact ⟨rfl, rfl⟩
  | registers fsBase gsBase shadowGsBase fpu =>
    rw [hAccount]
    refine h.of_same hInv ?_
    rw [show a'.tasks = _ from hTask]
    exact fun _ => ⟨rfl, rfl⟩
  | enable enabled =>
    rw [hAccount]
    refine h.of_same hInv ?_
    rw [show a'.tasks = _ from hTask]
    exact fun _ => ⟨rfl, rfl⟩
  | schedule i =>
    rw [hAccount]
    unfold TimedTasks.account
    dsimp only
    cases hEnabled : a.tasks.schedulerEnabled with
    | false =>
      rw [if_neg Bool.false_ne_true]
      refine h.of_same hInv ?_
      rw [scheduled_disabled hEnabled hTask]
      exact fun _ => ⟨rfl, rfl⟩
    | true =>
      rw [if_pos rfl]
      rcases hTimes hEnabled with ⟨hIdle, hSwitch, hProcess, hEnd, hWord⟩
      refine ⟨hInv, fun t ht => ?_⟩
      exact h.schedule (scheduled_charges h.invariant hEnabled hTask)
        (fun hMade => Nat.le_trans (hIdle hMade).1 (hIdle hMade).2)
        hSwitch (Nat.le_trans hProcess hEnd) hWord ht

end TimeAccounted

theorem accounted_start {s : Multitasking} (hStart : NoTasks s) (clock : Nat) :
    TimeAccounted (TimedTasks.start s clock) :=
  ⟨hStart.invariant, fun t ht => (hStart.threads t ht).elim⟩

theorem TimeAccounted.usedTime {a : TimedTasks} (h : TimeAccounted a) {t : Nat}
    (ht : IsThread a.tasks t) : (a.tasks.tcb t).info.usedTime = a.heldAt t + a.waitedAt t ∧
    a.heldAt t ≤ a.ledger.held t := by
  have hThread := h.threads t ht
  have hUsed := hThread.charged.used
  have hLast := hThread.last
  exact ⟨by omega, hThread.held⟩

theorem accounted_of_run {s₀ : Multitasking} {clock : Nat} {es : List TimedEvent} {a : TimedTasks}
    (hStart : NoTasks s₀) (hRun : Run TimedStep (TimedTasks.start s₀ clock) es a) :
    TimeAccounted a :=
  Run.invariant (accounted_start hStart clock) (fun _ _ _ h hStep => h.step hStep) hRun

theorem usedTime_eq_held_iff {s₀ : Multitasking} {clock : Nat} {es : List TimedEvent}
    {a : TimedTasks} (hStart : NoTasks s₀) (hRun : Run TimedStep (TimedTasks.start s₀ clock) es a)
    (t : Nat) (ht : IsThread a.tasks t) :
    (a.tasks.tcb t).info.usedTime = a.heldAt t + a.waitedAt t ∧
    ((a.tasks.tcb t).info.usedTime = a.ledger.held t ↔
    a.waitedAt t = a.ledger.held t - a.heldAt t) := by
  rcases (accounted_of_run hStart hRun).usedTime ht with ⟨hUsed, hHeld⟩
  refine ⟨hUsed, ?_⟩
  rw [hUsed]
  omega

def timedEvents : List TimedEvent :=
  [⟨.createProcess sampleProcess, 0⟩, ⟨.createThread sampleThread, 0⟩,
    ⟨.schedule sampleInterrupt, 5⟩]

def timedThread : TimedTasks :=
  ((TimedTasks.start emptyTasks 0).account ⟨.createProcess sampleProcess, 0⟩
    (emptyTasks.createProcess sampleProcess)).account
    ⟨.createThread sampleThread, 0⟩ oneThread

def timedOneRunning : TimedTasks :=
  timedThread.account ⟨.schedule sampleInterrupt, 5⟩ oneRunning

theorem run_timedOneRunning : Run TimedStep (TimedTasks.start emptyTasks 0)
    timedEvents timedOneRunning := by
  have hFirst : TimedStep (TimedTasks.start emptyTasks 0) ⟨.createProcess sampleProcess, 0⟩
    ((TimedTasks.start emptyTasks 0).account ⟨.createProcess sampleProcess, 0⟩
    (emptyTasks.createProcess sampleProcess)) :=
    ⟨⟨⟨by decide, by decide⟩, rfl⟩, ⟨by decide, by decide⟩, rfl⟩
  have hSecond : TimedStep ((TimedTasks.start emptyTasks 0).account
    ⟨.createProcess sampleProcess, 0⟩ (emptyTasks.createProcess sampleProcess))
    ⟨.createThread sampleThread, 0⟩ timedThread := by
    refine ⟨⟨⟨by decide, ?_⟩, rfl⟩, ⟨by decide, by decide⟩, rfl⟩
    unfold IsThread
    decide
  have hThird : TimedStep timedThread ⟨.schedule sampleInterrupt, 5⟩ timedOneRunning := by
    refine ⟨⟨?_, 0, _, ?_, rfl⟩, ?_, rfl⟩
    · intro _
      refine ⟨⟨by decide, by decide⟩, by decide, ?_⟩
      unfold IsThread
      decide
    · show timedThread.tasks.multiTaskingSchedulerHandler Beyond.null 0 sampleInterrupt = _
      rw [multiTaskingSchedulerHandler, if_neg (by decide), if_pos (by decide)]
      rfl
    · intro _
      refine ⟨?_, by decide, by decide, by decide, by decide⟩
      rintro ⟨_, hMade⟩
      exact (hMade (by decide)).elim
  exact ((Run.nil.snoc hFirst).snoc hSecond).snoc hThird

theorem isThread_timedOneRunning : IsThread timedOneRunning.tasks 0x2000 := by
  unfold IsThread
  decide

theorem wait_before_dispatch_charged : Run TimedStep (TimedTasks.start emptyTasks 0)
    timedEvents timedOneRunning ∧ timedOneRunning.ledger.held 0x2000 = 1 ∧
    (timedOneRunning.tasks.tcb 0x2000).info.usedTime = 4 := by
  refine ⟨run_timedOneRunning, by decide, ?_⟩
  rw [((accounted_of_run noTasks_emptyTasks
    run_timedOneRunning).usedTime isThread_timedOneRunning).1]
  decide

theorem usedTime_eq_held_iff_timedOneRunning : ¬ (timedOneRunning.tasks.tcb 0x2000).info.usedTime =
    timedOneRunning.ledger.held 0x2000 := by
  rw [(usedTime_eq_held_iff noTasks_emptyTasks
    run_timedOneRunning 0x2000 isThread_timedOneRunning).2]
  decide

end Fennix
