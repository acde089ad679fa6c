import Fennix.Tasking.Scheduler

/-
  What the parts of the handler leave unchanged.
-/

namespace Fennix

structure SameShape (s s' : Multitasking) : Prop where
  list : s'.listProcess = s.listProcess
  threads : ∀ p, (s'.pcb p).threads = (s.pcb p).threads
  elevation : ∀ p, (s'.pcb p).elevation = (s.pcb p).elevation
  process : ∀ p, (s'.pcb p).checksum = (s.pcb p).checksum
  parent : ∀ t, (s'.tcb t).parent = (s.tcb t).parent
  thread : ∀ t, (s'.tcb t).checksum = (s.tcb t).checksum

structure Context where
  registers : ThreadRegisters
  fs : Nat
  gs : Nat

def TCB.context (b : TCB) : Context :=
  ⟨b.registers, b.fs, b.gs⟩

namespace SameShape

variable {s s' s'' : Multitasking}

theorem of_blocks (hList : s'.listProcess = s.listProcess) (hPCB : s'.pcb = s.pcb)
    (hTCB : s'.tcb = s.tcb) : SameShape s s' := by
  refine ⟨hList, ?_, ?_, ?_, ?_, ?_⟩ <;> intro x
  · rw [hPCB]
  · rw [hPCB]
  · rw [hPCB]
  · rw [hTCB]
  · rw [hTCB]

theorem trans (h : SameShape s s') (h' : SameShape s' s'') : SameShape s s'' where
  list := h'.list.trans h.list
  threads p := (h'.threads p).trans (h.threads p)
  elevation p := (h'.elevation p).trans (h.elevation p)
  process p := (h'.process p).trans (h.process p)
  parent t := (h'.parent t).trans (h.parent t)
  thread t := (h'.thread t).trans (h.thread t)

theorem invalidPCB_eq (h : SameShape s s') (p : Nat) : s'.invalidPCB p = s.invalidPCB p := by
  unfold Multitasking.invalidPCB
  rw [h.process, h.elevation]

theorem invalidTCB_eq (h : SameShape s s') (t : Nat) : s'.invalidTCB t = s.invalidTCB t := by
  unfold Multitasking.invalidTCB
  rw [h.thread, h.parent, h.elevation]

theorem updatePCB (s : Multitasking) (p : Nat) {f : PCB → PCB}
    (hf : ∀ b, (f b).threads = b.threads ∧ (f b).elevation = b.elevation ∧
      (f b).checksum = b.checksum) : SameShape s (s.updatePCB p f) := by
  have hField : ∀ q, ((s.updatePCB p f).pcb q).threads = (s.pcb q).threads ∧
    ((s.updatePCB p f).pcb q).elevation = (s.pcb q).elevation ∧
    ((s.updatePCB p f).pcb q).checksum = (s.pcb q).checksum := by
    intro q
    unfold Multitasking.updatePCB
    dsimp only
    split
    · exact hf (s.pcb q)
    · exact ⟨rfl, rfl, rfl⟩
  exact ⟨rfl, fun q => (hField q).1, fun q => (hField q).2.1, fun q => (hField q).2.2,
    fun _ => rfl, fun _ => rfl⟩

theorem updateTCB (s : Multitasking) (t : Nat) {f : TCB → TCB}
    (hf : ∀ b, (f b).parent = b.parent ∧ (f b).checksum = b.checksum) :
    SameShape s (s.updateTCB t f) := by
  have hField : ∀ u, ((s.updateTCB t f).tcb u).parent = (s.tcb u).parent ∧
    ((s.updateTCB t f).tcb u).checksum = (s.tcb u).checksum := by
    intro u
    unfold Multitasking.updateTCB
    dsimp only
    split
    · exact hf (s.tcb u)
    · exact ⟨rfl, rfl⟩
  exact ⟨rfl, fun _ => rfl, fun _ => rfl, fun _ => rfl,
    fun u => (hField u).1, fun u => (hField u).2⟩

end SameShape

namespace Multitasking

variable {s : Multitasking}

section Preempt

variable (s) (regs : ThreadRegisters) (t : Nat)

theorem sameShape_preempt : SameShape s (s.preempt regs) := by
  unfold preempt
  refine SameShape.trans ?_ (SameShape.updateTCB _ _ ?_)
  · refine SameShape.trans ?_ (SameShape.updatePCB _ _ ?_)
    · exact SameShape.updateTCB _ _ (fun _ => ⟨rfl, rfl⟩)
    · intro b
      split <;> exact ⟨rfl, rfl, rfl⟩
  · intro b
    split <;> exact ⟨rfl, rfl⟩

@[simp] theorem preempt_currentProcess : (s.preempt regs).currentProcess = s.currentProcess := rfl

@[simp] theorem preempt_currentThread : (s.preempt regs).currentThread = s.currentThread := rfl

@[simp] theorem preempt_threads (p : Nat) : ((s.preempt regs).pcb p).threads = (s.pcb p).threads :=
  (s.sameShape_preempt regs).threads p

private theorem tcb_preempt : (s.preempt regs).tcb t =
    if t = s.currentThread then
      { s.tcb t with
        registers := regs
        gs := s.shadowGsBase
        fs := s.fsBase
        fxRegion := s.fpu
        status :=
          if (s.tcb t).status = .running then .ready
          else (s.tcb t).status }
    else s.tcb t := by
  unfold preempt updatePCB updateTCB
  dsimp only
  by_cases hCurrent : t = s.currentThread
  · simp only [if_pos hCurrent]
    split <;> rfl
  · simp only [if_neg hCurrent]

theorem tcb_status_preempt : ((s.preempt regs).tcb t).status = if t = s.currentThread ∧
        (s.tcb t).status = .running then .ready else (s.tcb t).status := by
  rw [tcb_preempt]
  by_cases hCurrent : t = s.currentThread
  · rw [if_pos hCurrent]
    show (if (s.tcb t).status = .running then .ready
      else (s.tcb t).status) = _
    by_cases hRunning : (s.tcb t).status = .running
    · rw [if_pos hRunning, if_pos ⟨hCurrent, hRunning⟩]
    · rw [if_neg hRunning, if_neg (fun h => hRunning h.2)]
  · rw [if_neg hCurrent, if_neg (fun h => hCurrent h.1)]

theorem context_preempt : ((s.preempt regs).tcb t).context = if t = s.currentThread then
      ⟨regs, s.fsBase, s.shadowGsBase⟩ else (s.tcb t).context := by
  rw [tcb_preempt]
  split <;> rfl

end Preempt

------ Starting a Thread

section Success

variable (s) (i : Interrupt) (p t : Nat) (reads : List Read) (q u : Nat)

@[simp] theorem success_currentProcess : (s.success i p t reads).state.currentProcess = p := rfl

@[simp] theorem success_currentThread : (s.success i p t reads).state.currentThread = t := rfl

@[simp] theorem success_listProcess : (s.success i p t reads).state.listProcess =
    s.listProcess := by
  simp only [success, finish, updatePageTable, start, updatePCB, updateTCB]

@[simp] theorem success_idleProcess : (s.success i p t reads).state.idleProcess =
    s.idleProcess := by
  simp only [success, finish, updatePageTable, start, updatePCB, updateTCB]

@[simp] theorem success_idleThread : (s.success i p t reads).state.idleThread = s.idleThread := by
  simp only [success, finish, updatePageTable, start, updatePCB, updateTCB]

theorem start_pcb : (s.start p t).pcb q =
    if q = p then { s.pcb q with status := .running }
    else s.pcb q := rfl

theorem start_tcb : (s.start p t).tcb u =
    if u = t then { s.tcb u with status := .running }
    else s.tcb u := rfl

theorem success_pcb : (s.success i p t reads).state.pcb q =
    if q = p then
      { s.pcb q with status := .running, info := updateTimeUsed i.processTime (s.pcb q).info }
    else s.pcb q := by
  have hFinish : (s.success i p t reads).state.pcb q =
      if q = p then
        { (s.start p t).pcb q with info := updateTimeUsed i.processTime ((s.start p t).pcb q).info }
      else (s.start p t).pcb q := rfl
  rw [hFinish, start_pcb]
  by_cases hq : q = p
  · simp only [if_pos hq]
  · simp only [if_neg hq]

theorem success_tcb : (s.success i p t reads).state.tcb u =
    if u = t then
      { s.tcb u with status := .running, info := updateTimeUsed i.threadTime (s.tcb u).info }
    else s.tcb u := by
  have hFinish : (s.success i p t reads).state.tcb u =
      if u = t then
        { (s.start p t).tcb u with info := updateTimeUsed i.threadTime ((s.start p t).tcb u).info }
      else (s.start p t).tcb u := rfl
  rw [hFinish, start_tcb]
  by_cases hu : u = t
  · simp only [if_pos hu]
  · simp only [if_neg hu]

theorem sameShape_success : SameShape s (s.success i p t reads).state := by
  refine ⟨success_listProcess s i p t reads, ?_, ?_, ?_, ?_, ?_⟩ <;> intro x
  · rw [success_pcb]
    split <;> rfl
  · rw [success_pcb]
    split <;> rfl
  · rw [success_pcb]
    split <;> rfl
  · rw [success_tcb]
    split <;> rfl
  · rw [success_tcb]
    split <;> rfl

theorem pcb_status_success : ((s.success i p t reads).state.pcb q).status =
    if q = p then .running else (s.pcb q).status := by
  rw [success_pcb]
  split <;> rfl

theorem tcb_status_success : ((s.success i p t reads).state.tcb u).status =
    if u = t then .running else (s.tcb u).status := by
  rw [success_tcb]
  split <;> rfl

theorem context_success : ((s.success i p t reads).state.tcb u).context = (s.tcb u).context := by
  rw [success_tcb]
  split <;> rfl

theorem success_installs : (s.success i p t reads).regs = (s.tcb t).context.registers ∧
    (s.success i p t reads).state.fsBase = (s.tcb t).context.fs ∧
      ((s.pcb p).elevation = .user → (s.success i p t reads).state.shadowGsBase =
          (s.tcb t).context.gs) := by
  have hContext : ((s.start p t).tcb t).context = (s.tcb t).context := by
    rw [start_tcb, if_pos rfl]
    rfl
  have hElevation : ((s.start p t).pcb p).elevation = (s.pcb p).elevation := by
    rw [start_pcb, if_pos rfl]
  rw [← hContext]
  refine ⟨rfl, rfl, ?_⟩
  intro hUser
  have hUpdated : (((s.start p t).updatePageTable
    ((s.start p t).pcb p).pageTable).pcb p).elevation = .user := hElevation.trans hUser
  simp only [success, hUpdated]
  rfl

end Success

section Idle

variable (s) (i : Interrupt) (reads : List Read) (u : Nat)

def withIdle : Multitasking :=
  if s.idleProcess = 0 then s.createIdle i else s

theorem idle_pcb (q : Nat) : (s.idle i reads).state.pcb q =
    if q = (s.withIdle i).idleProcess then
      { (s.withIdle i).pcb q with
        info := updateTimeUsed i.processTime ((s.withIdle i).pcb q).info }
    else (s.withIdle i).pcb q := rfl

theorem idle_tcb : (s.idle i reads).state.tcb u =
    if u = (s.withIdle i).idleThread then
      { (s.withIdle i).tcb u with
        info := updateTimeUsed i.threadTime ((s.withIdle i).tcb u).info }
    else (s.withIdle i).tcb u := rfl

theorem idle_currents : (s.idle i reads).state.currentProcess = (s.withIdle i).idleProcess ∧
    (s.idle i reads).state.currentThread = (s.withIdle i).idleThread ∧
      (s.idle i reads).state.idleProcess = (s.withIdle i).idleProcess ∧
        (s.idle i reads).state.idleThread = (s.withIdle i).idleThread := by
  simp only [idle, withIdle, finish, updatePageTable, updatePCB, updateTCB, and_self]

theorem sameShape_idle : SameShape (s.withIdle i) (s.idle i reads).state := by
  refine ⟨?_, ?_, ?_, ?_, ?_, ?_⟩
  · simp only [idle, withIdle, finish, updatePageTable, updatePCB, updateTCB]
  · intro q
    rw [idle_pcb]
    split <;> rfl
  · intro q
    rw [idle_pcb]
    split <;> rfl
  · intro q
    rw [idle_pcb]
    split <;> rfl
  · intro u
    rw [idle_tcb]
    split <;> rfl
  · intro u
    rw [idle_tcb]
    split <;> rfl

theorem tcb_status_idle : ((s.idle i reads).state.tcb u).status =
    ((s.withIdle i).tcb u).status := by
  rw [idle_tcb]
  split <;> rfl

theorem context_idle : ((s.idle i reads).state.tcb u).context = ((s.withIdle i).tcb u).context := by
  rw [idle_tcb]
  split <;> rfl

end Idle

structure ProcessCreated (s : Multitasking) (r : ProcessRequest) (s' : Multitasking) : Prop where
  list : s'.listProcess = s.listProcess ++ [r.address]
  tcb : s'.tcb = s.tcb
  new : (s'.pcb r.address).status = .ready ∧ (s'.pcb r.address).elevation = r.elevation ∧
      (s'.pcb r.address).threads = [] ∧ (s'.pcb r.address).checksum = processChecksum
  old : ∀ q, q ≠ r.address → (s'.pcb q).status = (s.pcb q).status ∧
      (s'.pcb q).elevation = (s.pcb q).elevation ∧ (s'.pcb q).threads = (s.pcb q).threads ∧
          (s'.pcb q).checksum = (s.pcb q).checksum ∧ (s'.pcb q).offset = (s.pcb q).offset
  current : s'.currentProcess = s.currentProcess ∧ s'.currentThread = s.currentThread
  idle : s'.idleProcess = s.idleProcess ∧ s'.idleThread = s.idleThread

theorem processCreated (s : Multitasking) (r : ProcessRequest) :
    ProcessCreated s r (s.createProcess r) := by
  unfold createProcess updatePCB
  dsimp only
  -- with a parent, its list of children grows as well
  split
  · refine ⟨rfl, rfl, ?_, ?_, ⟨rfl, rfl⟩, ⟨rfl, rfl⟩⟩
    · dsimp only
      rw [if_pos rfl]
      split <;> exact ⟨rfl, rfl, rfl, rfl⟩
    intro q hq
    dsimp only
    rw [if_neg hq]
    split <;> exact ⟨rfl, rfl, rfl, rfl, rfl⟩
  refine ⟨rfl, rfl, ?_, ?_, ⟨rfl, rfl⟩, ⟨rfl, rfl⟩⟩
  · simp
  · intro q hq
    simp [hq]

structure ThreadCreated (s : Multitasking) (r : ThreadRequest) (c : Context)
    (s' : Multitasking) : Prop where
  parent : r.parent ≠ 0 ∧ (s.pcb r.parent).checksum = processChecksum
  list : s'.listProcess = s.listProcess
  new : (s'.tcb r.address).status = .ready ∧ (s'.tcb r.address).parent = r.parent ∧
      (s'.tcb r.address).context = c ∧ (s'.tcb r.address).checksum = threadChecksum
  old : ∀ u, u ≠ r.address → s'.tcb u = s.tcb u
  threads : ∀ q, (s'.pcb q).threads =
    if q = r.parent then (s.pcb q).threads ++ [r.address]
    else (s.pcb q).threads
  blocks : ∀ q, (s'.pcb q).status = (s.pcb q).status ∧ (s'.pcb q).elevation = (s.pcb q).elevation ∧
      (s'.pcb q).checksum = (s.pcb q).checksum
  current : s'.currentProcess = s.currentProcess ∧ s'.currentThread = s.currentThread
  idle : s'.idleProcess = s.idleProcess ∧ s'.idleThread = s.idleThread

def creationContext (s : Multitasking) (r : ThreadRequest) : Option Context :=
  if r.parent = 0 ∨ (s.pcb r.parent).checksum ≠ processChecksum then none
  else
    (startContext (s.pcb r.parent).elevation (s.pcb r.parent).offset r).map
        (fun c => ⟨c.1, s.fsBase, c.2⟩)

theorem createThread_cases (s : Multitasking) (r : ThreadRequest) :
    (s.creationContext r = none ∧ (s.createThread r).2 = 0 ∧ ∃ n, (s.createThread r).1 =
          { s with nextTID := n }) ∨
    ∃ c, s.creationContext r = some c ∧ (s.createThread r).2 = r.address ∧
        ThreadCreated s r c (s.createThread r).1 := by
  by_cases hParent : r.parent = 0 ∨ (s.pcb r.parent).checksum ≠ processChecksum
  · refine Or.inl ⟨?_, ?_, s.nextTID, ?_⟩
    · rw [creationContext, if_pos hParent]
    · rw [createThread, if_pos hParent]
    · rw [createThread, if_pos hParent]
  rcases not_or.mp hParent with ⟨hNonzero, hChecksum⟩
  rw [not_not] at hChecksum
  cases hContext : startContext (s.pcb r.parent).elevation (s.pcb r.parent).offset r with
  | none =>
    refine Or.inl ⟨?_, ?_, s.nextTID + 1, ?_⟩
    · rw [creationContext, if_neg hParent, hContext]
      rfl
    · simp only [createThread, if_neg hParent, hContext]
    · simp only [createThread, if_neg hParent, hContext]
  | some start =>
    rcases start with ⟨registers, gs⟩
    refine Or.inr ⟨⟨registers, s.fsBase, gs⟩, ?_, ?_, ?_⟩
    · rw [creationContext, if_neg hParent, hContext]
      rfl
    · simp only [createThread, if_neg hParent, hContext]
    · simp only [createThread, if_neg hParent, hContext]
      refine ⟨⟨hNonzero, hChecksum⟩, rfl, ?_, ?_, ?_, ?_, ⟨rfl, rfl⟩, ⟨rfl, rfl⟩⟩
      · simp [updatePCB, updateTCB, TCB.context]
      · intro u hu
        simp [updatePCB, updateTCB, hu]
      · intro q
        simp only [updatePCB, updateTCB]
        split <;> rfl
      · intro q
        simp only [updatePCB, updateTCB]
        split <;> exact ⟨rfl, rfl, rfl⟩

theorem idleCreated (s : Multitasking) {i : Interrupt} (hNew : i.idleProcess ≠ 0) :
    ∃ s₁ r c s₂, ProcessCreated s i.processRequest s₁ ∧ r.address = i.idleThread ∧
        r.parent = i.idleProcess ∧ ThreadCreated { s₁ with idleProcess := i.idleProcess } r c s₂ ∧
            s.createIdle i = { s₂ with idleThread := i.idleThread } := by
  have hProcess := s.processCreated i.processRequest
  have hChecksum : ((s.createProcess i.processRequest).pcb
    i.idleProcess).checksum = processChecksum :=
    hProcess.new.2.2.2
  have hElevation : ((s.createProcess i.processRequest).pcb i.idleProcess).elevation = .idle :=
    hProcess.new.2.1
  unfold createIdle
  dsimp only
  generalize hRequest : i.threadRequest i.idleProcess
    (s.createProcess i.processRequest).idleProcessLoop = r
  have hParent : r.parent = i.idleProcess := by
    rw [← hRequest]
    rfl
  have hAddress : r.address = i.idleThread := by
    rw [← hRequest]
    rfl
  rcases createThread_cases { s.createProcess i.processRequest with
        idleProcess := i.idleProcess } r with
    ⟨hNone, _⟩ | ⟨c, _, hResult, hCreated⟩
  · -- an idle process can have threads
    rw [creationContext, hParent, if_neg, hElevation] at hNone
    · cases hNone
    rintro (hZero | hSum)
    · exact hNew hZero
    · exact hSum hChecksum
  · refine ⟨_, r, c, _, hProcess, hAddress, hParent, hCreated, ?_⟩
    rw [hResult, hAddress]

end Multitasking

end Fennix
