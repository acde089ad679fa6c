import Fennix.Tasking.Selection
import Fennix.Library.Run

/-
  Runs of the tasking system on one processor.

  In every run at most one thread is running: the current one, whose process is the current one and
  is running too.
-/

namespace Fennix

variable {t : Nat} {r : ProcessRequest} {c : Context} {i : Interrupt}

open Multitasking

inductive TaskEvent where
| createProcess (r : ProcessRequest)
| createThread (r : ThreadRequest)
| exit (code : Nat)
| registers (fsBase gsBase shadowGsBase : Nat) (fpu : BitVec 4096)
| enable (enabled : Bool)
| schedule (i : Interrupt)
deriving DecidableEq, Repr

def IsThread (s : Multitasking) (t : Nat) : Prop :=
  (s.tcb t).checksum = threadChecksum

def FreshProcess (s : Multitasking) (p : Nat) : Prop :=
  p ≠ 0 ∧ (s.pcb p).checksum ≠ processChecksum

def FreshThread (s : Multitasking) (t : Nat) : Prop :=
  t ≠ 0 ∧ ¬ IsThread s t

def FreshIdle (s : Multitasking) (i : Interrupt) : Prop :=
  s.idleProcess = 0 → FreshProcess s i.idleProcess ∧ FreshThread s i.idleThread

/- The steps of the system. -/
def TaskStep (s : Multitasking) : TaskEvent → Multitasking → Prop
| .createProcess r, s' =>
  FreshProcess s r.address ∧ s' = s.createProcess r
| .createThread r, s' =>
  FreshThread s r.address ∧ s' = (s.createThread r).1
| .exit code, s' =>
  s.currentThread ≠ 0 ∧ s.currentThread ≠ s.idleThread ∧ s' = s.threadDoExit code
| .registers fsBase gsBase shadowGsBase fpu, s' =>
  s' =
    { s with fsBase := fsBase, gsBase := gsBase, shadowGsBase := shadowGsBase, fpu := fpu }
| .enable enabled, s' =>
  s' = { s with schedulerEnabled := enabled }
| .schedule i, s' =>
  FreshIdle s i ∧ ∃ fuel r, s.multiTaskingSchedulerHandler Beyond.null fuel i = some r ∧
        s' = r.state

structure NoTasks (s : Multitasking) : Prop where
  processes : ∀ p, (s.pcb p).checksum ≠ processChecksum
  threads : ∀ t, ¬ IsThread s t
  idle : s.idleProcess = 0 ∧ s.idleThread = 0
  current : s.currentProcess = 0 ∧ s.currentThread = 0

def Listed (s : Multitasking) : Prop :=
  ∀ p, (s.pcb p).checksum = processChecksum →
    ∀ t ∈ (s.pcb p).threads, IsThread s t ∧ (s.tcb t).parent = p

structure IdleReady (s : Multitasking) : Prop where
  process : s.idleProcess ≠ 0 → (s.pcb s.idleProcess).checksum = processChecksum ∧
      (s.pcb s.idleProcess).elevation = .idle
  thread : s.idleProcess ≠ 0 → IsThread s s.idleThread ∧
      (s.tcb s.idleThread).parent = s.idleProcess ∧ (s.tcb s.idleThread).status = .ready

def CurrentKnown (s : Multitasking) : Prop :=
  s.currentThread = 0 ∨ (s.idleProcess ≠ 0 ∧ s.currentThread = s.idleThread) ∨
      (s.currentValid = true ∧ (s.tcb s.currentThread).parent = s.currentProcess)

def SingleRunning (s : Multitasking) : Prop :=
  ∀ t, IsThread s t → (s.tcb t).status = .running → t = s.currentThread ∧
      (s.tcb t).parent = s.currentProcess ∧ (s.pcb s.currentProcess).status = .running

structure TaskInvariant (s : Multitasking) : Prop where
  null : ¬ IsThread s 0
  listed : Listed s
  idle : IdleReady s
  current : CurrentKnown s
  single : SingleRunning s

structure AtRest (s : Multitasking) : Prop where
  null : ¬ IsThread s 0
  listed : Listed s
  quiet : ∀ t, IsThread s t → (s.tcb t).status ≠ .running

variable {s s' : Multitasking}

theorem NoTasks.invariant (h : NoTasks s) : TaskInvariant s where
  null := h.threads 0
  listed := fun p hp => (h.processes p hp).elim
  idle :=
    ⟨fun hIdle => (hIdle h.idle.1).elim, fun hIdle => (hIdle h.idle.1).elim⟩
  current := Or.inl h.current.2
  single := fun t ht => (h.threads t ht).elim

theorem currentValid_iff : s.currentValid = true ↔ s.invalidPCB s.currentProcess = false ∧
    s.invalidTCB s.currentThread = false := by
  unfold currentValid
  simp

theorem invalidPCB_eq_false {p : Nat} (h : s.invalidPCB p = false) :
    (s.pcb p).checksum = processChecksum ∧ (s.pcb p).elevation ≠ .idle := by
  unfold invalidPCB at h
  split_ifs at h with _ _ hChecksum hIdle
  exact ⟨not_not.mp hChecksum, hIdle⟩

theorem invalidTCB_eq_false (h : s.invalidTCB t = false) : IsThread s t ∧
    (s.pcb (s.tcb t).parent).elevation ≠ .idle := by
  unfold invalidTCB at h
  split_ifs at h with _ _ hChecksum hIdle
  exact ⟨not_not.mp hChecksum, hIdle⟩

theorem IdleReady.ne_of_valid (hIdle : IdleReady s) (hMade : s.idleProcess ≠ 0)
    (hValid : s.invalidTCB t = false) : t ≠ s.idleThread := by
  intro hEq
  apply (invalidTCB_eq_false hValid).2
  rw [hEq, (hIdle.thread hMade).2.1]
  exact (hIdle.process hMade).2

theorem TaskInvariant.valid_of_running (hInv : TaskInvariant s) (hThread : IsThread s t)
    (hRunning : (s.tcb t).status = .running) : s.currentValid = true := by
  have hCurrent := (hInv.single t hThread hRunning).1
  rcases hInv.current with hNull | ⟨hMade, hIdle⟩ | ⟨h, _⟩
  · rw [hCurrent, hNull] at hThread
    exact (hInv.null hThread).elim
  · have hReady := (hInv.idle.thread hMade).2.2
    rw [hCurrent, hIdle, hReady] at hRunning
    cases hRunning
  · exact h

theorem Listed.processCreated (hListed : Listed s) (h : ProcessCreated s r s') : Listed s' := by
  intro p hp t ht
  unfold IsThread
  rw [h.tcb]
  by_cases hNew : p = r.address
  · rw [hNew, h.new.2.2.1] at ht
    cases ht
  rcases h.old p hNew with ⟨_, _, hThreads, hSum, _⟩
  rw [hSum] at hp
  rw [hThreads] at ht
  exact hListed p hp t ht

theorem Listed.threadCreated {r : ThreadRequest} (hListed : Listed s)
    (hFresh : ¬ IsThread s r.address) (h : ThreadCreated s r c s') : Listed s' := by
  intro p hp t ht
  rw [(h.blocks p).2.2] at hp
  rw [h.threads] at ht
  have hOld : t ∈ (s.pcb p).threads → IsThread s' t ∧ (s'.tcb t).parent = p := by
    intro hIn
    rcases hListed p hp t hIn with ⟨hThread, hParent⟩
    have hNe : t ≠ r.address := by
      intro hEq
      rw [hEq] at hThread
      exact hFresh hThread
    unfold IsThread
    rw [h.old t hNe]
    exact ⟨hThread, hParent⟩
  by_cases hOwner : p = r.parent
  · rw [if_pos hOwner] at ht
    rcases List.mem_append.mp ht with hIn | hIn
    · exact hOld hIn
    · rw [List.mem_singleton.mp hIn]
      exact ⟨h.new.2.2.2, h.new.2.1.trans hOwner.symm⟩
  · rw [if_neg hOwner] at ht
    exact hOld ht

theorem TaskInvariant.grown (hInv : TaskInvariant s) (hListed : Listed s')
    (hProcesses : ∀ p, (s.pcb p).checksum = processChecksum → (s'.pcb p).status = (s.pcb p).status ∧
    (s'.pcb p).elevation = (s.pcb p).elevation ∧ (s'.pcb p).checksum = (s.pcb p).checksum)
    (hThreads : ∀ t, IsThread s t → s'.tcb t = s.tcb t)
    (hNew : ∀ t, IsThread s' t → IsThread s t ∨ t ≠ 0 ∧ (s'.tcb t).status ≠ .running)
    (hCurrent : s'.currentProcess = s.currentProcess ∧ s'.currentThread = s.currentThread)
    (hIdle : s'.idleProcess = s.idleProcess ∧ s'.idleThread = s.idleThread) : TaskInvariant s' := by
  refine ⟨?_, hListed, ⟨?_, ?_⟩, ?_, ?_⟩
  · intro hZero
    rcases hNew 0 hZero with hOld | ⟨hNe, _⟩
    · exact hInv.null hOld
    · exact hNe rfl
  · intro hMade
    rw [hIdle.1] at hMade ⊢
    rcases hInv.idle.process hMade with ⟨hSum, hElevation⟩
    rcases hProcesses _ hSum with ⟨_, hSame, hSameSum⟩
    rw [hSame, hSameSum]
    exact ⟨hSum, hElevation⟩
  · intro hMade
    rw [hIdle.1] at hMade ⊢
    have hThread := hInv.idle.thread hMade
    unfold IsThread
    rw [hIdle.2, hThreads _ hThread.1]
    exact hThread
  · rcases hInv.current with hNull | ⟨hMade, hEq⟩ | ⟨hValid, hParent⟩
    · exact .inl (hCurrent.2.trans hNull)
    · refine Or.inr (.inl ?_)
      rw [hIdle.1, hIdle.2, hCurrent.2]
      exact ⟨hMade, hEq⟩
    · rcases currentValid_iff.mp hValid with ⟨hPCB, hTCB⟩
      have hOld := hThreads _ (invalidTCB_eq_false hTCB).1
      rcases hProcesses _ (invalidPCB_eq_false hPCB).1 with ⟨_, hElevation, hSum⟩
      unfold CurrentKnown
      rw [currentValid_iff, hCurrent.1, hCurrent.2, hOld]
      refine Or.inr (.inr ⟨⟨?_, ?_⟩, hParent⟩)
      · unfold invalidPCB at hPCB ⊢
        rw [hElevation, hSum]
        exact hPCB
      unfold invalidTCB at hTCB ⊢
      rw [hOld, hParent, hElevation, ← hParent]
      exact hTCB
  · intro t ht hRunning
    rcases hNew t ht with hOld | ⟨_, hNot⟩
    · rw [hThreads t hOld] at hRunning ⊢
      have hValid := hInv.valid_of_running hOld hRunning
      have hSum := (invalidPCB_eq_false (currentValid_iff.mp hValid).1).1
      rw [hCurrent.1, hCurrent.2, (hProcesses _ hSum).1]
      exact hInv.single t hOld hRunning
    · exact absurd hRunning hNot

theorem TaskInvariant.processCreated (hInv : TaskInvariant s) (hFresh : FreshProcess s r.address)
    (h : ProcessCreated s r s') : TaskInvariant s' := by
  refine hInv.grown (hInv.listed.processCreated h) ?_ ?_ ?_ h.current h.idle
  · intro p hp
    have hNe : p ≠ r.address := by
      intro hEq
      rw [hEq] at hp
      exact hFresh.2 hp
    rcases h.old p hNe with ⟨hStatus, hElevation, _, hSum, _⟩
    exact ⟨hStatus, hElevation, hSum⟩
  · intro t _
    rw [h.tcb]
  · intro t ht
    unfold IsThread at ht
    rw [h.tcb] at ht
    exact .inl ht

theorem TaskInvariant.threadCreated {r : ThreadRequest} (hInv : TaskInvariant s)
    (hFresh : FreshThread s r.address) (h : ThreadCreated s r c s') : TaskInvariant s' := by
  refine hInv.grown (hInv.listed.threadCreated hFresh.2 h) (fun p _ => h.blocks p) ?_ ?_
    h.current h.idle
  · intro t ht
    apply h.old
    intro hEq
    rw [hEq] at ht
    exact hFresh.2 ht
  intro t ht
  by_cases hNew : t = r.address
  · rw [hNew, h.new.1]
    exact .inr ⟨hFresh.1, nofun⟩
  unfold IsThread at ht
  rw [h.old t hNew] at ht
  exact .inl ht

------ Changes of Status

theorem SameShape.isThread_iff (h : SameShape s s') (t : Nat) : IsThread s' t ↔ IsThread s t := by
  unfold IsThread
  rw [h.thread]

theorem SameShape.listed (h : SameShape s s') (hListed : Listed s) : Listed s' := by
  intro p hp t ht
  rw [h.process] at hp
  rw [h.threads] at ht
  rw [h.isThread_iff, h.parent]
  exact hListed p hp t ht

theorem SameShape.idleReady (h : SameShape s s') (hIdle : IdleReady s)
    (hProcess : s'.idleProcess = s.idleProcess) (hThread : s'.idleThread = s.idleThread)
    (hStatus : s.idleProcess ≠ 0 → (s'.tcb s.idleThread).status = (s.tcb s.idleThread).status) :
    IdleReady s' := by
  refine ⟨?_, ?_⟩
  · intro hMade
    rw [hProcess] at hMade ⊢
    rw [h.process, h.elevation]
    exact hIdle.process hMade
  intro hMade
  rw [hProcess] at hMade ⊢
  rw [hThread, h.isThread_iff, h.parent, hStatus hMade]
  exact hIdle.thread hMade

theorem TaskInvariant.of_blocks (hInv : TaskInvariant s) (hPCB : s'.pcb = s.pcb)
    (hTCB : s'.tcb = s.tcb) (hList : s'.listProcess = s.listProcess)
    (hCurrent : s'.currentProcess = s.currentProcess ∧ s'.currentThread = s.currentThread)
    (hIdle : s'.idleProcess = s.idleProcess ∧ s'.idleThread = s.idleThread) : TaskInvariant s' := by
  have hShape := SameShape.of_blocks hList hPCB hTCB
  refine hInv.grown (hShape.listed hInv.listed) ?_ ?_ ?_ hCurrent hIdle
  · intro p _
    rw [hPCB]
    exact ⟨rfl, rfl, rfl⟩
  · intro t _
    rw [hTCB]
  · exact fun t ht => Or.inl ((hShape.isThread_iff t).mp ht)

theorem TaskInvariant.exit {code : Nat} (hInv : TaskInvariant s)
    (hNotIdle : s.currentThread ≠ s.idleThread) : TaskInvariant (s.threadDoExit code) := by
  have hShape : SameShape s (s.threadDoExit code) :=
    SameShape.updateTCB s s.currentThread (fun _ => ⟨rfl, rfl⟩)
  have hStatus : ∀ t, ((s.threadDoExit code).tcb t).status =
      if t = s.currentThread then .terminated
      else (s.tcb t).status := by
    intro t
    unfold threadDoExit updateTCB
    dsimp only
    split <;> rfl
  refine ⟨?_, hShape.listed hInv.listed, ?_, ?_, ?_⟩
  · rw [hShape.isThread_iff]
    exact hInv.null
  · apply hShape.idleReady hInv.idle rfl rfl
    intro _
    rw [hStatus, if_neg hNotIdle.symm]
  · unfold CurrentKnown currentValid
    rw [hShape.invalidPCB_eq, hShape.invalidTCB_eq, hShape.parent]
    exact hInv.current
  · intro t ht hRunning
    rw [hShape.isThread_iff] at ht
    rw [hStatus] at hRunning
    split at hRunning
    · cases hRunning
    · rename_i hOther
      exact (hOther (hInv.single t ht hRunning).1).elim

------ The Scheduler

theorem atSelection_shape (s : Multitasking) (regs : ThreadRegisters) :
    SameShape s (s.atSelection regs) ∧ (s.atSelection regs).idleProcess = s.idleProcess ∧
    (s.atSelection regs).idleThread = s.idleThread := by
  unfold atSelection
  split
  · exact ⟨s.sameShape_preempt regs, rfl, rfl⟩
  · exact ⟨SameShape.of_blocks rfl rfl rfl, rfl, rfl⟩

theorem TaskInvariant.atRest (hInv : TaskInvariant s) (regs : ThreadRegisters) :
    AtRest (s.atSelection regs) ∧ IdleReady (s.atSelection regs) := by
  rcases atSelection_shape s regs with ⟨hShape, hProcess, hThread⟩
  have hStatus : ∀ t, ((s.atSelection regs).tcb t).status =
      if s.currentValid = true ∧ t = s.currentThread ∧ (s.tcb t).status = .running then .ready
      else (s.tcb t).status := by
    intro t
    unfold atSelection
    cases hValid : s.currentValid with
    | true =>
      rw [if_pos rfl, tcb_status_preempt]
      simp
    | false =>
      rw [if_neg (by simp), if_neg (by simp)]
  refine ⟨⟨?_, hShape.listed hInv.listed, ?_⟩, ?_⟩
  · rw [hShape.isThread_iff]
    exact hInv.null
  · intro t ht hRunning
    rw [hShape.isThread_iff] at ht
    rw [hStatus] at hRunning
    split at hRunning
    · cases hRunning
    rename_i hOther
    apply hOther
    exact ⟨hInv.valid_of_running ht hRunning, (hInv.single t ht hRunning).1, hRunning⟩
  · apply hShape.idleReady hInv.idle hProcess hThread
    intro hMade
    rw [hStatus, if_neg]
    rintro ⟨hValid, hEq, _⟩
    exact hInv.idle.ne_of_valid hMade (currentValid_iff.mp hValid).2 hEq.symm

section

variable (hRest : AtRest s)

include hRest

theorem AtRest.success {p : Nat} (hIdle : IdleReady s) (hSelected : Selected s p t) (i : Interrupt)
    (reads : List Read) : TaskInvariant (s.success i p t reads).state := by
  have hShape := s.sameShape_success i p t reads
  have hSum := (invalidPCB_eq_false hSelected.process).1
  have hParent := (hRest.listed p hSum t hSelected.mem).2
  refine ⟨?_, hShape.listed hRest.listed, ?_, ?_, ?_⟩
  · rw [hShape.isThread_iff]
    exact hRest.null
  · apply hShape.idleReady hIdle
    · exact success_idleProcess s i p t reads
    · exact success_idleThread s i p t reads
    · intro hMade
      have hNe := hIdle.ne_of_valid hMade hSelected.thread
      rw [tcb_status_success, if_neg hNe.symm]
  · refine Or.inr (.inr ⟨?_, ?_⟩)
    · apply currentValid_iff.mpr
      rw [hShape.invalidPCB_eq, hShape.invalidTCB_eq, success_currentProcess, success_currentThread]
      exact ⟨hSelected.process, hSelected.thread⟩
    · rw [hShape.parent, success_currentProcess, success_currentThread]
      exact hParent
  · intro u hu hRunning
    rw [hShape.isThread_iff] at hu
    rw [tcb_status_success] at hRunning
    have hEq : u = t := by
      by_contra hNe
      rw [if_neg hNe] at hRunning
      exact hRest.quiet u hu hRunning
    rw [hShape.parent, success_currentProcess, success_currentThread, pcb_status_success,
      if_pos rfl, hEq]
    exact ⟨rfl, hParent, rfl⟩

theorem AtRest.processCreated (h : ProcessCreated s r s') : AtRest s' := by
  refine ⟨?_, hRest.listed.processCreated h, ?_⟩
  · unfold IsThread
    rw [h.tcb]
    exact hRest.null
  intro t ht
  unfold IsThread at ht
  rw [h.tcb] at ht ⊢
  exact hRest.quiet t ht

theorem AtRest.threadCreated {r : ThreadRequest} (hFresh : FreshThread s r.address)
    (h : ThreadCreated s r c s') : AtRest s' := by
  refine ⟨?_, hRest.listed.threadCreated hFresh.2 h, ?_⟩
  · unfold IsThread
    rw [h.old 0 hFresh.1.symm]
    exact hRest.null
  intro t ht
  by_cases hNew : t = r.address
  · rw [hNew, h.new.1]
    intro hRunning
    cases hRunning
  unfold IsThread at ht
  rw [h.old t hNew] at ht ⊢
  exact hRest.quiet t ht

theorem AtRest.of_blocks (hPCB : s'.pcb = s.pcb) (hTCB : s'.tcb = s.tcb) : AtRest s' := by
  refine ⟨?_, ?_, ?_⟩
  · unfold IsThread
    rw [hTCB]
    exact hRest.null
  · unfold Listed IsThread
    rw [hPCB, hTCB]
    exact hRest.listed
  · unfold IsThread
    rw [hTCB]
    exact hRest.quiet

theorem AtRest.withIdle (hIdle : IdleReady s) (hFresh : FreshIdle s i) :
    AtRest (s.withIdle i) ∧ IdleReady (s.withIdle i) ∧ (s.withIdle i).idleProcess ≠ 0 := by
  unfold Multitasking.withIdle
  by_cases hMade : s.idleProcess = 0
  · rw [if_pos hMade]
    rcases hFresh hMade with ⟨hFreshP, hFreshT⟩
    rcases s.idleCreated hFreshP.1 with ⟨s₁, r, c, s₂, hProcess, hAddress, hParent, hThread, hEq⟩
    have hRest₁ : AtRest { s₁ with idleProcess := i.idleProcess } :=
      (hRest.processCreated hProcess).of_blocks rfl rfl
    have hFresh₁ : FreshThread { s₁ with idleProcess := i.idleProcess } r.address := by
      rw [hAddress]
      refine ⟨hFreshT.1, ?_⟩
      show (s₁.tcb i.idleThread).checksum ≠ threadChecksum
      rw [hProcess.tcb]
      exact hFreshT.2
    have hIdleP : s₂.idleProcess = i.idleProcess := hThread.idle.1
    rw [hEq]
    refine ⟨(hRest₁.threadCreated hFresh₁ hThread).of_blocks rfl rfl, ⟨?_, ?_⟩, ?_⟩
    · intro _
      show (s₂.pcb s₂.idleProcess).checksum = _ ∧ (s₂.pcb s₂.idleProcess).elevation = _
      rw [hIdleP, (hThread.blocks _).2.1, (hThread.blocks _).2.2]
      exact ⟨hProcess.new.2.2.2, hProcess.new.2.1⟩
    · intro _
      show (s₂.tcb i.idleThread).checksum = _ ∧ (s₂.tcb i.idleThread).parent = s₂.idleProcess ∧
        (s₂.tcb i.idleThread).status = _
      rw [hIdleP, ← hAddress, ← hParent]
      exact ⟨hThread.new.2.2.2, hThread.new.2.1, hThread.new.1⟩
    · show s₂.idleProcess ≠ 0
      rw [hIdleP]
      exact hFreshP.1
  · rw [if_neg hMade]
    exact ⟨hRest, hIdle, hMade⟩

theorem AtRest.idle (hIdle : IdleReady s) (hFresh : FreshIdle s i) (reads : List Read) :
    TaskInvariant (s.idle i reads).state ∧
    ((s.idle i reads).state.tcb (s.idle i reads).state.currentThread).status = .ready := by
  rcases hRest.withIdle hIdle hFresh with ⟨hRest', hIdle', hMade⟩
  have hShape := s.sameShape_idle i reads
  rcases s.idle_currents i reads with ⟨_, hThread, hIdleP, hIdleT⟩
  refine ⟨⟨?_, hShape.listed hRest'.listed, ?_, ?_, ?_⟩, ?_⟩
  · rw [hShape.isThread_iff]
    exact hRest'.null
  · apply hShape.idleReady hIdle' hIdleP hIdleT
    intro _
    rw [tcb_status_idle]
  · refine Or.inr (.inl ⟨?_, ?_⟩)
    · rw [hIdleP]
      exact hMade
    · rw [hThread, hIdleT]
  · intro t ht hRunning
    rw [hShape.isThread_iff] at ht
    rw [tcb_status_idle] at hRunning
    exact (hRest'.quiet t ht hRunning).elim
  · rw [hThread, tcb_status_idle]
    exact (hIdle'.thread hMade).2.2

end

theorem FreshIdle.atSelection (hFresh : FreshIdle s i) (regs : ThreadRegisters) :
    FreshIdle (s.atSelection regs) i := by
  rcases atSelection_shape s regs with ⟨hShape, hIdle, _⟩
  intro hMade
  rw [hIdle] at hMade
  unfold FreshProcess FreshThread
  rw [hShape.process, hShape.isThread_iff]
  exact hFresh hMade

theorem TaskInvariant.schedule {fuel : Nat} {r : Scheduled} (hInv : TaskInvariant s)
    (hFresh : FreshIdle s i)
    (hHandler : s.multiTaskingSchedulerHandler Beyond.null fuel i = some r) :
    TaskInvariant r.state ∧ (∀ p t, r.outcome = .thread p t → r.state.currentThread = t ∧
    ((s.atSelection i.regs).tcb t).status = .ready) ∧
    (r.outcome = .idle → (r.state.tcb r.state.currentThread).status = .ready) := by
  rcases hInv.atRest i.regs with ⟨hRest, hIdle⟩
  rcases handler_null_cases hHandler with ⟨_, hEq⟩ | ⟨_, reads, ⟨p, t, hSelected, hEq⟩ | ⟨_, hEq⟩⟩
  · rw [hEq]
    refine ⟨hInv, ?_, ?_⟩
    · intro p t hOutcome
      cases hOutcome
    · intro hOutcome
      cases hOutcome
  · rw [hEq]
    refine ⟨hRest.success hIdle hSelected i reads, ?_, ?_⟩
    · intro q u hOutcome
      cases hOutcome
      exact ⟨rfl, hSelected.ready⟩
    · intro hOutcome
      cases hOutcome
  · rw [hEq]
    rcases hRest.idle hIdle (hFresh.atSelection i.regs) reads with ⟨hInv', hReady⟩
    refine ⟨hInv', ?_, fun _ => hReady⟩
    intro p t hOutcome
    cases hOutcome

theorem TaskInvariant.step {e : TaskEvent} (hInv : TaskInvariant s) (hStep : TaskStep s e s') :
    TaskInvariant s' := by
  cases e with
  | createProcess r =>
    rcases hStep with ⟨hFresh, hEq⟩
    rw [hEq]
    exact hInv.processCreated hFresh (s.processCreated r)
  | createThread r =>
    rcases hStep with ⟨hFresh, hEq⟩
    rw [hEq]
    rcases s.createThread_cases r with ⟨_, _, n, hSame⟩ | ⟨c, _, _, hCreated⟩
    · rw [hSame]
      exact hInv.of_blocks rfl rfl rfl ⟨rfl, rfl⟩ ⟨rfl, rfl⟩
    · exact hInv.threadCreated hFresh hCreated
  | exit code =>
    rcases hStep with ⟨_, hNotIdle, hEq⟩
    rw [hEq]
    exact hInv.exit hNotIdle
  | registers fsBase gsBase shadowGsBase fpu =>
    cases hStep
    exact hInv.of_blocks rfl rfl rfl ⟨rfl, rfl⟩ ⟨rfl, rfl⟩
  | enable enabled =>
    cases hStep
    exact hInv.of_blocks rfl rfl rfl ⟨rfl, rfl⟩ ⟨rfl, rfl⟩
  | schedule i =>
    rcases hStep with ⟨hFresh, fuel, r, hHandler, hEq⟩
    rw [hEq]
    exact (hInv.schedule hFresh hHandler).1

theorem single_running_thread {s₀ s : Multitasking} {es : List TaskEvent} (hStart : NoTasks s₀)
    (hRun : Run TaskStep s₀ es s) :
    (∀ t u, IsThread s t → IsThread s u → (s.tcb t).status = .running →
    (s.tcb u).status = .running → t = u) ∧
    (∀ t, IsThread s t → (s.tcb t).status = .running → t = s.currentThread ∧
    (s.tcb t).parent = s.currentProcess ∧ (s.pcb s.currentProcess).status = .running) ∧
    ∀ i fuel r, FreshIdle s i → s.multiTaskingSchedulerHandler Beyond.null fuel i = some r →
    (∀ p t, r.outcome = .thread p t → r.state.currentThread = t ∧
    ((s.atSelection i.regs).tcb t).status = .ready) ∧
    (r.outcome = .idle → (r.state.tcb r.state.currentThread).status = .ready) := by
  have hInv : TaskInvariant s := Run.invariant hStart.invariant
      (fun _ _ _ hInv hStep => hInv.step hStep) hRun
  refine ⟨?_, hInv.single, ?_⟩
  · intro t u ht hu hRunningT hRunningU
    rw [(hInv.single t ht hRunningT).1, (hInv.single u hu hRunningU).1]
  · intro i fuel r hFresh hHandler
    exact (hInv.schedule hFresh hHandler).2

def emptyTasks : Multitasking :=
  { sampleTasks [] (fun _ => { samplePCB .ready [] with checksum := 0 })
      (fun _ => { sampleTCB .ready 0 with checksum := 0 })
    with
    currentProcess := 0
    currentThread := 0 }

theorem noTasks_emptyTasks : NoTasks emptyTasks where
  processes := by
    intro _
    show 0 ≠ processChecksum
    decide
  threads := by
    intro _
    show ¬ 0 = threadChecksum
    decide
  idle := ⟨rfl, rfl⟩
  current := ⟨rfl, rfl⟩

def sampleProcess : ProcessRequest where
  address := 0x1000
  parent := 0
  elevation := .user
  pageTable := 0x5000
  time := 1

def sampleThread : ThreadRequest where
  address := 0x2000
  parent := 0x1000
  instructionPointer := 0x400000
  arg0 := 1
  arg1 := 2
  stack := 0x7000
  fxRegion := 0
  time := 2

def oneThread : Multitasking :=
  ((emptyTasks.createProcess sampleProcess).createThread sampleThread).1

def oneRunning : Multitasking :=
  (oneThread.searchOrIdle sampleInterrupt []).state

------ Two Threads

def otherThread : ThreadRequest :=
  { sampleThread with address := 0x3000, instructionPointer := 0x500000 }

def twoThreads : Multitasking :=
  (oneThread.createThread otherThread).1

def interruptAt (rip : Nat) : Interrupt :=
  { sampleInterrupt with regs := { ThreadRegisters.zero with rip := rip } }

def scheduled (s : Multitasking) (rip : Nat) : Multitasking :=
  ((s.multiTaskingSchedulerHandler Beyond.null 4 (interruptAt rip)).map Scheduled.state).getD s

def dispatched : Multitasking :=
  scheduled twoThreads 0

/- The first thread was preempted at 0x400010, and the second one runs. -/
def switched : Multitasking :=
  scheduled dispatched 0x400010

theorem step_scheduled {s : Multitasking} {rip : Nat}
    (hPCB : (s.pcb 0x8000).checksum ≠ processChecksum)
    (hTCB : (s.tcb 0x9000).checksum ≠ threadChecksum)
    (hSome : (s.multiTaskingSchedulerHandler Beyond.null 4 (interruptAt rip)).isSome) :
    TaskStep s (.schedule (interruptAt rip)) (scheduled s rip) := by
  rcases Option.isSome_iff_exists.mp hSome with ⟨r, hr⟩
  have hIdle : FreshProcess s 0x8000 ∧ FreshThread s 0x9000 :=
    ⟨⟨by decide, hPCB⟩, by decide, hTCB⟩
  refine ⟨fun _ => hIdle, 4, r, hr, ?_⟩
  rw [scheduled, hr]
  rfl

theorem steps_switched :
    TaskStep emptyTasks (.createProcess sampleProcess) (emptyTasks.createProcess sampleProcess) ∧
    TaskStep (emptyTasks.createProcess sampleProcess) (.createThread sampleThread) oneThread ∧
    TaskStep oneThread (.createThread otherThread) twoThreads ∧
    TaskStep twoThreads (.schedule (interruptAt 0)) dispatched ∧
    TaskStep dispatched (.schedule (interruptAt 0x400010)) switched := by
  refine ⟨⟨⟨by decide, by decide⟩, rfl⟩, ⟨⟨by decide, ?_⟩, rfl⟩, ⟨⟨by decide, ?_⟩, rfl⟩, ?_, ?_⟩
  · unfold IsThread
    decide
  · unfold IsThread
    decide
  · exact step_scheduled (by decide) (by decide) (by decide)
  · exact step_scheduled (by decide +kernel) (by decide +kernel) (by decide +kernel)

theorem run_switched : Run TaskStep emptyTasks [.createProcess sampleProcess,
    .createThread sampleThread, .createThread otherThread, .schedule (interruptAt 0),
    .schedule (interruptAt 0x400010)] switched := by
  rcases steps_switched with ⟨hProcess, hFirst, hSecond, hDispatch, hSwitch⟩
  exact ((((Run.nil.snoc hProcess).snoc hFirst).snoc hSecond).snoc hDispatch).snoc hSwitch

theorem single_running_thread_switched : (switched.tcb 0x3000).status = .running ∧
    IsThread switched 0x2000 ∧ (switched.tcb 0x2000).status ≠ .running := by
  have hRunning : (switched.tcb 0x3000).status = .running := by
    decide +kernel
  have hFirst : IsThread switched 0x2000 := by
    unfold IsThread
    decide +kernel
  have hSecond : IsThread switched 0x3000 := by
    unfold IsThread
    decide +kernel
  refine ⟨hRunning, hFirst, ?_⟩
  intro hBoth
  have hSame := (single_running_thread noTasks_emptyTasks run_switched).1 0x2000 0x3000 hFirst
    hSecond hBoth hRunning
  cases hSame

end Fennix
