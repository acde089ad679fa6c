import Fennix.Tasking.Task

/-
  The scheduler's interrupt handler.

  The first two searches jump back to the label before their read. They advance only past invalid
  entries, so that they need not end, and are given fuel; they check the bound after the read, so
  that reads of the vectors are recorded and what lies beyond a vector is a parameter.
-/

namespace Fennix

structure Read where
  index : Nat
  size : Nat
deriving DecidableEq, Repr

def Read.InBounds (r : Read) : Prop :=
  r.index < r.size

instance (r : Read) : Decidable r.InBounds :=
  inferInstanceAs (Decidable (r.index < r.size))

structure Beyond where
  threads : Nat → Nat
  processes : Nat → Nat

def Beyond.null : Beyond :=
  ⟨fun _ => 0, fun _ => 0⟩

def readsBelow (n size : Nat) : List Read :=
  (List.range n).map (fun i => ⟨i, size⟩)

structure Search (α : Type) where
  found : Option α
  reads : List Read
deriving Repr

namespace Search

variable {α : Type}

def after (reads : List Read) (r : Search α) : Search α :=
  { r with reads := reads ++ r.reads }

end Search

/- `RetryAnotherThread` and `RetryAnotherProcess`. -/
def retry (xs : List Nat) (beyond : Nat → Nat) (invalid ready : Nat → Bool) :
    (fuel tmpidx : Nat) → Option (Search Nat)
| 0, _ => none
| fuel + 1, tmpidx =>
  let x := xs.getD (tmpidx + 1) (beyond (tmpidx + 1))
  let read : Read := ⟨tmpidx + 1, xs.length⟩
  if invalid x then
    if tmpidx > xs.length then some ⟨none, [read]⟩
    else
      (retry xs beyond invalid ready fuel (tmpidx + 1)).map (Search.after [read])
  else if ready x = false then
    (retry xs beyond invalid ready fuel tmpidx).map (Search.after [read])
  else some ⟨some x, [read]⟩

namespace Multitasking

def readyProcess (s : Multitasking) (p : Nat) : Bool :=
  decide ((s.pcb p).status = .ready)

def readyThread (s : Multitasking) (t : Nat) : Bool :=
  decide ((s.tcb t).status = .ready)

def findThread (s : Multitasking) (p : Nat) : Option Nat :=
  (s.pcb p).threads.find? (fun t => !s.invalidTCB t && s.readyThread t)

def searchAll (s : Multitasking) : List Nat → Option (Nat × Nat)
| [] => none
| p :: ps =>
  if s.invalidPCB p then searchAll s ps
  else if s.readyProcess p = false then searchAll s ps
  else
    match s.findThread p with
    | some t => some (p, t)
    | none => searchAll s ps

/- The next thread of the current process. -/
def nextThread (s : Multitasking) (beyond : Beyond) (fuel : Nat) : Option (Search Nat) :=
  let threads := (s.pcb s.currentProcess).threads
  if s.currentThread ∈ threads then
    let i := threads.idxOf s.currentThread
    (retry threads beyond.threads s.invalidTCB s.readyThread fuel i).map
        (Search.after (readsBelow (i + 1) threads.length))
  else
    some ⟨none, readsBelow threads.length threads.length⟩

/- The next process with a ready thread. -/
def nextProcessFrom (s : Multitasking) (beyond : Beyond) (fuel : Nat) :
    (rest : List Nat) → (i : Nat) → Option (Search (Nat × Nat))
| [], _ => some ⟨none, []⟩
| p :: rest, i =>
  let read : Read := ⟨i, s.listProcess.length⟩
  if p = s.currentProcess then
    match retry s.listProcess beyond.processes
        s.invalidPCB s.readyProcess fuel i with
    | none => none
    | some ⟨none, reads⟩ => some ⟨none, read :: reads⟩
    | some ⟨some q, reads⟩ =>
      let threads := (s.pcb q).threads
      match s.findThread q with
      | some t =>
        some ⟨some (q, t), read :: reads ++ readsBelow (threads.idxOf t + 1) threads.length⟩
      | none =>
        (nextProcessFrom s beyond fuel rest (i + 1)).map
            (Search.after (read :: reads ++ readsBelow threads.length threads.length))
  else
    (nextProcessFrom s beyond fuel rest (i + 1)).map (Search.after [read])

def nextProcess (s : Multitasking) (beyond : Beyond) (fuel : Nat) : Option (Search (Nat × Nat)) :=
  s.nextProcessFrom beyond fuel s.listProcess 0

structure Interrupt where
  regs : ThreadRegisters
  idleProcess : Nat
  idleThread : Nat
  idlePageTable : Nat
  idleStack : Nat
  idleFxRegion : BitVec 4096
  idleProcessTime : Nat
  idleThreadTime : Nat
  processTime : Nat
  threadTime : Nat
deriving DecidableEq, Repr

inductive Outcome where
| disabled
| idle
| thread (p t : Nat)
deriving DecidableEq, Repr

structure Scheduled where
  state : Multitasking
  regs : ThreadRegisters
  outcome : Outcome
  reads : List Read

def updatePageTable (s : Multitasking) (pt : Nat) : Multitasking :=
  { s with
    cr3 :=
      if pt = 0 then s.cr3
      else if pt ≠ s.cr3 then pt
      else s.cr3 }

def preempt (s : Multitasking) (regs : ThreadRegisters) : Multitasking :=
  let s := s.updateTCB s.currentThread (fun b =>
      { b with registers := regs, gs := s.shadowGsBase, fs := s.fsBase, fxRegion := s.fpu })
  let s := s.updatePCB s.currentProcess (fun b =>
      if b.status = .running then { b with status := .ready }
      else b)
  s.updateTCB s.currentThread (fun b =>
    if b.status = .running then { b with status := .ready }
    else b)

def finish (s : Multitasking) (i : Interrupt) : Multitasking :=
  let s := s.updatePCB s.currentProcess (fun b =>
      { b with info := updateTimeUsed i.processTime b.info })
  s.updateTCB s.currentThread (fun b =>
    { b with info := updateTimeUsed i.threadTime b.info })

def start (s : Multitasking) (p t : Nat) : Multitasking :=
  let s := { s with currentProcess := p, currentThread := t }
  let s := s.updatePCB p (fun b => { b with status := .running })
  s.updateTCB t (fun b => { b with status := .running })

def success (s : Multitasking) (i : Interrupt) (p t : Nat) (reads : List Read) : Scheduled :=
  let s := s.start p t
  let regs := (s.tcb t).registers
  let s := s.updatePageTable (s.pcb p).pageTable
  let s :=
    { s with
      fsBase := (s.tcb t).fs
      gsBase := t
      shadowGsBase :=
        match (s.pcb p).elevation with
        | .system | .idle | .kernel => t
        | .user => (s.tcb t).gs
        | .unknownElevation => s.shadowGsBase
      fpu := (s.tcb t).fxRegion }
  ⟨s.finish i, regs, .thread p t, reads⟩

def Interrupt.processRequest (i : Interrupt) : ProcessRequest where
  address := i.idleProcess
  parent := 0
  elevation := .idle
  pageTable := i.idlePageTable
  time := i.idleProcessTime

def Interrupt.threadRequest (i : Interrupt) (parent idleProcessLoop : Nat) : ThreadRequest where
  address := i.idleThread
  parent := parent
  instructionPointer := idleProcessLoop
  arg0 := 0
  arg1 := 0
  stack := i.idleStack
  fxRegion := i.idleFxRegion
  time := i.idleThreadTime

def createIdle (s : Multitasking) (i : Interrupt) : Multitasking :=
  let s := { s.createProcess i.processRequest with idleProcess := i.idleProcess }
  let created := s.createThread (i.threadRequest s.idleProcess s.idleProcessLoop)
  { created.1 with idleThread := created.2 }

def idle (s : Multitasking) (i : Interrupt) (reads : List Read) : Scheduled :=
  let s := if s.idleProcess = 0 then s.createIdle i else s
  let s :=
    { s with currentProcess := s.idleProcess, currentThread := s.idleThread }
  let regs := (s.tcb s.currentThread).registers
  let s := s.updatePageTable s.kernelPML4
  let s :=
    { s with
      fsBase := (s.tcb s.currentThread).fs
      gsBase := s.currentThread
      shadowGsBase := s.currentThread
      fpu := (s.tcb s.currentThread).fxRegion }
  ⟨s.finish i, regs, .idle, reads⟩

def searchOrIdle (s : Multitasking) (i : Interrupt) (reads : List Read) : Scheduled :=
  match s.searchAll s.listProcess with
  | some (p, t) => s.success i p t reads
  | none => s.idle i reads

def currentValid (s : Multitasking) : Bool :=
  !s.invalidPCB s.currentProcess && !s.invalidTCB s.currentThread

def multiTaskingSchedulerHandler (s : Multitasking) (beyond : Beyond) (fuel : Nat)
    (i : Interrupt) : Option Scheduled :=
  if s.schedulerEnabled = false then
    some ⟨s, i.regs, .disabled, []⟩
  else if s.currentValid = false then
    some (s.searchOrIdle i [])
  else
    let s := s.preempt i.regs
    match s.nextThread beyond fuel with
    | none => none
    | some ⟨some t, reads⟩ =>
      some (s.success i s.currentProcess t reads)
    | some ⟨none, reads⟩ =>
      match s.nextProcess beyond fuel with
      | none => none
      | some ⟨some (p, t), more⟩ =>
        some (s.success i p t (reads ++ more))
      | some ⟨none, more⟩ =>
        some (s.searchOrIdle i (reads ++ more))

theorem handler_eq {s : Multitasking} (beyond : Beyond) (fuel : Nat) (i : Interrupt)
    (hEnabled : s.schedulerEnabled = true) (hValid : s.currentValid = true) :
    s.multiTaskingSchedulerHandler beyond fuel i =
    match (s.preempt i.regs).nextThread beyond fuel with
    | none => none
    | some ⟨some t, reads⟩ =>
      some ((s.preempt i.regs).success i (s.preempt i.regs).currentProcess t reads)
    | some ⟨none, reads⟩ =>
      match (s.preempt i.regs).nextProcess beyond fuel with
      | none => none
      | some ⟨some (p, t), more⟩ =>
        some ((s.preempt i.regs).success i p t (reads ++ more))
      | some ⟨none, more⟩ =>
        some ((s.preempt i.regs).searchOrIdle i (reads ++ more)) := by
  rw [multiTaskingSchedulerHandler, if_neg (by simp [hEnabled]), if_neg (by simp [hValid])]

theorem handler_cases {s : Multitasking} {beyond : Beyond} {fuel : Nat} {i : Interrupt}
    {r : Scheduled} (h : s.multiTaskingSchedulerHandler beyond fuel i = some r) :
    (s.schedulerEnabled = false ∧ r = ⟨s, i.regs, .disabled, []⟩) ∨ s.schedulerEnabled = true ∧
    ((s.currentValid = false ∧ r = s.searchOrIdle i []) ∨ s.currentValid = true ∧ ∃ found reads,
    (s.preempt i.regs).nextThread beyond fuel = some ⟨found, reads⟩ ∧
    ((∃ t, found = some t ∧ r = (s.preempt i.regs).success i
    (s.preempt i.regs).currentProcess t reads) ∨ found = none ∧ ∃ next more,
    (s.preempt i.regs).nextProcess beyond fuel = some ⟨next, more⟩ ∧
    ((∃ p t, next = some (p, t) ∧ r = (s.preempt i.regs).success
    i p t (reads ++ more)) ∨ next = none ∧ r =
    (s.preempt i.regs).searchOrIdle i (reads ++ more)))) := by
  cases hEnabled : s.schedulerEnabled with
  | false =>
    rw [multiTaskingSchedulerHandler, if_pos hEnabled] at h
    exact .inl ⟨rfl, (Option.some.inj h).symm⟩
  | true =>
    refine Or.inr ⟨rfl, ?_⟩
    cases hValid : s.currentValid with
    | false =>
      rw [multiTaskingSchedulerHandler, if_neg (by simp [hEnabled]), if_pos hValid] at h
      exact .inl ⟨rfl, (Option.some.inj h).symm⟩
    | true =>
      rw [handler_eq beyond fuel i hEnabled hValid] at h
      refine Or.inr ⟨rfl, ?_⟩
      cases hThread : (s.preempt i.regs).nextThread beyond fuel with
      | none =>
        rw [hThread] at h
        cases h
      | some first =>
        rcases first with ⟨found, reads⟩
        rw [hThread] at h
        refine ⟨found, reads, rfl, ?_⟩
        cases found with
        | some t =>
          exact .inl ⟨t, rfl, (Option.some.inj h).symm⟩
        | none =>
          refine Or.inr ⟨rfl, ?_⟩
          dsimp only at h
          cases hProcess : (s.preempt i.regs).nextProcess beyond fuel with
          | none =>
            rw [hProcess] at h
            cases h
          | some second =>
            rcases second with ⟨next, more⟩
            rw [hProcess] at h
            refine ⟨next, more, rfl, ?_⟩
            cases next with
            | none =>
              exact .inr ⟨rfl, (Option.some.inj h).symm⟩
            | some pair =>
              exact .inl ⟨pair.1, pair.2, rfl, (Option.some.inj h).symm⟩

end Multitasking

end Fennix
