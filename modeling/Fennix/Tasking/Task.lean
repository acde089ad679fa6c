import Fennix.Library.Word

/-
  Processes, threads and their creation.

  Control blocks are records at addresses; `ListProcess` and the `Threads` of a process are lists of
  addresses. What the environment supplies to an operation, such as the address of a new block or
  the time, is a parameter. Names, security tokens, priorities and messages are not read by the
  scheduler and are left out, as are locks, since there is one processor and the handler runs with
  interrupts off.
-/

namespace Fennix

inductive CBElevation where
| unknownElevation
| kernel
| system
| idle
| user
deriving DecidableEq, Repr

inductive CBStatus where
| unknownStatus
| ready
| running
| waiting
| terminated
deriving DecidableEq, Repr

def processChecksum : Nat := 0xCAFEBABE

def threadChecksum : Nat := 0xDEADCAFE

structure GeneralProcessInfo where
  spawnTime : Nat
  usedTime : Nat
  oldUsedTime : Nat
  oldSystemTime : Nat
  currentSystemTime : Nat
deriving DecidableEq, Repr

def setInfo (now : Nat) : GeneralProcessInfo :=
  ⟨now, 0, 0, 0, 0⟩

def updateTimeUsed (now : Nat) (info : GeneralProcessInfo) : GeneralProcessInfo :=
  let oldUsedTime :=
    if info.oldUsedTime = 0 then info.spawnTime
    else info.oldUsedTime
  { info with
    usedTime := u64 (info.usedTime + sub64 now oldUsedTime)
    oldUsedTime := now
    oldSystemTime := info.currentSystemTime
    currentSystemTime := now }

structure ThreadRegisters where
  ds : Nat
  r15 : Nat
  r14 : Nat
  r13 : Nat
  r12 : Nat
  r11 : Nat
  r10 : Nat
  r9 : Nat
  r8 : Nat
  rbp : Nat
  rdi : Nat
  rsi : Nat
  rdx : Nat
  rcx : Nat
  rbx : Nat
  rax : Nat
  intNum : Nat
  errorCode : Nat
  rip : Nat
  cs : Nat
  rflags : Nat
  rsp : Nat
  ss : Nat
deriving DecidableEq, Repr

def ThreadRegisters.zero : ThreadRegisters :=
  ⟨0, 0, 0, 0, 0, 0, 0, 0, 0, 0, 0, 0, 0, 0, 0, 0, 0, 0, 0, 0, 0, 0, 0⟩

structure TCB where
  id : Nat
  status : CBStatus
  exitCode : Nat
  parent : Nat
  stack : Nat
  fxRegion : BitVec 4096
  registers : ThreadRegisters
  fs : Nat
  gs : Nat
  info : GeneralProcessInfo
  checksum : Nat

structure PCB where
  id : Nat
  status : CBStatus
  elevation : CBElevation
  offset : Nat
  parent : Nat
  pageTable : Nat
  info : GeneralProcessInfo
  threads : List Nat
  children : List Nat
  checksum : Nat

structure Multitasking where
  listProcess : List Nat
  nextPID : Nat
  nextTID : Nat
  idleProcess : Nat
  idleThread : Nat
  schedulerEnabled : Bool
  pcb : Nat → PCB
  tcb : Nat → TCB
  currentProcess : Nat
  currentThread : Nat
  fsBase : Nat
  gsBase : Nat
  shadowGsBase : Nat
  cr3 : Nat
  fpu : BitVec 4096
  kernelPML4 : Nat
  idleProcessLoop : Nat

namespace Multitasking

def updatePCB (s : Multitasking) (p : Nat) (f : PCB → PCB) : Multitasking :=
  { s with
    pcb := fun q => if q = p then f (s.pcb q) else s.pcb q }

def updateTCB (s : Multitasking) (t : Nat) (f : TCB → TCB) : Multitasking :=
  { s with
    tcb := fun u => if u = t then f (s.tcb u) else s.tcb u }

def invalidPCB (s : Multitasking) (p : Nat) : Bool :=
  if p = 0 then true
  else if p ≥ 0x10000000 then true
  else if (s.pcb p).checksum ≠ processChecksum then true
  else if (s.pcb p).elevation = .idle then true
  else false

def invalidTCB (s : Multitasking) (t : Nat) : Bool :=
  if t = 0 then true
  else if t ≥ 0x10000000 then true
  else if (s.tcb t).checksum ≠ threadChecksum then true
  else if (s.pcb (s.tcb t).parent).elevation = .idle then
    true
  else false

structure ProcessRequest where
  address : Nat
  parent : Nat
  elevation : CBElevation
  pageTable : Nat
  time : Nat
deriving DecidableEq, Repr

def createProcess (s : Multitasking) (r : ProcessRequest) : Multitasking :=
  let process : PCB :=
    { id := s.nextPID
      status := .ready
      elevation := r.elevation
      offset := 0
      parent :=
        if r.parent ≠ 0 then r.parent
        else (s.pcb r.address).parent
      pageTable := r.pageTable
      info := setInfo r.time
      threads := []
      children := []
      checksum := processChecksum }
  let s :=
    { s with nextPID := s.nextPID + 1 }.updatePCB r.address (fun _ => process)
  let s :=
    if r.parent ≠ 0 then
      s.updatePCB r.parent (fun b =>
        { b with children := b.children ++ [r.address] })
    else s
  { s with listProcess := s.listProcess ++ [r.address] }

structure ThreadRequest where
  address : Nat
  parent : Nat
  instructionPointer : Nat
  arg0 : Nat
  arg1 : Nat
  stack : Nat
  fxRegion : BitVec 4096
  time : Nat
deriving DecidableEq, Repr

def gdtKernelCode : Nat := 0x08
def gdtKernelData : Nat := 0x10
def gdtUserCode : Nat := 0x1B
def gdtUserData : Nat := 0x23

def startFlags : Nat := 0x200202

def startContext (elevation : CBElevation) (offset : Nat)
    (r : ThreadRequest) : Option (ThreadRegisters × Nat) :=
  let registers (code data : Nat) : ThreadRegisters := { ThreadRegisters.zero with
      cs := code
      ds := data
      ss := data
      rflags := startFlags
      rsp := r.stack
      rip := u64 (r.instructionPointer + offset)
      rdi := r.arg0
      rsi := r.arg1 }
  match elevation with
  | .system | .idle | .kernel =>
    some (registers gdtKernelCode gdtKernelData, r.address)
  | .user => some (registers gdtUserCode gdtUserData, 0)
  | .unknownElevation => none

/- `CreateThread`, with the address it returns. -/
def createThread (s : Multitasking) (r : ThreadRequest) : Multitasking × Nat :=
  if r.parent = 0 ∨ (s.pcb r.parent).checksum ≠ processChecksum then
    (s, 0)
  else
    let tid := s.nextTID
    let s := { s with nextTID := s.nextTID + 1 }
    match startContext (s.pcb r.parent).elevation (s.pcb r.parent).offset r with
    | none => (s, 0)
    | some (registers, gs) =>
      let thread : TCB :=
        { id := tid
          status := .ready
          exitCode := (s.tcb r.address).exitCode
          parent := r.parent
          stack := r.stack
          fxRegion := r.fxRegion
          registers := registers
          fs := s.fsBase
          gs := gs
          info := setInfo r.time
          checksum := threadChecksum }
      let s := s.updateTCB r.address (fun _ => thread)
      let s := s.updatePCB r.parent (fun b =>
          { b with threads := b.threads ++ [r.address] })
      (s, r.address)

def threadDoExit (s : Multitasking) (code : Nat) : Multitasking :=
  s.updateTCB s.currentThread (fun b =>
    { b with status := .terminated, exitCode := code })

end Multitasking

end Fennix
