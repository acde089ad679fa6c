import Fennix.Library.Run
import Fennix.Tasking.Monotasking
import Fennix.Tasking.Task

/-
  The current process and thread in mono tasking mode.
-/

namespace Fennix

open Option

structure MonoTaskControlBlock where
  name : String := ""
  id : UInt64 := 0
  pml4 : UInt64 := 0
  userMode : Bool := false
  argc : Int32 := 0
  argv : UInt64 := 0
  envp : UInt64 := 0
deriving DecidableEq

structure StaticPCB where
  id : UInt64
  name : String
  status : CBStatus
  elevation : CBElevation
  exitCode : UInt64
  offset : UInt64
  parent : UInt64
  pageTable : UInt64
  ipcHandles : UInt64
  checksum : Nat

structure StaticTCB where
  id : UInt64
  name : String
  status : CBStatus
  exitCode : UInt64
  parent : UInt64
  stack : UInt64
  fs : UInt64
  gs : UInt64
  argc : Int32
  argv : UInt64
  envp : UInt64
  checksum : Nat

def convertTaskCBToPCB (pcb : Option StaticPCB) (task : MonoTaskControlBlock) : StaticPCB :=
  { pcb.getD
      { id := task.id
        name := ""
        status := .unknownStatus
        elevation :=
          if task.userMode then .user else .kernel
        exitCode := 0
        offset := 0
        parent := 0
        pageTable := task.pml4
        ipcHandles := 0
        checksum := processChecksum } with
    name := task.name }

def convertTaskCBToTCB (tcb : Option StaticTCB) (task : MonoTaskControlBlock) : StaticTCB :=
  { tcb.getD
      { id := task.id
        name := ""
        status := .unknownStatus
        exitCode := 0
        parent := 0
        stack := 0
        fs := 0
        gs := 0
        argc := task.argc
        argv := task.argv
        envp := task.envp
        checksum := threadChecksum } with
    name := task.name }

structure MonoSystem where
  mono : MonoTasking
  blocks : Nat → MonoTaskControlBlock
  taskIDs : UInt64
  pcb : Option StaticPCB
  tcb : Option StaticTCB

structure NewTask where
  name : String
  userMode : Bool
  pml4 : UInt64
  firstArgument : UInt64
  secondArgument : UInt64
  envp : UInt64 := 0
deriving DecidableEq

inductive MonoEvent
| createTask (a task : Nat) (new : NewTask) (afterCurrent : Bool)
| freeTask (task : Nat)
| schedule
| setState (task : Nat) (state : TaskState)
| executeBinary (a task : Nat) (new : NewTask)
| getCurrentProcess
| getCurrentThread
deriving DecidableEq

namespace MonoSystem

def start : MonoSystem where
  mono := MonoTasking.start
  blocks := fun _ => {}
  taskIDs := 0
  pcb := none
  tcb := none

def currentBlock (s : MonoSystem) : MonoTaskControlBlock :=
  s.blocks s.mono.currentTask

def newBlock (s : MonoSystem) (new : NewTask) : MonoTaskControlBlock where
  name := new.name
  id := s.taskIDs
  pml4 := new.pml4
  userMode := new.userMode
  argc := new.firstArgument.toUInt32.toInt32
  argv := new.secondArgument
  envp := new.envp

def createTask (s : MonoSystem) (a task : Nat) (new : NewTask)
    (afterCurrent : Bool) : Option MonoSystem :=
  (s.mono.createTask a task afterCurrent).map (fun mono =>
    { s with
      mono := mono
      taskIDs := s.taskIDs + 1
      blocks := fun t =>
        if t = task then s.newBlock new else s.blocks t })

def sysGetCurrentProcess (s : MonoSystem) : Option (StaticPCB × MonoSystem) :=
  if s.mono.currentTask = 0 then none
  else
    some (convertTaskCBToPCB s.pcb s.currentBlock,
      { s with pcb := convertTaskCBToPCB s.pcb s.currentBlock })

def sysGetCurrentThread (s : MonoSystem) : Option (StaticTCB × MonoSystem) :=
  if s.mono.currentTask = 0 then none
  else
    some (convertTaskCBToTCB s.tcb s.currentBlock,
      { s with tcb := convertTaskCBToTCB s.tcb s.currentBlock })

def executeBinary (s : MonoSystem) (a task : Nat)
    (new : NewTask) : Option (StaticPCB × MonoSystem) :=
  (s.createTask a task new true).map (fun s => (convertTaskCBToPCB s.pcb (s.blocks task),
      { s with pcb := convertTaskCBToPCB s.pcb (s.blocks task) }))

def execute (s : MonoSystem) : MonoEvent → Option MonoSystem
| .createTask a task new afterCurrent =>
  s.createTask a task new afterCurrent
| .freeTask task =>
  (s.mono.execute (.freeTask task)).map (fun mono => { s with mono := mono })
| .schedule =>
  (s.mono.execute .schedule).map (fun mono => { s with mono := mono })
| .setState task state =>
  (s.mono.execute (.setState task state)).map (fun mono => { s with mono := mono })
| .executeBinary a task new =>
  (s.executeBinary a task new).map Prod.snd
| .getCurrentProcess => s.sysGetCurrentProcess.map Prod.snd
| .getCurrentThread => s.sysGetCurrentThread.map Prod.snd

end MonoSystem

def StaticPCB.identity (pcb : StaticPCB) : UInt64 × CBElevation × UInt64 :=
  (pcb.id, pcb.elevation, pcb.pageTable)

def MonoTaskControlBlock.processIdentity (task : MonoTaskControlBlock) :
    UInt64 × CBElevation × UInt64 :=
  (task.id, if task.userMode then .user else .kernel, task.pml4)

def StaticTCB.identity (tcb : StaticTCB) : UInt64 × Int32 × UInt64 :=
  (tcb.id, tcb.argc, tcb.argv)

def MonoTaskControlBlock.threadIdentity (task : MonoTaskControlBlock) : UInt64 × Int32 × UInt64 :=
  (task.id, task.argc, task.argv)

def MonoEvent.toPCB : MonoEvent → Bool
| .executeBinary _ _ _ => true
| .getCurrentProcess => true
| _ => false

def MonoEvent.toTCB : MonoEvent → Bool
| .getCurrentThread => true
| _ => false

def MonoEvent.converted (s : MonoSystem) : MonoEvent → MonoTaskControlBlock
| .executeBinary _ _ new => s.newBlock new
| _ => s.currentBlock

theorem convertTaskCBToPCB_identity (pcb : Option StaticPCB) (task : MonoTaskControlBlock) :
    (convertTaskCBToPCB pcb task).identity =
    (pcb.map StaticPCB.identity).getD task.processIdentity := by
  cases pcb <;> rfl

theorem convertTaskCBToTCB_identity (tcb : Option StaticTCB) (task : MonoTaskControlBlock) :
    (convertTaskCBToTCB tcb task).identity =
    (tcb.map StaticTCB.identity).getD task.threadIdentity := by
  cases tcb <;> rfl

namespace MonoSystem

variable {s s' : MonoSystem} {es : List MonoEvent} {e : MonoEvent}

theorem execute_statics (hExecute : s.execute e = some s') :
    s'.pcb = (if e.toPCB then some (convertTaskCBToPCB s.pcb (e.converted s)) else s.pcb) ∧
    s'.tcb = (if e.toTCB then some (convertTaskCBToTCB s.tcb (e.converted s)) else s.tcb) := by
  cases e with
  | getCurrentProcess =>
    rcases map_eq_some_iff.mp hExecute with ⟨result, hCall, rfl⟩
    unfold sysGetCurrentProcess at hCall
    split at hCall
    · cases hCall
    · cases hCall
      exact ⟨rfl, rfl⟩
  | getCurrentThread =>
    rcases map_eq_some_iff.mp hExecute with ⟨result, hCall, rfl⟩
    unfold sysGetCurrentThread at hCall
    split at hCall
    · cases hCall
    · cases hCall
      exact ⟨rfl, rfl⟩
  | executeBinary a task new =>
    rcases map_eq_some_iff.mp hExecute with ⟨result, hBinary, rfl⟩
    rcases map_eq_some_iff.mp hBinary with ⟨t, hCreate, rfl⟩
    rcases map_eq_some_iff.mp hCreate with ⟨mono, _, rfl⟩
    refine ⟨?_, rfl⟩
    dsimp only
    rw [if_pos rfl]
    rfl
  | createTask | freeTask | schedule =>
    rcases map_eq_some_iff.mp hExecute with ⟨mono, _, rfl⟩
    exact ⟨rfl, rfl⟩
  | setState task state =>
    cases hExecute
    exact ⟨rfl, rfl⟩

def KnowsProcess (s : MonoSystem) : Prop :=
  ∃ pcb s', s.sysGetCurrentProcess = some (pcb, s') ∧ pcb.identity = s.currentBlock.processIdentity

def KnowsThread (s : MonoSystem) : Prop :=
  ∃ tcb s', s.sysGetCurrentThread = some (tcb, s') ∧ tcb.identity = s.currentBlock.threadIdentity

theorem knowsProcess_iff (hTask : s.mono.currentTask ≠ 0) : s.KnowsProcess ↔
    (s.pcb.map StaticPCB.identity).getD s.currentBlock.processIdentity =
    s.currentBlock.processIdentity := by
  rw [← convertTaskCBToPCB_identity]
  constructor
  · rintro ⟨pcb, s', hCall, hSame⟩
    rw [sysGetCurrentProcess, if_neg hTask] at hCall
    cases hCall
    exact hSame
  · intro hSame
    exact ⟨_, _, if_neg hTask, hSame⟩

theorem knowsThread_iff (hTask : s.mono.currentTask ≠ 0) : s.KnowsThread ↔
    (s.tcb.map StaticTCB.identity).getD s.currentBlock.threadIdentity =
    s.currentBlock.threadIdentity := by
  rw [← convertTaskCBToTCB_identity]
  constructor
  · rintro ⟨tcb, s', hCall, hSame⟩
    rw [sysGetCurrentThread, if_neg hTask] at hCall
    cases hCall
    exact hSame
  · intro hSame
    exact ⟨_, _, if_neg hTask, hSame⟩

theorem current_identity_iff (hRun : executes execute start es = some s)
    (hTask : s.mono.currentTask ≠ 0) :
    (s.KnowsProcess ↔ ∀ t e, FirstAt execute MonoEvent.toPCB start es t e →
    (e.converted t).processIdentity = s.currentBlock.processIdentity) ∧
    (s.KnowsThread ↔ ∀ t e, FirstAt execute MonoEvent.toTCB start es t e →
    (e.converted t).threadIdentity = s.currentBlock.threadIdentity) := by
  constructor
  · rw [knowsProcess_iff hTask]
    refine once_iff (fun s => s.pcb.map StaticPCB.identity)
      (fun s e => (e.converted s).processIdentity) rfl ?_ ?_ hRun _
    · intro t e t' hExecute hOther
      rw [(execute_statics hExecute).1, hOther]
      rfl
    · intro t e t' hExecute hCall
      rw [(execute_statics hExecute).1, if_pos hCall, map_some, convertTaskCBToPCB_identity]
  · rw [knowsThread_iff hTask]
    refine once_iff (fun s => s.tcb.map StaticTCB.identity)
      (fun s e => (e.converted s).threadIdentity) rfl ?_ ?_ hRun _
    · intro t e t' hExecute hOther
      rw [(execute_statics hExecute).2, hOther]
      rfl
    · intro t e t' hExecute hCall
      rw [(execute_statics hExecute).2, if_pos hCall, map_some, convertTaskCBToTCB_identity]

def pushUser : List MonoEvent :=
  [.createTask 1 101 ⟨"kernel", false, 4096, 0, 0, 0⟩ true,
    .schedule, .getCurrentProcess, .getCurrentThread,
    .createTask 2 102 ⟨"user", true, 4096, 3, 5, 0⟩ true,
    .setState 101 .pushed, .schedule]

theorem pushUser_runs : ∃ s, executes execute start pushUser = some s ∧ s.mono.currentTask = 102 ∧
    s.currentBlock = ⟨"user", 1, 4096, true, 3, 5, 0⟩ ∧
    s.pcb.map StaticPCB.identity = some (0, .kernel, 4096) ∧
    s.tcb.map StaticTCB.identity = some (0, 0, 0) := by
  refine ⟨_, rfl, ?_, ?_, ?_, ?_⟩ <;> decide

theorem user_task_taken_for_kernel : ∃ s, executes execute start pushUser = some s ∧
    s.mono.currentTask ≠ 0 ∧ ¬ s.KnowsProcess ∧ ¬ s.KnowsThread := by
  rcases pushUser_runs with ⟨s, hRun, hTask, hBlock, hProcess, hThread⟩
  have hSome : s.mono.currentTask ≠ 0 := by
    rw [hTask]
    decide
  refine ⟨s, hRun, hSome, ?_, ?_⟩
  · rw [knowsProcess_iff hSome, hProcess, hBlock]
    decide
  · rw [knowsThread_iff hSome, hThread, hBlock]
    decide

theorem current_identity_iff_first_task : ∃ s, executes execute start (pushUser.take 2) =
    some s ∧ s.mono.currentTask ≠ 0 ∧ s.KnowsProcess ∧ s.KnowsThread := by
  have hRun : ∃ s, executes execute start (pushUser.take 2) = some s ∧ s.mono.currentTask ≠ 0 := by
    refine ⟨_, rfl, ?_⟩
    decide
  rcases hRun with ⟨s, hRun, hTask⟩
  have hIff := current_identity_iff hRun hTask
  refine ⟨s, hRun, hTask, hIff.1.mpr ?_, hIff.2.mpr ?_⟩
  · intro t e hFirst
    exact (hFirst.not_none (by decide)).elim
  · intro t e hFirst
    exact (hFirst.not_none (by decide)).elim

end MonoSystem

end Fennix
