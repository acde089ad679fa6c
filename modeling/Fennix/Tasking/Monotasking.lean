import Mathlib.Data.List.Basic

/-
  The queue of the mono-tasking scheduler.

  Queue nodes live in memory and know each other by address; `0` is the null pointer. A node that is
  read or written must be live: an operation answers `none` where the source follows a null pointer
  or a pointer to a freed node, and where it goes around a cycle of nodes or panics.
-/

namespace Fennix

inductive TaskState
| null
| ready
| running
| waiting
| terminated
| pushed
| poped
deriving DecidableEq

def TASK_CHECKSUM : Nat := 0xDEADCAFE

structure QueuedTask where
  state : TaskState := .null
  checksum : Nat := 0

structure TaskQueue where
  prev : Nat := 0
  task : Nat := 0
  next : Nat := 0

structure MonoTasking where
  nodes : Nat → TaskQueue
  live : List Nat
  tasks : Nat → QueuedTask
  queue : Nat
  currentTask : Nat

namespace MonoTasking

def start : MonoTasking where
  nodes := fun _ => {}
  live := []
  tasks := fun _ => {}
  queue := 0
  currentTask := 0

def readNode (s : MonoTasking) (a : Nat) : Option TaskQueue :=
  if a ≠ 0 ∧ a ∈ s.live then some (s.nodes a) else none

def setNode (s : MonoTasking) (a : Nat) (node : TaskQueue) : MonoTasking :=
  { s with nodes := fun x =>
    if x = a then node else s.nodes x }

def writeNode (s : MonoTasking) (a : Nat) (f : TaskQueue → TaskQueue) : Option MonoTasking :=
  if a ≠ 0 ∧ a ∈ s.live then
    some (s.setNode a (f (s.nodes a)))
  else none

def newNode (s : MonoTasking) (a task : Nat) : MonoTasking :=
  { s.setNode a { task := task } with live := a :: s.live }

def deleteNode (s : MonoTasking) (a : Nat) : MonoTasking :=
  { s with live := s.live.erase a }

/- Go along `Next` to a node at which to stop. -/
def walk (s : MonoTasking) (stop : TaskQueue → Bool) : (fuel : Nat) → Nat → Option Nat
| 0, _ => none
| fuel + 1, a =>
  (s.readNode a).bind (fun node =>
    if stop node then some a
    else s.walk stop fuel node.next)

def lastNode (s : MonoTasking) : Option Nat :=
  s.walk (fun node => node.next = 0) s.live.length s.queue

def findLastTask (s : MonoTasking) : Option Nat :=
  s.lastNode.bind (fun last => (s.readNode last).map TaskQueue.task)

def setState (s : MonoTasking) (task : Nat) (state : TaskState) : MonoTasking :=
  { s with tasks := fun t =>
    if t = task then { s.tasks t with state := state }
    else s.tasks t }

def insertAfterCurrent (s : MonoTasking) (newTask : Nat) : Option MonoTasking :=
  (s.walk (fun node => node.task = s.currentTask) s.live.length s.queue).bind (fun current =>
      (s.readNode current).bind (fun node => (s.writeNode newTask (fun new =>
            { new with next := node.next, prev := current })).bind (fun s =>
          s.writeNode current (fun node =>
            { node with next := newTask }))))

def appendNode (s : MonoTasking) (newTask : Nat) : Option MonoTasking :=
  s.lastNode.bind (fun last => (s.writeNode newTask (fun new =>
        { new with prev := last, next := 0 })).bind (fun s =>
      s.writeNode last (fun node =>
        { node with next := newTask })))

def allocateTask (s : MonoTasking) (a task : Nat) (afterCurrent : Bool) : Option MonoTasking :=
  if s.queue = 0 then
    some { s.newNode a task with queue := a }
  else if afterCurrent then
    (s.newNode a task).insertAfterCurrent a
  else
    (s.newNode a task).appendNode a

def mergeNext (s : MonoTasking) (current next : Nat) : Option MonoTasking :=
  (s.readNode next).bind (fun node => (s.writeNode current (fun current =>
        { current with task := node.task, next := node.next })).bind (fun s =>
      (if node.next ≠ 0 then
          s.writeNode node.next (fun behind =>
            { behind with prev := current })
        else some s).map (fun s => s.deleteNode next)))

def dropLast (s : MonoTasking) (current prev : Nat) : Option MonoTasking :=
  (s.deleteNode current).writeNode prev (fun node => { node with next := 0 })

def freeFrom (s : MonoTasking) (task : Nat) : (fuel : Nat) → Nat → Option MonoTasking
| 0, _ => none
| fuel + 1, current =>
  if current = 0 then some s
  else
    (s.readNode current).bind (fun node =>
      if node.task = task then
        if node.next ≠ 0 then s.mergeNext current node.next
        else s.dropLast current node.prev
      else s.freeFrom task fuel node.next)

def freeTask (s : MonoTasking) (task : Nat) : Option MonoTasking :=
  s.freeFrom task (s.live.length + 1) s.queue

def createTask (s : MonoTasking) (a task : Nat) (afterCurrent : Bool) : Option MonoTasking :=
  allocateTask
    { s with tasks := fun t =>
        if t = task then ⟨.ready, TASK_CHECKSUM⟩
        else s.tasks t }
    a task afterCurrent

------ The Scheduler

def settle (block : QueuedTask) : QueuedTask :=
  if block.state = .pushed ∨ block.state = .poped then
    { block with state := .waiting }
  else block

def settleTask (s : MonoTasking) (task : Nat) : MonoTasking :=
  { s with tasks := fun t =>
    if t = task then settle (s.tasks t) else s.tasks t }

def settleFrom (s : MonoTasking) : (fuel : Nat) → Nat → Option MonoTasking
| 0, _ => none
| fuel + 1, current =>
  (s.readNode current).bind (fun node =>
    if node.next = 0 then some (s.settleTask node.task)
    else
      (s.settleTask node.task).settleFrom fuel node.next)

/-
  What the second loop does at one node, up to the change to the previous one; `true` if a task has
  been dispatched.
-/
def visit (s : MonoTasking) (task : Nat) : Option (MonoTasking × Bool) :=
  if (s.tasks task).checksum = TASK_CHECKSUM then
    match (s.tasks task).state with
    | .ready =>
      some ({ s.setState task .running with currentTask := task }, true)
    | .terminated =>
      (s.freeTask task).bind (fun s => s.findLastTask.bind (fun last =>
          -- no more tasks to run: the source panics
          if last = 0 then none else some (s, false)))
    | _ => some (s, false)
  else some (s, false)

def scanBack (s : MonoTasking) : (fuel : Nat) → Nat → Option (MonoTasking × Bool)
| 0, _ => none
| fuel + 1, current =>
  (s.readNode current).bind (fun node => (s.visit node.task).bind (fun visited =>
      if visited.2 then some visited
      else
        (visited.1.readNode current).bind (fun node =>
          if node.prev = 0 then some visited
          else visited.1.scanBack fuel node.prev)))

/- The handler, and whether a task was dispatched. -/
def monoSchedulerHelperHandler (s : MonoTasking) : Option (MonoTasking × Bool) :=
  (s.settleFrom s.live.length s.queue).bind (fun s => s.lastNode.bind (fun last =>
      s.scanBack s.live.length last))

end MonoTasking

/- What happens to the queue. -/
inductive MonoCall
| createTask (a task : Nat) (afterCurrent : Bool)
| freeTask (task : Nat)
| schedule
| setState (task : Nat) (state : TaskState)

namespace MonoTasking

def execute (s : MonoTasking) : MonoCall → Option MonoTasking
| .createTask a task afterCurrent =>
  s.createTask a task afterCurrent
| .freeTask task => s.freeTask task
| .schedule =>
  s.monoSchedulerHelperHandler.map Prod.fst
| .setState task state => some (s.setState task state)

def nodesFrom (s : MonoTasking) : (fuel : Nat) → Nat → List Nat
| 0, _ => []
| fuel + 1, a =>
  if a = 0 then []
  else a :: s.nodesFrom fuel (s.nodes a).next

def queued (s : MonoTasking) : List Nat :=
  (s.nodesFrom s.live.length s.queue).map (fun a => (s.nodes a).task)

def Valid (s : MonoTasking) : MonoCall → Prop
| .createTask a task _ =>
  a ≠ 0 ∧ a ∉ s.live ∧ task ≠ 0 ∧ task ∉ s.queued
| .freeTask task => task ∈ s.queued
| .schedule => True
| .setState _ _ => True

instance (s : MonoTasking) (call : MonoCall) : Decidable (s.Valid call) := by
  cases call <;> unfold Valid <;> infer_instance

def Ready (s : MonoTasking) (task : Nat) : Prop :=
  (s.tasks task).checksum = TASK_CHECKSUM ∧ (s.tasks task).state = .ready

instance (s : MonoTasking) (task : Nat) : Decidable (s.Ready task) :=
  inferInstanceAs (Decidable (_ ∧ _))

def Dead (s : MonoTasking) (task : Nat) : Prop :=
  (s.tasks task).checksum = TASK_CHECKSUM ∧ (s.tasks task).state = .terminated

instance (s : MonoTasking) (task : Nat) : Decidable (s.Dead task) :=
  inferInstanceAs (Decidable (_ ∧ _))

def Allowed (s : MonoTasking) : MonoCall → Prop
| .createTask _ _ true =>
  s.queued = [] ∨ s.queued.getLast? = some s.currentTask
| .createTask _ _ false => True
| .freeTask _ => 2 ≤ s.queued.length
| .schedule =>
  ∃ task, s.queued.getLast? = some task ∧ ¬ s.Dead task
| .setState _ _ => True

instance (s : MonoTasking) (call : MonoCall) : Decidable (s.Allowed call) := by
  cases call with
  | createTask a task afterCurrent =>
    cases afterCurrent
    · exact instDecidableTrue
    · exact inferInstanceAs (Decidable (_ ∨ _))
  | freeTask task => exact Nat.decLe _ _
  | schedule =>
    exact inferInstanceAs (Decidable (∃ task, s.queued.getLast? = some task ∧ ¬ s.Dead task))
  | setState task state => exact instDecidableTrue

def readyNearTail (s : MonoTasking) : Option Nat :=
  s.queued.reverse.find? (fun task => s.Ready task)

def Dispatches (s : MonoTasking) (call : MonoCall) : Prop :=
  call = .schedule → ∀ task, s.readyNearTail = some task →
      ∃ s', s.monoSchedulerHelperHandler = some (s', true) ∧
        s'.currentTask = task ∧ (s'.tasks task).state = .running

end MonoTasking

end Fennix
