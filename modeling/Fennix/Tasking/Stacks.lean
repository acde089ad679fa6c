import Fennix.Tasking.Runs
import Fennix.VMM.KernelTables

/-
  Stacks of new threads and tasks.

  `CreateThread` and `CreateTask` install that address as the initial stack pointer, while a stack
  grows downwards: the bytes the first pushes write lie below the page that was reserved, in its
  neighbour.
-/

------ The Stack Allocator

namespace Fennix

open PageFrameAllocator KernelTables List Run
open Multitasking (ThreadRequest)

def stackSize : Nat := 0x1000

def allocateStack (pml4 : BitVec 64) (user : Bool) (s : PageFrameAllocator) :
    Option (Nat × PageFrameAllocator) :=
  match s.requestPage with
  | (none, _) => none
  | (some address, s) =>
    if user then
      (mapMemory pml4 s (BitVec.ofNat 64 address) (BitVec.ofNat 64 address)
        (PTFlag.RW ||| PTFlag.US)).map (fun s => (address, s))
    else some (address, s)

def poke (s : PageFrameAllocator) (address value : Nat) : PageFrameAllocator :=
  { s with memory := s.memory.store address 8 value }

structure TaskControlBlock where
  id : Nat
  userMode : Bool
  stack : Nat
  pml4 : Nat
  regs : ThreadRegisters
  gs : Nat
  fs : Nat

structure TaskRequest where
  address : Nat
  instructionPointer : Nat
  firstArgument : Nat
  secondArgument : Nat
  userMode : Bool
deriving DecidableEq, Repr

structure InstalledStack where
  page : Nat
  rsp : Nat
deriving DecidableEq, Repr

/- Both schedulers, over one allocator. -/
structure TaskingMachine where
  tasking : Multitasking
  taskIDs : Nat
  task : Nat → TaskControlBlock
  kernelPML4 : BitVec 64
  threadDoExit : Nat
  monoTaskingTaskExit : Nat
  allocator : PageFrameAllocator
  installed : List InstalledStack

namespace TaskingMachine

def ValidParent (s : TaskingMachine) (parent : Nat) : Prop :=
  parent ≠ 0 ∧ (s.tasking.pcb parent).checksum = processChecksum ∧
      (s.tasking.pcb parent).elevation ≠ .unknownElevation

instance (s : TaskingMachine) (parent : Nat) : Decidable (s.ValidParent parent) :=
  inferInstanceAs (Decidable (_ ∧ _))

/- `CreateThread` with the stack it allocates, and the address it returns. -/
def createThread (s : TaskingMachine) (r : ThreadRequest) : Option (TaskingMachine × Nat) :=
  if s.ValidParent r.parent then
    let user :=
      decide ((s.tasking.pcb r.parent).elevation = .user)
    match allocateStack s.kernelPML4 user s.allocator with
    | none => none
    | some (stack, allocator) =>
      let (tasking, thread) := s.tasking.createThread { r with stack := stack }
      let rsp := (tasking.tcb thread).registers.rsp
      some
        ({ s with
            tasking := tasking
            allocator :=
              if user then allocator
              else poke allocator rsp s.threadDoExit
            installed := s.installed ++ [⟨stack, rsp⟩] },
          thread)
  else
    let (tasking, thread) := s.tasking.createThread r
    some ({ s with tasking := tasking }, thread)

def taskContext (r : TaskRequest) (stack : Nat) : ThreadRegisters :=
  { ThreadRegisters.zero with
    cs :=
      if r.userMode then Multitasking.gdtUserCode
      else Multitasking.gdtKernelCode
    ds :=
      if r.userMode then Multitasking.gdtUserData
      else Multitasking.gdtKernelData
    ss :=
      if r.userMode then Multitasking.gdtUserData
      else Multitasking.gdtKernelData
    rflags := Multitasking.startFlags
    rsp := stack
    rip := r.instructionPointer
    rdi := r.firstArgument
    rsi := r.secondArgument }

def createTask (s : TaskingMachine) (r : TaskRequest) : Option TaskingMachine :=
  match allocateStack s.kernelPML4 r.userMode s.allocator with
  | none => none
  | some (stack, allocator) =>
    let task : TaskControlBlock :=
      { id := s.taskIDs
        userMode := r.userMode
        stack := stack
        pml4 := s.kernelPML4.toNat
        regs := taskContext r stack
        gs := if r.userMode then 0 else r.address
        fs := s.tasking.fsBase }
    some
      { s with
        taskIDs := u64 (s.taskIDs + 1)
        task := fun t =>
          if t = r.address then task else s.task t
        allocator :=
          if r.userMode then allocator
          else poke allocator task.regs.rsp s.monoTaskingTaskExit
        installed :=
          s.installed ++ [⟨stack, task.regs.rsp⟩] }

end TaskingMachine

inductive StackEvent where
| createThread (r : ThreadRequest)
| createTask (r : TaskRequest)
| pages (call : AllocatorCall)
deriving DecidableEq, Repr

def StackStep (s : TaskingMachine) : StackEvent → TaskingMachine → Prop
| .createThread r, s' =>
  ∃ thread, s.createThread r = some (s', thread)
| .createTask r, s' => s.createTask r = some s'
| .pages call, s' =>
  call.Does s.allocator s'.allocator ∧ s' = { s with allocator := s'.allocator }

def Installs (s : TaskingMachine) : StackEvent → Prop
| .createThread r => s.ValidParent r.parent
| .createTask _ => True
| .pages _ => False

/-
  The bytes a push can reach before `stackSize` of them are used up lie in the page reserved for the
  stack.
-/
def StackOwned (i : InstalledStack) : Prop :=
  ∀ k, 0 < k → k ≤ stackSize → sub64 i.rsp k / 4096 = i.page / 4096

theorem not_stackOwned_of_page {i : InstalledStack} (hPage : i.page % 4096 = 0)
    (hBase : i.rsp = i.page) : ¬ StackOwned i := by
  intro hOwned
  have hFirst := hOwned 1 (by decide) (by decide)
  rw [hBase] at hFirst
  unfold sub64 u64 at hFirst
  omega

variable {s s' : TaskingMachine} {pml4 : BitVec 64}
variable {allocator : PageFrameAllocator}

theorem allocateStack_page {user : Bool} {page : Nat} {allocator' : PageFrameAllocator}
    (h : allocateStack pml4 user allocator = some (page, allocator')) : page % 4096 = 0 := by
  unfold allocateStack at h
  rcases hRequest : allocator.requestPage with ⟨_ | address, s₁⟩
  · rw [hRequest] at h
    cases h
  have hAddress : page = address := by
    rw [hRequest] at h
    cases user with
    | false =>
      cases h
      rfl
    | true =>
      rcases Option.map_eq_some_iff.mp h with ⟨s₂, _, hEq⟩
      exact (Prod.mk.inj hEq).1.symm
  rcases requestPage_cases hRequest with ⟨index, _, _, _, _, hAnswer, _⟩ | ⟨_, hNone, _⟩
  · rw [hAddress, Option.some.inj hAnswer]
    unfold pageAddress u64
    omega
  · cases hNone

variable {r : ThreadRequest}

private theorem startContext_rsp {elevation : CBElevation} {offset gs : Nat}
    {registers : ThreadRegisters}
    (h : Multitasking.startContext elevation offset r = some (registers, gs)) :
    registers.rsp = r.stack := by
  cases elevation <;> cases h <;> rfl

theorem createThread_rsp (t : Multitasking) (r : ThreadRequest) (hParent : r.parent ≠ 0)
    (hChecksum : (t.pcb r.parent).checksum = processChecksum)
    (hElevation : (t.pcb r.parent).elevation ≠ .unknownElevation) :
    ((t.createThread r).1.tcb (t.createThread r).2).registers.rsp = r.stack := by
  have hValid : ¬ (r.parent = 0 ∨ (t.pcb r.parent).checksum ≠ processChecksum) := by
    rintro (hNull | hWrong)
    · exact hParent hNull
    · exact hWrong hChecksum
  unfold Multitasking.createThread
  rw [if_neg hValid]
  dsimp only
  cases hContext : Multitasking.startContext (t.pcb r.parent).elevation
    (t.pcb r.parent).offset r with
  | none =>
    cases hElev : (t.pcb r.parent).elevation with
    | unknownElevation => exact absurd hElev hElevation
    | kernel => rw [hElev] at hContext; cases hContext
    | system => rw [hElev] at hContext; cases hContext
    | idle => rw [hElev] at hContext; cases hContext
    | user => rw [hElev] at hContext; cases hContext
  | some context =>
    rcases context with ⟨registers, gs⟩
    have hRsp := startContext_rsp hContext
    simpa [Multitasking.updateTCB, Multitasking.updatePCB] using hRsp

theorem StackStep.installed_cases {e : StackEvent} (hStep : StackStep s e s') :
    (Installs s e ∧ ∃ page, page % 4096 = 0 ∧ s'.installed = s.installed ++ [⟨page, page⟩]) ∨
    ¬ Installs s e ∧ s'.installed = s.installed := by
  cases e with
  | createThread r =>
    rcases hStep with ⟨thread, hStep⟩
    unfold TaskingMachine.createThread at hStep
    by_cases hValid : s.ValidParent r.parent
    · rw [if_pos hValid] at hStep
      refine Or.inl ⟨hValid, ?_⟩
      dsimp only at hStep
      split at hStep
      · cases hStep
      rename_i stack allocator hStack
      cases hStep
      refine ⟨stack, allocateStack_page hStack, ?_⟩
      have hRsp := createThread_rsp s.tasking { r with stack := stack } hValid.1 hValid.2.1
        hValid.2.2
      dsimp only at hRsp ⊢
      rw [hRsp]
    rw [if_neg hValid] at hStep
    cases hStep
    exact .inr ⟨hValid, rfl⟩
  | createTask r =>
    refine Or.inl ⟨trivial, ?_⟩
    have hTask : s.createTask r = some s' := hStep
    unfold TaskingMachine.createTask at hTask
    split at hTask
    · cases hTask
    rename_i stack allocator hStack
    cases hTask
    exact ⟨stack, allocateStack_page hStack, rfl⟩
  | pages call =>
    rcases hStep with ⟨_, hEq⟩
    rw [hEq]
    exact .inr ⟨not_false, rfl⟩

variable {start : TaskingMachine} {events : List StackEvent}

theorem installed_not_owned (hStart : start.installed = []) (hRun : Run StackStep start events s) :
    ∀ i ∈ s.installed, ¬ StackOwned i := by
  refine invariant (P := fun s => ∀ i ∈ s.installed, ¬ StackOwned i) ?_ ?_ hRun
  · rw [hStart]
    intro i hi
    cases hi
  intro s e s' hBefore hStep
  rcases hStep.installed_cases with ⟨_, page, hPage, hNew⟩ | ⟨_, hSame⟩
  · rw [hNew]
    intro i hi
    rcases mem_append.mp hi with hOld | hLast
    · exact hBefore i hOld
    · rw [mem_singleton.mp hLast]
      exact not_stackOwned_of_page hPage rfl
  · rw [hSame]
    exact hBefore

def QuietStep (s : TaskingMachine) (e : StackEvent) (s' : TaskingMachine) : Prop :=
  StackStep s e s' ∧ ¬ Installs s e

theorem installed_nil_iff_quiet (hStart : start.installed = [])
    (hRun : Run StackStep start events s) : s.installed = [] ↔ Run QuietStep start events s := by
  constructor
  · intro hNone
    induction hRun with
    | nil => exact nil
    | snoc hRun hStep ih =>
      rcases hStep.installed_cases with ⟨_, page, _, hNew⟩ | ⟨hQuiet, hSame⟩
      · rw [hNew] at hNone
        exact absurd hNone (append_ne_nil_of_right_ne_nil _ (cons_ne_nil _ _))
      · rw [hSame] at hNone
        exact snoc (ih hNone) ⟨hStep, hQuiet⟩
  intro hQuiet
  refine invariant (P := fun s => s.installed = []) hStart ?_ hQuiet
  intro s e s' hNone hStep
  rcases hStep.1.installed_cases with ⟨hInstalls, _⟩ | ⟨_, hSame⟩
  · exact absurd hInstalls hStep.2
  · rw [hSame]
    exact hNone

theorem stacks_owned_iff {start : TaskingMachine} {events : List StackEvent}
    (hStart : start.installed = []) (hRun : Run StackStep start events s) :
    (∀ i ∈ s.installed, StackOwned i) ↔ Run QuietStep start events s := by
  rw [← installed_nil_iff_quiet hStart hRun]
  have hNever := installed_not_owned hStart hRun
  constructor
  · intro hOwned
    cases hList : s.installed with
    | nil => rfl
    | cons i rest =>
      have hi : i ∈ s.installed := by
        rw [hList]
        exact mem_cons_self
      exact absurd (hOwned i hi) (hNever i hi)
  intro hNone
  rw [hNone]
  intro i hi
  cases hi

------ Two Threads

def stackStart : TaskingMachine where
  tasking :=
    emptyTasks.createProcess { sampleProcess with elevation := .kernel }
  taskIDs := 0
  task := fun _ =>
    ⟨0, false, 0, 0, ThreadRegisters.zero, 0, 0⟩
  kernelPML4 := 0x4000
  threadDoExit := 0xFFFFFFFF80001000
  monoTaskingTaskExit := 0xFFFFFFFF80002000
  allocator := boot (fun _ => 0) holedMap
  installed := []

theorem createThread_kernel {address : Nat} (hValid : s.ValidParent r.parent)
    (hKernel : (s.tasking.pcb r.parent).elevation ≠ .user)
    (hRequest : s.allocator.requestPage = (some address, allocator)) :
    ∃ s', StackStep s (.createThread r) s' ∧ s'.tasking = (s.tasking.createThread
    { r with stack := address }).1 ∧
    s'.allocator = poke allocator address s.threadDoExit ∧ s'.installed =
      s.installed ++ [⟨address, address⟩] := by
  have hStack : allocateStack s.kernelPML4 (decide ((s.tasking.pcb r.parent).elevation =
    .user)) s.allocator = some (address, allocator) := by
    unfold allocateStack
    rw [hRequest, decide_eq_false hKernel]
    rfl
  have hRsp := createThread_rsp s.tasking { r with stack := address } hValid.1 hValid.2.1 hValid.2.2
  have hCreate : s.createThread r = some ({ s with
      tasking := (s.tasking.createThread { r with stack := address }).1
      allocator := poke allocator address s.threadDoExit
      installed := s.installed ++ [⟨address, address⟩] },
    (s.tasking.createThread { r with stack := address }).2) := by
    unfold TaskingMachine.createThread
    rw [if_pos hValid]
    dsimp only at hRsp ⊢
    rw [hStack]
    dsimp only
    rw [hRsp, decide_eq_false hKernel]
    rfl
  exact ⟨_, ⟨_, hCreate⟩, rfl, rfl, rfl⟩

theorem used_poke {index : Nat} (hApart : PageApart allocator.pageBitmap index) (value q : Nat) :
    (poke allocator (index * 4096) value).used q = allocator.used q := by
  refine used_setMemory ?_ q
  intro x hx
  apply Memory.store_outside
  by_contra hInside
  exact hApart x (by omega) hx

/- The pages below `k` are in use, those from it on are free, and the bitmap lies below it. -/
structure FreeAbove (k : Nat) (a : PageFrameAllocator) : Prop where
  bits : a.bits = 32768
  hint : a.pageBitmapIndex ≤ k
  used : ∀ q ≤ 32768, (a.used q = true ↔ q < k)
  apart : ∀ q, k ≤ q → q < 32768 → PageApart a.pageBitmap q

theorem freeAbove_stackStart : FreeAbove 260 stackStart.allocator := by
  have hStart : stackStart.allocator = boot (fun _ => 0) holedMap := by
    rw [stackStart]
  have hBits := boot_holedMap_bits (fun _ => 0)
  rw [hStart]
  refine ⟨hBits, ?_, fun q hq => used_boot_holedMap (fun _ => 0) hq, ?_⟩
  · rw [boot_pageBitmapIndex]
    omega
  · intro q hLow hHigh
    apply pageApart_boot (fun _ => 0) holedMap (by omega)
    rw [← Bool.not_eq_true, used_boot_holedMap (fun _ => 0) (by omega)]
    omega

/- A kernel thread is given the next page. -/
theorem FreeAbove.createThread {k : Nat} (h : FreeAbove k s.allocator) (hk : k < 32768)
    (hValid : s.ValidParent r.parent) (hKernel : (s.tasking.pcb r.parent).elevation ≠ .user) :
    ∃ s', StackStep s (.createThread r) s' ∧
    s'.tasking = (s.tasking.createThread { r with stack := k * 4096 }).1 ∧
    s'.installed = s.installed ++ [⟨k * 4096, k * 4096⟩] ∧ FreeAbove (k + 1) s'.allocator := by
  have hBits := h.bits
  have hClear : s.allocator.used k = false := by
    rw [← Bool.not_eq_true, h.used k (by omega)]
    omega
  rcases requestPage_first k (by omega) h.hint (by omega) hClear
    (fun q _ hq => (h.used q (by omega)).mpr hq) with ⟨a, hRequest, hHint, hUsed⟩
  have hOnly := onlyBits_requestPage hRequest
  have hApart : ∀ q, k ≤ q → q < 32768 → PageApart a.pageBitmap q := by
    rw [hOnly.pageBitmap]
    exact h.apart
  rcases createThread_kernel hValid hKernel hRequest with
    ⟨s', hStep, hTasking, hAllocator, hInstalled⟩
  refine ⟨s', hStep, hTasking, hInstalled, ?_⟩
  rw [hAllocator]
  refine ⟨hOnly.bits.trans hBits, Nat.le_succ_of_le (Nat.le_of_eq hHint), ?_, ?_⟩
  · intro q hq
    rw [used_poke (hApart k (Nat.le_refl k) hk), hUsed, h.used q hq]
    omega
  · exact fun q hLow hHigh => hApart q (Nat.le_of_succ_le hLow) hHigh

theorem push_reaches_other_stack : ∃ s, Run StackStep stackStart
    [.createThread sampleThread, .createThread { sampleThread with address := 0x3000 }] s ∧
    s.installed = [⟨0x104000, 0x104000⟩, ⟨0x105000, 0x105000⟩] ∧ ∀ k, 0 < k → k ≤ stackSize →
    sub64 0x105000 k / 4096 = 0x104000 / 4096 := by
  rcases freeAbove_stackStart.createThread (r := sampleThread) (by omega) (by decide)
    (by decide) with ⟨s₁, hStep₁, hTasking₁, hInstalled₁, hAbove⟩
  have hValid : s₁.ValidParent sampleThread.parent := by
    unfold TaskingMachine.ValidParent
    rw [hTasking₁]
    decide
  have hKernel : (s₁.tasking.pcb sampleThread.parent).elevation ≠ .user := by
    rw [hTasking₁]
    decide
  rcases hAbove.createThread (r := { sampleThread with address := 0x3000 }) (by omega)
    hValid hKernel with ⟨s₂, hStep₂, _, hInstalled₂, _⟩
  refine ⟨s₂, snoc (snoc nil hStep₁) hStep₂, ?_, ?_⟩
  · rw [hInstalled₂, hInstalled₁]
    rfl
  intro k hPos hLe
  unfold stackSize at hLe
  rw [sub64_of_le (by omega) (by omega)]
  omega

theorem stacks_owned_iff_freed : ∃ s, Run StackStep stackStart
    [.createThread sampleThread, .pages (.client (.freePage 0x104000))] s ∧
    s.installed = [⟨0x104000, 0x104000⟩] ∧ ((∀ i ∈ s.installed, StackOwned i) ↔
    Run QuietStep stackStart
      [.createThread sampleThread, .pages (.client (.freePage 0x104000))] s) := by
  rcases freeAbove_stackStart.createThread (r := sampleThread) (by omega) (by decide)
    (by decide) with ⟨s₁, hStep, _, hInstalled, _⟩
  have hFreed : StackStep s₁ (.pages (.client (.freePage 0x104000)))
      { s₁ with allocator := s₁.allocator.freePage 0x104000 } :=
    ⟨rfl, rfl⟩
  have hRun := snoc (snoc nil hStep) hFreed
  exact ⟨_, hRun, hInstalled, stacks_owned_iff rfl hRun⟩

end Fennix
