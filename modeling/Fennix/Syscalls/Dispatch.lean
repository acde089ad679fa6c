import Mathlib.Data.List.FinRange

/-
  The dispatch of system calls.
-/

namespace Fennix

open List

inductive NativeHandler
| unimpl
| exit
| createprocess
| createthread
| getcurrentprocess
| getcurrentthread
| getcurrentprocessid
| getcurrentthreadid
| getargc
| getargv
| getenvp
| getschedulemode
| createtask
| pushtask
| poptask
| requestpage
| freepage
| requestpages
| freepages
| shutdown
| reboot
| fadebootlogo
| fbaddress
| fbsize
| fbwidth
| fbheight
| fbppsl
| getlastkeyboardscancode
| fileOpen
| fileOpenWithParent
| fileClose
| fileRead
| fileWrite
| filesize
| filefullpath
| filechildrensize
| filegetchildren
| usleep
| beep
| cli
| sti
| dbg
deriving DecidableEq

inductive SyscallHandler
| native (handler : NativeHandler)
| linux (number : Fin 336)
deriving DecidableEq

def fennixSyscallsTable : List SyscallHandler :=
  ([.unimpl, .exit, .createprocess, .createthread, .getcurrentprocess, .getcurrentthread,
    .getcurrentprocessid, .getcurrentthreadid, .getargc,
    .getargv, .getenvp, .getschedulemode, .createtask,
    .pushtask, .poptask, .requestpage, .freepage,
    .requestpages, .freepages, .unimpl, .unimpl, .unimpl,
    .shutdown, .reboot, .fadebootlogo, .fbaddress, .fbsize,
    .fbwidth, .fbheight, .fbppsl, .unimpl, .unimpl,
    .getlastkeyboardscancode, .fileOpen, .fileOpenWithParent,
    .fileClose, .fileRead, .fileWrite, .unimpl, .filesize,
    .unimpl, .unimpl, .unimpl, .unimpl, .unimpl,
    .filefullpath, .filechildrensize, .filegetchildren,
    .usleep, .beep, .cli, .sti, .dbg] :
    List NativeHandler).map .native

/-
  `LinuxSyscallsTable`: there is an entry for each number up to 335, and each has a function of its
  own.
-/
def linuxSyscallsTable : List SyscallHandler :=
  (finRange 336).map .linux

structure SyscallsRegs where
  rbp : UInt64
  rdi : UInt64
  rsi : UInt64
  rdx : UInt64
  rcx : UInt64
  rbx : UInt64
  rax : UInt64
  intNum : UInt64

inductive CodePointer
| handler (h : SyscallHandler)
| address (a : UInt64)
deriving DecidableEq

structure Dispatch where
  readAt : Option Nat
  call : Option (CodePointer × List UInt64)
  answer : Option UInt64

/- `-0xdeadca11`, of the type `unsigned int`. -/
def deadcall : UInt64 := 0x215235ef

def failedcall : UInt64 := -0xfa11edca11

def sizeofPointer : Nat := 8

/-
  Both handlers: the check against `sizeof` of the table, the entry, and the call of the entry if it
  is not null.
-/
def handleSyscalls (table : List SyscallHandler) (behind : Nat → Option CodePointer)
    (refused : Dispatch) (failed : UInt64) (arguments : List UInt64) (rax : UInt64) : Dispatch :=
  if rax.toNat > sizeofPointer * table.length then refused
  else
    match (match table[rax.toNat]? with
        | some h => some (.handler h)
        | none => behind rax.toNat) with
    | none => ⟨some rax.toNat, none, some failed⟩
    | some pointer =>
      ⟨some rax.toNat, some (pointer, arguments), none⟩

variable (behind : Nat → Option CodePointer) (this : UInt64) (regs : SyscallsRegs)

def handleFennixSyscalls : Dispatch :=
  handleSyscalls fennixSyscallsTable behind
    ⟨none, some (.handler (.native .unimpl), [regs.rax, regs.rbx, regs.rcx, regs.rdx, regs.rsi,
        regs.rdi, regs.rbp]), some deadcall⟩
    failedcall
    [this, regs.rbx, regs.rdx, regs.rsi, regs.rdi]
    regs.rax

def handleLinuxSyscalls : Dispatch :=
  handleSyscalls linuxSyscallsTable behind ⟨none, none, some (-1)⟩ (-1) [regs.intNum, 0, 0, 0, 0]
    regs.rax

structure Dispatch.Bounded (table : List SyscallHandler) (d : Dispatch) : Prop where
  reads : ∀ i, d.readAt = some i → i < table.length
  calls : ∀ pointer arguments, d.call = some (pointer, arguments) →
      ∃ h ∈ table, pointer = .handler h

section Bounds

variable {table : List SyscallHandler} {behind} {refused : Dispatch}

theorem handleSyscalls_readAt {failed rax : UInt64} {arguments : List UInt64}
    (hLow : rax.toNat ≤ sizeofPointer * table.length) :
    (handleSyscalls table behind refused failed arguments rax).readAt = some rax.toNat := by
  unfold handleSyscalls
  rw [if_neg (by omega)]
  split
  · rfl
  · rfl

theorem handleSyscalls_bounded_iff (hRefused : refused.Bounded table) (failed rax : UInt64)
    (arguments : List UInt64) :
    (handleSyscalls table behind refused failed arguments rax).Bounded table ↔
    rax.toNat < table.length ∨ 8 * table.length < rax.toNat := by
  constructor
  · intro hBounded
    by_cases hHigh : rax.toNat ≤ sizeofPointer * table.length
    · exact .inl (hBounded.reads rax.toNat (handleSyscalls_readAt hHigh))
    · exact .inr (Nat.lt_of_not_le hHigh)
  rintro (hLow | hHigh)
  · have hPass : rax.toNat ≤ sizeofPointer * table.length := by
      unfold sizeofPointer
      omega
    constructor
    · intro i hRead
      rw [handleSyscalls_readAt hPass] at hRead
      cases hRead
      exact hLow
    intro pointer args hCall
    rw [handleSyscalls, if_neg (by omega), getElem?_eq_getElem hLow] at hCall
    cases hCall
    exact ⟨_, getElem_mem hLow, rfl⟩
  unfold handleSyscalls sizeofPointer
  rw [if_pos hHigh]
  exact hRefused

end Bounds

theorem handleFennixSyscalls_bounded_iff :
    (handleFennixSyscalls behind this regs).Bounded fennixSyscallsTable ↔
    regs.rax.toNat < fennixSyscallsTable.length ∨
    8 * fennixSyscallsTable.length < regs.rax.toNat := by
  apply handleSyscalls_bounded_iff
  -- a number that is refused goes to the first handler
  constructor
  · intro i hRead
    cases hRead
  intro pointer arguments hCall
  cases hCall
  exact ⟨_, mem_cons_self, rfl⟩

theorem handleLinuxSyscalls_bounded_iff :
    (handleLinuxSyscalls behind regs).Bounded linuxSyscallsTable ↔
    regs.rax.toNat < linuxSyscallsTable.length ∨
    8 * linuxSyscallsTable.length < regs.rax.toNat := by
  apply handleSyscalls_bounded_iff
  constructor
  · intro i hRead
    cases hRead
  · intro pointer arguments hCall
    cases hCall

theorem dispatch_bounded_iff :
    ((handleFennixSyscalls behind this regs).Bounded fennixSyscallsTable ↔
    regs.rax.toNat < 53 ∨ 424 < regs.rax.toNat) ∧
    ((handleLinuxSyscalls behind regs).Bounded linuxSyscallsTable ↔
    regs.rax.toNat < 336 ∨ 2688 < regs.rax.toNat) := by
  have hFennix := handleFennixSyscalls_bounded_iff behind this regs
  have hLinux := handleLinuxSyscalls_bounded_iff behind regs
  rw [show fennixSyscallsTable.length = 53 from rfl] at hFennix
  rw [show linuxSyscallsTable.length = 336 by
    simp [linuxSyscallsTable]] at hLinux
  exact ⟨hFennix, hLinux⟩

theorem first_number_behind_tables : ¬ (handleFennixSyscalls (fun _ => some (.address 7)) 0
    ⟨0, 0, 0, 0, 0, 0, 53, 0⟩).Bounded fennixSyscallsTable ∧
    ¬ (handleLinuxSyscalls (fun _ => some (.address 7)) ⟨0, 0, 0, 0, 0, 0, 336, 0⟩).Bounded
    linuxSyscallsTable := by
  rw [handleFennixSyscalls_bounded_iff, handleLinuxSyscalls_bounded_iff,
    show linuxSyscallsTable.length = 336 by
      simp [linuxSyscallsTable]]
  decide

end Fennix
