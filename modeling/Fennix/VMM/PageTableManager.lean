import Fennix.Library.Memory
import Fennix.VMM.PageDirectoryEntry

/-
  The page table manager and the walk of the processor.

  Tables are pages of identity-mapped memory. `RequestPage` is represented by the pages it returns,
  in order; the state counts how many were taken.
-/

namespace Fennix

def readEntry (m : Memory) (table : BitVec 64) (i : Fin 512) : PageDirectoryEntry :=
  ⟨BitVec.ofNat 64 (m.load (table.toNat + 8 * i.val) 8)⟩

def writeEntry (m : Memory) (table : BitVec 64) (i : Fin 512) (e : PageDirectoryEntry) : Memory :=
  m.store (table.toNat + 8 * i.val) 8 e.raw.toNat

structure PagingState where
  memory : Memory
  requested : Nat

structure PageTableManager where
  pml4 : BitVec 64

namespace PageTableManager

section Mapping

variable (frames : Nat → BitVec 64)

/- The table below an entry, created when the entry is not present. -/
def nextTable (writeBack : Bool) (flags table : BitVec 64) (i : Fin 512)
    (s : PagingState) : BitVec 64 × PagingState :=
  let pde := readEntry s.memory table i
  if pde.getFlag PTFlag.P then (pde.page, s)
  else
    let next := frames s.requested
    let cleared := s.memory.fill next.toNat 0 4096
    let memory :=
      if writeBack then
        writeEntry cleared table i (pde.pointTo next flags)
      else cleared
    (next, ⟨memory, s.requested + 1⟩)

def mapMemory (manager : PageTableManager) (s : PagingState)
    (virtualAddress physicalAddress flags : BitVec 64)
    (pageTable4 : BitVec 64) : Option PagingState :=
  if manager.pml4 = 0 ∧ pageTable4 = 0 then none
  else
    let indexer := PageMapIndexer.of virtualAddress
    let own := decide (pageTable4 = 0)
    let top := if own then manager.pml4 else pageTable4
    let (pdp, s) := nextTable frames own flags top indexer.pdp s
    let (pd, s) := nextTable frames true flags pdp indexer.pd s
    let (pt, s) := nextTable frames true flags pd indexer.pt s
    let pde := readEntry s.memory pt indexer.p
    some
      { s with memory := writeEntry s.memory pt indexer.p (pde.pointTo physicalAddress flags) }

end Mapping

/- `UnmapMemory` clears the flags of a copy of the first entry and never writes it back. -/
def unmapMemory (manager : PageTableManager) (s : PagingState)
    (virtualAddress pageTable4 : BitVec 64) : PageDirectoryEntry × PagingState :=
  let indexer := PageMapIndexer.of virtualAddress
  let top :=
    if pageTable4 = 0 then manager.pml4 else pageTable4
  let pde := readEntry s.memory top indexer.pdp
  (pde.clearFlags, s)

end PageTableManager

inductive Translation where
| notPresent
| reservedBit
| page (address : BitVec 64)
deriving DecidableEq, Repr

/- The 4-level walk, down to the 4 KiB page that holds the address. -/
def walk (m : Memory) (pml4 virtualAddress : BitVec 64) : Translation :=
  let indexer := PageMapIndexer.of virtualAddress
  let pml4e := readEntry m pml4 indexer.pdp
  if pml4e.getFlag PTFlag.P = false then .notPresent
  else if pml4e.getFlag PTFlag.PS then .reservedBit
  else
    let pdpe := readEntry m pml4e.page indexer.pd
    if pdpe.getFlag PTFlag.P = false then .notPresent
    else if pdpe.getFlag PTFlag.PS then
      .page (pdpe.page &&& ~~~0x3FFFFFFF ||| virtualAddress &&& 0x3FFFF000)
    else
      let pde := readEntry m pdpe.page indexer.pt
      if pde.getFlag PTFlag.P = false then .notPresent
      else if pde.getFlag PTFlag.PS then
        .page (pde.page &&& ~~~0x1FFFFF ||| virtualAddress &&& 0x1FF000)
      else
        let pte := readEntry m pde.page indexer.p
        if pte.getFlag PTFlag.P = false then .notPresent
        else .page pte.page

end Fennix
