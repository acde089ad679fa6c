import Fennix.FileSystem.Virtual
import Fennix.Library.Bytes
import Fennix.Tasking.Stacks

/-
  Loading a program.

  `ExecuteBinary` requests a page for a new root table and calls the loader for the type of the
  file, which reads the file again, requests pages for the image and copies segments or sections.
-/

namespace Fennix

open PageFrameAllocator KernelTables
open Multitasking (ProcessRequest ThreadRequest)

inductive BinType where
| unknown
| elf
| pe
| ne
| mz
deriving DecidableEq, Repr

inductive TaskingMode where
| none
| mono
| multi
deriving DecidableEq, Repr

/- An open file. -/
structure BinaryFile where
  status : FileStatus
  flags : NodeFlags
  length : Nat
  contents : List (BitVec 8)
  fits : contents.length ≤ (length / 4096 + 1) * 4096

namespace BinaryFile

def pageCount (file : BinaryFile) : Nat :=
  file.length / 4096 + 1

def Readable (file : BinaryFile) : Prop :=
  file.status = .ok ∧ file.flags = .fsFile

instance (file : BinaryFile) : Decidable file.Readable :=
  inferInstanceAs (Decidable (_ ∧ _))

end BinaryFile

structure RetStructData where
  offset : Nat
  entry : Nat
deriving DecidableEq, Repr

------ Pages and Copies

structure ByteRange where
  address : Nat
  size : Nat
deriving DecidableEq, Repr

structure LoadState where
  allocator : PageFrameAllocator
  granted : List PageRange
  copied : List ByteRange

namespace LoadState

def memory (s : LoadState) : Memory :=
  s.allocator.memory

def setMemory (s : LoadState) (m : Memory) : LoadState :=
  { s with allocator := { s.allocator with memory := m } }

def requestPages (fuel : Nat) (s : LoadState) (pageCount : Nat) : Option (Nat × LoadState) :=
  match s.allocator.requestPages fuel pageCount with
  | none => none
  | some (address, allocator) =>
    some (address,
      { s with allocator := allocator, granted := s.granted ++ [⟨address, pageCount⟩] })

def requestPage (s : LoadState) : Option (Nat × LoadState) :=
  match s.allocator.requestPage with
  | (none, _) => none
  | (some address, allocator) =>
    some (address,
      { s with allocator := allocator, granted := s.granted ++ [⟨address, 1⟩] })

def freePages (s : LoadState) (r : PageRange) : LoadState :=
  { s with allocator := s.allocator.freePages r.address r.pageCount }

def freePage (s : LoadState) (address : Nat) : LoadState :=
  { s with allocator := s.allocator.freePage address }

def read (s : LoadState) (file : BinaryFile) (buffer : Nat) : LoadState :=
  s.setMemory (s.memory.place buffer file.contents)

def clear (s : LoadState) (r : ByteRange) : LoadState :=
  { s.setMemory (s.memory.fill r.address 0 r.size) with copied := s.copied ++ [r] }

def copy (s : LoadState) (r : ByteRange) (source : Nat) : LoadState :=
  { s.setMemory (s.memory.copy r.address source r.size) with copied := s.copied ++ [r] }

def mapPages (s : LoadState) (pml4 flags : BitVec 64) (r : PageRange) : Option LoadState :=
  ((List.range r.pageCount).foldlM (fun allocator i => mapMemory pml4 allocator
        (BitVec.ofNat 64 (r.address + i * 4096))
        (BitVec.ofNat 64 (r.address + i * 4096)) flags)
    s.allocator).map (fun allocator => { s with allocator := allocator })

def mapUserPages (s : LoadState) (pml4 : BitVec 64) : PageRange → Option LoadState :=
  s.mapPages pml4 (PTFlag.RW ||| PTFlag.US)

def mapKernelPages (s : LoadState) (pml4 : BitVec 64) : PageRange → Option LoadState :=
  s.mapPages pml4 PTFlag.RW

def mapImage (s : LoadState) (pml4 : BitVec 64) (elevation : CBElevation)
    (r : PageRange) : Option LoadState :=
  if elevation = .user then s.mapUserPages pml4 r
  else s.mapKernelPages pml4 r

end LoadState

------ The Buffer of a File

/-
  What the five readers of a file share: the file is read into pages of its own, which are given
  back at the label `Cleanup` unless the result keeps them.
-/
def withFileBuffer {α : Type} (failed : α) (keeps : α → Bool) (fuel : Nat) (file : BinaryFile)
    (body : PageRange → LoadState → Option (α × LoadState))
    (s : LoadState) : Option (α × LoadState) :=
  if file.Readable then do
    let (address, s) ← s.requestPages fuel file.pageCount
    let fileBuffer : PageRange := ⟨address, file.pageCount⟩
    let (result, s) ← body fileBuffer (s.read file address)
    if keeps result then some (result, s)
    else some (result, s.freePages fileBuffer)
  else some (failed, s)

structure ImageDosHeader where
  e_magic : Nat
  e_ip : Nat
  e_lfanew : Nat

def imageDosHeader (m : Memory) (a : Nat) : ImageDosHeader :=
  ⟨m.load a 2, m.load (a + 20) 2, m.load (a + 60) 2⟩

def binaryType (m : Memory) (fileBuffer : Nat) : BinType :=
  let mz := imageDosHeader m fileBuffer
  let header := u64 (fileBuffer + mz.e_lfanew)
  if m.bytes fileBuffer 4 = [0x7F, 0x45, 0x4C, 0x46] then .elf
  else if mz.e_magic = 0x5A4D then
    if m.load header 2 = 0x454E then .ne
    else if m.load header 4 = 0x00004550 then .pe
    else .mz
  else .unknown

def getBinaryType (fuel : Nat) (file : BinaryFile) : LoadState → Option (BinType × LoadState) :=
  withFileBuffer .unknown (fun _ => false) fuel file
    (fun fileBuffer s => some (binaryType s.memory fileBuffer.address, s))

structure Elf64Ehdr where
  e_class : Nat
  e_type : Nat
  e_entry : Nat
  e_phoff : Nat
  e_phnum : Nat

def elf64Ehdr (m : Memory) (a : Nat) : Elf64Ehdr :=
  ⟨m.load (a + 4) 1, m.load (a + 16) 2, m.load (a + 24) 8, m.load (a + 32) 8, m.load (a + 56) 2⟩

structure Elf64Phdr where
  p_type : Nat
  p_offset : Nat
  p_vaddr : Nat
  p_filesz : Nat
  p_memsz : Nat

def elf64Phdr (m : Memory) (a : Nat) : Elf64Phdr :=
  ⟨m.load a 4, m.load (a + 8) 8, m.load (a + 16) 8, m.load (a + 32) 8, m.load (a + 40) 8⟩

def pheader (m : Memory) (fileBuffer : Nat) (header : Elf64Ehdr) (i : Nat) : Elf64Phdr :=
  elf64Phdr m (u64 (fileBuffer + header.e_phoff + i * 56))

/- Where the last `PT_LOAD` segment ends. Without one the source reads a variable it never set. -/
def imageEnd (m : Memory) (fileBuffer : Nat) (header : Elf64Ehdr) (unset : Nat) : Nat :=
  (List.range header.e_phnum).foldl (fun addr i =>
      let ph := pheader m fileBuffer header i
      if ph.p_type ≠ 1 then addr
      else u64 (ph.p_vaddr + ph.p_memsz))
    unset

def loadSegment (fileBuffer offset : Nat) (header : Elf64Ehdr) (s : LoadState)
    (i : Nat) : LoadState :=
  let ph := pheader s.memory fileBuffer header i
  if ph.p_type ≠ 1 then s
  else
    let dst := u64 (ph.p_vaddr + offset)
    let s := s.clear ⟨dst, ph.p_memsz⟩
    -- the header is read again after `memset`
    let ph := pheader s.memory fileBuffer header i
    s.copy ⟨dst, ph.p_filesz⟩ (u64 (fileBuffer + ph.p_offset))

def loadELF (fuel : Nat) (pml4 : BitVec 64) (unset : Nat) (elevation : CBElevation)
    (header : Elf64Ehdr) (fileBuffer : Nat) (s : LoadState) :
    Option (Option RetStructData × LoadState) := do
  let addr := imageEnd s.memory fileBuffer header unset
  let (offset, s) ← s.requestPages fuel (addr / 4096 + 1)
  if elevation = .unknownElevation then some (none, s)
  else do
    let s ← s.mapImage pml4 elevation ⟨offset, addr / 4096 + 1⟩
    some (some ⟨offset, header.e_entry⟩, (List.range header.e_phnum).foldl
        (loadSegment fileBuffer offset header) s)

/- The body of `ExecuteELF`. -/
def elfBody (fuel : Nat) (pml4 : BitVec 64) (unset : Nat) (elevation : CBElevation)
    (fileBuffer : PageRange) (s : LoadState) : Option (Option RetStructData × LoadState) :=
  let header := elf64Ehdr s.memory fileBuffer.address
  if header.e_class = 1 then some (none, s)
  else if header.e_class = 2 then
    if header.e_type = 2 ∨ header.e_type = 3 ∨ header.e_type = 1 then
      match elevation with
      | .user => do
          let s ← s.mapUserPages pml4 fileBuffer
          loadELF fuel pml4 unset elevation header fileBuffer.address s
      | .idle | .system | .kernel => do
          let s ← s.mapKernelPages pml4 fileBuffer
          some (none, s)
      | .unknownElevation => some (none, s)
    else some (none, s)
  else some (none, s)

def executeELF (fuel : Nat) (pml4 : BitVec 64) (unset : Nat) (file : BinaryFile)
    (elevation : CBElevation) : LoadState → Option (Option RetStructData × LoadState) :=
  withFileBuffer none Option.isSome fuel file (elfBody fuel pml4 unset elevation)

structure ImageSectionHeader where
  virtualAddress : Nat
  sizeOfRawData : Nat
  pointerToRawData : Nat
deriving DecidableEq, Repr

def imageSectionHeader (m : Memory) (a : Nat) : ImageSectionHeader :=
  ⟨m.load (a + 12) 4, m.load (a + 16) 4, m.load (a + 20) 4⟩

def mapForPE (pml4 : BitVec 64) (elevation : CBElevation) (r : PageRange)
    (s : LoadState) : Option LoadState :=
  match elevation with
  | .user => s.mapUserPages pml4 r
  | .kernel => s.mapKernelPages pml4 r
  | .system | .idle | .unknownElevation => some s

/- One section. -/
def loadSection (fuel : Nat) (pml4 : BitVec 64) (elevation : CBElevation)
    (fileBuffer sectionHeader : Nat) (s : LoadState) : Option LoadState :=
  let header := imageSectionHeader s.memory sectionHeader
  if header.sizeOfRawData = 0 then some s
  else do
    let addr := u64 (header.virtualAddress + fileBuffer)
    let (offset, s) ← s.requestPages fuel (addr / 4096 + 1)
    let s ← mapForPE pml4 elevation ⟨offset, addr / 4096 + 1⟩ s
    let header := imageSectionHeader s.memory sectionHeader
    some (s.copy ⟨addr, header.sizeOfRawData⟩ (u64 (fileBuffer + header.pointerToRawData)))

def loadSections (fuel : Nat) (pml4 : BitVec 64) (elevation : CBElevation)
    (fileBuffer peHeader : Nat) : (left i : Nat) → LoadState → Option LoadState
| 0, _, s => some s
| left + 1, i, s =>
  if i < s.memory.load (u64 (peHeader + 6)) 2 then do
    let s ← loadSection fuel pml4 elevation fileBuffer (u64 (peHeader + 248 + i * 40)) s
    loadSections fuel pml4 elevation fileBuffer peHeader
      left (i + 1) s
  else some s

def peBody (fuel : Nat) (pml4 : BitVec 64) (elevation : CBElevation) (fileBuffer : PageRange)
    (s : LoadState) : Option (Option RetStructData × LoadState) :=
  let mz := imageDosHeader s.memory fileBuffer.address
  let peHeader := u64 (fileBuffer.address + mz.e_lfanew)
  let machine := s.memory.load (u64 (peHeader + 4)) 2
  if machine = 0x14C then some (none, s)
  else if machine = 0x8664 then do
    let s ← mapForPE pml4 elevation fileBuffer s
    let s ← loadSections fuel pml4 elevation fileBuffer.address peHeader 65536 0 s
    some (some ⟨fileBuffer.address, s.memory.load (u64 (peHeader + 40)) 4⟩, s)
  else some (none, s)

def executePE (fuel : Nat) (pml4 : BitVec 64) (file : BinaryFile) (elevation : CBElevation) :
    LoadState → Option (Option RetStructData × LoadState) :=
  withFileBuffer none Option.isSome fuel file (peBody fuel pml4 elevation)

/-
  What the two older formats share: one section header says how many pages are requested, and
  nothing is copied.
-/
def loadOld (fuel : Nat) (pml4 : BitVec 64) (elevation : CBElevation) (fileBuffer : PageRange)
    (sectionHeader entry : Nat) (s : LoadState) : Option (Option RetStructData × LoadState) := do
  let s ← mapForPE pml4 elevation fileBuffer s
  let header := imageSectionHeader s.memory sectionHeader
  let addr := u64 (header.virtualAddress + fileBuffer.address)
  let (offset, s) ← s.requestPages fuel (addr / 4096 + 1)
  let s ← s.mapImage pml4 elevation ⟨offset, addr / 4096 + 1⟩
  some (some ⟨offset, s.memory.load entry 2⟩, s)

def neBody (fuel : Nat) (pml4 : BitVec 64) (elevation : CBElevation) (fileBuffer : PageRange)
    (s : LoadState) : Option (Option RetStructData × LoadState) :=
  let mz := imageDosHeader s.memory fileBuffer.address
  let neHeader := u64 (fileBuffer.address + mz.e_lfanew)
  let ne_exetyp := s.memory.load (u64 (neHeader + 54)) 1
  if ne_exetyp = 2 ∨ ne_exetyp = 5 then
    loadOld fuel pml4 elevation fileBuffer (u64 (neHeader + 64)) (u64 (neHeader + 4)) s
  else some (none, s)

def executeNE (fuel : Nat) (pml4 : BitVec 64) (file : BinaryFile) (elevation : CBElevation) :
    LoadState → Option (Option RetStructData × LoadState) :=
  withFileBuffer none Option.isSome fuel file (neBody fuel pml4 elevation)

def mzBody (fuel : Nat) (pml4 : BitVec 64) (elevation : CBElevation) (fileBuffer : PageRange) :
    LoadState → Option (Option RetStructData × LoadState) :=
  loadOld fuel pml4 elevation fileBuffer (u64 (fileBuffer.address + 62))
    (u64 (fileBuffer.address + 20))

def executeMZ (fuel : Nat) (pml4 : BitVec 64) (file : BinaryFile) (elevation : CBElevation) :
    LoadState → Option (Option RetStructData × LoadState) :=
  withFileBuffer none Option.isSome fuel file (mzBody fuel pml4 elevation)

structure ExecuteRequest where
  path : CString
  arg0 : Nat
  arg1 : Nat
  elevation : CBElevation
  mode : TaskingMode
  unset : Nat
  process : Nat
  thread : Nat
  fxRegion : BitVec 4096
  time : Nat

def loadBinary (fuel : Nat) (pml4 : BitVec 64) (file : BinaryFile) (r : ExecuteRequest)
    (type : BinType) : LoadState → Option (Option RetStructData × LoadState) :=
  match type with
  | .elf => executeELF fuel pml4 r.unset file r.elevation
  | .pe => executePE fuel pml4 file r.elevation
  | .ne => executeNE fuel pml4 file r.elevation
  | .mz => executeMZ fuel pml4 file r.elevation
  | .unknown => fun s => some (none, s)

/- The code behind the label `Success`. -/
def startTask (r : ExecuteRequest) (ret : RetStructData)
    (s : TaskingMachine) : Option TaskingMachine :=
  match r.mode with
  | .mono =>
    s.createTask
      { address := r.thread
        instructionPointer := u64 (ret.entry + ret.offset)
        firstArgument := r.arg0
        secondArgument := r.arg1
        userMode := decide (r.elevation = .user) }
  | .multi =>
    let tasking := (s.tasking.createProcess
        { address := r.process
          parent := s.tasking.currentProcess
          elevation := r.elevation
          pageTable := s.kernelPML4.toNat
          time := r.time }).updatePCB r.process (fun pcb => { pcb with offset := ret.offset })
    ({ s with tasking := tasking }.createThread
      { address := r.thread
        parent := r.process
        instructionPointer := ret.entry
        arg0 := r.arg0
        arg1 := r.arg1
        stack := 0
        fxRegion := r.fxRegion
        time := r.time }).map Prod.fst
  | .none => none

structure Executed where
  machine : TaskingMachine
  success : Bool
  loaded : Option RetStructData
  requested : List PageRange

def executeBinary (fuel : Nat) (files : CString → BinaryFile) (r : ExecuteRequest)
    (machine : TaskingMachine) : Option Executed := do
  let file := files r.path
  let (type, s) ← getBinaryType fuel file ⟨machine.allocator, [], []⟩
  let (pml4, s) ← s.requestPage
  let before := s.granted.length
  let (loaded, s) ← loadBinary fuel machine.kernelPML4 file r type s
  let ret := loaded.getD ⟨0, 0⟩
  let requested := s.granted.drop before
  if ret.entry = 0 then
    let s := s.freePage pml4
    some
      { machine := { machine with allocator := s.allocator }
        success := false
        loaded := loaded
        requested := requested }
  else do
    let after ← startTask r ret { machine with allocator := s.allocator }
    some { machine := after, success := true, loaded := loaded, requested := requested }

end Fennix
