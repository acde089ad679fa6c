import Fennix.Library.Word
import Fennix.PMM.Bitmap
import Mathlib.Data.List.Basic

/-
  The page frame allocator.

  The state collects the globals of the source: the bitmap, the search hint `PageBitmapIndex`, the
  four byte counters and the memory the bitmap lives in.
-/

------ Boot Parameters

namespace Fennix

inductive MemType where
| error
| free
| reserved
| unusable
| acpiReclaimable
| acpiMemoryNVS
| framebuffer
| kernel
| unknown
deriving DecidableEq, Repr

structure GBPMemoryMapEntry where
  physicalAddress : UInt64
  pages : UInt64
  size : UInt64
  type : MemType
deriving DecidableEq, Repr

structure GBPMemory where
  size : UInt64
  entry : List GBPMemoryMapEntry
deriving DecidableEq, Repr

end Fennix

------ Allocator State

namespace Fennix

structure PageFrameAllocator where
  memory : Memory
  pageBitmap : Bitmap
  pageBitmapIndex : Nat
  totalMemory : Nat
  freeMemory : Nat
  reservedMemory : Nat
  usedMemory : Nat
  initialized : Bool

inductive Account where
| used
| reserved
deriving DecidableEq, Repr

namespace PageFrameAllocator

def bits (s : PageFrameAllocator) : Nat :=
  s.pageBitmap.bits

def used (s : PageFrameAllocator) (index : Nat) : Bool :=
  s.pageBitmap.get s.memory index

def charge (account : Account) (s : PageFrameAllocator) : PageFrameAllocator :=
  { s with
    freeMemory := sub64 s.freeMemory 4096
    usedMemory :=
      if account = .used then u64 (s.usedMemory + 4096)
      else s.usedMemory
    reservedMemory :=
      if account = .reserved then
        u64 (s.reservedMemory + 4096)
      else s.reservedMemory }

def refund (account : Account) (s : PageFrameAllocator) : PageFrameAllocator :=
  { s with
    freeMemory := u64 (s.freeMemory + 4096)
    usedMemory :=
      if account = .used then sub64 s.usedMemory 4096
      else s.usedMemory
    reservedMemory :=
      if account = .reserved then
        sub64 s.reservedMemory 4096
      else s.reservedMemory }

def rewind (index : Nat) (s : PageFrameAllocator) : PageFrameAllocator :=
  if s.pageBitmapIndex > index then
    { s with pageBitmapIndex := index }
  else s

/- Shared body of `LockPage` and `ReservePage`. -/
def takePage (account : Account) (s : PageFrameAllocator) (address : Nat) : PageFrameAllocator :=
  let index := address / 4096
  if s.used index then s
  else
    let result := s.pageBitmap.set s.memory index true
    let marked := { s with memory := result.2 }
    if result.1 then charge account marked else marked

/- Shared tail of `FreePage` and `UnreservePage`. -/
def releasePage (account : Account) (s : PageFrameAllocator) (address : Nat) : PageFrameAllocator :=
  let index := address / 4096
  let result := s.pageBitmap.set s.memory index false
  let cleared := { s with memory := result.2 }
  if result.1 then rewind index (refund account cleared)
  else cleared

def lockPage :=
  takePage .used

def reservePage :=
  takePage .reserved

def unreservePage :=
  releasePage .reserved

def freePage (s : PageFrameAllocator) (address : Nat) : PageFrameAllocator :=
  if s.used (address / 4096) = false then s
  else releasePage .used s address

def forPages (operation : PageFrameAllocator → Nat → PageFrameAllocator) (s : PageFrameAllocator)
    (address pageCount : Nat) : PageFrameAllocator :=
  (List.range pageCount).foldl (fun s t => operation s (u64 (address + t * 4096))) s

def lockPages :=
  forPages lockPage

def reservePages :=
  forPages reservePage

def unreservePages :=
  forPages unreservePage

def freePages :=
  forPages freePage

def pageAddress (index : Nat) : Nat :=
  u64 (index * 4096)

def firstFree (s : PageFrameAllocator) : Option Nat :=
  (List.range' s.pageBitmapIndex (s.bits - s.pageBitmapIndex)).find? (fun index => !s.used index)

/- `RequestPage`. -/
def requestPage (s : PageFrameAllocator) : Option Nat × PageFrameAllocator :=
  match s.firstFree with
  | some index =>
    (some (pageAddress index), lockPage { s with pageBitmapIndex := index } (pageAddress index))
  | none =>
    (none,
      { s with pageBitmapIndex := max s.pageBitmapIndex s.bits })

def blocked (s : PageFrameAllocator) (pageCount index : Nat) : Bool :=
  (List.range pageCount).any (fun i => s.used (u64 (index + i)))

/-
  The inner loop of `RequestPages` from `index` on: a window start, no window, or no answer within
  the fuel.
-/
def scanFrom (s : PageFrameAllocator) (pageCount : Nat) : (fuel index : Nat) → Option (Option Nat)
| 0, _ => none
| fuel + 1, index =>
  if index < s.bits then
    if s.used index then
      scanFrom s pageCount fuel (u64 (index + 1))
    else if s.blocked pageCount index then
      scanFrom s pageCount fuel (u64 (u64 (index + pageCount) + 1))
    else some (some index)
  else some none

/-
  The outer loop of `RequestPages`, with `left` hint values still below the end of the bitmap: the
  window start found, if any, and the hint the loop leaves behind.
-/
def searchFrom (s : PageFrameAllocator) (pageCount fuel : Nat) :
    (left hint : Nat) → Option (Option Nat × Nat)
| 0, hint => some (none, hint)
| left + 1, hint =>
  if s.used hint then
    searchFrom s pageCount fuel left (hint + 1)
  else
    match scanFrom s pageCount fuel hint with
    | none => none
    | some (some index) => some (some index, hint)
    | some none =>
      searchFrom s pageCount fuel left (hint + 1)

def requestPages (fuel : Nat) (s : PageFrameAllocator) (pageCount : Nat) :
    Option (Nat × PageFrameAllocator) :=
  match searchFrom s pageCount fuel (s.bits - s.pageBitmapIndex) s.pageBitmapIndex with
  | none => none
  | some (some index, hint) =>
    some (pageAddress index, lockPages { s with pageBitmapIndex := hint }
        (pageAddress index) pageCount)
  | some (none, hint) =>
    some (0, { s with pageBitmapIndex := hint })

def largestFreeMemorySegment (entries : List GBPMemoryMapEntry) : Nat × Nat :=
  entries.foldl (fun best e =>
      if e.type = .free ∧ e.size.toNat > best.2 then
        (e.physicalAddress.toNat, e.size.toNat)
      else best)
    (0, 0)

def initBitmap (s : PageFrameAllocator) (bitmapSize bufferAddress : Nat) : PageFrameAllocator :=
  { s with
    pageBitmap := ⟨bitmapSize, bufferAddress⟩
    memory := s.memory.fill bufferAddress 0 bitmapSize }

def unreserveFree (s : PageFrameAllocator) (entries : List GBPMemoryMapEntry) :
    PageFrameAllocator :=
  entries.foldl (fun s e =>
      if e.type = .free then
        unreservePages s e.physicalAddress.toNat e.pages.toNat
      else s)
    s

def readMemoryMap (s : PageFrameAllocator) (params : GBPMemory) : PageFrameAllocator :=
  if s.initialized then s
  else
    let memorySize := params.size.toNat
    let sized : PageFrameAllocator :=
      { s with initialized := true, totalMemory := memorySize, freeMemory := memorySize }
    let mapped := initBitmap sized (alignUp (memorySize / 0x1000 / 8) 0x1000)
        (largestFreeMemorySegment params.entry).1
    let all := reservePages mapped 0 (memorySize / 4096 + 1)
    let freed := unreserveFree all params.entry
    let low := reservePages freed 0 0x100
    lockPages low low.pageBitmap.buffer (low.pageBitmap.size / 4096 + 1)

def powerOn (m : Memory) : PageFrameAllocator where
  memory := m
  pageBitmap := ⟨0, 0⟩
  pageBitmapIndex := 0
  totalMemory := 0
  freeMemory := 0
  reservedMemory := 0
  usedMemory := 0
  initialized := false

def boot (m : Memory) (params : GBPMemory) : PageFrameAllocator :=
  readMemoryMap (powerOn m) params

end PageFrameAllocator

end Fennix
