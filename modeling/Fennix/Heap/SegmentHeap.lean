import Fennix.Library.Memory
import Fennix.Library.Word

/-
  The segment heap shared by two allocators.

  The default kernel heap and `Xalloc::AllocatorV1` run the same code over a list of segments whose
  headers lie in the memory they manage.
-/

namespace Fennix

inductive HeaderField where
| length
| next
| last
| isFree
deriving DecidableEq, Repr

namespace HeaderField

def offset : HeaderField → Nat
| .length => 0
| .next => 8
| .last => 16
| .isFree => 24

def width : HeaderField → Nat
| .length => 8
| .next => 8
| .last => 8
| .isFree => 1

end HeaderField

inductive LastUpdates where
| kept
| lost
deriving DecidableEq, Repr

structure SegmentHeap where
  memory : Memory
  heapStart : Nat
  heapEnd : Nat
  lastHdr : Nat
  heapTop : Nat
  segments : List Nat
  written : List (Nat × Nat)

namespace SegmentHeap

def headerSize : Nat := 32

def get (s : SegmentHeap) (h : Nat) (f : HeaderField) : Nat :=
  s.memory.load (h + f.offset) f.width

def set (s : SegmentHeap) (h : Nat) (f : HeaderField) (v : Nat) : SegmentHeap :=
  { s with
    memory := s.memory.store (h + f.offset) f.width v
    written := (h + f.offset, f.width) :: s.written }

def isFree (s : SegmentHeap) (h : Nat) : Bool :=
  decide (s.get h .isFree ≠ 0)

def moveLast (s : SegmentHeap) (mode : LastUpdates) (old new : Nat) : SegmentHeap :=
  if mode = .kept ∧ s.lastHdr = old then
    { s with lastHdr := new }
  else s

def created (s : SegmentHeap) (h : Nat) : SegmentHeap :=
  { s with segments := h :: s.segments }

def joined (s : SegmentHeap) (h : Nat) : SegmentHeap :=
  { s with segments := s.segments.erase h }

------ Splitting and Joining

/- `Split`. The store to `Next->Last` happens also when `Next` is null. -/
def split (s : SegmentHeap) (mode : LastUpdates) (this splitLength : Nat) : SegmentHeap :=
  if splitLength < 0x10 then s
  else
    let splitSegmentLength := sub64 (sub64 (s.get this .length) splitLength) headerSize
    if int64 splitSegmentLength < 0x10 then s
    else
      let new := u64 (this + splitLength + headerSize)
      let s := s.set (s.get this .next) .last new
      let s := s.set new .next (s.get this .next)
      let s := s.set this .next new
      let s := s.set new .last this
      let s := s.set new .length splitSegmentLength
      let s := s.set new .isFree (s.isFree this).toNat
      let s := s.set this .length splitLength
      (s.moveLast mode this new).created new

def combineForward (s : SegmentHeap) (mode : LastUpdates) (this : Nat) : SegmentHeap :=
  let next := s.get this .next
  if next = 0 then s
  else if s.isFree next = false then s
  else
    let s := s.moveLast mode next this
    let s :=
      if s.get next .next ≠ 0 then
        s.set (s.get next .next) .last this
      else s
    let s := s.set this .length
        (u64 (s.get this .length + s.get (s.get this .next) .length + headerSize))
    let s := s.set this .next (s.get (s.get this .next) .next)
    s.joined next

def combineBackward (s : SegmentHeap) (mode : LastUpdates) (this : Nat) : SegmentHeap :=
  let last := s.get this .last
  if last ≠ 0 ∧ s.isFree last then
    s.combineForward mode last
  else s

def roundPages (length : Nat) : Nat :=
  if length % 4096 ≠ 0 then
    u64 (length - length % 4096 + 4096)
  else length

def expandHeap (s : SegmentHeap) (mode : LastUpdates) (length : Nat) : SegmentHeap :=
  let rounded := roundPages length
  let pageCount := rounded / 4096
  let new := s.heapEnd
  let s :=
    { s with
      heapEnd := u64 (s.heapEnd + pageCount * 4096)
      heapTop := s.heapTop + alignUp length 4096 }
  let s := s.set new .isFree 1
  let s := s.set new .last s.lastHdr
  let s := s.set s.lastHdr .next new
  let s := { s with lastHdr := new }
  let s := s.set new .next 0
  let s := s.set new .length (sub64 rounded headerSize)
  (s.created new).combineBackward mode new

def start (m : Memory) (base heapLength heapTop : Nat) : SegmentHeap :=
  let s : SegmentHeap :=
    { memory := m
      heapStart := base
      heapEnd := u64 (base + heapLength)
      lastHdr := base
      heapTop := heapTop
      segments := [base]
      written := [] }
  let s := s.set base .length (sub64 heapLength headerSize)
  let s := s.set base .next 0
  let s := s.set base .last 0
  s.set base .isFree 1

def roundSize (size : Nat) : Nat :=
  let size := if size < 0x10 then 0x10 else size
  if size % 0x10 > 0 then
    u64 (size - size % 0x10 + 0x10)
  else size

def fits (s : SegmentHeap) (size h : Nat) : Bool :=
  s.isFree h && decide (size ≤ s.get h .length)

/-
  The search of `malloc` from `current` on: the first free segment that is large enough, none, or no
  answer within the fuel.
-/
def search (s : SegmentHeap) (size : Nat) : (fuel current : Nat) → Option (Option Nat)
| 0, _ => none
| fuel + 1, current =>
  if s.fits size current then some (some current)
  else if s.get current .next = 0 then some none
  else search s size fuel (s.get current .next)

def take (s : SegmentHeap) (mode : LastUpdates) (size h : Nat) : SegmentHeap :=
  if s.get h .length > size then
    (s.split mode h size).set h .isFree 0
  else s.set h .isFree 0

def malloc (mode : LastUpdates) : (fuel : Nat) → SegmentHeap → Nat → Option (Nat × SegmentHeap)
| 0, _, _ => none
| fuel + 1, s, size =>
  if s.heapStart = 0 then some (0, s)
  else
    let size := roundSize size
    if size = 0 then some (0, s)
    else
      match s.search size (fuel + 1) s.heapStart with
      | none => none
      | some (some h) =>
        some (u64 (h + headerSize), s.take mode size h)
      | some none =>
        malloc mode fuel (s.expandHeap mode size) size

def free (s : SegmentHeap) (mode : LastUpdates) (address : Nat) : SegmentHeap :=
  if s.heapStart = 0 then s
  else
    let segment := sub64 address headerSize
    let s := s.set segment .isFree 1
    let s := s.combineForward mode segment
    s.combineBackward mode segment

end SegmentHeap

end Fennix
