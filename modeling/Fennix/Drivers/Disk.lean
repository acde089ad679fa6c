import Fennix.Drivers.Partition
import Fennix.Library.Word

/-
  The partitions of a disk.

  The disk is read through the commands its port sends, so a sector address arrives without its
  fourth byte and a command that fails leaves the buffer as it was.
-/

namespace Fennix

open List

namespace DiskManager

inductive PartitionStyle where
| unknown
| mbr
| gpt
deriving DecidableEq, Repr

structure GUIDPartitionTablePartition where
  typeLow : Nat
  typeHigh : Nat
  startLBA : Nat
  endLBA : Nat
  attributes : Nat
  label : List (BitVec 8)

structure Part where
  label : Option (List (BitVec 8)) := none
  startLBA : Nat
  endLBA : Nat
  sectors : Nat
  flags : Nat := 0
  style : PartitionStyle
  index : Nat
deriving DecidableEq

structure Drive where
  style : PartitionStyle := .unknown
  partitions : List Part := []

/- A disk: what it holds, its port, and how its registers answer each command. -/
structure Disk where
  contents : Memory
  port : AHCI.Port
  device : AHCI.Device

/- Rounds enough for every wait of `ReadWrite` to end. -/
def readFuel : Nat := 11 * (AHCI.waitLimit + 1) + 1

/- The buffer, at address 0 of `m`, after a read of `ReadWrite`, whose result is not looked at. -/
def readSectors (disk : Disk) (m : Memory) (sector count : Nat) : Memory :=
  match disk.port.readWrite readFuel disk.device (.ofNat 64 sector) (.ofNat 32 count) 0 false with
  | ⟨some c, some true⟩ => fun x =>
    if x < c.commandFIS.sectorCount * 512 then
      disk.contents (c.commandFIS.lba.toNat * 512 + x)
    else m x
  | _ => m

def gptPartition (m : Memory) (a : Nat) : GUIDPartitionTablePartition :=
  ⟨m.load a 8, m.load (a + 8) 8, m.load (a + 32) 8, m.load (a + 40) 8, m.load (a + 48) 8,
    m.bytes (a + 56) 72⟩

def GUIDPartitionTablePartition.InUse (entry : GUIDPartitionTablePartition) : Prop :=
  entry.typeLow ≠ 0 ∨ entry.typeHigh ≠ 0

instance (entry : GUIDPartitionTablePartition) : Decidable entry.InUse :=
  inferInstanceAs (Decidable (_ ∨ _))

def addEntry (parts : List Part) (entry : GUIDPartitionTablePartition) : List Part :=
  if entry.InUse then
    parts ++
      [{ label := some entry.label
         startLBA := entry.startLBA
         endLBA := entry.endLBA
         sectors := sub64 entry.endLBA entry.startLBA
         flags := if entry.attributes % 2 = 1 then 2 else 0
         style := .gpt
         index := parts.length }]
  else parts

def addEntries (m : Memory) (entries : List Nat) (parts : List Part) : List Part :=
  entries.foldl (fun parts e => addEntry parts (gptPartition m (e * 128))) parts

def addBlock (disk : Disk) (entries : Nat) (s : Memory × List Part)
    (block : Nat) : Memory × List Part :=
  let m := readSectors disk s.1 ((2 + block) % 2 ^ 32) 1
  (m, addEntries m (range entries) s.2)

def addRecord (m : Memory) (parts : List Part) (p : Nat) : List Part :=
  let first := m.load (446 + p * 16 + 8) 4
  let sectors := m.load (446 + p * 16 + 12) 4
  if first ≠ 0 then
    parts ++
      [{ startLBA := first
         endLBA := (first + sectors) % 2 ^ 32
         sectors := sectors
         style := .mbr
         index := parts.length }]
  else parts

def GPT_MAGIC : Nat := 0x5452415020494645

def addPartition (disk : Disk) (m : Memory) : Option Drive :=
  let m := readSectors disk m 0 2
  if m.load 512 8 = GPT_MAGIC then
    let partCount := m.load 592 4
    let entrySize := m.load 596 4
    if entrySize = 0 then none
    else
      let entries := 512 / entrySize
      if entries = 0 then none
      else
        some ⟨.gpt, ((range (partCount / entries)).foldl (addBlock disk entries) (m, [])).2⟩
  else if m 510 = 0x55 ∧ m 511 = 0xAA then
    some ⟨.mbr, (range 4).foldl (addRecord m) []⟩
  else some {}

------ What is Read

section Reads

open AHCI BitVec

variable {disk : Disk} {m : Memory} {sector count a n : Nat}

variable (hAnswers : disk.device.Answers)

include hAnswers

end Reads

def partCount (disk : Disk) : Nat :=
  disk.contents.load 592 4

def entrySize (disk : Disk) : Nat :=
  disk.contents.load 596 4

def Part.extent (p : Part) : Nat × Nat × Nat :=
  (p.startLBA, p.endLBA, p.sectors)

end DiskManager

end Fennix
