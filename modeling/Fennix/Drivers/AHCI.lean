import Fennix.Library.Bytes

/-
  Commands to a disk.
-/

namespace Fennix

open BitVec

namespace AHCI

structure HBACommandHeader where
  commandFISLength : BitVec 5
  write : BitVec 1
  prdtLength : BitVec 16
deriving DecidableEq, Repr

structure HBAPRDTEntry where
  dataBaseAddress : BitVec 32
  dataBaseAddressUpper : BitVec 32
  byteCount : BitVec 22
  interruptOnCompletion : BitVec 1
deriving DecidableEq, Repr

structure FISRegH2D where
  fisType : BitVec 8
  commandControl : BitVec 1
  command : BitVec 8
  lba0 : BitVec 8
  lba1 : BitVec 8
  lba2 : BitVec 8
  deviceRegister : BitVec 8
  lba3 : BitVec 8
  lba4 : BitVec 8
  lba5 : BitVec 8
  countLow : BitVec 8
  countHigh : BitVec 8
deriving DecidableEq, Repr

structure HBACommand where
  header : HBACommandHeader
  commandFIS : FISRegH2D
  prdtEntry : HBAPRDTEntry
deriving DecidableEq, Repr

def fisTypeRegH2D : BitVec 8 := 0x27

def ataCmdWriteDMAEx : BitVec 8 := 0x35

def ataCmdReadDMAEx : BitVec 8 := 0x25

def sizeofFISRegH2D : Nat := 20

def command (sector : BitVec 64) (sectorCount : BitVec 32) (buffer : BitVec 64)
    (write : Bool) : HBACommand :=
  let sectorL : BitVec 32 := sector.setWidth 32
  let sectorH : BitVec 32 := (sector >>> 32).setWidth 32
  { header :=
      { commandFISLength :=
          BitVec.ofNat 5 (sizeofFISRegH2D / 4)
        write := if write then 1 else 0
        prdtLength := 1 }
    prdtEntry :=
      { dataBaseAddress := buffer.setWidth 32
        dataBaseAddressUpper := (buffer >>> 32).setWidth 32
        byteCount := ((sectorCount <<< 9) - 1).setWidth 22
        interruptOnCompletion := 1 }
    commandFIS :=
      { fisType := fisTypeRegH2D
        commandControl := 1
        command :=
          if write then ataCmdWriteDMAEx
          else ataCmdReadDMAEx
        lba0 := sectorL.setWidth 8
        lba1 := (sectorL >>> 8).setWidth 8
        lba2 := (sectorL >>> 16).setWidth 8
        lba3 := sectorH.setWidth 8
        lba4 := (sectorH >>> 8).setWidth 8
        lba5 := (sectorH >>> 16).setWidth 8
        deviceRegister := 1 <<< 6
        countLow := (sectorCount &&& 0xFF).setWidth 8
        countHigh :=
          ((sectorCount >>> 8) &&& 0xFF).setWidth 8 } }

structure Port where
  portNumber : BitVec 8
deriving DecidableEq, Repr

def portTypeSATAPI : BitVec 8 := 4

structure Device where
  taskFileData : Nat → BitVec 32
  commandIssue : Nat → BitVec 32
  interruptStatus : Nat → BitVec 32

def busyMask : BitVec 32 := 0x80 ||| 0x08

def taskFileError : BitVec 32 := 1 <<< 30

def Device.spinReady (device : Device) : (left spin : Nat) → Nat
| 0, spin => spin
| left + 1, spin =>
  if device.taskFileData spin &&& busyMask ≠ 0 then
    device.spinReady left (spin + 1)
  else spin

def spinLimit : Nat := 1000000

def waitLimit : Nat := 100000000

namespace Port

/-
  The second loop: it ends when the command is done, when the device reports an error or after
  eleven long waits.
-/
def awaitCompletion (device : Device) : (fuel round spin tryCount : Nat) → Option Bool
| 0, _, _, _ => none
| fuel + 1, round, spin, tryCount =>
  let late := decide (spin > waitLimit)
  let tryCount := if late then tryCount + 1 else tryCount
  let spin := if late then 0 else spin
  if late ∧ tryCount > 10 then some false
  else if device.commandIssue round = 0 then some true
  else if device.interruptStatus round &&& taskFileError ≠ 0
    then some false
  else
    awaitCompletion device fuel (round + 1) (spin + 1) tryCount

structure ReadWritten where
  issued : Option HBACommand
  returned : Option Bool

def readWrite (fuel : Nat) (port : Port) (device : Device) (sector : BitVec 64)
    (sectorCount : BitVec 32) (buffer : BitVec 64) (write : Bool) : ReadWritten :=
  if port.portNumber = portTypeSATAPI ∧ write = true then
    ⟨none, some false⟩
  else if device.spinReady spinLimit 0 = spinLimit then
    ⟨none, some false⟩
  else
    ⟨some (command sector sectorCount buffer write), awaitCompletion device fuel 0 0 0⟩

end Port

structure Part where
  startLBA : BitVec 64
  sectors : BitVec 64
  port : Option Port

namespace Part

def transfer (write : Bool) (fuel : Nat) (part : Part) (device : Device)
    (offset count buffer : BitVec 64) : BitVec 64 × Option HBACommand :=
  match part.port with
  | none => (0, none)
  | some port =>
    if offset + count > part.sectors then (0, none)
    else
      (count, (port.readWrite fuel device (part.startLBA + offset)
          (count.setWidth 32) buffer write).issued)

def read :=
  transfer false

def write :=
  transfer true

end Part

namespace FISRegH2D

def lba (fis : FISRegH2D) : BitVec 64 :=
  joinBytes 64 [fis.lba0, fis.lba1, fis.lba2, fis.lba3, fis.lba4, fis.lba5]

def count (fis : FISRegH2D) : BitVec 32 :=
  joinBytes 32 [fis.countLow, fis.countHigh]

end FISRegH2D

def HBAPRDTEntry.address (entry : HBAPRDTEntry) : BitVec 64 :=
  entry.dataBaseAddressUpper ++ entry.dataBaseAddress

structure Encodes (c : HBACommand) (sector : BitVec 64) (sectorCount : BitVec 32)
    (buffer : BitVec 64) : Prop where
  lba : c.commandFIS.lba = sector
  count : c.commandFIS.count = sectorCount
  byteCount : c.prdtEntry.byteCount.toNat = 512 * sectorCount.toNat - 1
  address : c.prdtEntry.address = buffer

section Command

variable {sector : BitVec 64} {sectorCount : BitVec 32} {buffer : BitVec 64} {write : Bool}

theorem lba_command : (command sector sectorCount buffer write).commandFIS.lba = joinBytes 64
    [byteAt sector 0, byteAt sector 1, byteAt sector 2, byteAt sector 4, byteAt sector 5,
    byteAt sector 6] := by
  have hLow : ∀ i < 4, byteAt (sector.setWidth 32) i = byteAt sector i :=
    fun i hi => byteAt_setWidth sector (by omega)
  have hHigh : ∀ i < 4, byteAt ((sector >>> (8 * 4)).setWidth 32) i = byteAt sector (i + 4) := by
    intro i hi
    rw [byteAt_setWidth _ (by omega), byteAt_ushiftRight]
  have hShift : ∀ (x : BitVec 32) (k : Nat), (x >>> (8 * k)).setWidth 8 = byteAt x k := by
    intro x k
    rw [setWidth_eq_byteAt, byteAt_ushiftRight, Nat.zero_add]
  change joinBytes 64 [(sector.setWidth 32).setWidth 8, (sector.setWidth 32 >>> (8 * 1)).setWidth 8,
    (sector.setWidth 32 >>> (8 * 2)).setWidth 8, ((sector >>> (8 * 4)).setWidth 32).setWidth 8,
    ((sector >>> (8 * 4)).setWidth 32 >>> (8 * 1)).setWidth 8,
    ((sector >>> (8 * 4)).setWidth 32 >>> (8 * 2)).setWidth 8] = _
  rw [hShift, hShift, hShift, hShift, setWidth_eq_byteAt, setWidth_eq_byteAt, hLow 0 (by decide),
    hLow 1 (by decide), hLow 2 (by decide), hHigh 0 (by decide), hHigh 1 (by decide),
    hHigh 2 (by decide)]

theorem lba_command_eq_iff (hSector : sector.toNat < 2 ^ 48) :
    (command sector sectorCount buffer write).commandFIS.lba = sector ↔ sector.toNat < 2 ^ 24 := by
  have hBytes : ∀ i j, byteAt sector i = byteAt sector j ↔ sector.toNat / 256 ^ i % 256 =
    sector.toNat / 256 ^ j % 256 := by
    intro i j
    rw [← toNat_inj, toNat_byteAt, toNat_byteAt]
  have hSix : joinBytes 64 (splitBytes 6 sector) = sector :=
    joinBytes_splitBytes_of_lt (k := 8) sector rfl hSector
  have hSplit : splitBytes 6 sector = [byteAt sector 0, byteAt sector 1, byteAt sector 2,
    byteAt sector 3, byteAt sector 4, byteAt sector 5] := rfl
  calc
    _ ↔ joinBytes 64
          [byteAt sector 0, byteAt sector 1, byteAt sector 2, byteAt sector 4, byteAt sector 5,
            byteAt sector 6] =
        joinBytes 64 (splitBytes 6 sector) := by
      rw [lba_command, hSix]
    _ ↔ _ = splitBytes 6 sector := joinBytes_inj (by simp) (by simp)
    _ ↔ sector.toNat < 2 ^ 24 := by
      rw [hSplit]
      simp only [List.cons.injEq, and_true, true_and, hBytes]
      omega

theorem toNat_count_command : (command sector sectorCount buffer write).commandFIS.count.toNat =
    sectorCount.toNat % 65536 := by
  have hByte : ∀ k, ((sectorCount >>> (8 * k)) &&& 0xFF).setWidth 8 = byteAt sectorCount k :=
    fun k => setWidth_shift_mask sectorCount k (by decide)
  have hLow := hByte 0
  rw [Nat.mul_zero, ushiftRight_zero] at hLow
  change (joinBytes 32 [(sectorCount &&& 0xFF).setWidth 8,
    ((sectorCount >>> (8 * 1)) &&& 0xFF).setWidth 8]).toNat = _
  rw [hLow, hByte]
  generalize hJoined : joinBytes 32 [byteAt sectorCount 0, byteAt sectorCount 1] = joined
  have hDigit : ∀ i < 4, joined.toNat / 256 ^ i % 256 =
    ([byteAt sectorCount 0, byteAt sectorCount 1].getD i 0).toNat := by
    intro i hi
    rw [← toNat_byteAt, ← hJoined, byteAt_joinBytes _ (by omega)]
  have hFirst : _ = (byteAt sectorCount 0).toNat := hDigit 0 (by decide)
  have hSecond : _ = (byteAt sectorCount 1).toNat := hDigit 1 (by decide)
  have hThird : _ = 0 := hDigit 2 (by decide)
  have hFourth : _ = 0 := hDigit 3 (by decide)
  rw [toNat_byteAt] at hFirst hSecond
  have hLt := joined.isLt
  omega

theorem count_command (hCount : sectorCount.toNat < 2 ^ 16) :
    (command sector sectorCount buffer write).commandFIS.count = sectorCount :=
  eq_of_toNat_eq (toNat_count_command.trans (Nat.mod_eq_of_lt hCount))

theorem byteCount_command (hPositive : 1 ≤ sectorCount.toNat) (hCount : sectorCount.toNat ≤ 8192) :
    (command sector sectorCount buffer write).prdtEntry.byteCount.toNat =
    512 * sectorCount.toNat - 1 := by
  have hBytes : (sectorCount <<< 9).toNat = 512 * sectorCount.toNat := by
    rw [toNat_shiftLeft, Nat.shiftLeft_eq]
    omega
  change (((sectorCount <<< 9) - 1).setWidth 22).toNat = _
  rw [toNat_setWidth, toNat_sub_of_le, hBytes]
  · change (512 * sectorCount.toNat - 1) % 2 ^ 22 = _
    exact Nat.mod_eq_of_lt (by omega)
  rw [le_def, hBytes]
  change 1 ≤ 512 * sectorCount.toNat
  omega

theorem address_command : (command sector sectorCount buffer write).prdtEntry.address = buffer := by
  apply eq_of_getLsbD_eq
  intro i hi
  change ((buffer >>> 32).setWidth 32 ++ buffer.setWidth 32).getLsbD i = _
  rw [getLsbD_append]
  by_cases hLow : i < 32
  · simp [hLow]
  have hAdd : 32 + (i - 32) = i := by omega
  have hIn : i - 32 < 32 := by omega
  simp [hLow, hIn, hAdd]

theorem encodes_command_iff (hSector : sector.toNat < 2 ^ 48) (hPositive : 1 ≤ sectorCount.toNat)
    (hCount : sectorCount.toNat ≤ 8192) : Encodes (command sector sectorCount buffer write) sector
    sectorCount buffer ↔ sector.toNat < 2 ^ 24 := by
  constructor
  · exact fun h => (lba_command_eq_iff hSector).mp h.lba
  intro hThree
  exact ⟨(lba_command_eq_iff hSector).mpr hThree, count_command (by omega),
    byteCount_command hPositive hCount, address_command⟩

end Command

namespace Port

theorem awaitCompletion_returns (device : Device) {fuel spin tryCount : Nat} (round : Nat)
    (hSpin : spin ≤ waitLimit + 1) (hTry : tryCount ≤ 10)
    (hFuel : (10 - tryCount + 1) * (waitLimit + 1) < fuel + spin) : ∃ answer,
    awaitCompletion device fuel round spin tryCount = some answer := by
  induction fuel generalizing round spin tryCount with
  | zero =>
    have hOnce := Nat.le_mul_of_pos_left (waitLimit + 1) (show 0 < 10 - tryCount + 1 by omega)
    omega
  | succ fuel ih =>
    unfold awaitCompletion
    by_cases hLate : spin > waitLimit
    · simp only [hLate, decide_true, if_true, true_and]
      split
      · exact ⟨_, rfl⟩
      rename_i hMore
      split
      · exact ⟨_, rfl⟩
      split
      · exact ⟨_, rfl⟩
      -- A whole wait is taken off the measure.
      have hLess : 10 - tryCount = 10 - (tryCount + 1) + 1 := by
        omega
      rw [hLess, Nat.succ_mul] at hFuel
      apply ih (round + 1)
      · omega
      · omega
      · omega
    simp only [hLate, decide_false, Bool.false_eq_true, if_false, false_and]
    split
    · exact ⟨_, rfl⟩
    split
    · exact ⟨_, rfl⟩
    apply ih (round + 1)
    · omega
    · omega
    · omega

/- Whatever the registers of the device show, the two loops end. -/
theorem readWrite_returns (port : Port) (device : Device) (sector : BitVec 64)
    (sectorCount : BitVec 32) (buffer : BitVec 64) (write : Bool) (more : Nat) : ∃ answer,
    (port.readWrite (11 * (waitLimit + 1) + 1 + more) device sector sectorCount buffer
    write).returned = some answer := by
  unfold readWrite
  split
  · exact ⟨false, rfl⟩
  split
  · exact ⟨false, rfl⟩
  · exact awaitCompletion_returns device 0 (Nat.zero_le _) (Nat.zero_le _) (by omega)

section Request

variable {fuel : Nat} {device : Device} {sector : BitVec 64} {sectorCount : BitVec 32}
variable {buffer : BitVec 64} {write : Bool} {c : HBACommand}

theorem readWrite_issued {port : Port}
    (hIssued : (port.readWrite fuel device sector sectorCount buffer write).issued = some c) :
    c = command sector sectorCount buffer write := by
  unfold readWrite at hIssued
  split at hIssued
  · cases hIssued
  split at hIssued
  · cases hIssued
  · exact (Option.some.inj hIssued).symm

theorem readWrite_encodes_iff (port : Port) (hSector : sector.toNat < 2 ^ 48)
    (hPositive : 1 ≤ sectorCount.toNat) (hCount : sectorCount.toNat ≤ 8192)
    (hIssued : (port.readWrite fuel device sector sectorCount buffer write).issued = some c) :
    Encodes c sector sectorCount buffer ↔ sector.toNat < 2 ^ 24 := by
  rw [readWrite_issued hIssued]
  exact encodes_command_iff hSector hPositive hCount

end Request

def readyDevice : Device :=
  ⟨fun _ => 0, fun _ => 0, fun _ => 0⟩

theorem readWrite_encodes_last : Encodes (command 0xFFFFFF 8 0x123456789 false) 0xFFFFFF 8
    0x123456789 :=
  have hIssued : ((readWrite 1 ⟨0⟩ readyDevice 0xFFFFFF 8 0x123456789 false).issued) =
    some (command 0xFFFFFF 8 0x123456789 false) := rfl
  (readWrite_encodes_iff ⟨0⟩ (by decide) (by decide) (by decide) hIssued).mpr (by decide)

theorem readWrite_next_at_zero : ∃ c,
    (readWrite 1 ⟨0⟩ readyDevice 0x1000000 8 0x123456789 false) = ⟨some c, some true⟩ ∧
    c.commandFIS.lba = 0 ∧ ¬ Encodes c 0x1000000 8 0x123456789 :=
  ⟨command 0x1000000 8 0x123456789 false, rfl, by decide, fun h => absurd h.lba (by decide)⟩

end Port

end AHCI

end Fennix
