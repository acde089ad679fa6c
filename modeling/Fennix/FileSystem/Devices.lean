import Fennix.FileSystem.Virtual
import Fennix.Library.Bytes
import Fennix.Library.Output

/-
  Reading the device and system information nodes.

  A handler gets the memory from `Buffer` on, of which the first `Size` bytes are the caller's, and
  may do with it what it likes.
-/

namespace Fennix

open List Option BitVec

------ What Devices are read from

structure MouseInfo where
  buttons : BitVec 32
  padding : BitVec 32
  x : BitVec 64
  y : BitVec 64

def MouseInfo.bytes (info : MouseInfo) : List (BitVec 8) :=
  splitBytes 4 info.buttons ++ splitBytes 4 info.padding ++
    splitBytes 8 info.x ++ splitBytes 8 info.y

def MOUSE_INFO_SIZE : Nat := 24

theorem MouseInfo.length_bytes (info : MouseInfo) : info.bytes.length = MOUSE_INFO_SIZE := by
  simp [bytes, MOUSE_INFO_SIZE]

structure Framebuffer where
  address : BitVec 64
  size : BitVec 64
  width : BitVec 32
  height : BitVec 32
  pixelsPerScanLine : BitVec 32

structure Registers where
  eax : BitVec 32
  ebx : BitVec 32
  ecx : BitVec 32
  edx : BitVec 32

/- `rand64` and `received` are the numbers and the bytes that come in from now on. -/
structure DeviceState where
  rand64 : Nat → BitVec 64
  received : Fin 4 → List (BitVec 8)
  minfo : MouseInfo
  behindMinfo : List (BitVec 8)
  fb : Framebuffer
  pixel : BitVec 64 → Option (BitVec 32)
  currentDisplay : Framebuffer
  cpuid : BitVec 32 → Registers
  stack : List (BitVec 8)
  usedRAM : BitVec 64
  freeRAM : BitVec 64
  totalRAM : BitVec 64
  reservedRAM : BitVec 64
  buildDate : CString
  buildTime : CString

------ Handlers of Devices

section Handlers

variable (d : DeviceState) (buffer : List (BitVec 8)) (offset size : Nat)

def randomRead : Option Response :=
  respond buffer (output ((range size).map (fun s => (d.rand64 s % 0xFF#64).setWidth 8)))
    (fun _ => some size)

def nullRead : Option Response :=
  if size < 1 then respond buffer [] (fun _ => some 0)
  else
    respond buffer (output (replicate size 0#8)) (fun _ => some size)

def zeroRead : Option Response :=
  respond buffer (output (replicate size 0#8)) (fun _ => some 0)

/- The pixel goes to the parameter `Buffer`, not to where it points. -/
def fbRead : Option Response :=
  (d.pixel (BitVec.ofNat 64 (offset + size * d.fb.pixelsPerScanLine.toNat))).bind
    (fun _ => respond buffer [] (fun _ => some d.fb.size.toNat))

def serialRead (port : Fin 4) : Option Response :=
  if size < 1 then respond buffer [] (fun _ => some 0)
  else if size ≤ (d.received port).length then
    -- `memset(Buffer, 0x00, 1)` before the loop
    respond buffer (output [0#8] ++ output ((d.received port).take size)) (fun _ => some size)
  else none

def serialRead1 : Option Response :=
  serialRead d buffer size 0

def serialRead2 : Option Response :=
  serialRead d buffer size 1

def serialRead3 : Option Response :=
  serialRead d buffer size 2

def serialRead4 : Option Response :=
  serialRead d buffer size 3

def mouseRead : Option Response :=
  (memcpy (d.minfo.bytes ++ d.behindMinfo) MOUSE_INFO_SIZE size).bind (fun writes =>
      respond buffer writes (fun _ => some size))

def stubDiskRead : Option Response :=
  respond buffer [] (fun _ => some size)

------ Handlers of System Information

def numberRead (ret : BitVec 32) : Option Response :=
  respond buffer [] (fun _ => some ret.toNat)

def fbAddressRead : Option Response :=
  numberRead buffer (d.currentDisplay.address.setWidth 32)

def fbWidthRead : Option Response :=
  numberRead buffer d.currentDisplay.width

def fbHeightRead : Option Response :=
  numberRead buffer d.currentDisplay.height

def fbPixelsPerScanLineRead : Option Response :=
  numberRead buffer d.currentDisplay.pixelsPerScanLine

def fbSizeRead : Option Response :=
  numberRead buffer (d.currentDisplay.size.setWidth 32)

def cpuVendor : List (BitVec 8) :=
  splitBytes 4 (d.cpuid 0).ebx ++ splitBytes 4 (d.cpuid 0).edx ++ splitBytes 4 (d.cpuid 0).ecx

def cpuVendorRead : Option Response :=
  respond buffer (output (splitBytes 4 (d.cpuid 0).eax) ++ output (cpuVendor d)) strlen

def Registers.bytes (r : Registers) : List (BitVec 8) :=
  splitBytes 4 r.eax ++ splitBytes 4 r.ebx ++ splitBytes 4 r.ecx ++ splitBytes 4 r.edx

def cpuName : List (BitVec 8) :=
  (d.cpuid 0x80000002).bytes ++ (d.cpuid 0x80000003).bytes ++ (d.cpuid 0x80000004).bytes

def textBytes (text : CString) : List (BitVec 8) :=
  text.map (fun c => BitVec.ofNat 8 c.toNat)

def unknown : List (BitVec 8) :=
  textBytes ['u', 'n', 'k', 'n', 'o', 'w', 'n', '\x00']

/-
  The loop over leading blanks has no effect: it stops at the end of the string that `strlen` looks
  for.
-/
def cpuNameRead : Option Response :=
  if 0x80000004#32 ≤ (d.cpuid 0x80000000).eax then
    (strlen (cpuName d ++ d.stack)).bind (fun n => (memcpy (cpuName d ++ d.stack) 48 n).bind
        (fun writes => respond buffer writes strlen))
  else
    (memcpy unknown 8 7).bind (fun writes => respond buffer writes strlen)

def hypervisor : List (BitVec 8) :=
  splitBytes 4 (d.cpuid 0x40000000).ebx ++ splitBytes 4 (d.cpuid 0x40000000).ecx ++
      splitBytes 4 (d.cpuid 0x40000000).edx

def cpuHyperRead : Option Response :=
  (strlen (hypervisor d ++ d.stack)).bind (fun n => (memcpy (hypervisor d ++ d.stack) 12 n).bind
      (fun writes => respond buffer writes (fun _ => some n)))

def longText (n : BitVec 64) : CString :=
  if n.msb then '-' :: Nat.toDigits 10 (-n).toNat
  else Nat.toDigits 10 n.toNat

def textRead (text : CString) : Option Response :=
  respond buffer (output (textBytes text ++ [0#8])) (fun _ => some 0)

def ramUsedRead : Option Response :=
  textRead buffer (longText d.usedRAM)

def ramFreeRead : Option Response :=
  textRead buffer (longText d.freeRAM)

def ramTotalRead : Option Response :=
  textRead buffer (longText d.totalRAM)

def ramReservedRead : Option Response :=
  textRead buffer (longText d.reservedRAM)

def KERNEL_VERSION : CString := "alpha-0.0.1".toList

def KERNEL_NAME : CString := "FennixProject".toList

def kernelVersionRead : Option Response :=
  textRead buffer KERNEL_VERSION

def kernelNameRead : Option Response :=
  textRead buffer KERNEL_NAME

def kernelBuildDateRead : Option Response :=
  textRead buffer (d.buildDate ++ ' ' :: d.buildTime)

end Handlers

inductive Operations
| random
| null
| zero
| fb
| serial1
| serial2
| serial3
| serial4
| mouse
| sataDisk
| sysinfoFbAddress
| sysinfoFbWidth
| sysinfoFbHeight
| sysinfoFbPpsl
| sysinfoFbSize
| sysinfoCpuVendor
| sysinfoCpuName
| sysinfoCpuHypervisor
| sysinfoMemUsed
| sysinfoMemFree
| sysinfoMemTotal
| sysinfoMemReserved
| sysinfoKernelVersion
| sysinfoKernelName
| sysinfoKernelBuildDate
deriving DecidableEq

namespace Operations

def all : List Operations :=
  [random, null, zero, fb, serial1, serial2, serial3, serial4,
    mouse, sataDisk, sysinfoFbAddress, sysinfoFbWidth,
    sysinfoFbHeight, sysinfoFbPpsl, sysinfoFbSize,
    sysinfoCpuVendor, sysinfoCpuName, sysinfoCpuHypervisor,
    sysinfoMemUsed, sysinfoMemFree, sysinfoMemTotal,
    sysinfoMemReserved, sysinfoKernelVersion,
    sysinfoKernelName, sysinfoKernelBuildDate]

def address (operator : Operations) : Nat :=
  all.idxOf operator

def ofAddress (a : Nat) : Option Operations :=
  all[a]?

theorem ofAddress_address (operator : Operations) : ofAddress operator.address = some operator := by
  cases operator <;> rfl

def read (operator : Operations) (d : DeviceState) (offset size : Nat)
    (buffer : List (BitVec 8)) : Option Response :=
  match operator with
  | random => randomRead d buffer size
  | null => nullRead buffer size
  | zero => zeroRead buffer size
  | fb => fbRead d buffer offset size
  | serial1 => serialRead1 d buffer size
  | serial2 => serialRead2 d buffer size
  | serial3 => serialRead3 d buffer size
  | serial4 => serialRead4 d buffer size
  | mouse => mouseRead d buffer size
  | sataDisk => stubDiskRead buffer size
  | sysinfoFbAddress => fbAddressRead d buffer
  | sysinfoFbWidth => fbWidthRead d buffer
  | sysinfoFbHeight => fbHeightRead d buffer
  | sysinfoFbPpsl => fbPixelsPerScanLineRead d buffer
  | sysinfoFbSize => fbSizeRead d buffer
  | sysinfoCpuVendor => cpuVendorRead d buffer
  | sysinfoCpuName => cpuNameRead d buffer
  | sysinfoCpuHypervisor => cpuHyperRead d buffer
  | sysinfoMemUsed => ramUsedRead d buffer
  | sysinfoMemFree => ramFreeRead d buffer
  | sysinfoMemTotal => ramTotalRead d buffer
  | sysinfoMemReserved => ramReservedRead d buffer
  | sysinfoKernelVersion => kernelVersionRead buffer
  | sysinfoKernelName => kernelNameRead buffer
  | sysinfoKernelBuildDate => kernelBuildDateRead d buffer

end Operations

def Virtual.read (v : Virtual) (d : DeviceState) (file : Option File) (offset : Nat)
    (buffer : List (BitVec 8)) (size : Nat) : Option (Option File × Response) :=
  match file with
  | none => some (none, ⟨buffer, [], 0⟩)
  | some file =>
    match file.node with
    | none =>
      some (some { file with status := .invalidParameter }, ⟨buffer, [], 0⟩)
    | some node =>
      match (v.nodes node).operator with
      | none =>
        some (some { file with status := .invalidParameter }, ⟨buffer, [], 0⟩)
      | some operator =>
        (Operations.ofAddress operator).bind
          (fun operator => (operator.read d offset size buffer).map (fun response =>
                (some { file with status := .ok }, response)))

------ When the Contract is kept

section Contracts

variable {d : DeviceState} {buffer : List (BitVec 8)} {offset size : Nat}

private theorem strlen_taken {source : List (BitVec 8)} {n : Nat} (hLength : n ≤ source.length)
    (hText : ∀ b ∈ source.take n, b ≠ 0#8) : strlen (source.take n ++ buffer.drop n) = some n ↔
    buffer[n]? = some 0#8 := by
  have hStrlen := strlen_append_eq_length (source.take n) (buffer.drop n)
  rw [length_take_of_le hLength] at hStrlen
  rw [hStrlen, head?_drop]
  exact and_iff_right hText

def CpuNameSound (d : DeviceState) (buffer : List (BitVec 8)) (size : Nat) : Prop :=
  if 0x80000004#32 ≤ (d.cpuid 0x80000000).eax then
    ∃ n, strlen (cpuName d ++ d.stack) = some n ∧ n ≤ size ∧ n ≤ 48 ∧ buffer[n]? = some 0#8
  else 7 ≤ size ∧ buffer[7]? = some 0#8

variable (hSize : size ≤ buffer.length)

include hSize

theorem randomRead_fulfils : Fulfils size (randomRead d buffer size) := by
  refine (respond_output_contract_iff hSize).mpr ?_
  simp

theorem nullRead_fulfils : Fulfils size (nullRead buffer size) := by
  unfold nullRead
  split
  · exact (respond_nil_contract_iff hSize).mpr rfl
  · refine (respond_output_contract_iff hSize).mpr ?_
    simp

theorem zeroRead_fulfils_iff : Fulfils size (zeroRead buffer size) ↔ size = 0 := by
  rw [zeroRead, respond_output_contract_iff hSize, length_replicate, some.injEq]
  omega

theorem fbRead_fulfils_iff : Fulfils size (fbRead d buffer offset size) ↔
    d.pixel (BitVec.ofNat 64 (offset + size * d.fb.pixelsPerScanLine.toNat)) ≠ none ∧
    d.fb.size = 0 := by
  unfold fbRead
  cases d.pixel (BitVec.ofNat 64 (offset + size * d.fb.pixelsPerScanLine.toNat)) with
  | none => simp [Fulfils]
  | some pixel =>
    rw [bind_some, respond_nil_contract_iff hSize]
    simp [← toNat_inj]

theorem serialRead_fulfils_iff (port : Fin 4) :
    Fulfils size (serialRead d buffer size port) ↔ size ≤ (d.received port).length := by
  unfold serialRead
  split
  · rename_i hZero
    exact iff_of_true ((respond_nil_contract_iff hSize).mpr rfl) (by omega)
  rename_i hPositive
  split
  · rename_i hEnough
    have hLength := length_take_of_le hEnough
    refine iff_of_true ((respond_overlaid_contract_iff hSize ?_).mpr ?_) hEnough
    · rw [hLength, length_singleton]
      omega
    · rw [hLength]
      exact ⟨Nat.le_refl _, rfl⟩
  rename_i hWaits
  refine iff_of_false ?_ hWaits
  rintro ⟨r, hNone, hContract⟩
  cases hNone

theorem mouseRead_fulfils_iff :
    Fulfils size (mouseRead d buffer size) ↔ size ≤ MOUSE_INFO_SIZE := by
  have hObject : MOUSE_INFO_SIZE ≤ (d.minfo.bytes ++ d.behindMinfo).length := by
    rw [length_append, MouseInfo.length_bytes]
    omega
  rw [mouseRead, memcpy_contract_iff hSize hObject]
  simp

theorem stubDiskRead_fulfils_iff : Fulfils size (stubDiskRead buffer size) ↔ size = 0 :=
  respond_nil_contract_iff hSize

theorem numberRead_fulfils_iff (ret : BitVec 32) :
    Fulfils size (numberRead buffer ret) ↔ ret = 0 := by
  rw [numberRead, respond_nil_contract_iff hSize, ← toNat_inj]
  rfl

theorem textRead_not_fulfils (text : CString) : ¬ Fulfils size (textRead buffer text) := by
  rw [textRead, respond_output_contract_iff hSize]
  simp

theorem cpuVendorRead_fulfils_iff :
    Fulfils size (cpuVendorRead d buffer) ↔ 12 ≤ size ∧ (∀ b ∈ cpuVendor d, b ≠ 0#8) ∧
    buffer[12]? = some 0#8 := by
  have hLength : (cpuVendor d).length = 12 := by
    simp [cpuVendor]
  have hOver : (splitBytes 4 (d.cpuid 0).eax).length ≤ (cpuVendor d).length := by
    rw [length_splitBytes, hLength]
    decide
  rw [cpuVendorRead, respond_overlaid_contract_iff hSize hOver, strlen_append_eq_length, hLength,
    head?_drop]

theorem cpuNameRead_fulfils_iff :
    Fulfils size (cpuNameRead d buffer) ↔ CpuNameSound d buffer size := by
  unfold cpuNameRead CpuNameSound
  split
  · cases hText : strlen (cpuName d ++ d.stack) with
    | none => simp [Fulfils]
    | some n =>
      rcases ne_zero_of_strlen hText with ⟨hn, hNonzero⟩
      have hObject : 48 ≤ (cpuName d ++ d.stack).length := by
        simp only [cpuName, Registers.bytes, length_append, length_splitBytes]
        omega
      rw [bind_some, memcpy_contract_iff hSize hObject, strlen_taken (Nat.le_of_lt hn) hNonzero]
      simp
  have hText : ∀ b ∈ unknown.take 7, b ≠ 0#8 := by decide
  rw [memcpy_contract_iff hSize (by decide), strlen_taken (by decide) hText]
  simp

theorem cpuHyperRead_fulfils_iff :
    Fulfils size (cpuHyperRead d buffer) ↔ ∃ n, strlen (hypervisor d ++ d.stack) = some n ∧
    n ≤ size ∧ n ≤ 12 := by
  unfold cpuHyperRead
  cases strlen (hypervisor d ++ d.stack) with
  | none => simp [Fulfils]
  | some n =>
    have hObject : 12 ≤ (hypervisor d ++ d.stack).length := by
      simp only [hypervisor, length_append, length_splitBytes]
      omega
    rw [bind_some, memcpy_contract_iff hSize hObject]
    simp

end Contracts

namespace Operations

def Sound (operator : Operations) (d : DeviceState) (offset size : Nat)
    (buffer : List (BitVec 8)) : Prop :=
  match operator with
  | random => True
  | null => True
  | zero => size = 0
  | fb =>
    d.pixel (BitVec.ofNat 64 (offset + size * d.fb.pixelsPerScanLine.toNat)) ≠ none ∧ d.fb.size = 0
  | serial1 => size ≤ (d.received 0).length
  | serial2 => size ≤ (d.received 1).length
  | serial3 => size ≤ (d.received 2).length
  | serial4 => size ≤ (d.received 3).length
  | mouse => size ≤ MOUSE_INFO_SIZE
  | sataDisk => size = 0
  | sysinfoFbAddress =>
    d.currentDisplay.address.setWidth 32 = 0#32
  | sysinfoFbWidth => d.currentDisplay.width = 0
  | sysinfoFbHeight => d.currentDisplay.height = 0
  | sysinfoFbPpsl => d.currentDisplay.pixelsPerScanLine = 0
  | sysinfoFbSize =>
    d.currentDisplay.size.setWidth 32 = 0#32
  | sysinfoCpuVendor =>
    12 ≤ size ∧ (∀ b ∈ cpuVendor d, b ≠ 0#8) ∧ buffer[12]? = some 0#8
  | sysinfoCpuName => CpuNameSound d buffer size
  | sysinfoCpuHypervisor =>
    ∃ n, strlen (hypervisor d ++ d.stack) = some n ∧ n ≤ size ∧ n ≤ 12
  | _ => False

theorem read_fulfils_iff (operator : Operations) {d : DeviceState} {offset size : Nat}
    {buffer : List (BitVec 8)} (hSize : size ≤ buffer.length) :
    Fulfils size (operator.read d offset size buffer) ↔ operator.Sound d offset size buffer := by
  cases operator with
  | random => exact iff_true_intro (randomRead_fulfils hSize)
  | null => exact iff_true_intro (nullRead_fulfils hSize)
  | zero => exact zeroRead_fulfils_iff hSize
  | fb => exact fbRead_fulfils_iff hSize
  | serial1 => exact serialRead_fulfils_iff hSize 0
  | serial2 => exact serialRead_fulfils_iff hSize 1
  | serial3 => exact serialRead_fulfils_iff hSize 2
  | serial4 => exact serialRead_fulfils_iff hSize 3
  | mouse => exact mouseRead_fulfils_iff hSize
  | sataDisk => exact stubDiskRead_fulfils_iff hSize
  | sysinfoFbAddress => exact numberRead_fulfils_iff hSize _
  | sysinfoFbWidth => exact numberRead_fulfils_iff hSize _
  | sysinfoFbHeight => exact numberRead_fulfils_iff hSize _
  | sysinfoFbPpsl => exact numberRead_fulfils_iff hSize _
  | sysinfoFbSize => exact numberRead_fulfils_iff hSize _
  | sysinfoCpuVendor => exact cpuVendorRead_fulfils_iff hSize
  | sysinfoCpuName => exact cpuNameRead_fulfils_iff hSize
  | sysinfoCpuHypervisor =>
    exact cpuHyperRead_fulfils_iff hSize
  | _ => exact iff_false_intro (textRead_not_fulfils hSize _)

end Operations

namespace Virtual

variable {v : Virtual} {d : DeviceState} {buffer : List (BitVec 8)}

theorem read_eq {file : File} {node : NodeId} {operator : Operations} (offset size : Nat)
    (hNode : file.node = some node) (hOperator : (v.nodes node).operator = some operator.address) :
    v.read d (some file) offset buffer size =
    (operator.read d offset size buffer).map (fun response =>
    (some { file with status := .ok }, response)) := by
  simp only [read, hNode, hOperator, Operations.ofAddress_address, bind_some]

theorem read_contract_iff (file : File) (node : NodeId) (operator : Operations) (offset size : Nat)
    (hNode : file.node = some node) (hOperator : (v.nodes node).operator = some operator.address)
    (hSize : size ≤ buffer.length) :
    (∃ file' response, v.read d (some file) offset buffer size = some (file', response) ∧
    response.Contract size) ↔ operator.Sound d offset size buffer := by
  rw [read_eq offset size hNode hOperator, ← operator.read_fulfils_iff hSize]
  constructor
  · rintro ⟨file', response, hRead, hContract⟩
    rcases map_eq_some_iff.mp hRead with ⟨r, hHandler, hEq⟩
    cases hEq
    exact ⟨_, hHandler, hContract⟩
  rintro ⟨response, hHandler, hContract⟩
  rw [hHandler]
  exact ⟨_, response, rfl, hContract⟩

def mouseOnly : Virtual :=
  start.addNode 0
    { name := ['m', 'o', 'u', 's', 'e']
      flags := .fsPipe
      operator := some Operations.mouse.address }

def mouseFile : File :=
  { name := some ['m', 'o', 'u', 's', 'e'], node := some 1 }

def mouseState : DeviceState where
  rand64 := fun _ => 0
  received := fun _ => []
  minfo := ⟨0, 0, 0, 0⟩
  behindMinfo := [0x5A#8]
  fb := ⟨0, 0, 0, 0, 0⟩
  pixel := fun _ => none
  currentDisplay := ⟨0, 0, 0, 0, 0⟩
  cpuid := fun _ => ⟨0, 0, 0, 0⟩
  stack := []
  usedRAM := 0
  freeRAM := 0
  totalRAM := 0
  reservedRAM := 0
  buildDate := []
  buildTime := []

theorem read_contract_iff_mouse_24 : ∃ file' response, mouseOnly.read mouseState (some mouseFile) 0
    (replicate 32 0#8) 24 = some (file', response) ∧ response.Contract 24 :=
  (read_contract_iff mouseFile 1 .mouse 0 24 rfl rfl (by decide)).mpr (by decide : 24 ≤ 24)

theorem mouse_25_leaks : ∃ file' response, mouseOnly.read mouseState (some mouseFile) 0
    (replicate 32 0#8) 25 = some (file', response) ∧
    ⟨24, 0x5A#8, .copied 24 24⟩ ∈ response.writes ∧ ¬ response.Contract 25 := by
  refine ⟨_, _, rfl, ?_, ?_⟩
  · decide
  intro hContract
  have hOwn := hContract.own ⟨24, 0x5A#8, .copied 24 24⟩ (by decide)
  exact Nat.lt_irrefl 24 hOwn

end Virtual

end Fennix
