import Fennix.FileSystem.Devices

/-
  The directories below `/system` and who adds nodes to them.

  `Device`, `Mount` and `SysInfo` each have a directory of their own and put new nodes straight into
  its list of children.
-/

namespace Fennix

inductive MountPoint
| device
| mount
| sysInfo
deriving DecidableEq

def MountPoint.path : MountPoint → CString
| .device =>
  ['/', 's', 'y', 's', 't', 'e', 'm', '/', 'd', 'e', 'v']
| .mount =>
  ['/', 's', 'y', 's', 't', 'e', 'm', '/', 'm', 'n', 't']
| .sysInfo =>
  ['/', 's', 'y', 's', 't', 'e', 'm', '/', 's', 'y', 's']

/-
  `rootNode` stands for `DeviceRootNode`, `MountRootNode` and `SysInfoRootNode`; of the drives only
  their number is kept.
-/
structure MountPoints where
  vfs : Virtual
  rootNode : MountPoint → Option NodeId
  mountNodeIndexNodeCount : Nat
  drives : Nat

def Virtual.setFlags (v : Virtual) (a : NodeId) (flags : NodeFlags) : Virtual :=
  { v with
    nodes := fun b =>
      if b = a then { v.nodes a with flags := flags }
      else v.nodes b }

namespace MountPoints

def start : MountPoints where
  vfs := Virtual.start
  rootNode := fun _ => none
  mountNodeIndexNodeCount := 0
  drives := 0

def pushNode (s : MountPoints) (m : MountPoint) (node : FileSystemNode) : Option MountPoints :=
  (s.rootNode m).bind (fun directory =>
    -- `strcpy` into `Name[FILENAME_LENGTH]`
    if node.name.length < FILENAME_LENGTH then
      some { s with vfs := s.vfs.addNode directory node }
    else none)

def addFileSystem (s : MountPoints) (operator : Option Nat) (name : CString)
    (flags : NodeFlags) : Option MountPoints :=
  s.pushNode .device { name := name, flags := flags, operator := operator }

def mountName (s : MountPoints) (name : CString) : CString :=
  if isempty name then
    ['m', 'o', 'u', 'n', 't'] ++ Nat.toDigits 10 s.mountNodeIndexNodeCount
  else name

def mountFileSystem (s : MountPoints) (operator : Option Nat)
    (name : CString) : Option MountPoints :=
  (s.pushNode .mount
    { name := s.mountName name, flags := .fsMountpoint, operator := operator }).map (fun s =>
        { s with mountNodeIndexNodeCount := s.mountNodeIndexNodeCount + 1 })

def addInfo (s : MountPoints) (operator : Option Nat) (name : CString) : Option MountPoints :=
  s.pushNode .sysInfo { name := name, flags := .fsFile, operator := operator }

------ Constructors

def newRoot (fuel : Nat) (s : MountPoints) (m : MountPoint) : Option MountPoints :=
  (s.vfs.create fuel none m.path).bind (fun created => created.1.map (fun node =>
      { s with
        vfs := created.2.setFlags node .fsDirectory
        rootNode := fun k =>
          if k = m then some node else s.rootNode k }))

def newDevice (fuel : Nat) (s : MountPoints) : Option MountPoints :=
  s.newRoot fuel .device

def newMount (fuel : Nat) (s : MountPoints) : Option MountPoints :=
  s.newRoot fuel .mount

def infos : List (Operations × CString) :=
  [(.sysinfoFbAddress, "fb0address".toList), (.sysinfoFbWidth, "fb0width".toList),
    (.sysinfoFbHeight, "fb0height".toList),
    (.sysinfoFbPpsl, "fb0ppsl".toList),
    (.sysinfoFbSize, "fb0size".toList),
    (.sysinfoCpuVendor, "cpu_vendor".toList),
    (.sysinfoCpuName, "cpu_name".toList),
    (.sysinfoCpuHypervisor, "cpu_hypervisor".toList),
    (.sysinfoMemUsed, "mem_used".toList),
    (.sysinfoMemFree, "mem_free".toList),
    (.sysinfoMemTotal, "mem_total".toList),
    (.sysinfoMemReserved, "mem_reserved".toList),
    (.sysinfoKernelVersion, "kernel_version".toList),
    (.sysinfoKernelName, "kernel_name".toList),
    (.sysinfoKernelBuildDate, "kernel_build_date".toList)]

def addInfos (s : MountPoints) : List (Operations × CString) → Option MountPoints
| [] => some s
| (operator, name) :: rest =>
  (s.addInfo (some operator.address) name).bind (fun s => s.addInfos rest)

def newSysInfo (fuel : Nat) (s : MountPoints) : Option MountPoints :=
  (s.newRoot fuel .sysInfo).bind (fun s => s.addInfos infos)

end MountPoints

/-
  What the drivers read from a partition: the volume name behind the magic number of EXT2, and the
  string at `namebuf` if the type of FAT is known.
-/
structure Part where
  ext2 : Option CString
  fat : Option CString

structure GUIDPartitionTablePartition where
  typeLow : BitVec 64
  typeHigh : BitVec 64
  part : Part

structure MasterBootRecordPartition where
  lbaFirst : BitVec 32
  part : Part

structure Port where
  gptSignature : BitVec 64
  entrySize : BitVec 32
  partCount : BitVec 32
  gptPartition : (block e : Nat) → GUIDPartitionTablePartition
  mbrSignature : BitVec 8 × BitVec 8
  mbrPartition : Fin 4 → MasterBootRecordPartition

def MBR_MAGIC0 : BitVec 8 := 0x55

def MBR_MAGIC1 : BitVec 8 := 0xAA

def GPT_MAGIC : BitVec 64 := 0x5452415020494645

namespace Port

def gptPartitions (port : Port) (entries sectors : Nat) : List Part :=
  (List.range sectors).flatMap (fun block => (List.range entries).filterMap (fun e =>
      let partition := port.gptPartition block e
      if partition.typeLow ≠ 0 ∨ partition.typeHigh ≠ 0 then
        some partition.part
      else none))

def mbrPartitions (port : Port) : List Part :=
  (List.finRange 4).filterMap (fun p =>
    if (port.mbrPartition p).lbaFirst ≠ 0 then
      some (port.mbrPartition p).part
    else none)

def partitions (port : Port) : Option (List Part) :=
  if port.gptSignature = GPT_MAGIC then
    let entries := 512 / port.entrySize.toNat
    -- two divisions by zero
    if port.entrySize = 0 ∨ entries = 0 then none
    else
      some (port.gptPartitions entries (port.partCount.toNat / entries))
  else if port.mbrSignature = (MBR_MAGIC0, MBR_MAGIC1) then
    some port.mbrPartitions
  else some []

end Port

namespace MountPoints

def DRIVE_NAME_SIZE : Nat := 64

def driveName : CString :=
  ['s', 'd'] ++ Nat.toDigits 10 DRIVE_NAME_SIZE

def partitionName (drive index : Nat) : CString :=
  ['s', 'd'] ++ Nat.toDigits 10 drive ++ ['p'] ++ Nat.toDigits 10 index

def addPartitions (s : MountPoints) : (index : Nat) → List Part → Option MountPoints
| _, [] => some s
| index, _ :: rest =>
  (s.addFileSystem (some Operations.sataDisk.address) (partitionName (s.drives - 1) index)
    .fsBlockDevice).bind (fun s => s.addPartitions (index + 1) rest)

def ext2Operator : Nat := Operations.all.length

def fatOperator : Nat := Operations.all.length + 1

def newEXT2 (s : MountPoints) (part : Part) : Option MountPoints :=
  match part.ext2 with
  | none => some s
  | some volumeName =>
    -- `CleandVolumeName[16]`
    if volumeName.length < 16 then
      s.mountFileSystem (some ext2Operator) (volumeName.map (fun c =>
          if c = '/' then '_' else c))
    else none

def newFAT (s : MountPoints) (part : Part) : Option MountPoints :=
  match part.fat with
  | none => some s
  | some namebuf =>
    s.mountFileSystem (some fatOperator) namebuf

def detectAndMountFS (s : MountPoints) : List Part → Option MountPoints
| [] => some s
| part :: rest =>
  (s.newEXT2 part).bind (fun s => (s.newFAT part).bind (fun s => s.detectAndMountFS rest))

def addPartition (s : MountPoints) (port : Option Port) : Option MountPoints :=
  match port with
  | none => some s
  | some port =>
    let s := { s with drives := s.drives + 1 }
    (s.addFileSystem (some Operations.sataDisk.address) driveName .fsBlockDevice).bind (fun s =>
        port.partitions.bind (fun parts => (s.addPartitions 0 parts).bind (fun s =>
            s.detectAndMountFS parts)))

end MountPoints

inductive MountCall
| createRoot (operator : Option Nat) (rootName : CString)
| create (parent : Option NodeId) (path : CString)
| newDevice
| newMount
| newSysInfo
| addFileSystem (operator : Option Nat) (name : CString) (flags : NodeFlags)
| mountFileSystem (operator : Option Nat) (name : CString)
| addInfo (operator : Option Nat) (name : CString)
| addPartition (port : Option Port)

namespace MountPoints

def execute (fuel : Nat) (s : MountPoints) : MountCall → Option MountPoints
| .createRoot operator rootName =>
  (s.vfs.createRoot operator rootName).map (fun created =>
    { s with vfs := created.2 })
| .create parent path =>
  if parent.all (fun a => decide (a < s.vfs.next)) then
    (s.vfs.create fuel parent path).map (fun created =>
      { s with vfs := created.2 })
  else none
| .newDevice => s.newDevice fuel
| .newMount => s.newMount fuel
| .newSysInfo => s.newSysInfo fuel
| .addFileSystem operator name flags =>
  s.addFileSystem operator name flags
| .mountFileSystem operator name =>
  s.mountFileSystem operator name
| .addInfo operator name => s.addInfo operator name
| .addPartition port => s.addPartition port

end MountPoints

end Fennix
