import Fennix.FileSystem.Ustar
import Fennix.Syscalls.Pages

/-
  Reading a file of an archive.

  The system call `fileRead` hands its offset and its size on as they are.
-/

namespace Fennix

namespace USTAR

structure Taken where
  source : Nat
  size : Nat

structure Answer where
  returned : Nat
  taken : Option Taken := none
  memory : Memory

def read (m : Memory) (node : NodeAttributes) (offset size buffer : Nat) : Answer :=
  let size := if size = 0 then node.length else size
  if offset > node.length then { returned := 0, memory := m }
  else
    let size := if u64 (offset + size) > node.length then sub64 node.length offset else size
    let source := u64 (node.address + offset)
    { returned := size, taken := some ⟨source, size⟩, memory := m.copy buffer source size }

def virtualRead (s : State) (ustar : Nat) (file : Option File) (offset buffer size : Nat) :
    Option (Option File × Answer) :=
  let nothing : Answer := { returned := 0, memory := s.memory }
  match file with
  | none => some (none, nothing)
  | some file =>
    let refused := { file with status := .invalidParameter }
    match file.node with
    | none => some (some refused, nothing)
    | some node =>
      match (s.vfs.nodes node).operator with
      | none => some (some refused, nothing)
      | some operator =>
        if operator = ustar then
          some (some { file with status := .ok },
            read s.memory (s.attributes node) offset size buffer)
        else none

def fileRead (s : State) (ustar : Nat) (file : Option File) (offset buffer size : Nat) :
    Option (Option File × Answer) :=
  if Syscalls.canSyscall = false then
    some (file, { returned := Syscalls.deniedcall.toNat, memory := s.memory })
  else virtualRead s ustar file offset buffer size

structure Confined (node : NodeAttributes) (size : Nat) (answer : Answer) : Prop where
  inside : ∀ t ∈ answer.taken, ∀ i < t.size, sub64 (t.source + i) node.address < node.length
  count : answer.returned = (answer.taken.map (·.size)).getD 0
  bounded : size ≠ 0 → answer.returned ≤ size

section Confinement

variable {m : Memory} {node : NodeAttributes} {offset size buffer : Nat}

theorem sub64_source (node : NodeAttributes) (offset i : Nat) :
    sub64 (u64 (node.address + offset) + i) node.address = u64 (offset + i) := by
  unfold sub64 u64
  omega

theorem read_confined_iff (hLength : node.length < 2 ^ 64) (hSize : size < 2 ^ 64) :
    Confined node size (read m node offset size buffer) ↔
    node.length < offset ∨ offset + (if size = 0 then node.length else size) < 2 ^ 64 := by
  unfold read
  dsimp only
  by_cases hBehind : offset > node.length
  · rw [if_pos hBehind]
    refine iff_of_true ⟨?_, rfl, fun _ => Nat.zero_le _⟩ (.inl hBehind)
    intro t ht
    cases ht
  rw [if_neg hBehind, or_iff_right hBehind]
  have hWanted : (if size = 0 then node.length else size) < 2 ^ 64 := by
    split <;> assumption
  have hNonzero : size ≠ 0 → (if size = 0 then node.length else size) = size :=
    fun hAsked => if_neg hAsked
  generalize (if size = 0 then node.length else size) = wanted at hWanted hNonzero
  by_cases hWrap : offset + wanted < 2 ^ 64
  · refine iff_of_true ?_ hWrap
    rw [u64_of_lt hWrap, sub64_of_le (by omega) hLength]
    refine ⟨?_, rfl, ?_⟩
    · intro t ht i hi
      cases ht
      rw [sub64_source, u64_of_lt]
      all_goals
        dsimp only at hi
        split at hi <;> omega
    intro hAsked
    have hSame := hNonzero hAsked
    dsimp only
    split <;> omega
  refine iff_of_false ?_ hWrap
  -- the sum is below the offset, so nothing is cut
  have hSum : u64 (offset + wanted) = offset + wanted - 2 ^ 64 := by
    unfold u64
    omega
  rw [hSum, if_neg (by omega)]
  intro h
  have hLast := h.inside _ rfl (2 ^ 64 - 1 - offset) (by dsimp only; omega)
  rw [sub64_source, u64_of_lt (by omega)] at hLast
  omega

end Confinement

theorem fileRead_eq {s : State} {ustar : Nat} {file : File} {node : NodeId}
    (hNode : file.node = some node) (hOperator : (s.vfs.nodes node).operator = some ustar)
    (offset buffer size : Nat) : fileRead s ustar (some file) offset buffer size =
    some (some { file with status := .ok },
    read s.memory (s.attributes node) offset size buffer) := by
  rw [fileRead, if_neg (by simp [Syscalls.canSyscall])]
  simp only [virtualRead, hNode, hOperator, if_true]

theorem fileRead_confined_iff {s : State} {ustar : Nat} {file : File} {node : NodeId}
    {offset buffer size : Nat} (hNode : file.node = some node)
    (hOperator : (s.vfs.nodes node).operator = some ustar)
    (hLength : (s.attributes node).length < 2 ^ 64) (hSize : size < 2 ^ 64) :
    (∃ file' answer, fileRead s ustar (some file) offset buffer size = some (file', answer) ∧
    Confined (s.attributes node) size answer) ↔ (s.attributes node).length < offset ∨
    offset + (if size = 0 then (s.attributes node).length else size) < 2 ^ 64 := by
  rw [fileRead_eq hNode hOperator, ← read_confined_iff hLength hSize]
  constructor
  · rintro ⟨file', answer, hRead, hConfined⟩
    cases hRead
    exact hConfined
  · exact fun hConfined => ⟨_, _, rfl, hConfined⟩

def tenBytes : State where
  memory := fun _ => 0
  vfs := Virtual.start.addNode 0 { name := ['a'], flags := .fsFile, operator := some 1 }
  attributes := fun _ => { address := 0x1200, length := 10 }

def tenBytesFile : File :=
  { name := some ['a'], node := some 1 }

theorem fileRead_confined_iff_tenBytes : ∃ file' answer,
    fileRead tenBytes 1 (some tenBytesFile) 4 0x8000 100 = some (file', answer) ∧
    Confined (tenBytes.attributes 1) 100 answer :=
  (fileRead_confined_iff (s := tenBytes) (show tenBytesFile.node = some 1 from rfl) rfl
    (by decide) (by decide)).mpr (by decide)

theorem one_byte_behind_start : ∃ file' answer,
    fileRead tenBytes 1 (some tenBytesFile) 1 0x8000 (2 ^ 64 - 1) = some (file', answer) ∧
    answer.taken = some ⟨0x1201, 2 ^ 64 - 1⟩ ∧
    ¬ Confined (tenBytes.attributes 1) (2 ^ 64 - 1) answer := by
  refine ⟨_, _, fileRead_eq (show tenBytesFile.node = some 1 from rfl) rfl _ _ _, ?_, ?_⟩
  · have hSum : u64 0x10000000000000000 = 0 := by
      unfold u64
      rfl
    have hSource : u64 (0x1200 + 1) = 0x1201 := u64_of_lt (by decide)
    simp [read, tenBytes, hSum, hSource]
  · rw [read_confined_iff (by decide) (by decide)]
    decide

end USTAR

end Fennix
