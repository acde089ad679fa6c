import Fennix.PMM.Release
import Fennix.Proc.Buffers

/-
  The pages a load leaves in use.

  A file that no loader accepts leaves every page as it was. A file that is loaded leaves the page
  of its root table in use, which nothing installs.
-/

namespace Fennix

open List Option

variable {pml4 : BitVec 64} {s : PageFrameAllocator}

open PageDirectoryEntry PageFrameAllocator KernelTables

------ The Buffer of the File

section Stages

variable {start : PageFrameAllocator} {held : Set Nat} {s s' : LoadState} {fuel k n address : Nat}

section

variable (hLoading : Loading pml4 start held s)

include hLoading

theorem Loading.requestPages (hFree : FreeFrom s.allocator k n) (hSome : 1 ≤ n)
    (h : s.requestPages fuel n = some (address, s')) : address = k * 4096 ∧
    s'.allocator.pageBitmapIndex = k ∧ Loading pml4 start (held ∪ pagesOf [⟨k * 4096, n⟩]) s' ∧
    ∀ q ∈ pagesOf [⟨k * 4096, n⟩], ClearBefore start q ∧ q ∉ held := by
  have hBits := hLoading.separated.kernelMapped.bits_le
  have hInside := hFree.inside
  unfold LoadState.requestPages at h
  split at h
  · cases h
  rename_i a allocator hCall
  cases h
  have hPage : k * 4096 / 4096 = k := Nat.mul_div_cancel _ (by decide)
  rcases hFree.granted (by omega) hSome with ⟨t, hGranted, hHint⟩
  rcases hGranted.answer_unique (by omega) hCall with ⟨rfl, rfl⟩
  have hUsed := hGranted.used_iff (by omega)
  have hClear : ∀ q, PageRange.Covers ⟨k * 4096, n⟩ q → s.allocator.used q = false := by
    rintro q ⟨hLow, hHigh⟩
    dsimp only at hLow hHigh
    exact hFree.free q (by omega) (by omega)
  refine ⟨rfl, hHint, hLoading.request (onlyBits_requestPages hCall) hClear ?_, ?_⟩
  · exact hUsed
  · intro q hq
    have hCovers := mem_pagesOf_singleton.mp hq
    rcases hLoading.clear_start (hClear q hCovers) with ⟨hStart, hNew⟩
    refine ⟨⟨?_, hStart⟩, hNew⟩
    rw [← hLoading.bits]
    have hHigh : q < k * 4096 / 4096 + n := hCovers.2
    omega

theorem Loading.requestPage (hFree : FreeFrom s.allocator k (n + 1))
    (h : s.requestPage = some (address, s')) : address = k * 4096 ∧
    s'.allocator.pageBitmapIndex = k ∧
    Loading pml4 start (held ∪ pagesOf [⟨k * 4096, 1⟩]) s' := by
  have hBits := hLoading.separated.kernelMapped.bits_le
  have hInside := hFree.inside
  have hClear := hFree.free k (Nat.le_refl k) (by omega)
  rcases requestPage_first k (by omega) hFree.low (by omega) hClear hFree.used with
    ⟨allocator, hCall, hHint, hUsed⟩
  unfold LoadState.requestPage at h
  rw [hCall] at h
  cases h
  have hOne : ∀ q, PageRange.Covers ⟨k * 4096, 1⟩ q ↔ q = k := by
    intro q
    rw [covers_one, Nat.mul_div_cancel _ (by decide)]
  refine ⟨rfl, hHint, hLoading.request (onlyBits_requestPage hCall) ?_ ?_⟩
  · intro q hq
    rwa [(hOne q).mp hq]
  · intro q
    rw [hUsed, hOne]

end

variable {file : BinaryFile} {α : Type} {failed result : α} {keeps : α → Bool}
variable {body : PageRange → LoadState → Option (α × LoadState)}

theorem Loading.fileBuffer (hLoading : Loading pml4 start held s)
    (hFree : FreeFrom s.allocator k file.pageCount) (hReadable : file.Readable)
    (hDelivered : file.contents.length = file.length)
    (h : withFileBuffer failed keeps fuel file body s = some (result, s')) :
    ∃ s₁ s₂, s₁.allocator.pageBitmapIndex = k ∧ Buffered file (k * 4096) s₁.memory ∧
    Loading pml4 start (held ∪ pagesOf [⟨k * 4096, file.pageCount⟩]) s₁ ∧
    (∀ q ∈ pagesOf [⟨k * 4096, file.pageCount⟩], ClearBefore start q ∧ q ∉ held) ∧
    body ⟨k * 4096, file.pageCount⟩ s₁ = some (result, s₂) ∧
    (keeps result = false → Loading pml4 start (held ∪ pagesOf [⟨k * 4096, file.pageCount⟩]) s₂ →
    Loading pml4 start held s' ∧
    (s₂.allocator.pageBitmapIndex = k → s'.allocator.pageBitmapIndex = k)) := by
  unfold withFileBuffer at h
  rw [if_pos hReadable] at h
  rcases bind_eq_some_iff.mp h with ⟨⟨address, s₀⟩, hRequest, hRest⟩
  rcases bind_eq_some_iff.mp hRest with ⟨⟨answer, s₂⟩, hBody, hLast⟩
  rcases hLoading.requestPages hFree (Nat.le_add_left 1 _) hRequest with
    ⟨rfl, hHint, hHeld, hClear⟩
  have hRead : Loading pml4 start (held ∪ pagesOf [⟨k * 4096, file.pageCount⟩])
      (s₀.read file (k * 4096)) := by
    apply hHeld.write
    intro z hz
    have hIn := mem_pagesOf_singleton.mpr
      (covers_of_read hDelivered (Nat.mul_mod_left k 4096) hz)
    exact ⟨(hClear _ hIn).1.1, .inr hIn⟩
  have hBuffered : Buffered file (k * 4096) (s₀.read file (k * 4096)).memory :=
    buffered_read hDelivered
  dsimp only at hLast
  split at hLast
  · rename_i hKept
    cases hLast
    refine ⟨s₀.read file (k * 4096), _, hHint, hBuffered, hRead, hClear, hBody, ?_⟩
    intro hDropped
    rw [hDropped] at hKept
    cases hKept
  cases hLast
  refine ⟨s₀.read file (k * 4096), s₂, hHint, hBuffered, hRead, hClear, hBody, fun _ hAfter => ?_⟩
  have hBits := hLoading.separated.kernelMapped.bits_le
  have hPages := hFree.inside
  have hPage : k * 4096 / 4096 = k := Nat.mul_div_cancel _ (by decide)
  refine ⟨hAfter.freePages (fun q hq => (hClear q hq).2) ?_, fun hLeft => ?_⟩
  · rw [← hLoading.bits, hPage]
    exact hPages
  · refine Eq.trans (freePages_pageBitmapIndex_of_le ?_) hLeft
    intro t ht
    have ht : t < file.pageCount := ht
    rw [hLeft, pageAt, u64_of_lt (by dsimp only; omega)]
    dsimp only
    omega

end Stages

------ Files that are Refused

/- The headers the loaders look at lie inside the file, and all of the file is delivered. -/
structure HeadersInside (file : BinaryFile) : Prop where
  delivered : file.contents.length = file.length
  magic : 4 ≤ file.length
  elf : file.bytes.bytes 0 4 = [0x7F, 0x45, 0x4C, 0x46] → 64 ≤ file.length
  dos : (imageDosHeader file.bytes 0).e_magic = 0x5A4D →
    64 ≤ file.length ∧ file.peHeader + 64 ≤ file.length

/- The loader for the type of the file turns it away. The one for DOS programs never does. -/
def TurnedAway (file : BinaryFile) (elevation : CBElevation) : Prop :=
  match binaryType file.bytes 0 with
  | .unknown => True
  | .elf =>
    file.elfHeader.e_class ≠ 2 ∨ ¬ (file.elfHeader.e_type = 2 ∨ file.elfHeader.e_type = 3 ∨
      file.elfHeader.e_type = 1) ∨ elevation ≠ .user
  | .pe => file.bytes.load (file.peHeader + 4) 2 ≠ 0x8664
  | .ne =>
    ¬ (file.bytes.load (file.peHeader + 54) 1 = 2 ∨ file.bytes.load (file.peHeader + 54) 1 = 5)
  | .mz => False

/- The file cannot be opened or is no regular file, or its loader turns it away. -/
def Refused (file : BinaryFile) (elevation : CBElevation) : Prop :=
  ¬ file.Readable ∨ HeadersInside file ∧ TurnedAway file elevation

section Refused

variable {file : BinaryFile} {buffer : Nat} {m : Memory}

theorem Buffered.imageDosHeader (h : Buffered file buffer m) (hHeader : 64 ≤ file.length) :
    imageDosHeader m buffer = imageDosHeader file.bytes 0 := by
  have hMagic : m.load buffer 2 = file.bytes.load 0 2 := h.load (a := 0) (by omega)
  rw [Fennix.imageDosHeader, Fennix.imageDosHeader, hMagic, h.load (by omega), h.load (by omega)]

theorem Buffered.newHeader (h : Buffered file buffer m) (hSpace : buffer + file.length < 2 ^ 64)
    (hHeader : 64 ≤ file.length) {i n : Nat}
    (hNew : file.peHeader + i + n ≤ file.length) :
    m.load (u64 (u64 (buffer + (Fennix.imageDosHeader m buffer).e_lfanew) + i)) n =
    file.bytes.load (file.peHeader + i) n := by
  have hAt : u64 (buffer + file.peHeader) =
      buffer + file.peHeader := u64_of_lt (by omega)
  have hStart : (Fennix.imageDosHeader file.bytes 0).e_lfanew = file.peHeader := rfl
  rw [h.imageDosHeader hHeader, hStart, hAt, u64_of_lt (by omega), Nat.add_assoc]
  exact h.load hNew

theorem Buffered.binaryType (h : Buffered file buffer m) (hSpace : buffer + file.length < 2 ^ 64)
    (hInside : HeadersInside file) : binaryType m buffer = binaryType file.bytes 0 := by
  have hLength := hInside.magic
  have hELF : m.bytes buffer 4 = file.bytes.bytes 0 4 := by
    apply map_congr_left
    intro i hi
    have hSmall : i < 4 := mem_range.mp hi
    rw [h i (by omega), Nat.zero_add]
  have hMagic : m.load buffer 2 = file.bytes.load 0 2 := h.load (a := 0) (by omega)
  by_cases hDos : (Fennix.imageDosHeader file.bytes 0).e_magic = 0x5A4D
  · rcases hInside.dos hDos with ⟨hHeader, hNew⟩
    have hAt : u64 (buffer + file.peHeader) =
        buffer + file.peHeader := u64_of_lt (by omega)
    have hAt' : u64 (0 + file.peHeader) =
        file.peHeader := by
      rw [Nat.zero_add]
      exact u64_of_lt (by omega)
    have hStart : (Fennix.imageDosHeader file.bytes 0).e_lfanew = file.peHeader := rfl
    simp only [Fennix.binaryType, h.imageDosHeader hHeader, hELF, hStart, hAt, hAt',
      h.load (a := file.peHeader) (n := 2) (by omega),
      h.load (a := file.peHeader) (n := 4) (by omega)]
  · have hDos' : (Fennix.imageDosHeader m buffer).e_magic ≠ 0x5A4D := by
      change m.load buffer 2 ≠ 0x5A4D
      rw [hMagic]
      exact hDos
    simp only [Fennix.binaryType, hELF, if_neg hDos, if_neg hDos']

theorem elf_of_binaryType (h : binaryType m buffer = .elf) :
    m.bytes buffer 4 = [0x7F, 0x45, 0x4C, 0x46] := by
  by_contra hOther
  simp only [binaryType, if_neg hOther] at h
  repeat' split at h
  all_goals cases h

theorem dos_of_binaryType (h : binaryType m buffer = .pe ∨ binaryType m buffer = .ne) :
    (imageDosHeader m buffer).e_magic = 0x5A4D := by
  by_contra hOther
  simp only [binaryType, if_neg hOther] at h
  split at h <;> simp at h

variable {start : PageFrameAllocator} {held : Set Nat} {s s' : LoadState} {fuel k : Nat}
variable {r : ExecuteRequest} {loaded : Option RetStructData}

theorem elfBody_refused {unset : Nat} {elevation : CBElevation} {fileBuffer : PageRange}
    {header : Elf64Ehdr} (hHeader : elf64Ehdr s.memory fileBuffer.address = header)
    (hAway : header.e_class ≠ 2 ∨ ¬ (header.e_type = 2 ∨ header.e_type = 3 ∨ header.e_type = 1) ∨
    elevation ≠ .user) (h : elfBody fuel pml4 unset elevation fileBuffer s = some (loaded, s')) :
    loaded = none ∧ (s' = s ∨ s.mapKernelPages pml4 fileBuffer = some s') := by
  subst hHeader
  have hSame : some ((none : Option RetStructData), s) = some (loaded, s') →
      loaded = none ∧ (s' = s ∨ s.mapKernelPages pml4 fileBuffer = some s') := by
    intro hEq
    cases hEq
    exact ⟨rfl, .inl rfl⟩
  unfold elfBody at h
  dsimp only at h
  split at h
  · exact hSame h
  split at h
  · rename_i hClass
    split at h
    · rename_i hType
      rcases hAway with hOther | hOther | hUser
      · exact absurd hClass hOther
      · exact absurd hType hOther
      split at h
      · exact absurd rfl hUser
      all_goals first
        | exact hSame h
        | rcases bind_eq_some_iff.mp h with ⟨s₁, hMap, hLast⟩
          cases hLast
          exact ⟨rfl, .inr hMap⟩
    · exact hSame h
  · exact hSame h

/- The loader of a refused file only reads its buffer, or maps the buffer for the kernel. -/
theorem Loading.refused_body
    {body : PageRange → LoadState → Option (Option RetStructData × LoadState)}
    (hLoading : Loading pml4 start held s) (hFree : FreeFrom s.allocator k file.pageCount)
    (hReadable : file.Readable) (hDelivered : file.contents.length = file.length)
    (hBody : ∀ s₁ result s₂, Buffered file (k * 4096) s₁.memory →
    body ⟨k * 4096, file.pageCount⟩ s₁ = some (result, s₂) → result = none ∧
    (s₂ = s₁ ∨ s₁.mapKernelPages pml4 ⟨k * 4096, file.pageCount⟩ = some s₂))
    (h : withFileBuffer none isSome fuel file body s = some (loaded, s')) :
    loaded = none ∧ Loading pml4 start held s' := by
  rcases hLoading.fileBuffer hFree hReadable hDelivered h with
    ⟨s₁, s₂, _, hBuffered, hHeld, hClear, hRun, hFreed⟩
  rcases hBody s₁ loaded s₂ hBuffered hRun with ⟨rfl, hStep⟩
  refine ⟨rfl, (hFreed rfl ?_).1⟩
  rcases hStep with rfl | hMap
  · exact hHeld
  · exact hHeld.mapPages tableFlags_RW (Nat.mul_mod_left k 4096)
      (fun q hq => (hClear q (mem_pagesOf_singleton.mpr hq)).1) hMap

theorem Loading.refused (hLoading : Loading pml4 start held s)
    (hFree : FreeFrom s.allocator k file.pageCount) (hReadable : file.Readable)
    (hInside : HeadersInside file) (hAway : TurnedAway file r.elevation)
    (h : loadBinary fuel pml4 file r (binaryType file.bytes 0) s = some (loaded, s')) :
    loaded = none ∧ Loading pml4 start held s' := by
  have hBits := hLoading.separated.kernelMapped.bits_le
  have hPages := hFree.inside
  have hSpace : k * 4096 + file.length < 2 ^ 64 := by
    unfold BinaryFile.pageCount at hPages
    omega
  unfold TurnedAway at hAway
  cases hType : Fennix.binaryType file.bytes 0 with
  | unknown =>
    rw [hType] at h
    cases h
    exact ⟨rfl, hLoading⟩
  | mz =>
    rw [hType] at hAway
    exact hAway.elim
  | elf =>
    rw [hType] at h hAway
    refine hLoading.refused_body hFree hReadable hInside.delivered ?_ h
    intro s₁ result s₂ hBuffered hRun
    have hHeader := hBuffered.elf64Ehdr (hInside.elf (elf_of_binaryType hType))
    exact elfBody_refused hHeader hAway hRun
  | pe =>
    rw [hType] at h hAway
    refine hLoading.refused_body hFree hReadable hInside.delivered ?_ h
    intro s₁ result s₂ hBuffered hRun
    rcases hInside.dos (dos_of_binaryType (.inl hType)) with ⟨hHeader, hNew⟩
    have hMachine := hBuffered.newHeader hSpace hHeader (i := 4) (n := 2) (by omega)
    simp only [peBody, hMachine, if_neg hAway, ite_self, some.injEq, Prod.mk.injEq] at hRun
    exact ⟨hRun.1.symm, .inl hRun.2.symm⟩
  | ne =>
    rw [hType] at h hAway
    refine hLoading.refused_body hFree hReadable hInside.delivered ?_ h
    intro s₁ result s₂ hBuffered hRun
    rcases hInside.dos (dos_of_binaryType (.inr hType)) with ⟨hHeader, hNew⟩
    have hKind := hBuffered.newHeader hSpace hHeader (i := 54) (n := 1) (by omega)
    simp only [neBody, hKind, if_neg hAway, some.injEq, Prod.mk.injEq] at hRun
    exact ⟨hRun.1.symm, .inl hRun.2.symm⟩

end Refused

------ The Pages in Use

/- The pages of the stacks that the load installs. -/
def stackPages (before after : TaskingMachine) : Set Nat :=
  { q | ∃ i ∈ after.installed.drop before.installed.length,
    q = i.page / 4096 }

section Balance

variable {fuel : Nat} {files : CString → BinaryFile} {r : ExecuteRequest} {machine : TaskingMachine}
variable {e : Executed}

theorem Loading.freeFrom {start : PageFrameAllocator} {s : LoadState} {k n : Nat}
    (hLoading : Loading pml4 start ∅ s) (hFree : FreeFrom start k n)
    (hHint : s.allocator.pageBitmapIndex = k) : FreeFrom s.allocator k n where
  low := Nat.le_of_eq hHint
  used := by
    intro q hLow hHigh
    omega
  free := by
    intro q hLow hHigh
    rw [← Bool.not_eq_true, hLoading.used, hFree.free q hLow hHigh]
    simp
  inside := by
    rw [hLoading.bits]
    exact hFree.inside

/- The first reading of the file gives its pages back and leaves the search where they begin. -/
theorem Loading.getBinaryType {start : PageFrameAllocator} {s s' : LoadState} {k : Nat}
    {file : BinaryFile} {type : BinType} (hLoading : Loading pml4 start ∅ s)
    (hFree : FreeFrom s.allocator k file.pageCount) (hReadable : file.Readable)
    (hInside : HeadersInside file) (h : getBinaryType fuel file s = some (type, s')) :
    type = binaryType file.bytes 0 ∧ Loading pml4 start ∅ s' ∧
    s'.allocator.pageBitmapIndex = k := by
  have hBits := hLoading.separated.kernelMapped.bits_le
  have hPages := hFree.inside
  rcases hLoading.fileBuffer hFree hReadable hInside.delivered h with
    ⟨s₁, s₂, hHint, hBuffered, hHeld, _, hBody, hFreed⟩
  cases hBody
  rcases hFreed rfl hHeld with ⟨hBack, hLeft⟩
  refine ⟨hBuffered.binaryType ?_ hInside, hBack, hLeft hHint⟩
  unfold BinaryFile.pageCount at hPages
  omega

end Balance

------ A Machine of 16 Pages

def tinyBoot : PageFrameAllocator where
  memory := fun x => if x = 0x1000 then 0xC0 else 0
  pageBitmap := ⟨2, 0x1000⟩
  pageBitmapIndex := 0
  totalMemory := 0x10000
  freeMemory := 0xE000
  reservedMemory := 0
  usedMemory := 0x2000
  initialized := true

def selfTables (n : Nat) (s : PageFrameAllocator) : Option (BitVec 64 × PageFrameAllocator) := do
  let (pml4, s) ← createRoot s
  let s ← (range n).foldlM
      (fun s i => mapMemory pml4 s (pageVA i) (pageVA i) (PTFlag.RW ||| PTFlag.US))
      s
  some (pml4, s)

theorem kernelMapped_selfTables {n : Nat} {s' : PageFrameAllocator} (hReady : Ready s)
    (h : selfTables n s = some (pml4, s')) : KernelMapped pml4 s' := by
  rcases bind_eq_some_iff.mp h with ⟨⟨root, s₀⟩, hRoot, hRest⟩
  rcases bind_eq_some_iff.mp hRest with ⟨s₁, hFold, hLast⟩
  cases hLast
  refine foldlM_invariant (P := KernelMapped pml4) ?_ (kernelMapped_createRoot hReady hRoot).1 hFold
  intro i _ a a' hMapped hMap
  exact (hMapped.mapMemory tableFlags_RW_US hMap).1

def tinyTables : Option (BitVec 64 × PageFrameAllocator) :=
  selfTables 16 tinyBoot

theorem ready_tinyBoot : Ready tinyBoot where
  bits_le := by decide
  zero := fun _ => by decide
  spare := by
    have hUsed : ∀ index < 16, tinyBoot.used index = decide (index < 2) := by
      decide
    intro index hIndex hClear x hx hOwns
    rw [hUsed index hIndex, decide_eq_false_iff_not] at hClear
    have hMap : 0x1000 ≤ x ∧ x ≤ 0x1002 := hOwns
    omega
  hinted := by
    refine ⟨by decide, by decide, ?_⟩
    intro q hq
    cases hq

def tinySegment (flags : BitVec 32) (offset vaddr filesz memsz : BitVec 64) : List (BitVec 8) :=
  splitBytes 4 1#32 ++ splitBytes 4 flags ++ splitBytes 8 offset ++ splitBytes 8 vaddr ++
    splitBytes 8 0#64 ++ splitBytes 8 filesz ++ splitBytes 8 memsz ++ splitBytes 8 0x1000#64

def tinyELF : BinaryFile where
  status := .ok
  flags := .fsFile
  length := 176
  contents :=
    [0x7F, 0x45, 0x4C, 0x46, 2] ++ replicate 11 0 ++
      -- e_type, e_machine, e_version, e_entry, e_phoff
      splitBytes 2 2#16 ++ splitBytes 2 0x3E#16 ++
      splitBytes 4 1#32 ++ splitBytes 8 0x10#64 ++
      splitBytes 8 64#64 ++
      -- e_shoff, e_flags, e_ehsize, e_phentsize, e_phnum
      splitBytes 8 0#64 ++ splitBytes 4 0#32 ++
      splitBytes 2 64#16 ++ splitBytes 2 56#16 ++
      splitBytes 2 2#16 ++ splitBytes 6 0#48 ++
      tinySegment 5 0 0 176 0x200 ++ tinySegment 6 64 0x200 32 0x40
  fits := by decide +kernel

end Fennix
