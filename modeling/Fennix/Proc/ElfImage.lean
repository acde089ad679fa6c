import Fennix.Proc.Balance

/-
  The image of an ELF program.

  `ExecuteELF` takes the number of pages from the last segment of type `PT_LOAD`.
-/

namespace Fennix

open PageDirectoryEntry PageFrameAllocator KernelTables List Option Memory

namespace BinaryFile

variable (file : BinaryFile)

def programHeader (i : Nat) : Elf64Phdr :=
  elf64Phdr file.bytes (file.elfHeader.e_phoff + i * 56)

def Loads (i : Nat) : Prop :=
  i < file.elfHeader.e_phnum ∧ (file.programHeader i).p_type = 1

def segmentEnd (i : Nat) : Nat :=
  (file.programHeader i).p_vaddr + (file.programHeader i).p_memsz

def segmentByte (j i : Nat) : BitVec 8 :=
  if i < (file.programHeader j).p_filesz then file.bytes ((file.programHeader j).p_offset + i)
  else 0

def lastEnd (unset k : Nat) : Nat :=
  (range k).foldl (fun addr i =>
      if (file.programHeader i).p_type ≠ 1 then addr else u64 (file.segmentEnd i)) unset

def imageSize : Nat :=
  file.lastEnd 0 file.elfHeader.e_phnum

def imagePages : Nat :=
  file.imageSize / 4096 + 1

end BinaryFile

structure ValidELF (file : BinaryFile) : Prop where
  readable : file.Readable
  delivered : file.contents.length = file.length
  header : 64 ≤ file.length
  class64 : file.elfHeader.e_class = 2
  type : file.elfHeader.e_type = 2 ∨ file.elfHeader.e_type = 3 ∨ file.elfHeader.e_type = 1
  table : file.elfHeader.e_phoff + file.elfHeader.e_phnum * 56 ≤ file.length
  loads : ∃ i, file.Loads i
  ascending : ∀ i j, i < j → file.Loads i → file.Loads j →
    file.segmentEnd i ≤ (file.programHeader j).p_vaddr
  segment : ∀ i, file.Loads i → (file.programHeader i).p_filesz ≤ (file.programHeader i).p_memsz ∧
      file.segmentEnd i < 2 ^ 64 ∧
      (file.programHeader i).p_offset + (file.programHeader i).p_filesz ≤ file.length

section Headers

variable {file : BinaryFile} {buffer : Nat} {m : Memory}

theorem Buffered.pheader (h : Buffered file buffer m) (hSpace : buffer + file.length < 2 ^ 64)
    (hValid : ValidELF file) {i : Nat} (hi : i < file.elfHeader.e_phnum) :
    pheader m buffer file.elfHeader i = file.programHeader i := by
  have hTable := hValid.table
  have hIn : file.elfHeader.e_phoff + i * 56 + 56 ≤ file.length := by omega
  rw [Fennix.pheader, u64_of_lt (by omega), Nat.add_assoc, BinaryFile.programHeader]
  simp only [elf64Phdr, Nat.add_assoc]
  rw [h.load (by omega), h.load (by omega), h.load (by omega), h.load (by omega), h.load (by omega)]

theorem lastEnd_succ (unset k : Nat) : file.lastEnd unset (k + 1) =
    if (file.programHeader k).p_type ≠ 1 then file.lastEnd unset k
    else u64 (file.segmentEnd k) := by
  rw [BinaryFile.lastEnd, range_succ, foldl_append, foldl_cons, foldl_nil]
  rfl

theorem lastEnd_set (unset : Nat) {i k : Nat} (hi : i < k)
    (hLoad : (file.programHeader i).p_type = 1) : file.lastEnd unset k = file.lastEnd 0 k := by
  induction k with
  | zero => exact absurd hi (Nat.not_lt_zero i)
  | succ k ih =>
    rw [lastEnd_succ, lastEnd_succ]
    by_cases hLast : (file.programHeader k).p_type = 1
    · rw [if_neg (not_not.mpr hLast), if_neg (not_not.mpr hLast)]
    rw [if_pos hLast, if_pos hLast]
    have hBefore : i ≠ k := fun hSame => hLast (hSame ▸ hLoad)
    exact ih (by omega)

theorem Buffered.imageEnd (h : Buffered file buffer m) (hSpace : buffer + file.length < 2 ^ 64)
    (hValid : ValidELF file) (unset : Nat) :
    imageEnd m buffer file.elfHeader unset = file.imageSize := by
  rcases hValid.loads with ⟨i, hi, hLoad⟩
  rw [BinaryFile.imageSize, ← lastEnd_set unset hi hLoad]
  apply foldl_ext
  intro addr i hi
  rw [h.pheader hSpace hValid (mem_range.mp hi)]
  rfl

theorem le_lastEnd (hValid : ValidELF file) {i k : Nat} (hk : k ≤ file.elfHeader.e_phnum)
    (hi : i < k) (hLoad : file.Loads i) : file.segmentEnd i ≤ file.lastEnd 0 k := by
  induction k with
  | zero => exact absurd hi (Nat.not_lt_zero i)
  | succ k ih =>
    rw [lastEnd_succ]
    by_cases hLast : (file.programHeader k).p_type = 1
    · rw [if_neg (not_not.mpr hLast), u64_of_lt (hValid.segment k ⟨hk, hLast⟩).2.1]
      by_cases hSame : i = k
      · rw [hSame]
      · have hLess := hValid.ascending i k (by omega) hLoad ⟨hk, hLast⟩
        exact Nat.le_trans hLess (Nat.le_add_right _ _)
    rw [if_pos hLast]
    have hBefore : i ≠ k := fun hSame => hLast (hSame ▸ hLoad.2)
    exact ih (by omega) (by omega)

end Headers

section Segments

variable {s : LoadState} {target source size whole : Nat}

theorem memory_segment_inside {i : Nat} (hi : i < whole)
    (hApart : ∀ j < size, source + j < target ∨ target + whole ≤ source + j) :
    ((s.clear ⟨target, whole⟩).copy ⟨target, size⟩ source).memory (target + i) =
    if i < size then s.memory (source + i) else 0 := by
  change ((s.memory.fill target 0 whole).copy target source size) (target + i) = _
  by_cases hCopied : i < size
  · rw [if_pos hCopied, copy, if_pos (by omega), Nat.add_sub_cancel_left,
      fill_outside s.memory 0 (hApart i hCopied)]
  · rw [if_neg hCopied, copy_outside _ _ (by omega), fill_inside s.memory 0 (by omega) (by omega)]

theorem memory_segment_outside {z : Nat} (hFits : size ≤ whole)
    (hz : z < target ∨ target + whole ≤ z) :
    ((s.clear ⟨target, whole⟩).copy ⟨target, size⟩ source).memory z = s.memory z := by
  change ((s.memory.fill target 0 whole).copy target source size) z = _
  rw [copy_outside _ _ (by omega), fill_outside s.memory 0 hz]

end Segments

structure Loaded (file : BinaryFile) (buffer offset k : Nat) (s₀ s : LoadState) : Prop where
  valid : ValidELF file
  bufferSpace : buffer + file.length < 2 ^ 64
  imageSpace : offset + file.imageSize < 2 ^ 64
  apart : buffer + file.length ≤ offset ∨ offset + file.imageSize ≤ buffer
  buffered : Buffered file buffer s.memory
  placed : ∀ j < k, file.Loads j → ∀ i < (file.programHeader j).p_memsz,
    s.memory (offset + (file.programHeader j).p_vaddr + i) = file.segmentByte j i
  outside : ∀ z, z < offset ∨ offset + file.imageSize ≤ z → s.memory z = s₀.memory z
  copied : ∀ c ∈ s.copied, c ∈ s₀.copied ∨
    offset ≤ c.address ∧ c.address + c.size ≤ offset + file.imageSize
  granted : s.granted = s₀.granted
  bits : s.allocator.bits = s₀.allocator.bits

section Loading

variable {file : BinaryFile} {buffer offset k : Nat} {s₀ s : LoadState}

theorem Loaded.loadSegment (h : Loaded file buffer offset k s₀ s)
    (hk : k < file.elfHeader.e_phnum) :
    Loaded file buffer offset (k + 1) s₀ (loadSegment buffer offset file.elfHeader s k) := by
  have hImage := h.imageSpace
  have hSpace := h.bufferSpace
  have hApart := h.apart
  unfold Fennix.loadSegment
  rw [h.buffered.pheader hSpace h.valid hk]
  dsimp only
  by_cases hType : (file.programHeader k).p_type = 1
  · have hLoad : file.Loads k := ⟨hk, hType⟩
    rcases h.valid.segment k hLoad with ⟨hFits, _, hSource⟩
    have hEnd : _ ≤ file.imageSize := le_lastEnd h.valid (Nat.le_refl _) hk hLoad
    unfold BinaryFile.segmentEnd at hEnd
    have hCleared : Buffered file buffer (s.clear ⟨(file.programHeader k).p_vaddr + offset,
      (file.programHeader k).p_memsz⟩).memory :=
      fun i hi => (fill_outside _ 0 (by dsimp only; omega)).trans (h.buffered i hi)
    rw [if_neg (not_not.mpr hType), u64_of_lt (n := _ + offset) (by omega),
      hCleared.pheader hSpace h.valid hk, u64_of_lt (by omega), Nat.add_comm _ offset]
    generalize hTarget : offset + (file.programHeader k).p_vaddr = target
    refine { h with buffered := ?_, placed := ?_, outside := ?_, copied := ?_ }
    · intro i hi
      exact (memory_segment_outside hFits (by omega)).trans (h.buffered i hi)
    · intro j hj hOther i hi
      by_cases hSame : j = k
      · subst hSame
        rw [hTarget]
        refine (memory_segment_inside hi (by omega)).trans ?_
        rw [BinaryFile.segmentByte]
        split
        · rw [Nat.add_assoc]
          exact h.buffered _ (by omega)
        · rfl
      have hLess := h.valid.ascending j k (by omega) hOther hLoad
      unfold BinaryFile.segmentEnd at hLess
      exact (memory_segment_outside hFits (by omega)).trans (h.placed j (by omega) hOther i hi)
    · intro z hz
      exact (memory_segment_outside hFits (by omega)).trans (h.outside z hz)
    · intro c hc
      change c ∈ s.copied ++ [_] ++ [_] at hc
      rw [append_assoc, mem_append] at hc
      rcases hc with hOld | hNew
      · exact h.copied c hOld
      right
      rcases mem_cons.mp hNew with rfl | hCopy
      · exact ⟨by dsimp only; omega, by dsimp only; omega⟩
      · rw [mem_singleton.mp hCopy]
        exact ⟨by dsimp only; omega, by dsimp only; omega⟩
  rw [if_pos hType]
  refine { h with placed := ?_ }
  intro j hj hOther
  have hBefore : j ≠ k := fun hSame => hType (hSame ▸ hOther.2)
  exact h.placed j (by omega) hOther

theorem Loaded.loadSegments (h : Loaded file buffer offset 0 s₀ s)
    (hk : k ≤ file.elfHeader.e_phnum) : Loaded file buffer offset k s₀
    ((range k).foldl (Fennix.loadSegment buffer offset file.elfHeader) s) := by
  induction k with
  | zero => exact h
  | succ k ih =>
    rw [range_succ, foldl_append, foldl_cons, foldl_nil]
    exact (ih (by omega)).loadSegment hk

end Loading

------ Programs of the User

def requestELF (fuel : Nat) (pml4 : BitVec 64) (file : BinaryFile) (s : LoadState) :
    Option (Nat × Nat × LoadState) := do
  let (buffer, s) ← s.requestPages fuel file.pageCount
  let s ← (s.read file buffer).mapUserPages pml4 ⟨buffer, file.pageCount⟩
  let (offset, s) ← s.requestPages fuel file.imagePages
  let s ← s.mapUserPages pml4 ⟨offset, file.imagePages⟩
  some (buffer, offset, s)

section User

variable {fuel : Nat} {pml4 : BitVec 64} {file : BinaryFile} {held : Set Nat}
  {s s' : LoadState} {buffer offset : Nat}

structure ImageReady (held : Set Nat) (file : BinaryFile) (buffer offset : Nat)
    (s s' : LoadState) : Prop where
  keeps : KeepsBytes held s s'
  loaded : Loaded file buffer offset 0 s' s'
  aligned : offset % 4096 = 0
  fresh : ∀ q, PageRange.Covers ⟨offset, file.imagePages⟩ q → q ∉ held
  granted : s'.granted = s.granted ++ [⟨buffer, file.pageCount⟩, ⟨offset, file.imagePages⟩]
  copied : s'.copied = s.copied

theorem executeELF_user (unset : Nat) (hHolding : Holding pml4 held s) (hValid : ValidELF file)
    (hBuffer : PageRange.Within s.allocator.bits ⟨buffer, file.pageCount⟩)
    (hOffset : PageRange.Within s.allocator.bits ⟨offset, file.imagePages⟩)
    (h : requestELF fuel pml4 file s = some (buffer, offset, s')) :
    ImageReady held file buffer offset s s' ∧
    executeELF fuel pml4 unset file .user s = some (some ⟨offset, file.elfHeader.e_entry⟩,
    (range file.elfHeader.e_phnum).foldl (loadSegment buffer offset file.elfHeader) s') := by
  rcases bind_eq_some_iff.mp h with ⟨⟨b, s₁⟩, hRequest, hRest⟩
  rcases bind_eq_some_iff.mp hRest with ⟨s₂, hMap, hRest⟩
  rcases bind_eq_some_iff.mp hRest with ⟨⟨o, s₃⟩, hRequest', hRest⟩
  rcases bind_eq_some_iff.mp hRest with ⟨s₄, hMap', hLast⟩
  cases hLast
  have hCount : file.pageCount = file.length / 4096 + 1 := rfl
  have hSize : file.imagePages = file.imageSize / 4096 + 1 := rfl
  have hBits := hHolding.separated.kernelMapped.bits_le
  rcases hHolding.readFile hValid.delivered hBuffer hRequest with
    ⟨hRead, hFirst, hAligned, hBuffered⟩
  rcases hRead.mapPages tableFlags_RW_US hMap with ⟨hMapped, hSecond⟩
  have hSame : s₂.allocator.bits = s.allocator.bits := hSecond.bits.trans hFirst.bits
  rcases hMapped.requestPages (hSame ▸ hOffset) hRequest' with ⟨hWider, hThird, hAligned', hFresh⟩
  have hFourth := (hWider.mapPages tableFlags_RW_US hMap').2
  -- the last three steps keep the pages of the buffer as well
  have hLater := (hSecond.trans hThird).trans (hFourth.mono Set.subset_union_left)
  have hApart := apart_of_covers (r := ⟨buffer, file.pageCount⟩) (t := ⟨offset, file.imagePages⟩)
    hAligned hAligned' (Nat.succ_pos _) (Nat.succ_pos _)
    (fun q hq hCommon => hFresh q hq (.inr (mem_pagesOf_singleton.mpr hCommon)))
  unfold PageRange.Within at hBuffer hOffset
  dsimp only at hBuffer hOffset hApart
  have hLoaded : Loaded file buffer offset 0 s' s' :=
    ⟨hValid, by omega, by omega, by omega, hBuffered.keeps hAligned hLater,
      fun j hj => absurd hj (Nat.not_lt_zero j), fun _ _ => rfl, fun _ hc => Or.inl hc, rfl, rfl⟩
  have hHistory := history_requestPages hRequest
  have hHistory' := history_requestPages hRequest'
  refine ⟨⟨hFirst.trans (hLater.mono Set.subset_union_left), hLoaded, hAligned',
    fun q hq hHeld => hFresh q hq (.inl hHeld), ?_, ?_⟩, ?_⟩
  · rw [(history_mapPages hMap').1, hHistory'.1, (history_mapPages hMap).1]
    change s₁.granted ++ _ = _
    rw [hHistory.1, append_assoc]
    rfl
  · rw [(history_mapPages hMap').2, hHistory'.2, (history_mapPages hMap).2]
    exact hHistory.2
  · have hEnd := (hBuffered.keeps hAligned hSecond).imageEnd hLoaded.bufferSpace hValid unset
    rw [hSize] at hRequest' hMap'
    unfold executeELF withFileBuffer
    rw [if_pos hValid.readable, hRequest]
    simp [elfBody, loadELF, LoadState.mapImage, hBuffered.elf64Ehdr hValid.header, hValid.class64,
      hValid.type, hMap, hEnd, hRequest', hMap']

theorem executeELF_user_image (unset : Nat) (hHolding : Holding pml4 held s)
    (hValid : ValidELF file) (hBuffer : PageRange.Within s.allocator.bits ⟨buffer, file.pageCount⟩)
    (hOffset : PageRange.Within s.allocator.bits ⟨offset, file.imagePages⟩)
    (h : requestELF fuel pml4 file s = some (buffer, offset, s')) :
    ∃ t, executeELF fuel pml4 unset file .user s = some (some ⟨offset, file.elfHeader.e_entry⟩, t) ∧
    t.granted = s.granted ++ [⟨buffer, file.pageCount⟩, ⟨offset, file.imagePages⟩] ∧
    (∀ c ∈ t.copied, c ∈ s.copied ∨
    offset ≤ c.address ∧ c.address + c.size ≤ offset + file.imagePages * 4096) ∧
    KeepsBytes held s t ∧ ∀ j, file.Loads j → ∀ i < (file.programHeader j).p_memsz,
    t.memory (offset + (file.programHeader j).p_vaddr + i) = file.segmentByte j i := by
  rcases executeELF_user unset hHolding hValid hBuffer hOffset h with ⟨hReady, hRun⟩
  have hSize : file.imagePages = file.imageSize / 4096 + 1 := rfl
  have hLoaded := hReady.loaded.loadSegments (Nat.le_refl _)
  refine ⟨_, hRun, hLoaded.granted.trans hReady.granted, ?_,
    ⟨hLoaded.bits.trans hReady.keeps.bits, ?_⟩, fun j hLoad => hLoaded.placed j hLoad.1 hLoad⟩
  · intro c hc
    rcases hLoaded.copied c hc with hOld | ⟨hLow, hHigh⟩
    · exact .inl (hReady.copied ▸ hOld)
    · exact .inr ⟨hLow, by omega⟩
  intro z hz
  refine (hLoaded.outside z ?_).trans (hReady.keeps.contents z hz)
  by_contra hIn
  exact hReady.fresh _ (covers_byte hReady.aligned (by dsimp only; omega)
    (by dsimp only; omega)) hz

end User

theorem valid_tinyELF : ValidELF tinyELF := by
  have hTwo : ∀ i, tinyELF.Loads i → i < 2 := by
    intro i hi
    have hCount : tinyELF.elfHeader.e_phnum = 2 := by
      decide +kernel
    have hLess := hi.1
    omega
  refine ⟨by decide, by decide +kernel, by decide, by decide +kernel, by decide +kernel,
    by decide +kernel, ⟨0, by decide +kernel, by decide +kernel⟩, ?_, ?_⟩
  · intro i j hLess _ hj
    have hSecond := hTwo j hj
    obtain ⟨rfl, rfl⟩ : i = 0 ∧ j = 1 := by omega
    decide +kernel
  intro i hi
  have hIndex := hTwo i hi
  interval_cases i <;> decide +kernel

theorem executeELF_user_image_tiny : ∃ pml4 a, tinyTables = some (pml4, a) ∧
    ∃ t, executeELF 40 pml4 0 tinyELF .user ⟨a, [], []⟩ = some (some ⟨0x7000, 0x10⟩, t) ∧
    t.granted = [⟨0x6000, 1⟩, ⟨0x7000, 1⟩] ∧ t.memory 0x70AF = tinyELF.bytes 0xAF ∧
    t.memory 0x70B0 = 0 ∧ t.memory 0x721F = tinyELF.bytes 0x5F ∧ t.memory 0x7220 = 0 := by
  have hEval : tinyTables.bind (fun x => (requestELF 40 x.1 tinyELF ⟨x.2, [], []⟩).map
      (fun y => (x.2.bits, y.1, y.2.1))) = some (16, 0x6000, 0x7000) := by
    decide +kernel
  rcases bind_eq_some_iff.mp hEval with ⟨⟨pml4, a⟩, hTables, hMap⟩
  rcases map_eq_some_iff.mp hMap with ⟨⟨buffer, offset, s'⟩, hRequests, hFacts⟩
  rw [Prod.mk.injEq, Prod.mk.injEq] at hFacts
  rcases hFacts with ⟨hBits, rfl, rfl⟩
  change a.bits = 16 at hBits
  have hPages : tinyELF.imagePages = 1 := by
    decide +kernel
  have hMapped := kernelMapped_selfTables ready_tinyBoot hTables
  have hText : tinyELF.Loads 0 := ⟨by decide +kernel, by decide +kernel⟩
  have hData : tinyELF.Loads 1 := ⟨by decide +kernel, by decide +kernel⟩
  rcases executeELF_user_image 0 ⟨hMapped.separated, fun _ hq => hq.elim⟩ valid_tinyELF
    ⟨by decide, by rw [hBits]; decide⟩ ⟨by decide, by rw [hBits, hPages]; decide⟩ hRequests with
    ⟨t, hRun, hGranted, _, _, hPlaced⟩
  rw [hPages] at hGranted
  exact ⟨pml4, a, hTables, t, hRun, hGranted, hPlaced 0 hText 0xAF (by decide +kernel),
    hPlaced 0 hText 0xB0 (by decide +kernel), hPlaced 1 hData 0x1F (by decide +kernel),
    hPlaced 1 hData 0x20 (by decide +kernel)⟩

------ Other Elevations

section Elevations

variable {fuel unset : Nat} {pml4 : BitVec 64} {file : BinaryFile} {elevation : CBElevation}
  {s s' : LoadState} {result : Option RetStructData} {ret : RetStructData}

def LoadsAlike (fuel : Nat) (pml4 : BitVec 64) (unset : Nat) (file : BinaryFile)
    (elevation : CBElevation) (s s' : LoadState) (ret : RetStructData) : Prop :=
  ∃ t, executeELF fuel pml4 unset file elevation s = some (some ret, t) ∧
    t.granted = s'.granted ∧ ∀ r ∈ s'.granted, ∀ z, r.address ≤ z →
      z < r.address + r.pageCount * 4096 → t.memory z = s'.memory z

theorem executeELF_refused (hOther : elevation ≠ .user)
    (h : executeELF fuel pml4 unset file elevation s = some (result, s')) : result = none := by
  unfold executeELF withFileBuffer at h
  split at h
  · rcases bind_eq_some_iff.mp h with ⟨⟨buffer, s₁⟩, _, hRest⟩
    rcases bind_eq_some_iff.mp hRest with ⟨⟨answer, s₂⟩, hBody, hLast⟩
    have hNone := (elfBody_refused rfl (.inr (.inr hOther)) hBody).1
    subst hNone
    cases hLast
    rfl
  · cases h
    rfl

theorem executeELF_alike_iff (h : executeELF fuel pml4 unset file .user s = some (some ret, s')) :
    LoadsAlike fuel pml4 unset file elevation s s' ret ↔ elevation = .user := by
  constructor
  · rintro ⟨t, hRun, _⟩
    by_contra hOther
    cases executeELF_refused hOther hRun
  · rintro rfl
    exact ⟨s', h, rfl, fun _ _ _ _ _ => rfl⟩

end Elevations

theorem executeELF_alike_iff_tiny : ∃ pml4 a s', tinyTables = some (pml4, a) ∧
    executeELF 40 pml4 0 tinyELF .user ⟨a, [], []⟩ = some (some ⟨0x7000, 0x10⟩, s') ∧
    ¬ LoadsAlike 40 pml4 0 tinyELF .kernel ⟨a, [], []⟩ s' ⟨0x7000, 0x10⟩ := by
  have hEval : tinyTables.bind (fun x =>
      (executeELF 40 x.1 0 tinyELF .user ⟨x.2, [], []⟩).map (·.1)) =
        some (some ⟨0x7000, 0x10⟩) := by
    decide +kernel
  rcases bind_eq_some_iff.mp hEval with ⟨⟨pml4, a⟩, hTables, hMap⟩
  rcases map_eq_some_iff.mp hMap with ⟨⟨result, s'⟩, hRun, rfl⟩
  refine ⟨pml4, a, s', hTables, hRun, ?_⟩
  rw [executeELF_alike_iff hRun]
  decide

theorem kernel_program_refused : ValidELF tinyELF ∧ tinyTables.map (fun x =>
    [CBElevation.user, .kernel, .system, .idle].map (fun elevation =>
    (executeELF 40 x.1 0 tinyELF elevation ⟨x.2, [], []⟩).map (·.1))) =
    some [some (some ⟨0x7000, 0x10⟩), some none, some none, some none] := by
  refine ⟨valid_tinyELF, ?_⟩
  decide +kernel

end Fennix
