import Fennix.Proc.Balance

/-
  The image of a PE program.
-/

namespace Fennix

open PageDirectoryEntry PageFrameAllocator KernelTables List Option Memory

namespace BinaryFile

variable (file : BinaryFile)

def sectionCount : Nat :=
  file.bytes.load (file.peHeader + 6) 2

def sectionHeader (i : Nat) : ImageSectionHeader :=
  imageSectionHeader file.bytes (file.peHeader + 248 + i * 40)

def headersEnd : Nat :=
  file.peHeader + 248 + file.sectionCount * 40

def Target (i x : Nat) : Prop :=
  (file.sectionHeader i).virtualAddress ≤ x ∧
    x < (file.sectionHeader i).virtualAddress + (file.sectionHeader i).sizeOfRawData

def Raw (i x : Nat) : Prop :=
  (file.sectionHeader i).pointerToRawData ≤ x ∧
    x < (file.sectionHeader i).pointerToRawData + (file.sectionHeader i).sizeOfRawData

end BinaryFile

structure ValidPE (file : BinaryFile) : Prop where
  readable : file.Readable
  delivered : file.contents.length = file.length
  dosHeader : 64 ≤ file.length
  headers : file.headersEnd ≤ file.length
  machine : file.bytes.load (file.peHeader + 4) 2 = 0x8664
  raw : ∀ i < file.sectionCount, ∀ x, file.Raw i x → x < file.length

/-
  Sections whose copies land in the pages of the buffer behind the headers, not on one another and
  not on the data of a later one. A section may overlap its own data from below: `memcpy` copies
  upwards.
-/
structure Placeable (file : BinaryFile) : Prop where
  inside : ∀ i < file.sectionCount, ∀ x, file.Target i x → x < file.pageCount * 4096
  behind : ∀ i < file.sectionCount, ∀ x, file.Target i x → file.headersEnd ≤ x
  apart : ∀ i j, i < j → j < file.sectionCount → ∀ x, file.Target i x → ¬ file.Target j x
  unread : ∀ i j, i < j → j < file.sectionCount → ∀ x, file.Target i x → ¬ file.Raw j x
  own : ∀ i < file.sectionCount, ∀ x, file.Target i x → file.Raw i x →
    (file.sectionHeader i).virtualAddress ≤ (file.sectionHeader i).pointerToRawData

section Sections

variable {fuel : Nat} {pml4 : BitVec 64} {elevation : CBElevation} {file : BinaryFile}
  {held : Set Nat} {buffer k : Nat} {s₀ s s' : LoadState} {r : PageRange}

structure Assembled (pml4 : BitVec 64) (held : Set Nat) (file : BinaryFile) (buffer k : Nat)
    (s₀ s : LoadState) : Prop where
  valid : ValidPE file
  placeable : Placeable file
  aligned : buffer % 4096 = 0
  space : buffer < 2 ^ 52
  fresh : ∀ q, PageRange.Covers ⟨buffer, file.pageCount⟩ q → q ∉ held
  count : k ≤ file.sectionCount
  holding : Holding pml4 (held ∪ pagesOf [⟨buffer, file.pageCount⟩]) s
  keeps : KeepsBytes held s₀ s
  pristine : ∀ x < file.length, (∀ j < k, ¬ file.Target j x) → s.memory (buffer + x) = file.bytes x
  placed : ∀ j < k, ∀ i < (file.sectionHeader j).sizeOfRawData,
    s.memory (buffer + (file.sectionHeader j).virtualAddress + i) =
      file.bytes ((file.sectionHeader j).pointerToRawData + i)
  copied : ∀ c ∈ s.copied, c ∈ s₀.copied ∨
    buffer ≤ c.address ∧ c.address + c.size ≤ buffer + file.pageCount * 4096

section

variable (h : Assembled pml4 held file buffer k s₀ s)

include h

theorem Assembled.load {a n : Nat} (hIn : a + n ≤ file.headersEnd) :
    s.memory.load (buffer + a) n = file.bytes.load a n := by
  have hHeaders := h.valid.headers
  have hCount := h.count
  apply load_shift
  intro i hi
  rw [Nat.add_assoc]
  refine h.pristine _ (by omega) ?_
  intro j hj hTarget
  have hBehind := h.placeable.behind j (by omega) _ hTarget
  omega

theorem Assembled.sectionHeader (hk : k < file.sectionCount) :
    imageSectionHeader s.memory (buffer + (file.peHeader + 248 + k * 40)) =
    file.sectionHeader k := by
  have hEnd : file.headersEnd = file.peHeader + 248 + file.sectionCount * 40 := rfl
  rw [imageSectionHeader, Nat.add_assoc buffer, Nat.add_assoc buffer, Nat.add_assoc buffer,
    h.load (by omega), h.load (by omega), h.load (by omega)]
  rfl

theorem Assembled.step (hHolding : Holding pml4 (held ∪ pagesOf [⟨buffer, file.pageCount⟩]) s')
    (hKeeps : KeepsBytes (held ∪ pagesOf [⟨buffer, file.pageCount⟩]) s s')
    (hCopied : s'.copied = s.copied) : Assembled pml4 held file buffer k s₀ s' := by
  have hSame : ∀ x < file.pageCount * 4096, s'.memory (buffer + x) = s.memory (buffer + x) := by
    intro x hx
    refine hKeeps.contents _ (.inr (mem_pagesOf_singleton.mpr ?_))
    exact covers_byte h.aligned (by dsimp only; omega) (by dsimp only; omega)
  refine { h with
    holding := hHolding
    keeps := h.keeps.trans (hKeeps.mono Set.subset_union_left)
    pristine := ?_
    placed := ?_
    copied := hCopied ▸ h.copied }
  · intro x hx hFree
    have hFits : file.pageCount = file.length / 4096 + 1 := rfl
    exact (hSame x (by omega)).trans (h.pristine x hx hFree)
  intro j hj i hi
  have hCount := h.count
  refine Eq.trans ?_ (h.placed j hj i hi)
  rw [Nat.add_assoc]
  exact hSame _ (h.placeable.inside j (by omega) _ ⟨by omega, by omega⟩)

end

theorem history_mapForPE (h : mapForPE pml4 elevation r s = some s') :
    s'.granted = s.granted ∧ s'.copied = s.copied := by
  unfold mapForPE at h
  split at h
  · exact history_mapPages h
  · exact history_mapPages h
  all_goals
    cases h
    exact ⟨rfl, rfl⟩

theorem Assembled.mapForPE (h : Assembled pml4 held file buffer k s₀ s)
    (hMap : mapForPE pml4 elevation r s = some s') : Assembled pml4 held file buffer k s₀ s' := by
  have hHistory := history_mapForPE hMap
  unfold Fennix.mapForPE at hMap
  split at hMap
  · have hPages := h.holding.mapPages tableFlags_RW_US hMap
    exact h.step hPages.1 hPages.2 hHistory.2
  · have hPages := h.holding.mapPages tableFlags_RW hMap
    exact h.step hPages.1 hPages.2 hHistory.2
  all_goals
    cases hMap
    exact h

theorem Assembled.copy (h : Assembled pml4 held file buffer k s₀ s) (hk : k < file.sectionCount)
    (hSize : 0 < (file.sectionHeader k).sizeOfRawData) : Assembled pml4 held file buffer (k + 1) s₀
    (s.copy ⟨buffer + (file.sectionHeader k).virtualAddress, (file.sectionHeader k).sizeOfRawData⟩
    (buffer + (file.sectionHeader k).pointerToRawData)) := by
  have hAligned := h.aligned
  have hLast := h.placeable.inside k hk ((file.sectionHeader k).virtualAddress +
    ((file.sectionHeader k).sizeOfRawData - 1)) ⟨by omega, by omega⟩
  generalize hAfter : s.copy _ _ = t
  have hMemory : t.memory = s.memory.copy (buffer + (file.sectionHeader k).virtualAddress)
    (buffer + (file.sectionHeader k).pointerToRawData) (file.sectionHeader k).sizeOfRawData := by
    rw [← hAfter]
    rfl
  have hOut : ∀ x, ¬ file.Target k x → t.memory (buffer + x) = s.memory (buffer + x) := by
    intro x hx
    unfold BinaryFile.Target at hx
    rw [hMemory, copy_outside _ _ (by omega)]
  have hPage : ∀ z, t.memory z ≠ s.memory z →
    PageRange.Covers ⟨buffer, file.pageCount⟩ (z / 4096) := by
    intro z hz
    have hIn : ¬ (z < buffer + (file.sectionHeader k).virtualAddress ∨ buffer +
      (file.sectionHeader k).virtualAddress + (file.sectionHeader k).sizeOfRawData ≤ z) :=
      fun hOutside => hz (by rw [hMemory, copy_outside _ _ hOutside])
    exact covers_byte hAligned (by dsimp only; omega) (by dsimp only; omega)
  refine { h with count := hk, holding := ?_, keeps := ⟨?_, ?_⟩, pristine := ?_, placed := ?_,
                  copied := ?_ }
  · rw [← hAfter] at hPage ⊢
    exact h.holding.write (fun z hz => Or.inr (mem_pagesOf_singleton.mpr (hPage z hz)))
  · rw [← hAfter]
    exact h.keeps.bits
  · intro z hz
    refine Eq.trans ?_ (h.keeps.contents z hz)
    by_contra hOther
    exact h.fresh _ (hPage z hOther) hz
  · intro x hx hFree
    exact (hOut x (hFree k (Nat.lt_succ_self k))).trans
      (h.pristine x hx (fun j hj => hFree j (Nat.lt_succ_of_lt hj)))
  · intro j hj i hi
    by_cases hSame : j = k
    · subst hSame
      rw [hMemory, copy, if_pos (by omega), Nat.add_sub_cancel_left, Nat.add_assoc]
      -- no section before this one was copied over its data
      exact h.pristine _ (h.valid.raw j hk _ ⟨by omega, by omega⟩)
        (fun j' hj' hTarget => h.placeable.unread j' j hj' hk _ hTarget ⟨by omega, by omega⟩)
    refine Eq.trans ?_ (h.placed j (by omega) i hi)
    rw [Nat.add_assoc]
    exact hOut _ (h.placeable.apart j k (by omega) hk _ ⟨by omega, by omega⟩)
  · intro c hc
    rw [← hAfter] at hc
    rcases mem_append.mp hc with hOld | hNew
    · exact h.copied c hOld
    · rw [mem_singleton.mp hNew]
      exact .inr ⟨by dsimp only; omega, by dsimp only; omega⟩

theorem Assembled.loadSection (h : Assembled pml4 held file buffer k s₀ s)
    (hk : k < file.sectionCount) (hRun : loadSection fuel pml4 elevation buffer
    (buffer + (file.peHeader + 248 + k * 40)) s = some s')
    (hGranted : ∀ r ∈ s'.granted, r.Within s₀.allocator.bits) :
    Assembled pml4 held file buffer (k + 1) s₀ s' := by
  unfold Fennix.loadSection at hRun
  rw [h.sectionHeader hk] at hRun
  dsimp only at hRun
  by_cases hEmpty : (file.sectionHeader k).sizeOfRawData = 0
  · rw [if_pos hEmpty] at hRun
    cases hRun
    refine { h with count := hk, pristine := ?_, placed := ?_ }
    · exact fun x hx hFree => h.pristine x hx (fun j hj => hFree j (Nat.lt_succ_of_lt hj))
    intro j hj i hi
    have hBefore : j ≠ k := by
      rintro rfl
      omega
    exact h.placed j (by omega) i hi
  rw [if_neg hEmpty] at hRun
  rcases bind_eq_some_iff.mp hRun with ⟨⟨offset, s₁⟩, hRequest, hRest⟩
  rcases bind_eq_some_iff.mp hRest with ⟨s₂, hMap, hLast⟩
  cases hLast
  have hHistory := history_requestPages hRequest
  have hNew :
    PageRange.mk offset (u64 ((file.sectionHeader k).virtualAddress + buffer) / 4096 + 1)
    ∈ s₂.granted := by
    rw [(history_mapForPE hMap).1, hHistory.1]
    exact mem_append_right _ (mem_singleton_self _)
  have hWithin := hGranted _ hNew
  rw [← h.keeps.bits] at hWithin
  rcases h.holding.requestPages hWithin hRequest with ⟨hWider, hKeeps, _, _⟩
  have h₁ := h.step (hWider.mono Set.subset_union_left) hKeeps hHistory.2
  have h₂ := h₁.mapForPE hMap
  have hSpace := h.space
  have hAddress : (file.sectionHeader k).virtualAddress < 2 ^ 32 := load_lt _ _ 4
  have hPointer : (file.sectionHeader k).pointerToRawData < 2 ^ 32 := load_lt _ _ 4
  rw [h₂.sectionHeader hk, u64_of_lt (by omega), u64_of_lt (by omega), Nat.add_comm _ buffer]
  exact h₂.copy hk (Nat.pos_of_ne_zero hEmpty)

theorem granted_loadSections {sections i : Nat} (left : Nat)
    (hRun : loadSections fuel pml4 elevation buffer sections left i s = some s') :
    s.granted <+: s'.granted := by
  induction left generalizing i s with
  | zero =>
    cases hRun
    exact prefix_rfl
  | succ left ih =>
    unfold loadSections at hRun
    split at hRun
    · rcases bind_eq_some_iff.mp hRun with ⟨s₁, hSection, hRest⟩
      refine IsPrefix.trans ?_ (ih hRest)
      unfold loadSection at hSection
      dsimp only at hSection
      split at hSection
      · cases hSection
        exact prefix_rfl
      rcases bind_eq_some_iff.mp hSection with ⟨⟨offset, s₂⟩, hRequest, hNext⟩
      rcases bind_eq_some_iff.mp hNext with ⟨s₃, hMap, hLast⟩
      cases hLast
      change s.granted <+: s₃.granted
      rw [(history_mapForPE hMap).1, (history_requestPages hRequest).1]
      exact prefix_append _ _
    · cases hRun
      exact prefix_rfl

theorem headers_lt (file : BinaryFile) : file.peHeader < 2 ^ 16 ∧ file.sectionCount < 2 ^ 16 ∧
    file.headersEnd = file.peHeader + 248 + file.sectionCount * 40 :=
  ⟨load_lt _ _ 2, load_lt _ _ 2, rfl⟩

theorem Assembled.loadSections (left : Nat) (h : Assembled pml4 held file buffer k s₀ s)
    (hLeft : file.sectionCount ≤ k + left) (hRun : loadSections fuel pml4 elevation buffer
    (buffer + file.peHeader) left k s = some s')
    (hGranted : ∀ r ∈ s'.granted, r.Within s₀.allocator.bits) :
    Assembled pml4 held file buffer file.sectionCount s₀ s' := by
  have hHeaders := headers_lt file
  induction left generalizing k s with
  | zero =>
    cases hRun
    rw [Nat.le_antisymm hLeft h.count]
    exact h
  | succ left ih =>
    have hSpace := h.space
    unfold Fennix.loadSections at hRun
    rw [u64_of_lt (by omega), Nat.add_assoc, h.load (by omega)] at hRun
    change (if k < file.sectionCount then _ else _) = _ at hRun
    by_cases hMore : k < file.sectionCount
    · rw [if_pos hMore] at hRun
      rcases bind_eq_some_iff.mp hRun with ⟨s₁, hSection, hRest⟩
      have hMoreGranted := granted_loadSections left hRest
      rw [u64_of_lt (by omega), Nat.add_assoc, Nat.add_assoc, ← Nat.add_assoc file.peHeader]
        at hSection
      refine ih (h.loadSection hMore hSection ?_) (by omega) hRest
      exact fun r hr => hGranted r (hMoreGranted.subset hr)
    rw [if_neg hMore] at hRun
    cases hRun
    rw [Nat.le_antisymm (Nat.not_lt.mp hMore) h.count]
    exact h

end Sections

def tinyPE (virtualAddress : BitVec 32) : BinaryFile where
  status := .ok
  flags := .fsFile
  length := 356
  contents :=
    splitBytes 2 0x5A4D#16 ++ replicate 58 0 ++ splitBytes 2 64#16 ++ [0, 0] ++
      -- Signature, Machine, NumberOfSections, AddressOfEntryPoint
      splitBytes 4 0x4550#32 ++ splitBytes 2 0x8664#16 ++ splitBytes 2 1#16 ++
      replicate 32 0 ++ splitBytes 4 0x200#32 ++ replicate 204 0 ++
      -- VirtualAddress, SizeOfRawData, PointerToRawData
      replicate 12 0 ++ splitBytes 4 virtualAddress ++ splitBytes 4 4#32 ++
      splitBytes 4 352#32 ++ replicate 16 0 ++ [1, 2, 3, 4]
  fits := by
    simp only [length_append, length_splitBytes, length_replicate, length_cons,
      length_nil]
    decide

structure TinyHeaders (file : BinaryFile) (virtualAddress : Nat) : Prop where
  start : file.peHeader = 64
  count : file.sectionCount = 1
  machine : file.bytes.load (file.peHeader + 4) 2 = 0x8664
  only : file.sectionHeader 0 = ⟨virtualAddress, 4, 352⟩

theorem TinyHeaders.valid {virtualAddress : BitVec 32} {v : Nat}
    (h : TinyHeaders (tinyPE virtualAddress) v) : ValidPE (tinyPE virtualAddress) := by
  have hLength : (tinyPE virtualAddress).length = 356 := rfl
  refine ⟨⟨rfl, rfl⟩, ?_, by omega, ?_, h.machine, ?_⟩
  · simp only [tinyPE, length_append, length_splitBytes, length_replicate, length_cons, length_nil]
  · rw [BinaryFile.headersEnd, h.start, h.count, hLength]
    decide
  · intro i hi x hx
    rw [h.count] at hi
    rw [show i = 0 by omega, BinaryFile.Raw, h.only] at hx
    dsimp only at hx
    omega

theorem TinyHeaders.placeable {file : BinaryFile} {v : Nat} (h : TinyHeaders file v)
    (hBehind : 356 ≤ v) (hInside : v + 4 ≤ file.pageCount * 4096) : Placeable file := by
  have hFirst : ∀ i < file.sectionCount, i = 0 := by
    intro i hi
    rw [h.count] at hi
    omega
  have hTarget : ∀ {x}, file.Target 0 x → v ≤ x ∧ x < v + 4 := by
    intro x hx
    rw [BinaryFile.Target, h.only] at hx
    exact hx
  have hEnd : file.headersEnd = 352 := by
    rw [BinaryFile.headersEnd, h.start, h.count]
  refine ⟨?_, ?_, ?_, ?_, ?_⟩
  · intro i hi x hx
    have hIn := hTarget (hFirst i hi ▸ hx)
    omega
  · intro i hi x hx
    have hIn := hTarget (hFirst i hi ▸ hx)
    omega
  · intro i j hLess hj
    have hZero := hFirst j hj
    omega
  · intro i j hLess hj
    have hZero := hFirst j hj
    omega
  · intro i hi x hx hRaw
    have hIn := hTarget (hFirst i hi ▸ hx)
    rw [hFirst i hi, BinaryFile.Raw, h.only] at hRaw
    dsimp only at hRaw
    omega

end Fennix
