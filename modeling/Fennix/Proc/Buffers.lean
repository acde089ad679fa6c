import Fennix.Proc.Binary
import Fennix.Syscalls.Pages

/-
  The pages a load holds, and their contents.
-/

namespace Fennix

open PageDirectoryEntry PageFrameAllocator KernelTables List

def pagesOf (ranges : List PageRange) : Set Nat :=
  { q | ∃ r ∈ ranges, r.Covers q }

variable {q : Nat}

@[simp] theorem mem_pagesOf_singleton {r : PageRange} : q ∈ pagesOf [r] ↔ r.Covers q := by
  simp [pagesOf]

theorem covers_one {address : Nat} : PageRange.Covers ⟨address, 1⟩ q ↔ q = address / 4096 := by
  unfold PageRange.Covers
  dsimp only
  omega

def ClearBefore (start : PageFrameAllocator) (q : Nat) : Prop :=
  q < start.bits ∧ start.used q = false

/-
  During a load, with the pages `held` in use besides those of the start: the tables are intact,
  and every page that was clear keeps its entry in them.
-/
structure Loading (pml4 : BitVec 64) (start : PageFrameAllocator) (held : Set Nat)
    (s : LoadState) : Prop where
  separated : Separated pml4 held s.allocator
  bits : s.allocator.bits = start.bits
  used : ∀ q, s.allocator.used q = true ↔ start.used q = true ∨ q ∈ held
  fresh : ∀ q ∈ held, start.used q = false
  tables : ∀ index, ClearBefore start index → lookup s.memory pml4 (.of (pageVA index)) ≠ none

section Steps

variable {pml4 : BitVec 64} {start : PageFrameAllocator} {held given : Set Nat}
variable {s s' s'' : LoadState} {r : PageRange} {m : Memory} {address : Nat}

variable {allocator : PageFrameAllocator}

section

variable (hLoading : Loading pml4 start held s)

include hLoading

theorem Loading.clear_start (hClear : s.allocator.used q = false) :
    start.used q = false ∧ q ∉ held := by
  rw [← Bool.not_eq_true, hLoading.used, not_or, Bool.not_eq_true] at hClear
  exact hClear

theorem Loading.tables_onlyBits (hOnly : OnlyBits s.allocator allocator) (index : Nat)
    (hClear : ClearBefore start index) : lookup allocator.memory pml4 (.of (pageVA index)) ≠
    none := by
  have hSame := hLoading.separated.kernelMapped.follow_onlyBits hOnly
  rw [lookup, hSame _ (by simp)]
  exact hLoading.tables index hClear

theorem Loading.request (hOnly : OnlyBits s.allocator s'.allocator)
    (hClear : ∀ q, r.Covers q → s.allocator.used q = false)
    (hUsed : ∀ q, s'.allocator.used q = true ↔ s.allocator.used q = true ∨ r.Covers q) :
    Loading pml4 start (held ∪ pagesOf [r]) s' where
  separated := by
    apply hLoading.separated.hand hOnly
    · intro q hq
      exact (hUsed q).mpr (.inl hq)
    · intro q hq
      exact hClear q (mem_pagesOf_singleton.mp hq)
    · intro q hq _
      exact (hUsed q).mpr (.inr (mem_pagesOf_singleton.mp hq))
  bits := hOnly.bits.trans hLoading.bits
  used := by
    intro q
    rw [hUsed, hLoading.used, Set.mem_union, mem_pagesOf_singleton, or_assoc]
  fresh := by
    rintro q (hOld | hNew)
    · exact hLoading.fresh q hOld
    · exact (hLoading.clear_start (hClear q (mem_pagesOf_singleton.mp hNew))).1
  tables := hLoading.tables_onlyBits hOnly

end

theorem Loading.giveBack (hLoading : Loading pml4 start (held ∪ given) s)
    (hOnly : OnlyBits s.allocator s'.allocator)
    (hApart : ∀ q ∈ given, q ∉ held)
    (hUsed : ∀ q, s'.allocator.used q = true ↔ s.allocator.used q = true ∧ q ∉ given) :
    Loading pml4 start held s' where
  separated := by
    have hBack := hLoading.separated.giveBack given hOnly hUsed (fun q hq _ => Or.inr hq)
    rwa [Set.union_sdiff_cancel_right (fun q hq => hApart q hq.2 hq.1)] at hBack
  bits := hOnly.bits.trans hLoading.bits
  used := by
    intro q
    rw [hUsed, hLoading.used]
    constructor
    · rintro ⟨hBefore | hOld | hNew, hNot⟩
      · exact .inl hBefore
      · exact .inr hOld
      · exact absurd hNew hNot
    rintro (hBefore | hOld)
    · refine ⟨Or.inl hBefore, fun hNew => ?_⟩
      rw [hLoading.fresh q (.inr hNew)] at hBefore
      cases hBefore
    · exact ⟨Or.inr (.inl hOld), fun hNew => hApart q hNew hOld⟩
  fresh := fun q hq => hLoading.fresh q (.inl hq)
  tables := hLoading.tables_onlyBits hOnly

theorem Loading.write (hLoading : Loading pml4 start held s)
    (hWrite : ∀ x, m x ≠ s.memory x → x / 4096 < start.bits ∧ x / 4096 ∈ held) :
    Loading pml4 start held (s.setMemory m) := by
  rcases hLoading.separated.write (m := m) (fun x hx =>
    ⟨hLoading.bits ▸ (hWrite x hx).1, Or.inl (hWrite x hx).2⟩) with ⟨hSeparated, hUsed, hLookup⟩
  refine ⟨hSeparated, hLoading.bits, ?_, hLoading.fresh, ?_⟩
  · intro q
    exact (Bool.eq_iff_iff.mp (hUsed q)).trans (hLoading.used q)
  · intro index hClear
    exact Eq.trans_ne (hLookup _) (hLoading.tables index hClear)

variable {flags : BitVec 64}

theorem Loading.map {index : Nat} (hLoading : Loading pml4 start held s) (hFlags : TableFlags flags)
    (hClear : ClearBefore start index)
    (hMap : mapMemory pml4 s.allocator (pageVA index) (pageVA index) flags = some allocator) :
    Loading pml4 start held { s with allocator := allocator } := by
  have hMapped := hLoading.separated.kernelMapped
  rcases hLoading.separated.mapMemory hFlags hMap with ⟨hSeparated, hKept⟩
  rcases hMapped.mapMemory hFlags hMap with ⟨_, _, hLookup⟩
  rcases Option.ne_none_iff_exists'.mp (hLoading.tables index hClear) with ⟨page, hPage⟩
  rcases hMapped.remap (OnlyBits.refl _) hPage (pageVA index) flags with ⟨s₁, hAgain, hUsed⟩
  have hSame : s₁ = allocator := by
    rw [hAgain] at hMap
    exact Option.some.inj hMap
  refine ⟨hSeparated, hKept.bits.trans hLoading.bits, ?_, hLoading.fresh, ?_⟩
  · intro q
    rw [← hSame, hUsed]
    exact hLoading.used q
  intro other hOther
  rw [LoadState.memory, hLookup]
  split
  · exact Option.some_ne_none _
  · exact hLoading.tables other hOther

theorem Loading.mapPages (hLoading : Loading pml4 start held s) (hFlags : TableFlags flags)
    (hAligned : r.address % 4096 = 0) (hClear : ∀ q, r.Covers q → ClearBefore start q)
    (h : s.mapPages pml4 flags r = some s') : Loading pml4 start held s' := by
  rcases Option.map_eq_some_iff.mp h with ⟨allocator, hFold, rfl⟩
  refine foldlM_invariant (P := fun a => Loading pml4 start held { s with allocator := a })
    ?_ hLoading hFold
  intro i hi a a' hBefore hMap
  have hCount : i < r.pageCount := mem_range.mp hi
  have hPage : r.address + i * 4096 = (r.address / 4096 + i) * 4096 := by
    omega
  rw [hPage] at hMap
  exact hBefore.map hFlags (hClear _ ⟨by omega, by omega⟩) hMap

theorem Loading.freePages (hLoading : Loading pml4 start (held ∪ pagesOf [r]) s)
    (hApart : ∀ q ∈ pagesOf [r], q ∉ held) (hInside : r.address / 4096 + r.pageCount ≤ start.bits) :
    Loading pml4 start held (s.freePages r) := by
  have hBits := hLoading.separated.kernelMapped.bits_le
  rw [hLoading.bits] at hBits
  refine hLoading.giveBack (onlyBits_forPages onlyBits_freePage _ _ _) hApart ?_
  intro q
  rw [mem_pagesOf_singleton]
  change (s.allocator.freePages r.address r.pageCount).used q = true ↔ _
  rw [used_freePages, touches_iff q (by omega)]
  exact Iff.rfl

theorem Loading.freePage (hLoading : Loading pml4 start (held ∪ pagesOf [⟨address, 1⟩]) s)
    (hApart : ∀ q ∈ pagesOf [⟨address, 1⟩], q ∉ held) :
    Loading pml4 start held (s.freePage address) := by
  refine hLoading.giveBack (onlyBits_freePage _ _) hApart ?_
  intro q
  rw [mem_pagesOf_singleton, covers_one]
  exact used_freePage _ _ _

end Steps

------ Contents

def PageRange.Within (bits : Nat) (r : PageRange) : Prop :=
  r.address ≠ 0 ∧ r.address / 4096 + r.pageCount ≤ bits

structure Holding (pml4 : BitVec 64) (held : Set Nat) (s : LoadState) : Prop where
  separated : Separated pml4 held s.allocator
  inside : ∀ q ∈ held, q < s.allocator.bits

structure KeepsBytes (held : Set Nat) (s s' : LoadState) : Prop where
  bits : s'.allocator.bits = s.allocator.bits
  contents : ∀ z, z / 4096 ∈ held → s'.memory z = s.memory z

variable {fuel : Nat}

section Pages

variable {pml4 : BitVec 64} {held held' : Set Nat} {s s' s'' : LoadState} {r : PageRange}

theorem KeepsBytes.trans (h : KeepsBytes held s s') (h' : KeepsBytes held s' s'') :
    KeepsBytes held s s'' :=
  ⟨h'.bits.trans h.bits, fun z hz => (h'.contents z hz).trans (h.contents z hz)⟩

theorem KeepsBytes.mono (h : KeepsBytes held' s s') (hSub : held ⊆ held') : KeepsBytes held s s' :=
  ⟨h.bits, fun z hz => h.contents z (hSub hz)⟩

theorem Holding.mono (h : Holding pml4 held' s) (hSub : held ⊆ held') : Holding pml4 held s := by
  rcases h.separated with ⟨frames, n, hBacked, hMapped, hApart⟩
  exact ⟨⟨frames, n, hBacked, hMapped, fun t ht hq => hApart.table t ht (hSub hq),
    fun q hq => hApart.used q (hSub hq), fun q hq => hApart.apart q (hSub hq)⟩,
    fun q hq => h.inside q (hSub hq)⟩

theorem covers_byte {z : Nat} (hAligned : r.address % 4096 = 0) (hLow : r.address ≤ z)
    (hHigh : z < r.address + r.pageCount * 4096) : r.Covers (z / 4096) := by
  unfold PageRange.Covers
  omega

variable {address pageCount : Nat}

theorem history_requestPages (h : s.requestPages fuel pageCount = some (address, s')) :
    s'.granted = s.granted ++ [⟨address, pageCount⟩] ∧ s'.copied = s.copied := by
  unfold LoadState.requestPages at h
  split at h
  · cases h
  · cases h
    exact ⟨rfl, rfl⟩
variable {flags : BitVec 64}

theorem history_mapPages (h : s.mapPages pml4 flags r = some s') :
    s'.granted = s.granted ∧ s'.copied = s.copied := by
  rcases Option.map_eq_some_iff.mp h with ⟨allocator, _, rfl⟩
  exact ⟨rfl, rfl⟩

theorem Holding.requestPages (h : Holding pml4 held s)
    (hWithin : PageRange.Within s.allocator.bits ⟨address, pageCount⟩)
    (hRequest : s.requestPages fuel pageCount = some (address, s')) :
    Holding pml4 (held ∪ pagesOf [⟨address, pageCount⟩]) s' ∧ KeepsBytes held s s' ∧
    address % 4096 = 0 ∧ ∀ q, PageRange.Covers ⟨address, pageCount⟩ q → q ∉ held := by
  have hBits := h.separated.kernelMapped.bits_le
  rcases hWithin with ⟨hNonnull, hInside⟩
  unfold LoadState.requestPages at hRequest
  split at hRequest
  · cases hRequest
  rename_i a allocator hCall
  cases hRequest
  have hOnly := onlyBits_requestPages hCall
  rcases requestPages_spec (by omega) hNonnull hInside hCall with ⟨hAligned, hClear, hUsed⟩
  rcases h.separated with ⟨frames, n, _, _, hApart⟩
  refine ⟨⟨h.separated.hand hOnly (fun q hq => (hUsed q).mpr (.inl hq)) ?_ ?_, ?_⟩,
    ⟨hOnly.bits, ?_⟩, hAligned, ?_⟩
  · exact fun q hq => hClear q (mem_pagesOf_singleton.mp hq).1 (mem_pagesOf_singleton.mp hq).2
  · exact fun q hq _ => (hUsed q).mpr (.inr (mem_pagesOf_singleton.mp hq))
  · rintro q (hOld | hNew)
    · exact Nat.lt_of_lt_of_eq (h.inside q hOld) hOnly.bits.symm
    · have hLt := (mem_pagesOf_singleton.mp hNew).2
      exact Nat.lt_of_lt_of_le hLt (Nat.le_trans hInside (Nat.le_of_eq hOnly.bits.symm))
  · exact fun z hz => hOnly.outside z (hApart.apart _ hz (h.inside _ hz) z rfl)
  · intro q hq hHeld
    have hTaken := hApart.used q hHeld (h.inside q hHeld)
    rw [hClear q hq.1 hq.2] at hTaken
    cases hTaken

theorem Holding.mapPages (h : Holding pml4 held s) (hFlags : TableFlags flags)
    (hMap : s.mapPages pml4 flags r = some s') : Holding pml4 held s' ∧ KeepsBytes held s s' := by
  rcases Option.map_eq_some_iff.mp hMap with ⟨allocator, hFold, rfl⟩
  have hAll : Separated pml4 held allocator ∧ HeldKept held s.allocator allocator := by
    refine foldlM_invariant (P := fun a => Separated pml4 held a ∧ HeldKept held s.allocator a) ?_
      ⟨h.separated, HeldKept.refl held s.allocator⟩ hFold
    rintro i _ a a' ⟨hSeparated, hKept⟩ hOne
    rcases hSeparated.mapMemory hFlags hOne with ⟨hNext, hSame⟩
    exact ⟨hNext, hKept.trans hSame⟩
  rcases hAll with ⟨hSeparated, hKept⟩
  refine ⟨⟨hSeparated, ?_⟩, ⟨hKept.bits, ?_⟩⟩
  · exact fun q hq => Nat.lt_of_lt_of_eq (h.inside q hq) hKept.bits.symm
  · exact fun z hz => hKept.contents z hz (h.inside _ hz)

theorem Holding.write {m : Memory} {copied : List ByteRange} (h : Holding pml4 held s)
    (hWrite : ∀ z, m z ≠ s.memory z → z / 4096 ∈ held) :
    Holding pml4 held { s.setMemory m with copied := copied } := by
  rcases h.separated.write (m := m) (fun z hz =>
    ⟨h.inside _ (hWrite z hz), Or.inl (hWrite z hz)⟩) with ⟨hSeparated, _, _⟩
  exact ⟨hSeparated, h.inside⟩

theorem apart_of_covers {t : PageRange} (hAligned : r.address % 4096 = 0)
    (hAligned' : t.address % 4096 = 0) (hSome : 0 < r.pageCount) (hSome' : 0 < t.pageCount)
    (h : ∀ q, t.Covers q → ¬ r.Covers q) :
    r.address + r.pageCount * 4096 ≤ t.address ∨ t.address + t.pageCount * 4096 ≤ r.address := by
  have hStart := h (t.address / 4096)
  have hOther := h (r.address / 4096)
  unfold PageRange.Covers at hStart hOther
  omega

end Pages

def BinaryFile.bytes (file : BinaryFile) : Memory :=
  fun x => file.contents.getD x 0

def BinaryFile.elfHeader (file : BinaryFile) : Elf64Ehdr :=
  elf64Ehdr file.bytes 0

def BinaryFile.peHeader (file : BinaryFile) : Nat :=
  (imageDosHeader file.bytes 0).e_lfanew

def Buffered (file : BinaryFile) (buffer : Nat) (m : Memory) : Prop :=
  ∀ i < file.length, m (buffer + i) = file.bytes i

section Reading

variable {file : BinaryFile} {buffer : Nat} {m : Memory} {pml4 : BitVec 64} {held : Set Nat}
  {s s' : LoadState}

theorem Buffered.load (h : Buffered file buffer m) {a n : Nat} (hIn : a + n ≤ file.length) :
    m.load (buffer + a) n = file.bytes.load a n := by
  apply Memory.load_shift
  intro i hi
  rw [Nat.add_assoc]
  exact h (a + i) (by omega)

theorem Buffered.elf64Ehdr (h : Buffered file buffer m) (hHeader : 64 ≤ file.length) :
    elf64Ehdr m buffer = file.elfHeader := by
  rw [Fennix.elf64Ehdr, BinaryFile.elfHeader, Fennix.elf64Ehdr, h.load (by omega),
    h.load (by omega), h.load (by omega), h.load (by omega), h.load (by omega)]

theorem buffer_covers {i : Nat} (hAligned : buffer % 4096 = 0) (hi : i < file.length) :
    PageRange.Covers ⟨buffer, file.pageCount⟩ ((buffer + i) / 4096) := by
  have hFits : file.length < file.pageCount * 4096 := by
    unfold BinaryFile.pageCount
    omega
  exact covers_byte hAligned (by dsimp only; omega) (by dsimp only; omega)

theorem Buffered.keeps (h : Buffered file buffer s.memory) (hAligned : buffer % 4096 = 0)
    (hKeeps : KeepsBytes (held ∪ pagesOf [⟨buffer, file.pageCount⟩]) s s') :
    Buffered file buffer s'.memory := by
  intro i hi
  refine (hKeeps.contents _ (.inr ?_)).trans (h i hi)
  exact mem_pagesOf_singleton.mpr (buffer_covers hAligned hi)

theorem buffered_read (hDelivered : file.contents.length = file.length) :
    Buffered file buffer (s.read file buffer).memory := by
  intro i hi
  refine (if_pos ?_).trans ?_
  · omega
  · rw [Nat.add_sub_cancel_left]
    rfl

theorem covers_of_read (hDelivered : file.contents.length = file.length)
    (hAligned : buffer % 4096 = 0) {z : Nat} (hz : (s.read file buffer).memory z ≠ s.memory z) :
    PageRange.Covers ⟨buffer, file.pageCount⟩ (z / 4096) := by
  have hIn : buffer ≤ z ∧ z < buffer + file.contents.length := by
    by_contra hOut
    exact hz (if_neg hOut)
  rw [show z = buffer + (z - buffer) by omega]
  exact buffer_covers hAligned (by omega)

theorem Holding.readFile (h : Holding pml4 held s) (hDelivered : file.contents.length = file.length)
    (hWithin : PageRange.Within s.allocator.bits ⟨buffer, file.pageCount⟩)
    (hRequest : s.requestPages fuel file.pageCount = some (buffer, s')) :
    Holding pml4 (held ∪ pagesOf [⟨buffer, file.pageCount⟩]) (s'.read file buffer) ∧
    KeepsBytes held s (s'.read file buffer) ∧ buffer % 4096 = 0 ∧
    Buffered file buffer (s'.read file buffer).memory := by
  rcases h.requestPages hWithin hRequest with ⟨hHolding, hKeeps, hAligned, hFresh⟩
  refine ⟨?_, ⟨hKeeps.bits, ?_⟩, hAligned, buffered_read hDelivered⟩
  · exact hHolding.write (fun z hz =>
      Or.inr (mem_pagesOf_singleton.mpr (covers_of_read hDelivered hAligned hz)))
  · intro z hz
    refine Eq.trans ?_ (hKeeps.contents z hz)
    by_contra hOther
    exact hFresh _ (covers_of_read hDelivered hAligned hOther) hz

end Reading

end Fennix
