import Fennix.PMM.Boot

/-
  The memory map of the boot loader.
-/

namespace Fennix

open PageFrameAllocator List

inductive LimineMemmapType where
| usable
| reserved
| acpiReclaimable
| acpiNvs
| badMemory
| bootloaderReclaimable
| kernelAndModules
| framebuffer
| other
deriving DecidableEq, Repr

structure LimineMemmapEntry where
  base : UInt64
  length : UInt64
  type : LimineMemmapType

def LimineMemmapType.memType : LimineMemmapType → MemType
| .reserved => .reserved
| .usable => .free
| .badMemory => .unusable
| .acpiReclaimable => .acpiReclaimable
| .acpiNvs => .acpiMemoryNVS
| .bootloaderReclaimable => .unknown
| .kernelAndModules => .kernel
| .framebuffer => .framebuffer
| .other => .unknown

def LimineMemmapEntry.fill (entry : LimineMemmapEntry) : GBPMemoryMapEntry :=
  let memmapPages := entry.length / 4096 + 1
  { physicalAddress := entry.base
    pages := memmapPages
    size := memmapPages * 4096
    type := entry.type.memType }

def memorySizeBytes (entries : List LimineMemmapEntry) : UInt64 :=
  entries.foldl (fun size entry => size + entry.length) 0

/- The memory part of `init_limine`, which fails without a memory map. -/
def initLimine (entries : List LimineMemmapEntry) : Option GBPMemory :=
  if entries.length < 1 then none
  else
    some
      { size := memorySizeBytes entries, entry := entries.map LimineMemmapEntry.fill }

variable {index : Nat}

namespace LimineMemmapEntry

def PageAligned (e : LimineMemmapEntry) : Prop :=
  e.base.toNat % 4096 = 0 ∧ e.length.toNat % 4096 = 0

instance (e : LimineMemmapEntry) : Decidable e.PageAligned :=
  inferInstanceAs (Decidable (_ ∧ _))

def Holds (e : LimineMemmapEntry) (index : Nat) : Prop :=
  e.base.toNat ≤ index * 4096 ∧ (index + 1) * 4096 ≤ e.base.toNat + e.length.toNat

/- The page right behind the entry. -/
def Behind (e : LimineMemmapEntry) (index : Nat) : Prop :=
  if e.base.toNat + e.length.toNat < 2 ^ 64 then
    index = (e.base.toNat + e.length.toNat) / 4096
  else
    index ≤ (e.base.toNat + e.length.toNat - 2 ^ 64) / 4096

variable {e : LimineMemmapEntry}

theorem fill_pages (e : LimineMemmapEntry) : e.fill.pages.toNat = e.length.toNat / 4096 + 1 := by
  have hLt : e.length.toNat < 2 ^ 64 := e.length.toNat_lt
  simp only [fill, UInt64.toNat_add, UInt64.toNat_div, UInt64.reduceToNat]
  omega

theorem fill_type_iff (e : LimineMemmapEntry) : e.fill.type = .free ↔ e.type = .usable := by
  unfold fill
  cases e.type <;> simp [LimineMemmapType.memType]

theorem touches_iff_aligned (hAligned : e.PageAligned) (hIndex : index < 2 ^ 52) :
    Touches e.fill.physicalAddress.toNat e.fill.pages.toNat index ↔
    e.Holds index ∨ e.Behind index := by
  have hBase : e.base.toNat < 2 ^ 64 := e.base.toNat_lt
  have hLength : e.length.toNat < 2 ^ 64 := e.length.toNat_lt
  have hAddress : e.fill.physicalAddress = e.base := rfl
  rcases hAligned with ⟨hBasePage, hLengthPage⟩
  unfold Touches Holds Behind u64
  rw [fill_pages, hAddress]
  constructor
  · rintro ⟨t, ht, hPage⟩
    split <;> omega
  intro h
  split at h
  · refine ⟨index - e.base.toNat / 4096, ?_, ?_⟩ <;> omega
  rcases h with hIn | hLow
  · refine ⟨index - e.base.toNat / 4096, ?_, ?_⟩ <;>
      omega
  · refine ⟨index + 2 ^ 52 - e.base.toNat / 4096, ?_, ?_⟩ <;> omega

end LimineMemmapEntry

def HoldsBitmap (s : PageFrameAllocator) (index : Nat) : Prop :=
  ∃ byte < s.pageBitmap.size, (s.pageBitmap.buffer + byte) / 4096 = index

def InUsableEntry (entries : List LimineMemmapEntry) (index : Nat) : Prop :=
  ∃ e ∈ entries, e.type = .usable ∧ e.Holds index

/-
  The page does no harm when it is left free: it has no bit, is taken again by the last passes, or
  is usable.
-/
def PageSpared (entries : List LimineMemmapEntry) (params : GBPMemory) (index : Nat) : Prop :=
  (bootBitmap params).bits ≤ index ∨ index < 0x100 ∨ Touches (bootBitmap params).buffer
        ((bootBitmap params).size / 4096 + 1) index ∨
      InUsableEntry entries index

structure MapSpared (entries : List LimineMemmapEntry) (params : GBPMemory) : Prop where
  behind : ∀ e ∈ entries, e.type = .usable →
    ∀ index, e.Behind index → PageSpared entries params index
  above : ∀ index, params.size.toNat / 4096 < index → PageSpared entries params index

variable {entries : List LimineMemmapEntry} {params : GBPMemory}

theorem initLimine_entry (hInit : initLimine entries = some params) :
    params.entry = entries.map LimineMemmapEntry.fill := by
  unfold initLimine at hInit
  split at hInit
  · cases hInit
  · cases hInit
    rfl

theorem inFreeEntry_iff (hInit : initLimine entries = some params)
    (hAligned : ∀ e ∈ entries, e.PageAligned) (hIndex : index < 2 ^ 52) :
    InFreeEntry params index ↔ InUsableEntry entries index ∨
    ∃ e ∈ entries, e.type = .usable ∧ e.Behind index := by
  unfold InFreeEntry InUsableEntry
  rw [initLimine_entry hInit]
  constructor
  · rintro ⟨g, hg, hFree, hTouches⟩
    rcases mem_map.mp hg with ⟨e, he, hEq⟩
    rw [← hEq] at hFree hTouches
    have hUsable := e.fill_type_iff.mp hFree
    rcases (LimineMemmapEntry.touches_iff_aligned
      (hAligned e he) hIndex).mp hTouches with hIn | hBehind
    · exact .inl ⟨e, he, hUsable, hIn⟩
    · exact .inr ⟨e, he, hUsable, hBehind⟩
  intro h
  have hEntry : ∃ e ∈ entries, e.type = .usable ∧ (e.Holds index ∨ e.Behind index) := by
    rcases h with ⟨e, he, hUsable, hIn⟩ | ⟨e, he, hUsable, hBehind⟩
    · exact ⟨e, he, hUsable, Or.inl hIn⟩
    · exact ⟨e, he, hUsable, Or.inr hBehind⟩
  rcases hEntry with ⟨e, he, hUsable, hPage⟩
  refine ⟨e.fill, mem_map.mpr ⟨e, he, rfl⟩, e.fill_type_iff.mpr hUsable, ?_⟩
  exact (LimineMemmapEntry.touches_iff_aligned (hAligned e he) hIndex).mpr hPage

theorem touches_of_holdsBitmap (m : Memory) (hIndex : index < 2 ^ 52)
    (hHolds : HoldsBitmap (boot m params) index) : Touches (bootBitmap params).buffer
    ((bootBitmap params).size / 4096 + 1) index := by
  unfold HoldsBitmap at hHolds
  rw [boot_pageBitmap] at hHolds
  rcases hHolds with ⟨byte, hByte, rfl⟩
  exact touches_bitmap params hIndex (by omega) (by omega)

theorem clear_boot_iff (m : Memory) (hIndex : index < (bootBitmap params).bits) :
    (boot m params).used index = false ↔
    (params.size.toNat / 4096 < index ∨ InFreeEntry params index) ∧ 0x100 ≤ index ∧
    ¬ Touches (bootBitmap params).buffer ((bootBitmap params).size / 4096 + 1) index := by
  have hBits := bootBitmap_bits_le params
  have hSize : params.size.toNat < 2 ^ 64 := params.size.toNat_lt
  rw [← Bool.not_eq_true, used_boot m params hIndex, touches_iff index (by omega),
    touches_iff index (by omega)]
  simp only [not_or, not_and, not_not, Nat.zero_div, Nat.zero_le, true_and]
  constructor
  · rintro ⟨hAll, hLow, hBitmap⟩
    refine ⟨?_, by omega, hBitmap⟩
    by_cases hAbove : params.size.toNat / 4096 < index
    · exact .inl hAbove
    · exact .inr (hAll (by omega))
  rintro ⟨hAll, hLow, hBitmap⟩
  refine ⟨?_, by omega, hBitmap⟩
  intro hBelow
  rcases hAll with hAbove | hFree
  · omega
  · exact hFree

theorem clear_after_boot_iff (m : Memory) (hInit : initLimine entries = some params)
    (hAligned : ∀ e ∈ entries, e.PageAligned) :
    (∀ index < (boot m params).bits, (boot m params).used index = false →
    InUsableEntry entries index ∧ 0x100 ≤ index ∧ ¬ HoldsBitmap (boot m params) index) ↔
    MapSpared entries params := by
  have hBits := bootBitmap_bits_le params
  rw [boot_bits]
  constructor
  · intro hClear
    -- a page freed in excess is not clear, or is usable
    have hSpared : ∀ index, params.size.toNat / 4096 < index ∨ InFreeEntry params index →
      PageSpared entries params index := by
      intro index hExcess
      unfold PageSpared
      by_contra hNot
      rcases not_or.mp hNot with ⟨hBit, hNot⟩
      rcases not_or.mp hNot with ⟨hLow, hNot⟩
      rcases not_or.mp hNot with ⟨hBitmap, hUsable⟩
      have hIndex := Nat.lt_of_not_le hBit
      apply hUsable
      exact (hClear index hIndex ((clear_boot_iff m hIndex).mpr ⟨hExcess, by omega, hBitmap⟩)).1
    refine ⟨?_, fun index h => hSpared index (.inl h)⟩
    intro e he hUsable index hBehind
    by_cases hIndex : index < (bootBitmap params).bits
    · apply hSpared index
      exact .inr ((inFreeEntry_iff hInit hAligned
        (by omega)).mpr (.inr ⟨e, he, hUsable, hBehind⟩))
    · exact .inl (Nat.le_of_not_lt hIndex)
  intro hMap index hIndex hClear
  rcases (clear_boot_iff m hIndex).mp hClear with ⟨hExcess, hLow, hBitmap⟩
  have hSpared : PageSpared entries params index ∨ InUsableEntry entries index := by
    rcases hExcess with hAbove | hFree
    · exact .inl (hMap.above index hAbove)
    rcases (inFreeEntry_iff hInit hAligned (by omega)).mp hFree with
      hUsable | ⟨e, he, hUsable, hBehind⟩
    · exact .inr hUsable
    · exact .inl (hMap.behind e he hUsable index hBehind)
  refine ⟨?_, hLow, ?_⟩
  · rcases hSpared with (hBit | hLess | hIn | hUsable) | hUsable
    · omega
    · omega
    · exact (hBitmap hIn).elim
    · exact hUsable
    · exact hUsable
  · intro hHolds
    exact hBitmap (touches_of_holdsBitmap m (by omega) hHolds)

def LimineMemmapEntry.Apart (e g : LimineMemmapEntry) : Prop :=
  e.base.toNat + e.length.toNat ≤ g.base.toNat ∨ g.base.toNat + g.length.toNat ≤ e.base.toNat

instance (e g : LimineMemmapEntry) : Decidable (e.Apart g) :=
  inferInstanceAs (Decidable (_ ∨ _))

def enclosedMap : List LimineMemmapEntry :=
  [⟨0, 0x100000, .reserved⟩, ⟨0x100000, 0x700000, .usable⟩, ⟨0x800000, 0x7800000, .reserved⟩]

def enclosedParams : GBPMemory where
  size := 0x8000000
  entry :=
    [⟨0, 257, 0x101000, .reserved⟩, ⟨0x100000, 1793, 0x701000, .free⟩,
      ⟨0x800000, 30721, 0x7801000, .reserved⟩]

theorem initLimine_enclosedMap : initLimine enclosedMap = some enclosedParams := by
  decide

theorem bootBitmap_enclosedParams : bootBitmap enclosedParams = ⟨4096, 0x100000⟩ := by
  decide

theorem clear_behind_usable_entry : initLimine enclosedMap = some enclosedParams ∧
    (∀ e ∈ enclosedMap, e.PageAligned) ∧ enclosedMap.Pairwise LimineMemmapEntry.Apart ∧
    0x800 < (boot (fun _ => 0) enclosedParams).bits ∧
    (boot (fun _ => 0) enclosedParams).used 0x800 = false ∧ ¬ InUsableEntry enclosedMap 0x800 := by
  have hBits : (bootBitmap enclosedParams).bits = 32768 := by
    decide
  refine ⟨initLimine_enclosedMap, by decide, by decide, ?_, ?_, ?_⟩
  · rw [boot_bits, hBits]
    decide
  · rw [clear_boot_iff (fun _ => 0) (by rw [hBits]; decide)]
    refine ⟨Or.inr ?_, by decide, ?_⟩
    · refine ⟨⟨0x100000, 1793, 0x701000, .free⟩, by decide,
        rfl, ?_⟩
      exact (touches_iff 0x800 (by decide)).mpr ⟨by decide, by decide⟩
    · rw [bootBitmap_enclosedParams, touches_iff 0x800 (by decide)]
      decide
  · rintro ⟨e, he, hUsable, hHolds⟩
    simp only [enclosedMap, mem_cons, not_mem_nil, or_false] at he
    unfold LimineMemmapEntry.Holds at hHolds
    rcases he with hEq | hEq | hEq
    · rw [hEq] at hUsable
      cases hUsable
    · rw [hEq] at hHolds
      revert hHolds
      decide
    · rw [hEq] at hUsable
      cases hUsable

def closedMap : List LimineMemmapEntry :=
  [⟨0, 0x101000, .reserved⟩, ⟨0x101000, 0x7eff000, .usable⟩]

theorem clear_after_boot_iff_closedMap : ∃ params, initLimine closedMap = some params ∧
    ∀ index < (boot (fun _ => 0) params).bits, (boot (fun _ => 0) params).used index = false →
    InUsableEntry closedMap index ∧ 0x100 ≤ index ∧ ¬ HoldsBitmap (boot (fun _ => 0) params)
    index := by
  have hInit : initLimine closedMap = some
      { size := 0x8000000
        entry :=
          [⟨0, 258, 0x102000, .reserved⟩, ⟨0x101000, 32512, 0x7f00000, .free⟩] } := by
    decide
  refine ⟨_, hInit, ?_⟩
  apply (clear_after_boot_iff (fun _ => 0) hInit (by decide)).mpr
  refine ⟨?_, ?_⟩
  · intro e he hUsable index hBehind
    simp only [closedMap, mem_cons, not_mem_nil, or_false] at he
    rcases he with hEq | hEq
    · rw [hEq] at hUsable
      cases hUsable
    rw [hEq] at hBehind
    have hIndex : index = 32768 := hBehind
    rw [hIndex]
    exact .inl (by decide)
  · intro index hAbove
    exact .inl (Nat.le_of_lt hAbove)

end Fennix
