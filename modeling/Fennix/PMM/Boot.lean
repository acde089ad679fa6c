import Fennix.PMM.PageBits

/-
  The bitmap `ReadMemoryMap` leaves behind.
-/

namespace Fennix

open List

namespace PageFrameAllocator

variable (m : Memory) {index : Nat} (params : GBPMemory)

def bootBitmap (params : GBPMemory) : Bitmap where
  size := alignUp (params.size.toNat / 0x1000 / 8) 0x1000
  buffer := (largestFreeMemorySegment params.entry).1

def InFreeEntry (params : GBPMemory) (index : Nat) : Prop :=
  ∃ e ∈ params.entry, e.type = .free ∧ Touches e.physicalAddress.toNat e.pages.toNat index

theorem bootBitmap_bits_le : (bootBitmap params).bits ≤ 2 ^ 52 := by
  have hSize : params.size.toNat < 2 ^ 64 := params.size.toNat_lt
  simp only [bootBitmap, Bitmap.bits, alignUp]
  omega

variable {s : PageFrameAllocator}

section

variable (s : PageFrameAllocator) (entries : List GBPMemoryMapEntry)

theorem unreserveFree_pageBitmap : (s.unreserveFree entries).pageBitmap = s.pageBitmap := by
  unfold unreserveFree
  induction entries generalizing s with
  | nil => rfl
  | cons e entries ih =>
    rw [foldl_cons, ih]
    split
    · exact forPages_release_pageBitmap _ _ _ _
    · rfl

theorem used_unreserveFree (index : Nat) :
    (s.unreserveFree entries).used index = true ↔ s.used index = true ∧
    ∀ e ∈ entries, e.type = .free → ¬ Touches e.physicalAddress.toNat e.pages.toNat index := by
  unfold unreserveFree
  induction entries generalizing s with
  | nil => simp
  | cons e entries ih =>
    rw [foldl_cons, ih]
    by_cases hFree : e.type = .free
    · have hPass := used_forPages_release .reserved s e.physicalAddress.toNat e.pages.toNat index
      simp only [forall_mem_cons, hFree]
      tauto
    · simp [hFree]

private theorem unreserveFree_pageBitmapIndex (hHint : s.pageBitmapIndex = 0) :
    (s.unreserveFree entries).pageBitmapIndex = 0 := by
  unfold unreserveFree
  induction entries generalizing s with
  | nil => exact hHint
  | cons e entries ih =>
    rw [foldl_cons]
    apply ih
    split
    · apply forPages_invariant (P := fun s' => s'.pageBitmapIndex = 0)
      · intro s' a h
        rw [unreservePage, releasePage_pageBitmapIndex, h]
        simp
      · exact hHint
    · exact hHint

end

def bootMapped (m : Memory) (params : GBPMemory) : PageFrameAllocator :=
  initBitmap
    { powerOn m with
      initialized := true
      totalMemory := params.size.toNat
      freeMemory := params.size.toNat }
    (bootBitmap params).size (bootBitmap params).buffer

theorem boot_eq : boot m params = lockPages
    (reservePages (unreserveFree (reservePages (bootMapped m params) 0
    (params.size.toNat / 4096 + 1)) params.entry) 0 0x100) (bootBitmap params).buffer
    ((bootBitmap params).size / 4096 + 1) := by
  have hBitmap : (reservePages (unreserveFree (reservePages (bootMapped m params) 0
    (params.size.toNat / 4096 + 1)) params.entry) 0 0x100).pageBitmap =
    bootBitmap params := by
    rw [reservePages, reservePage, forPages_take_pageBitmap, unreserveFree_pageBitmap,
      forPages_take_pageBitmap]
    rfl
  rw [← hBitmap]
  rfl

@[simp] theorem boot_pageBitmap : (boot m params).pageBitmap = bootBitmap params := by
  rw [boot_eq, lockPages, lockPage, forPages_take_pageBitmap, reservePages, reservePage,
    forPages_take_pageBitmap, unreserveFree_pageBitmap, forPages_take_pageBitmap]
  rfl

theorem boot_bits : (boot m params).bits = (bootBitmap params).bits := by
  rw [bits, boot_pageBitmap]

theorem boot_bits_le : (boot m params).bits ≤ 2 ^ 52 := by
  rw [boot_bits]
  exact bootBitmap_bits_le params

theorem boot_pageBitmapIndex : (boot m params).pageBitmapIndex = 0 := by
  rw [boot_eq, lockPages, lockPage, forPages_take_pageBitmapIndex, reservePages, reservePage,
    forPages_take_pageBitmapIndex]
  apply unreserveFree_pageBitmapIndex
  rw [forPages_take_pageBitmapIndex]
  rfl

theorem used_bootMapped (h : index < (bootBitmap params).bits) :
    (bootMapped m params).used index = false := by
  have hZero : (bootMapped m params).memory ((bootBitmap params).buffer + index / 8) = 0 := by
    apply Memory.fill_inside
    · omega
    · simp only [Bitmap.bits] at h
      omega
  have hGet : (bootMapped m params).used index = (bootBitmap params).get
    (bootMapped m params).memory index := rfl
  rw [hGet, Bitmap.get, hZero, byteHas_zero]
  simp

theorem takePage_outside {account : Account} {address x : Nat}
    (hIndex : address / 4096 ≠ s.pageBitmap.size * 8)
    (hx : x < s.pageBitmap.buffer ∨ s.pageBitmap.buffer + s.pageBitmap.size ≤ x) :
    (s.takePage account address).memory x = s.memory x := by
  have hSet := ((s.pageBitmap.bounded_iff (address / 4096)).mpr hIndex).2.1 s.memory true x hx
  unfold takePage
  dsimp only
  split_ifs
  · rfl
  · exact hSet
  · exact hSet

theorem forPages_take_outside {account : Account} {pageCount x : Nat}
    (hFit : pageCount ≤ 2 ^ 52) (hEnd : pageCount ≤ s.pageBitmap.size * 8)
    (hx : x < s.pageBitmap.buffer ∨ s.pageBitmap.buffer + s.pageBitmap.size ≤ x) :
    (forPages (takePage account) s 0 pageCount).memory x = s.memory x := by
  induction pageCount with
  | zero => rfl
  | succ pageCount ih =>
    have hWord : u64 (0 + pageCount * 4096) = pageCount * 4096 := by
      rw [Nat.zero_add]
      exact u64_of_lt (by omega)
    rw [forPages_succ, takePage_outside, ih (by omega) (by omega)]
    · rw [forPages_take_pageBitmap, hWord]
      omega
    · rw [forPages_take_pageBitmap]
      exact hx

theorem bootBitmap_reaches : params.size.toNat / 4096 < (bootBitmap params).size * 8 ↔
    params.size.toNat / 32768 % 4096 ≠ 0 := by
  simp only [bootBitmap, alignUp]
  omega

def ReservesInside (params : GBPMemory) : Prop :=
  ∀ m x, x < (bootBitmap params).buffer ∨
      (bootBitmap params).buffer + (bootBitmap params).size ≤ x →
    ((bootMapped m params).reservePages 0 (params.size.toNat / 4096 + 1)).memory x = m x

theorem reservesInside_iff : ReservesInside params ↔ params.size.toNat / 32768 % 4096 ≠ 0 := by
  have hSize : params.size.toNat < 2 ^ 64 := params.size.toNat_lt
  rw [← bootBitmap_reaches]
  constructor
  · intro hKept
    by_contra hEnd
    -- on cleared memory the bit behind the buffer reads as set after the pass
    have hUsed := (used_forPages_take .reserved (bootMapped (fun _ => 0) params) 0
      (params.size.toNat / 4096 + 1) (bootBitmap params).bits).mpr (.inr ⟨by
        rw [touches_iff _ (by omega)]
        simp only [Bitmap.bits]
        omega, Nat.le_refl _⟩)
    have hByte := hKept (fun _ => 0) ((bootBitmap params).buffer + (bootBitmap params).size)
      (.inr (Nat.le_refl _))
    rw [used, forPages_take_pageBitmap] at hUsed
    change (bootBitmap params).get _ ((bootBitmap params).size * 8) = true at hUsed
    rw [Bitmap.get, if_neg (Nat.lt_irrefl _), Nat.mul_div_cancel _ (by decide)] at hUsed
    rw [reservePages, reservePage] at hByte
    rw [hByte, byteHas_zero] at hUsed
    exact Bool.noConfusion hUsed
  intro hEnd m x hx
  rw [reservePages, reservePage, forPages_take_outside (by omega) hEnd hx]
  exact m.fill_outside _ hx

theorem bounds_iff (b : Bitmap) (index : Nat) : (b.Bounded index ↔ index ≠ b.size * 8) ∧
    (ReservesInside params ↔ params.size.toNat / 32768 % 4096 ≠ 0) :=
  ⟨b.bounded_iff index, reservesInside_iff params⟩

theorem bounds_violated : ¬ Bitmap.Bounded ⟨4096, 0x100000⟩ 32768 ∧
    ¬ ReservesInside ⟨0x8000000, []⟩ := by
  refine ⟨Bitmap.not_bounded_end ⟨4096, 0x100000⟩, ?_⟩
  rw [reservesInside_iff]
  decide

private theorem used_boot_passes (h : index ≤ (bootBitmap params).bits) :
    (boot m params).used index = true ↔
    ((bootMapped m params).used index = true ∨ Touches 0 (params.size.toNat / 4096 + 1) index) ∧
    ¬ InFreeEntry params index ∨ Touches 0 0x100 index ∨ Touches (bootBitmap params).buffer
    ((bootBitmap params).size / 4096 + 1) index := by
  have hBits : (bootMapped m params).pageBitmap.bits = (bootBitmap params).bits := rfl
  simp only [boot_eq, lockPages, lockPage, reservePages, reservePage, used_forPages_take,
    used_unreserveFree, bits, forPages_take_pageBitmap, unreserveFree_pageBitmap, InFreeEntry,
    hBits, h, and_true, not_exists, not_and]
  tauto

theorem used_boot (h : index < (bootBitmap params).bits) :
    (boot m params).used index = true ↔ Touches 0 (params.size.toNat / 4096 + 1) index ∧
    ¬ InFreeEntry params index ∨ Touches 0 0x100 index ∨ Touches (bootBitmap params).buffer
    ((bootBitmap params).size / 4096 + 1) index := by
  rw [used_boot_passes m params (by omega), used_bootMapped m params h]
  simp

theorem touches_bitmap {x : Nat} (hPage : x / 4096 < 2 ^ 52) (hLow : (bootBitmap params).buffer ≤ x)
    (hHigh : x ≤ (bootBitmap params).buffer + (bootBitmap params).size) :
    Touches (bootBitmap params).buffer ((bootBitmap params).size / 4096 + 1) (x / 4096) := by
  have hSize : (bootBitmap params).size % 4096 = 0 := by
    simp only [bootBitmap, alignUp]
    omega
  refine ⟨x / 4096 - (bootBitmap params).buffer / 4096, ?_, ?_⟩
  · omega
  · unfold u64
    omega

theorem free_boot (h : index ≤ (bootBitmap params).bits)
    (hFree : InFreeEntry params index) (hLow : ¬ Touches 0 0x100 index)
    (hBitmap : ¬ Touches (bootBitmap params).buffer ((bootBitmap params).size / 4096 + 1) index) :
    (boot m params).used index = false := by
  rw [← Bool.not_eq_true, used_boot_passes m params h]
  tauto

theorem reserved_boot (h : index ≤ (bootBitmap params).bits)
    (hAll : Touches 0 (params.size.toNat / 4096 + 1) index) (hFree : ¬ InFreeEntry params index) :
    (boot m params).used index = true := by
  rw [used_boot_passes m params h]
  tauto

theorem used_boot_zero (h : 0 < (boot m params).bits) : (boot m params).used 0 = true := by
  rw [boot_bits] at h
  rw [used_boot m params h]
  refine Or.inr (.inl ?_)
  rw [touches_iff 0 (by omega)]
  omega

end PageFrameAllocator

end Fennix
