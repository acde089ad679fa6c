import Fennix.PMM.PageFrameAllocator

/-
  What the page operations do to the bitmap and to the search hint, one statement for each
  operation.

  Later modules never unfold an operation: they use the bit it leaves at every index, the hint it
  leaves, and that the bitmap itself stays where it is.
-/

namespace Fennix

open Bitmap

namespace PageFrameAllocator

variable (account : Account) (index : Nat) (s : PageFrameAllocator)

@[simp] theorem charge_pageBitmap : (s.charge account).pageBitmap = s.pageBitmap := by
  unfold charge
  rfl

@[simp] theorem charge_memory : (s.charge account).memory = s.memory := by
  unfold charge
  rfl

@[simp] theorem charge_pageBitmapIndex :
    (s.charge account).pageBitmapIndex = s.pageBitmapIndex := by
  unfold charge
  rfl

@[simp] theorem refund_pageBitmap : (s.refund account).pageBitmap = s.pageBitmap := by
  unfold refund
  rfl

@[simp] theorem refund_memory : (s.refund account).memory = s.memory := by
  unfold refund
  rfl

@[simp] theorem refund_pageBitmapIndex :
    (s.refund account).pageBitmapIndex = s.pageBitmapIndex := by
  unfold refund
  rfl

@[simp] theorem rewind_pageBitmap : (s.rewind index).pageBitmap = s.pageBitmap := by
  unfold rewind
  split <;> rfl

@[simp] theorem rewind_memory : (s.rewind index).memory = s.memory := by
  unfold rewind
  split <;> rfl

@[simp] theorem rewind_pageBitmapIndex : (s.rewind index).pageBitmapIndex =
    min s.pageBitmapIndex index := by
  unfold rewind
  split
  · rename_i hGt
    exact (Nat.min_eq_right (Nat.le_of_lt hGt)).symm
  · exact (Nat.min_eq_left (by omega)).symm

variable {s} in
theorem used_of_bits_lt {index : Nat} (h : s.bits < index) : s.used index = false :=
  get_of_gt _ _ h

variable {s} in
theorem le_bits_of_used {index : Nat} (h : s.used index = true) : index ≤ s.bits := by
  by_contra hGt
  rw [used_of_bits_lt (by omega)] at h
  cases h

section

variable (address : Nat)

@[simp] theorem takePage_pageBitmap : (s.takePage account address).pageBitmap = s.pageBitmap := by
  unfold takePage
  dsimp only
  split_ifs <;> simp

@[simp] theorem takePage_pageBitmapIndex :
    (s.takePage account address).pageBitmapIndex = s.pageBitmapIndex := by
  unfold takePage
  dsimp only
  split_ifs <;> simp

@[simp] theorem releasePage_pageBitmap :
    (s.releasePage account address).pageBitmap = s.pageBitmap := by
  unfold releasePage
  dsimp only
  split_ifs <;> simp

private theorem takePage_memory (hFree : s.used (address / 4096) = false) :
    (s.takePage account address).memory = (s.pageBitmap.set s.memory (address / 4096) true).2 := by
  unfold takePage
  dsimp only
  rw [hFree]
  split_ifs <;> simp_all

private theorem releasePage_memory : (s.releasePage account address).memory =
    (s.pageBitmap.set s.memory (address / 4096) false).2 := by
  unfold releasePage
  dsimp only
  split_ifs <;> simp

end

theorem used_takePage (address index : Nat) :
    (s.takePage account address).used index = true ↔ s.used index = true ∨
    index = address / 4096 ∧ index ≤ s.bits := by
  by_cases hUsed : s.used (address / 4096) = true
  · have hSame : s.takePage account address = s := by
      simp [takePage, hUsed]
    rw [hSame]
    constructor
    · exact Or.inl
    rintro (h | ⟨rfl, _⟩)
    · exact h
    · exact hUsed
  have hFree : s.used (address / 4096) = false := by
    simpa using hUsed
  have hRead : (s.takePage account address).used index = s.pageBitmap.get
    (s.pageBitmap.set s.memory (address / 4096) true).2 index := by
    rw [used, takePage_pageBitmap, takePage_memory account s address hFree]
  rw [hRead]
  by_cases hIndex : index = address / 4096
  · subst hIndex
    by_cases hLe : address / 4096 ≤ s.bits
    · rw [get_set_same _ _ _ hLe]
      simp [hLe]
    · rw [get_of_gt _ _ (Nat.not_le.mp hLe)]
      simp [hLe, hFree]
  · rw [get_set_other _ _ _ hIndex]
    simp [hIndex, used]

theorem used_releasePage (address index : Nat) : (s.releasePage account address).used index = true ↔
    s.used index = true ∧ index ≠ address / 4096 := by
  rw [used, releasePage_pageBitmap, releasePage_memory]
  by_cases hIndex : index = address / 4096
  · subst hIndex
    by_cases hLe : address / 4096 ≤ s.bits
    · rw [get_set_same _ _ _ hLe]
      simp
    · rw [get_of_gt _ _ (Nat.not_le.mp hLe)]
      simp
  · rw [get_set_other _ _ _ hIndex]
    simp [hIndex, used]

theorem releasePage_pageBitmapIndex (address : Nat) :
    (s.releasePage account address).pageBitmapIndex = if address / 4096 ≤ s.bits then
    min s.pageBitmapIndex (address / 4096) else s.pageBitmapIndex := by
  unfold releasePage
  by_cases hLe : address / 4096 ≤ s.bits
  · have hSet := set_fst_of_le s.pageBitmap s.memory false hLe
    simp [hSet, hLe]
  · have hSet := set_of_gt s.pageBitmap s.memory false (Nat.not_le.mp hLe)
    simp [hSet, hLe]

@[simp] theorem freePage_pageBitmap (address : Nat) :
    (s.freePage address).pageBitmap = s.pageBitmap := by
  unfold freePage
  split <;> simp

theorem used_freePage (address index : Nat) :
    (s.freePage address).used index = true ↔ s.used index = true ∧ index ≠ address / 4096 := by
  unfold freePage
  split
  · rename_i hFree
    constructor
    · intro h
      refine ⟨h, ?_⟩
      rintro rfl
      rw [hFree] at h
      cases h
    · exact fun h => h.1
  · exact used_releasePage _ _ _ _

theorem freePage_pageBitmapIndex (address : Nat) :
    (s.freePage address).pageBitmapIndex = if s.used (address / 4096) then
    min s.pageBitmapIndex (address / 4096) else s.pageBitmapIndex := by
  unfold freePage
  by_cases hUsed : s.used (address / 4096) = true
  · rw [if_neg (by simp [hUsed]), releasePage_pageBitmapIndex, if_pos (le_bits_of_used hUsed),
      if_pos hUsed]
  · rw [if_pos (by simpa using hUsed), if_neg hUsed]

def Touches (address pageCount index : Nat) : Prop :=
  ∃ t < pageCount, u64 (address + t * 4096) / 4096 = index

theorem touches_iff {address pageCount : Nat} (hFit : address / 4096 + pageCount ≤ 2 ^ 52) :
    Touches address pageCount index ↔ address / 4096 ≤ index ∧
    index < address / 4096 + pageCount := by
  have hPage : ∀ t < pageCount, u64 (address + t * 4096) / 4096 = address / 4096 + t := by
    intro t ht
    have hWord : u64 (address + t * 4096) = address + t * 4096 := u64_of_lt (by omega)
    omega
  constructor
  · rintro ⟨t, ht, hEq⟩
    rw [hPage t ht] at hEq
    omega
  rintro ⟨hLow, hHigh⟩
  have hLast := hPage (index - address / 4096) (by omega)
  exact ⟨index - address / 4096, by omega, by omega⟩

theorem touches_succ {address pageCount index : Nat} : Touches address (pageCount + 1) index ↔
    Touches address pageCount index ∨ index = u64 (address + pageCount * 4096) / 4096 := by
  rw [Touches, Nat.exists_lt_succ_right]
  exact or_congr_right eq_comm

theorem not_touches_zero (address index : Nat) : ¬ Touches address 0 index := by
  rintro ⟨t, ht, _⟩
  omega

section

variable (operation : PageFrameAllocator → Nat → PageFrameAllocator) (s : PageFrameAllocator)

theorem forPages_succ (address pageCount : Nat) : forPages operation s address (pageCount + 1) =
    operation (forPages operation s address pageCount) (u64 (address + pageCount * 4096)) := by
  simp [forPages, List.range_succ]

@[simp] theorem forPages_zero (address : Nat) : forPages operation s address 0 = s :=
  rfl

end

variable {s} in
theorem forPages_invariant {operation : PageFrameAllocator → Nat → PageFrameAllocator}
    {P : PageFrameAllocator → Prop} (hKeep : ∀ s address, P s → P (operation s address))
    (hStart : P s) (address pageCount : Nat) : P (forPages operation s address pageCount) := by
  induction pageCount with
  | zero => exact hStart
  | succ pageCount ih =>
    rw [forPages_succ]
    exact hKeep _ _ ih

section

variable (address pageCount : Nat)

@[simp] theorem forPages_take_pageBitmap :
    (forPages (takePage account) s address pageCount).pageBitmap = s.pageBitmap :=
  forPages_invariant (P := fun s' => s'.pageBitmap = s.pageBitmap)
    (fun s' a h => by simpa using h) rfl _ _

@[simp] theorem forPages_take_pageBitmapIndex :
    (forPages (takePage account) s address pageCount).pageBitmapIndex = s.pageBitmapIndex :=
  forPages_invariant (P := fun s' => s'.pageBitmapIndex = s.pageBitmapIndex)
    (fun s' a h => by simpa using h) rfl _ _

@[simp] theorem forPages_release_pageBitmap :
    (forPages (releasePage account) s address pageCount).pageBitmap = s.pageBitmap :=
  forPages_invariant (P := fun s' => s'.pageBitmap = s.pageBitmap)
    (fun s' a h => by simpa using h) rfl _ _

theorem forPages_take_bits : (forPages (takePage account) s address pageCount).bits = s.bits := by
  rw [bits, forPages_take_pageBitmap, ← bits]

theorem forPages_release_bits :
    (forPages (releasePage account) s address pageCount).bits = s.bits := by
  rw [bits, forPages_release_pageBitmap, ← bits]

@[simp] theorem freePages_pageBitmap : (s.freePages address pageCount).pageBitmap = s.pageBitmap :=
  forPages_invariant (P := fun s' => s'.pageBitmap = s.pageBitmap)
    (fun s' a h => by simpa using h) rfl _ _

end

theorem used_forPages_take (address pageCount index : Nat) :
    (forPages (takePage account) s address pageCount).used index = true ↔ s.used index = true ∨
    Touches address pageCount index ∧ index ≤ s.bits := by
  induction pageCount with
  | zero => simp [not_touches_zero]
  | succ pageCount ih =>
    rw [forPages_succ, used_takePage, ih, touches_succ]
    simp only [bits, forPages_take_pageBitmap]
    tauto

theorem used_lockPages {address pageCount : Nat} (hBits : s.bits ≤ 2 ^ 52)
    (hInside : address / 4096 + pageCount ≤ s.bits) (index : Nat) :
    (s.lockPages address pageCount).used index = true ↔ s.used index = true ∨
    address / 4096 ≤ index ∧ index < address / 4096 + pageCount := by
  rw [lockPages, lockPage, used_forPages_take, touches_iff index (by omega)]
  apply or_congr_right
  apply and_iff_left_of_imp
  intro hRange
  omega

theorem used_forPages_release (address pageCount index : Nat) :
    (forPages (releasePage account) s address pageCount).used index = true ↔ s.used index = true ∧
    ¬ Touches address pageCount index := by
  induction pageCount with
  | zero => simp [not_touches_zero]
  | succ pageCount ih =>
    rw [forPages_succ, used_releasePage, ih, touches_succ]
    tauto

theorem used_freePages (address pageCount index : Nat) :
    (s.freePages address pageCount).used index = true ↔ s.used index = true ∧
    ¬ Touches address pageCount index := by
  unfold freePages
  induction pageCount with
  | zero => simp [not_touches_zero]
  | succ pageCount ih =>
    rw [forPages_succ, used_freePage, ih, touches_succ]
    tauto

end PageFrameAllocator

end Fennix
