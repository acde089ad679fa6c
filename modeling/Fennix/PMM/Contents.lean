import Fennix.Library.Count
import Fennix.PMM.SearchHint

/-
  What the allocator writes, and how many pages it has.
-/

------ Bytes of the Bitmap

namespace Fennix

open Memory

namespace Bitmap

variable {b : Bitmap} {m m' : Memory}

def Owns (b : Bitmap) (x : Nat) : Prop :=
  b.buffer ≤ x ∧ x ≤ b.buffer + b.size

theorem set_outside {x : Nat} (index : Nat) (value : Bool) (hx : ¬ b.Owns x) :
    (b.set m index value).2 x = m x := by
  unfold set
  split
  · rfl
  apply write_other
  rintro rfl
  exact hx ⟨by omega, by omega⟩

theorem set_agree {x : Nat} (h : m x = m' x) (index : Nat) (value : Bool) :
    (b.set m index value).2 x = (b.set m' index value).2 x := by
  unfold set
  split
  · exact h
  dsimp only
  by_cases hAt : x = b.buffer + index / 8
  · rw [← hAt, h]
    simp only [write_same]
  · rw [write_other _ _ hAt, write_other _ _ hAt, h]

theorem get_congr (hSame : ∀ x, b.Owns x → m x = m' x) (index : Nat) :
    b.get m index = b.get m' index := by
  unfold get
  split
  · rfl
  · rw [hSame _ ⟨by omega, by omega⟩]

end Bitmap

def PageApart (b : Bitmap) (index : Nat) : Prop :=
  ∀ x, x / 4096 = index → ¬ b.Owns x

end Fennix

------ Writes of the Allocator

namespace Fennix

namespace PageFrameAllocator

variable {s s' s'' : PageFrameAllocator} {address n : Nat}

structure OnlyBits (s s' : PageFrameAllocator) : Prop where
  pageBitmap : s'.pageBitmap = s.pageBitmap
  outside : ∀ x, ¬ s.pageBitmap.Owns x → s'.memory x = s.memory x

theorem OnlyBits.refl (s : PageFrameAllocator) : OnlyBits s s :=
  ⟨rfl, fun _ _ => rfl⟩

theorem OnlyBits.trans (h : OnlyBits s s') (h' : OnlyBits s' s'') : OnlyBits s s'' := by
  refine ⟨h'.pageBitmap.trans h.pageBitmap, ?_⟩
  intro x hx
  rw [h'.outside x (h.pageBitmap ▸ hx), h.outside x hx]

theorem OnlyBits.bits (h : OnlyBits s s') : s'.bits = s.bits :=
  congrArg Bitmap.bits h.pageBitmap

section

variable (account : Account) (s : PageFrameAllocator) (address : Nat)

theorem onlyBits_takePage : OnlyBits s (s.takePage account address) := by
  refine ⟨takePage_pageBitmap account s address, ?_⟩
  intro x hx
  have hSet := Bitmap.set_outside (m := s.memory) (address / 4096) true hx
  unfold takePage
  dsimp only
  split
  · rfl
  split
  · exact hSet
  · exact hSet

theorem onlyBits_releasePage : OnlyBits s (s.releasePage account address) := by
  refine ⟨releasePage_pageBitmap account s address, ?_⟩
  intro x hx
  have hSet := Bitmap.set_outside (m := s.memory) (address / 4096) false hx
  unfold releasePage
  dsimp only
  split
  · rw [rewind_memory, refund_memory]
    exact hSet
  · exact hSet

end

theorem onlyBits_freePage (s : PageFrameAllocator) (address : Nat) :
    OnlyBits s (s.freePage address) := by
  unfold freePage
  split
  · exact OnlyBits.refl s
  · exact onlyBits_releasePage .used s address

theorem onlyBits_forPages {operation : PageFrameAllocator → Nat → PageFrameAllocator}
    (hOnly : ∀ s address, OnlyBits s (operation s address)) (s : PageFrameAllocator)
    (address pageCount : Nat) : OnlyBits s (forPages operation s address pageCount) := by
  apply forPages_invariant
  · intro s' address h
    exact h.trans (hOnly s' address)
  · exact OnlyBits.refl s

theorem onlyBits_setHint (s : PageFrameAllocator) (hint : Nat) :
    OnlyBits s { s with pageBitmapIndex := hint } :=
  ⟨rfl, fun _ _ => rfl⟩

theorem onlyBits_requestPage {answer : Option Nat} (h : requestPage s = (answer, s')) :
    OnlyBits s s' := by
  rcases requestPage_cases h with ⟨index, _, _, _, _, _, rfl⟩ | ⟨_, _, rfl⟩
  · exact (onlyBits_setHint s index).trans (onlyBits_takePage .used _ _)
  · exact onlyBits_setHint s _

theorem onlyBits_requestPages {fuel pageCount : Nat}
    (h : requestPages fuel s pageCount = some (address, s')) : OnlyBits s s' := by
  rcases requestPages_cases h with ⟨start, index, _, _, _, rfl⟩ | ⟨_, _, rfl⟩
  · exact (onlyBits_setHint s start).trans (onlyBits_forPages (onlyBits_takePage .used) _ _ _)
  · exact onlyBits_setHint s _

theorem used_setMemory {m : Memory} (hSame : ∀ x, s.pageBitmap.Owns x → m x = s.memory x)
    (index : Nat) : used { s with memory := m } index = s.used index :=
  Bitmap.get_congr hSame index

def freeBits (s : PageFrameAllocator) : Nat :=
  Nat.count (fun index => s.used index = false) s.bits

theorem requestPage_spec (hBits : s.bits ≤ 2 ^ 52) (h : requestPage s = (some address, s')) :
    ∃ index < s.bits, s.used index = false ∧ address = index * 4096 ∧
    (∀ q, s'.used q = true ↔ s.used q = true ∨ q = index) := by
  rcases requestPage_cases h with ⟨index, _, hIndex, hClear, _, hAnswer, rfl⟩ | ⟨_, hNone, _⟩
  · have hDiv : pageAddress index / 4096 = index := pageAddress_div (by omega)
    have hAddress : pageAddress index = index * 4096 := by
      rw [pageAddress, u64_of_lt (by omega)]
    refine ⟨index, hIndex, hClear, ?_, ?_⟩
    · rw [Option.some.inj hAnswer, hAddress]
    intro q
    rw [lockPage, used_takePage, hDiv]
    constructor
    · rintro (hUsed | ⟨hEq, _⟩)
      · exact .inl hUsed
      · exact .inr hEq
    rintro (hUsed | hEq)
    · exact .inl hUsed
    · rw [hEq]
      exact .inr ⟨rfl, Nat.le_of_lt hIndex⟩
  · cases hNone

theorem requestPages_spec {fuel pageCount : Nat} (hBits : s.bits ≤ 2 ^ 52) (hNonnull : address ≠ 0)
    (hInside : address / 4096 + pageCount ≤ s.bits)
    (h : requestPages fuel s pageCount = some (address, s')) : address % 4096 = 0 ∧
    (∀ q, address / 4096 ≤ q → q < address / 4096 + pageCount → s.used q = false) ∧
    ∀ q, s'.used q = true ↔ s.used q = true ∨
    address / 4096 ≤ q ∧ q < address / 4096 + pageCount := by
  rcases requestPages_cases h with ⟨start, index, _, hFinds, hAddress, rfl⟩ | ⟨_, hNull, _⟩
  · have hIndex := hFinds.2.1
    have hDiv : pageAddress index / 4096 = index := pageAddress_div (by omega)
    have hWord : pageAddress index = index * 4096 := u64_of_lt (by omega)
    subst hAddress
    refine ⟨by omega, ?_,
      fun q => used_lockPages { s with pageBitmapIndex := start } hBits hInside q⟩
    intro q hLow hHigh
    rw [hDiv] at hInside hLow hHigh
    exact hFinds.2.free_of_inside hBits hInside hLow hHigh
  · exact absurd hNull hNonnull

theorem requestPage_first (index : Nat) (hBits : s.bits ≤ 2 ^ 52) (hLow : s.pageBitmapIndex ≤ index)
    (hIndex : index < s.bits) (hClear : s.used index = false)
    (hBefore : ∀ q, s.pageBitmapIndex ≤ q → q < index → s.used q = true) :
    ∃ s', requestPage s = (some (index * 4096), s') ∧ s'.pageBitmapIndex = index ∧
    ∀ q, s'.used q = true ↔ s.used q = true ∨ q = index := by
  rcases hRequest : requestPage s with ⟨_ | address, s'⟩
  · rcases requestPage_cases hRequest with ⟨_, _, _, _, _, hAnswer, _⟩ | ⟨hFull, _, _⟩
    · cases hAnswer
    · rw [hFull index hLow hIndex] at hClear
      cases hClear
  rcases requestPage_spec hBits hRequest with ⟨found, hFound, hFree, rfl, hUsed⟩
  rcases requestPage_cases hRequest with
    ⟨other, hOtherLow, hOther, hOtherFree, hOtherBefore, hAnswer, hState⟩ | ⟨_, hNone, _⟩
  · have hSame : other = index := by
      rcases Nat.lt_trichotomy other index with hLess | hEq | hMore
      · rw [hBefore other hOtherLow hLess] at hOtherFree
        cases hOtherFree
      · exact hEq
      · rw [hOtherBefore index hLow hMore] at hClear
        cases hClear
    have hAddress : found * 4096 = index * 4096 := by
      rw [Option.some.inj hAnswer, hSame, pageAddress, u64_of_lt (by omega)]
    have hEq : found = index := by omega
    rw [hEq] at hUsed ⊢
    refine ⟨s', rfl, ?_, hUsed⟩
    rw [hState, hSame, lockPage, takePage_pageBitmapIndex]
  · cases hNone

theorem freeBits_requestPage (hBits : s.bits ≤ 2 ^ 52) (h : requestPage s = (some address, s')) :
    s.freeBits = s'.freeBits + 1 := by
  rcases requestPage_spec hBits h with ⟨index, hIndex, hClear, _, hUsed⟩
  unfold freeBits
  rw [(onlyBits_requestPage h).bits]
  refine count_eq_succ_of_remove hIndex hClear ?_ ?_
  · rw [(hUsed index).mpr (.inr rfl)]
    exact Bool.noConfusion
  intro q hq
  rw [← Bool.not_eq_true, ← Bool.not_eq_true, hUsed]
  simp [hq]

theorem requestPage_returns (hHinted : Hinted s) (hRoom : 0 < s.freeBits) :
    ∃ address s', requestPage s = (some address, s') := by
  rcases hRequest : requestPage s with ⟨answer, s'⟩
  rcases requestPage_cases hRequest with ⟨index, _, _, _, _, rfl, _⟩ | ⟨hFull, _, _⟩
  · exact ⟨pageAddress index, s', rfl⟩
  have hNone : s.freeBits = 0 := by
    unfold freeBits
    rw [Nat.count_iff_forall_not]
    intro q hq hClear
    have hUsed : s.used q = true := by
      by_cases hBelow : q < s.pageBitmapIndex
      · exact hHinted.below q hBelow
      · exact hFull q (by omega) hq
    rw [hUsed] at hClear
    cases hClear
  omega

------ Taking Pages

structure Takes (n : Nat) (s s' : PageFrameAllocator) : Prop where
  pageBitmap : s'.pageBitmap = s.pageBitmap
  used : ∀ q, s.used q = true → s'.used q = true
  hinted : Hinted s → Hinted s'
  room : s.freeBits ≤ s'.freeBits + n

theorem Takes.refl (s : PageFrameAllocator) : Takes 0 s s :=
  ⟨rfl, fun _ h => h, fun h => h, Nat.le_refl _⟩

theorem Takes.trans {k : Nat} (h : Takes n s s') (h' : Takes k s' s'') : Takes (n + k) s s'' := by
  refine ⟨h'.pageBitmap.trans h.pageBitmap, fun q hq => h'.used q (h.used q hq),
    fun hHinted => h'.hinted (h.hinted hHinted), ?_⟩
  have hRoom := h.room
  have hRoom' := h'.room
  omega

theorem Takes.mono {k : Nat} (h : Takes n s s') (hLe : n ≤ k) : Takes k s s' :=
  ⟨h.pageBitmap, h.used, h.hinted, Nat.le_trans h.room (Nat.add_le_add_left hLe _)⟩

theorem Takes.bits (h : Takes n s s') : s'.bits = s.bits :=
  congrArg Bitmap.bits h.pageBitmap

theorem takes_setMemory {m : Memory} (hSame : ∀ x, s.pageBitmap.Owns x → m x = s.memory x) :
    Takes 0 s { s with memory := m } := by
  have hUsed := used_setMemory hSame
  refine ⟨rfl, ?_, ?_, ?_⟩
  · intro q hq
    rw [hUsed]
    exact hq
  · rintro ⟨hBits, hHint, hBelow⟩
    refine ⟨hBits, hHint, ?_⟩
    intro q hq
    rw [hUsed]
    exact hBelow q hq
  · unfold freeBits
    simp only [hUsed]
    exact Nat.le_refl _

theorem takes_requestPage (hBits : s.bits ≤ 2 ^ 52) (h : requestPage s = (some address, s')) :
    Takes 1 s s' := by
  rcases requestPage_spec hBits h with ⟨index, _, _, _, hUsed⟩
  refine ⟨(onlyBits_requestPage h).pageBitmap, ?_, ?_, ?_⟩
  · intro q hq
    exact (hUsed q).mpr (.inl hq)
  · intro hHinted
    have hStep : HintStep s (.client (.requestPage (some address))) s' :=
      ⟨h, fun _ _ hCall => by cases hCall⟩
    exact hHinted.step hStep
  · exact Nat.le_of_eq (freeBits_requestPage hBits h)

theorem takes_lockPage (s : PageFrameAllocator) (address : Nat) :
    Takes 1 s (s.lockPage address) := by
  have hUsed := used_takePage .used s address
  refine ⟨takePage_pageBitmap .used s address, ?_, ?_, ?_⟩
  · intro q hq
    exact (hUsed q).mpr (.inl hq)
  · intro hHinted
    have hStep : HintStep s (.lockPage address) (s.lockPage address) :=
      ⟨rfl, fun _ _ hCall => by cases hCall⟩
    exact hHinted.step hStep
  · have hBits : (s.lockPage address).bits = s.bits := (onlyBits_takePage .used s address).bits
    unfold freeBits
    rw [hBits]
    by_cases hNew : address / 4096 < s.bits ∧ s.used (address / 4096) = false
    · apply Nat.le_of_eq
      refine count_eq_succ_of_remove hNew.1 hNew.2 ?_ ?_
      · rw [lockPage, (hUsed (address / 4096)).mpr (.inr ⟨rfl, Nat.le_of_lt hNew.1⟩)]
        exact Bool.noConfusion
      intro q hq
      rw [← Bool.not_eq_true, ← Bool.not_eq_true, lockPage, hUsed]
      simp [hq]
    apply Nat.le_succ_of_le
    apply Nat.count_mono_left
    intro q hq hClear
    rw [← Bool.not_eq_true, lockPage, hUsed]
    rintro (hBusy | ⟨rfl, _⟩)
    · rw [hBusy] at hClear
      cases hClear
    · exact hNew ⟨hq, hClear⟩

end PageFrameAllocator

open PageFrameAllocator

theorem pageApart_boot (m : Memory) (params : GBPMemory) {index : Nat}
    (hIndex : index < (boot m params).bits) (hClear : (boot m params).used index = false) :
    PageApart (boot m params).pageBitmap index := by
  rw [boot_bits] at hIndex
  have hLe := bootBitmap_bits_le params
  rintro x rfl ⟨hLow, hHigh⟩
  rw [boot_pageBitmap] at hLow hHigh
  have hTouches := touches_bitmap params (by omega) hLow hHigh
  have hUsed := (used_boot m params hIndex).mpr (.inr (.inr hTouches))
  rw [hUsed] at hClear
  cases hClear

/-
  What the page tables need of the allocator: 52-bit page addresses, page 0 in use, no byte of the
  bitmap in a page that is still clear, and a hint below all of these.
-/
structure Ready (s : PageFrameAllocator) : Prop where
  bits_le : s.bits ≤ 2 ^ 40
  zero : 0 < s.bits → s.used 0 = true
  spare : ∀ index < s.bits, s.used index = false → PageApart s.pageBitmap index
  hinted : Hinted s

theorem ready_boot (m : Memory) {params : GBPMemory} (hSize : params.size.toNat ≤ 2 ^ 52) :
    Ready (boot m params) := by
  refine ⟨?_, used_boot_zero m params, fun index => pageApart_boot m params, hinted_boot m params⟩
  rw [boot_bits]
  simp only [bootBitmap, Bitmap.bits, alignUp]
  omega

end Fennix
