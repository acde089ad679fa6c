import Fennix.PMM.Accounting

/-
  A bulk request followed by the free of its range.
-/

namespace Fennix

open PageFrameAllocator
open Relation

------ Allocator States

structure MachineSized (s : PageFrameAllocator) : Prop extends InWords s where
  bits_le : s.bits ≤ 2 ^ 52

structure Granted (s : PageFrameAllocator) (pageCount address : Nat)
    (s' : PageFrameAllocator) : Prop where
  returns : ∃ fuel, requestPages fuel s pageCount = some (address, s')
  range : address ≠ 0 ∨ s'.used 0 ≠ s.used 0
  inside : address / 4096 + pageCount ≤ s.bits

structure SamePages (s t : PageFrameAllocator) : Prop where
  bits : t.bits = s.bits
  used : ∀ q, t.used q = s.used q

variable {s s' t : PageFrameAllocator} {pageCount address : Nat}

theorem machineSized_boot (m : Memory) (params : GBPMemory) : MachineSized (boot m params) :=
  ⟨inWords_boot m params, (hinted_boot m params).bits_le⟩

namespace PageFrameAllocator

theorem charged_freePage (s : PageFrameAllocator) (address : Nat) : Charged .used
    (if s.used (address / 4096) = true then 1 else 0) (s.freePage address) s := by
  by_cases hUsed : s.used (address / 4096) = true
  · have hCharged := charged_releasePage .used s address
    rw [if_pos (le_bits_of_used hUsed)] at hCharged
    rw [if_pos hUsed, freePage, if_neg (by simp [hUsed])]
    exact hCharged
  · rw [if_neg hUsed, freePage, if_pos (by simpa using hUsed)]
    exact Charged.refl .used s

theorem charged_freePages (s : PageFrameAllocator) (address pageCount : Nat)
    (hCount : pageCount ≤ 2 ^ 52) : Charged .used
    (Nat.count (fun t => s.used (pageAt address t) = true) pageCount)
    (s.freePages address pageCount) s := by
  induction pageCount with
  | zero => exact Charged.refl .used s
  | succ pageCount ih =>
    have hPage := charged_freePage (s.freePages address pageCount)
      (u64 (address + pageCount * 4096))
    have hFresh : (s.freePages address pageCount).used (pageAt address pageCount) =
      s.used (pageAt address pageCount) := by
      rw [Bool.eq_iff_iff, used_freePages]
      constructor
      · exact fun h => h.1
      intro hUsed
      refine ⟨hUsed, ?_⟩
      rintro ⟨t, ht, hSame⟩
      have hAt : pageAt address t = pageAt address pageCount := hSame
      rw [pageAt_eq, pageAt_eq] at hAt
      omega
    have hAt : u64 (address + pageCount * 4096) / 4096 = pageAt address pageCount := rfl
    rw [hAt, hFresh] at hPage
    rw [freePages, forPages_succ, Nat.count_succ, Nat.add_comm]
    exact hPage.trans (ih (by omega))

theorem freePages_pageBitmapIndex_of_le
    (hAbove : ∀ t < pageCount, s.pageBitmapIndex ≤ pageAt address t) :
    (s.freePages address pageCount).pageBitmapIndex = s.pageBitmapIndex := by
  induction pageCount with
  | zero => rfl
  | succ pageCount ih =>
    have hHint := ih (fun t ht => hAbove t (by omega))
    have hLast := hAbove pageCount (by omega)
    have hAt : u64 (address + pageCount * 4096) / 4096 = pageAt address pageCount := rfl
    rw [freePages] at hHint ⊢
    rw [forPages_succ, freePage_pageBitmapIndex, hAt, hHint, Nat.min_eq_left hLast, ite_self]

end PageFrameAllocator

theorem Charged.setHint (account : Account) (s : PageFrameAllocator) (hint : Nat) :
    Charged account 0 s { s with pageBitmapIndex := hint } := by
  refine ⟨Nat.ModEq.refl _, ?_, ?_, rfl⟩
  · cases account <;> exact Nat.ModEq.refl _
  · intro b _
    cases b <;> rfl

theorem InWords.lockPages (hWords : InWords s) (address pageCount : Nat) :
    InWords (s.lockPages address pageCount) :=
  forPages_invariant (fun _ a h => h.takePage .used a) hWords _ _

theorem InWords.freePages (hWords : InWords s) (address pageCount : Nat) :
    InWords (s.freePages address pageCount) := by
  refine forPages_invariant (P := InWords) ?_ hWords _ _
  intro s a h
  unfold freePage
  split
  · exact h
  · exact h.releasePage .used a

theorem Charged.cancel {k : Nat} (hThere : Charged .used k s s') (hBack : Charged .used k t s')
    (hStart : InWords s) (hEnd : InWords t) : t.freeMemory = s.freeMemory ∧
    t.usedMemory = s.usedMemory ∧ t.reservedMemory = s.reservedMemory := by
  have hFree : t.freeMemory ≡ s.freeMemory [MOD 2 ^ 64] := hBack.free.symm.trans hThere.free
  have hUsed : t.usedMemory ≡ s.usedMemory [MOD 2 ^ 64] :=
    (hBack.own.symm.trans hThere.own).add_right_cancel' (4096 * k)
  have hReserved : t.reservedMemory = s.reservedMemory :=
    (hBack.other .reserved (by decide)).symm.trans (hThere.other .reserved (by decide))
  exact ⟨hFree.eq_of_lt_of_lt hEnd.free hStart.free,
    hUsed.eq_of_lt_of_lt hEnd.used hStart.used, hReserved⟩

------ Granted Requests

namespace Granted

variable (hBits : s.bits ≤ 2 ^ 52) (h : Granted s pageCount address s')

include hBits h

theorem found : ∃ start, Tried s pageCount start ∧ ScanFinds s pageCount start (address / 4096) ∧
    address = pageAddress (address / 4096) ∧ s' = lockPages { s with pageBitmapIndex := start }
      address pageCount := by
  rcases h.returns with ⟨fuel, hReturns⟩
  rcases requestPages_cases hReturns with ⟨start, index, hTried, hFinds, hAddress, hLocked⟩ |
    ⟨_, hNull, hSame⟩
  · have hDiv : pageAddress index / 4096 = index := pageAddress_div (by
        have hIndex := hFinds.2.1
        omega)
    refine ⟨start, hTried, ?_, ?_, ?_⟩
    · rw [hAddress, hDiv]
      exact hFinds
    · rw [hAddress, hDiv]
    · rw [hAddress]
      exact hLocked
  rcases h.range with hNonnull | hZero
  · exact absurd hNull hNonnull
  · rw [hSame] at hZero
    exact absurd rfl hZero

theorem tried : Found s s.pageBitmapIndex pageCount s'.pageBitmapIndex (address / 4096) := by
  rcases h.found hBits with ⟨start, hTried, hFinds, _, hLocked⟩
  have hHint : s'.pageBitmapIndex = start := by
    rw [hLocked, lockPages, lockPage, forPages_take_pageBitmapIndex]
  rw [hHint]
  exact ⟨hTried, hFinds⟩

theorem clear {q : Nat} (hLow : address / 4096 ≤ q) (hHigh : q < address / 4096 + pageCount) :
    s.used q = false := by
  exact (h.tried hBits).2.2.free_of_inside hBits h.inside hLow hHigh

theorem pageAt_add {t : Nat} (ht : t < pageCount) : pageAt address t = address / 4096 + t := by
  have hInside := h.inside
  rw [pageAt_eq]
  omega

theorem used_iff (q : Nat) :
    s'.used q = true ↔ s.used q = true ∨ address / 4096 ≤ q ∧ q < address / 4096 + pageCount := by
  rcases h.found hBits with ⟨start, _, _, _, rfl⟩
  exact used_lockPages { s with pageBitmapIndex := start } hBits h.inside q

theorem samePages_free : SamePages s (s'.freePages address pageCount) := by
  have hInside := h.inside
  constructor
  · rcases h.found hBits with ⟨start, _, _, _, rfl⟩
    have hFreed : ∀ a : PageFrameAllocator, (a.freePages address pageCount).pageBitmap =
      a.pageBitmap := by
      intro a
      exact forPages_invariant (P := fun b => b.pageBitmap = a.pageBitmap)
        (fun b x hb => by simpa using hb) rfl _ _
    rw [bits, hFreed, lockPages, lockPage, forPages_take_pageBitmap]
    rfl
  intro q
  rw [Bool.eq_iff_iff, used_freePages, h.used_iff hBits, touches_iff q (by omega)]
  constructor
  · rintro ⟨hUsed | hRange, hOut⟩
    · exact hUsed
    · exact absurd hRange hOut
  intro hUsed
  refine ⟨Or.inl hUsed, ?_⟩
  rintro ⟨hLow, hHigh⟩
  rw [h.clear hBits hLow hHigh] at hUsed
  cases hUsed

theorem charged : Charged .used pageCount s s' := by
  have hInside := h.inside
  rcases h.found hBits with ⟨start, _, _, _, hLocked⟩
  have hAll : ∀ t < pageCount, used { s with pageBitmapIndex := start }
              (pageAt address t) = false ∧ pageAt address t ≤ s.bits ↔ True := by
    intro t ht
    rw [h.pageAt_add hBits ht, iff_true]
    exact ⟨h.clear hBits (by omega) (by omega), by omega⟩
  have hCharged : Charged .used _ _ _ := charged_forPages_count (by omega) hAll
  have hCount : Nat.count (fun _ => True) pageCount = pageCount := Nat.count_true pageCount
  rw [hCount, ← lockPage, ← lockPages, ← hLocked] at hCharged
  have hHint := Charged.setHint .used s start
  rw [← Nat.zero_add pageCount]
  exact hHint.trans hCharged

theorem charged_free : Charged .used pageCount (s'.freePages address pageCount) s' := by
  have hInside := h.inside
  have hAll : ∀ t < pageCount, s'.used (pageAt address t) = true ↔ True := by
    intro t ht
    rw [h.pageAt_add hBits ht, iff_true, h.used_iff hBits]
    exact .inr ⟨by omega, by omega⟩
  have hCount : Nat.count (fun t => s'.used (pageAt address t) = true) pageCount = pageCount := by
    rw [count_eq_of_iff hAll]
    exact Nat.count_true pageCount
  have hCharged := charged_freePages s' address pageCount (by omega)
  rw [hCount] at hCharged
  exact hCharged

end Granted

theorem freePages_undoes_requestPages (hSized : MachineSized s)
    (hGranted : Granted s pageCount address s') :
    (∀ q, (s'.freePages address pageCount).used q = s.used q) ∧
    (s'.freePages address pageCount).freeMemory = s.freeMemory ∧
    (s'.freePages address pageCount).usedMemory = s.usedMemory ∧
    (s'.freePages address pageCount).reservedMemory = s.reservedMemory := by
  have hBits := hSized.bits_le
  refine ⟨(hGranted.samePages_free hBits).used, ?_⟩
  refine (hGranted.charged hBits).cancel (hGranted.charged_free hBits) hSized.toInWords ?_
  rcases hGranted.found hBits with ⟨start, _, _, _, rfl⟩
  have hHint : InWords { s with pageBitmapIndex := start } :=
    ⟨hSized.total, hSized.free, hSized.used, hSized.reserved⟩
  exact (hHint.lockPages _ _).freePages _ _

private theorem granted_holedMap (m : Memory) {pageCount : Nat} (hCount : pageCount ≤ 32508) :
    ∃ s', Granted (boot m holedMap) pageCount 0x104000 s' ∧ s'.pageBitmapIndex = 260 := by
  have hBits := boot_holedMap_bits m
  have hFit : pageCount ≤ 32509 := by
    omega
  rcases requestPages_holedMap m hFit with ⟨⟨hTried, hFinds⟩, s', hReturns⟩
  have hGranted : Granted (boot m holedMap) pageCount 0x104000 s' :=
    ⟨⟨1, hReturns⟩, Or.inl (by decide), by omega⟩
  rcases hGranted.tried (by omega) with ⟨hTried', hFinds'⟩
  exact ⟨s', hGranted, tried_unique hTried' hFinds' hTried hFinds⟩

theorem freePages_undoes_requestPages_holedMap : ∃ s', MachineSized (boot (fun _ => 0) holedMap) ∧
    Granted (boot (fun _ => 0) holedMap) 2 0x104000 s' ∧ ∀ q, (s'.freePages 0x104000 2).used q =
    (boot (fun _ => 0) holedMap).used q := by
  have hTwo : 2 ≤ 32508 := by omega
  rcases granted_holedMap (fun _ => 0) hTwo with ⟨s', hGranted, _⟩
  have hSized := machineSized_boot (fun _ => 0) holedMap
  exact ⟨s', hSized, hGranted, (freePages_undoes_requestPages hSized hGranted).1⟩

------ Searches On The Same Bitmap

variable {index : Nat}

namespace SamePages

variable (hSame : SamePages s t)

include hSame

theorem blocked (index : Nat) :
    t.blocked pageCount index = s.blocked pageCount index := by
  unfold PageFrameAllocator.blocked
  simp only [hSame.used]

theorem fits_iff : Fits t pageCount index ↔ Fits s pageCount index := by
  unfold Fits
  rw [hSame.bits, hSame.used, hSame.blocked]

theorem trans {u : PageFrameAllocator} (h : SamePages t u) : SamePages s u :=
  ⟨h.bits.trans hSame.bits, fun q => (h.used q).trans (hSame.used q)⟩

end SamePages

theorem granted_of_found {start : Nat} (hBits : s.bits ≤ 2 ^ 52) (hCount : 1 ≤ pageCount)
    (hFound : Found s s.pageBitmapIndex pageCount start index)
    (hInside : index + pageCount ≤ s.bits) :
    ∃ s', Granted s pageCount (pageAddress index) s' ∧ s'.pageBitmapIndex = start := by
  have hDiv : pageAddress index / 4096 = index := pageAddress_div (by omega)
  have hReturns := requestPages_of_found hBits (by omega) hFound
  refine ⟨_, ⟨⟨_, hReturns⟩, ?_, by rwa [hDiv]⟩, ?_⟩
  · -- the null address is returned for page 0 only, and
    -- then that page gets locked
    by_cases hNull : pageAddress index = 0
    · have hZero : index = 0 := by omega
      subst hZero
      refine Or.inr ?_
      rw [hFound.2.2.2.1]
      apply ne_of_eq_of_ne (b := true) _ (by decide)
      rw [lockPages, lockPage, used_forPages_take, touches_iff 0 (by omega), hDiv]
      exact .inr ⟨by omega, Nat.zero_le _⟩
    · exact .inl hNull
  · rw [lockPages, lockPage, forPages_take_pageBitmapIndex]

theorem FreeFrom.granted {k n : Nat} (hFree : FreeFrom s k n) (hBits : s.bits ≤ 2 ^ 52)
    (hSome : 1 ≤ n) : ∃ s', Granted s n (k * 4096) s' ∧ s'.pageBitmapIndex = k := by
  have hInside := hFree.inside
  have hAddress : pageAddress k = k * 4096 := u64_of_lt (by omega)
  rw [← hAddress]
  exact granted_of_found hBits hSome (hFree.found hBits hSome) hInside

theorem Granted.answer_unique {fuel other : Nat} (hBits : s.bits ≤ 2 ^ 52)
    (h : Granted s pageCount address s')
    (hReturns : requestPages fuel s pageCount = some (other, t)) :
    other = address ∧ t = s' := by
  rcases h.found hBits with ⟨start, hTried, hFinds, hAddress, hLocked⟩
  rcases requestPages_cases hReturns with
    ⟨start', index, hTried', hFinds', rfl, rfl⟩ | ⟨hGivenUp, _, _⟩
  · have hStart := tried_unique hTried hFinds hTried' hFinds'
    subst hStart
    have hIndex := scanFinds_unique hFinds hFinds'
    rw [← hIndex, ← hAddress]
    exact ⟨rfl, hLocked.symm⟩
  have hPast : s.bits ≤ start := hGivenUp.le hTried.1 hTried.2.2.1 hFinds
  exact absurd hTried.2.1 (Nat.not_lt.mpr hPast)

------ Stable Addresses

section Stable

variable {n m a b start next : Nat}

end Stable

------ A Moved Hint

variable {hint : Nat}

end Fennix
