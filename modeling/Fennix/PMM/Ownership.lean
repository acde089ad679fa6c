import Fennix.Library.Run
import Fennix.PMM.Boot
import Fennix.PMM.Search

/-
  Ownership of page ranges over runs of requests and frees.

  A request hands out pages that were free, marks them used and leaves every other bit alone, so
  outstanding ranges never meet.
-/

------ Ranges and Clients

namespace Fennix

open List

variable (m : Memory) {e : PageEvent} {r : PageRange}

open PageFrameAllocator

structure PageRange where
  address : Nat
  pageCount : Nat
deriving DecidableEq, Repr

namespace PageRange

def Covers (r : PageRange) (index : Nat) : Prop :=
  r.address / 4096 ≤ index ∧ index < r.address / 4096 + r.pageCount

def Apart (r t : PageRange) : Prop :=
  ∀ index, r.Covers index → ¬ t.Covers index

end PageRange

structure PageClients where
  allocator : PageFrameAllocator
  outstanding : List PageRange

inductive PageEvent where
| requestPage (answer : Option Nat)
| requestPages (pageCount address : Nat)
| freePage (address : Nat)
| freePages (address pageCount : Nat)
deriving DecidableEq, Repr

def PageEvent.granted : PageEvent → Option PageRange
| .requestPage answer =>
  answer.map (fun address => ⟨address, 1⟩)
| .requestPages pageCount address =>
  if address = 0 then none
  else some ⟨address, pageCount⟩
| .freePage _ => none
| .freePages _ _ => none

def PageEvent.returned : PageEvent → Option PageRange
| .requestPage _ => none
| .requestPages _ _ => none
| .freePage address => some ⟨address, 1⟩
| .freePages address pageCount =>
  some ⟨address, pageCount⟩

def PageEvent.Does (s : PageFrameAllocator) : PageEvent → PageFrameAllocator → Prop
| .requestPage answer, s' =>
  PageFrameAllocator.requestPage s = (answer, s')
| .requestPages pageCount address, s' =>
  ∃ fuel, PageFrameAllocator.requestPages fuel s pageCount = some (address, s')
| .freePage address, s' =>
  s' = PageFrameAllocator.freePage s address
| .freePages address pageCount, s' =>
  s' = PageFrameAllocator.freePages s address pageCount

def PageStep (s : PageClients) (e : PageEvent) (s' : PageClients) : Prop :=
  e.Does s.allocator s'.allocator ∧ (∀ r, e.returned = some r → r ∈ s.outstanding) ∧
      s'.outstanding = e.granted.toList ++
          match e.returned with
          | some r => s.outstanding.erase r
          | none => s.outstanding

variable {fuel address : Nat}

theorem pageStep_requestPages {s s' : PageFrameAllocator} {held : List PageRange} {pageCount : Nat}
    (h : requestPages fuel s pageCount = some (address, s'))
    (hAddress : address ≠ 0) : PageStep ⟨s, held⟩ (.requestPages pageCount address)
    ⟨s', ⟨address, pageCount⟩ :: held⟩ := by
  refine ⟨⟨fuel, h⟩, ?_, ?_⟩
  · intro r hr
    cases hr
  · simp [PageEvent.granted, PageEvent.returned, hAddress]

def PageClients.start (m : Memory) (params : GBPMemory) : PageClients :=
  ⟨boot m params, []⟩

theorem PageClients.start_allocator (params : GBPMemory) :
    (PageClients.start m params).allocator = boot m params :=
  rfl

def HandedOut (before after : PageFrameAllocator) (granted : Option PageRange) : Prop :=
  (∀ r, granted = some r → ∀ index, r.Covers index →
    index < before.bits ∧ before.used index = false ∧ after.used index = true) ∧
    ∀ index < before.bits, (∀ r, granted = some r → ¬ r.Covers index) →
        after.used index = before.used index

------ Windows Inside the Bitmap

/-
  A request that cannot run past the last bit: it asks for one page at most, the last page is in
  use, or the search starts before the last `2 * pageCount` pages and all of them are free.

  A blocked window makes the scan jump over `pageCount` pages, so twice as many are needed for it to
  land in front of `pageCount` free ones.
-/
def StaysInside (s : PageFrameAllocator) (pageCount : Nat) : Prop :=
  pageCount ≤ 1 ∨ s.used (s.bits - 1) = true ∨
    s.pageBitmapIndex + 2 * pageCount ≤ s.bits ∧
    ∀ q, s.bits ≤ q + 2 * pageCount → q < s.bits → s.used q = false

variable {s s' : PageFrameAllocator} {pageCount : Nat}
variable {start index : Nat}

theorem fits_of_free (hBits : s.bits ≤ 2 ^ 52) (hCount : 1 ≤ pageCount)
    (hInside : index + pageCount ≤ s.bits)
    (hFree : ∀ q, index ≤ q → q < index + pageCount → s.used q = false) :
    Fits s pageCount index := by
  refine ⟨by omega, hFree index (Nat.le_refl index) (by omega), ?_⟩
  rw [blocked_eq_false_iff]
  intro i hi
  rw [u64_of_lt (by omega)]
  exact hFree _ (by omega) (by omega)

/- The first free page from `PageBitmapIndex` on is `k`, and `n` pages from it on are free. -/
structure FreeFrom (s : PageFrameAllocator) (k n : Nat) : Prop where
  low : s.pageBitmapIndex ≤ k
  used : ∀ q, s.pageBitmapIndex ≤ q → q < k → s.used q = true
  free : ∀ q, k ≤ q → q < k + n → s.used q = false
  inside : k + n ≤ s.bits

theorem FreeFrom.found {k n : Nat} (hFree : FreeFrom s k n) (hBits : s.bits ≤ 2 ^ 52)
    (hSome : 1 ≤ n) : Found s s.pageBitmapIndex n k k := by
  have hFits := fits_of_free hBits hSome hFree.inside hFree.free
  exact ⟨(requestPages_of_fits hFree.low hFree.used hFits).1, scanFinds_self hFits⟩

theorem scan_inside (hBits : s.bits ≤ 2 ^ 52) (hStart : start + pageCount ≤ s.bits)
    (hFits : ∀ i, s.bits ≤ i + 2 * pageCount → i + pageCount ≤ s.bits → Fits s pageCount i)
    (hScan : Relation.ReflTransGen (ScanStep s pageCount) start index) :
    index + pageCount ≤ s.bits := by
  induction hScan with
  | refl => exact hStart
  | @tail i j _ hStep ih =>
    by_cases hNear : s.bits ≤ i + 2 * pageCount
    · exact (not_scanStep_of_fits (hFits i hNear ih) hStep).elim
    rcases hStep with ⟨_, ⟨_, rfl⟩ | ⟨_, _, rfl⟩⟩
    · rw [u64_of_lt (by omega)]
      omega
    · rw [u64_of_lt (n := i + pageCount) (by omega), u64_of_lt (by omega)]
      omega

theorem StaysInside.le (h : StaysInside s pageCount) (hBits : s.bits ≤ 2 ^ 52)
    (hTried : Tried s pageCount start) (hFinds : ScanFinds s pageCount start index) :
    index + pageCount ≤ s.bits := by
  have hIn := hFinds.2.1
  by_cases hCount : pageCount ≤ 1
  · omega
  rcases h with hOne | hLast | ⟨hStart, hFree⟩
  · exact absurd hOne hCount
  · by_contra hOut
    have hClear := blocked_eq_false_iff.mp hFinds.2.2.2 (s.bits - 1 - index) (by omega)
    rw [Nat.add_sub_cancel' (by omega), u64_of_lt (by omega), hLast] at hClear
    cases hClear
  have hFits : ∀ i, s.bits ≤ i + 2 * pageCount → i + pageCount ≤ s.bits → Fits s pageCount i :=
    fun i hNear hInside => fits_of_free hBits (by omega) hInside
      (fun q hLow hHigh => hFree q (by omega) (by omega))
  refine scan_inside hBits ?_ hFits hFinds.1
  by_contra hLate
  have hFirst := hFits (s.bits - 2 * pageCount) (by omega) (by omega)
  have hEarly := hTried.2.2.2.le (by omega) hFirst.2.1 (scanFinds_self hFirst)
  omega

------ Requests Hand Out Free Pages

private theorem handedOut_lock (hBits : s.bits ≤ 2 ^ 52) (hInside : index + pageCount ≤ s.bits)
    (hIndex : index < s.bits) (hFree : ∀ q, index ≤ q → q < index + pageCount → s.used q = false) :
    HandedOut s (lockPages { s with pageBitmapIndex := start } (pageAddress index) pageCount)
      (some ⟨pageAddress index, pageCount⟩) := by
  have hPage : pageAddress index / 4096 = index := pageAddress_div (by omega)
  have hCovers : ∀ q, PageRange.Covers ⟨pageAddress index, pageCount⟩ q ↔
    index ≤ q ∧ q < index + pageCount := by
    intro q
    simp only [PageRange.Covers, hPage]
  have hUsed : ∀ q, (lockPages { s with pageBitmapIndex := start }
          (pageAddress index) pageCount).used q = true ↔
        s.used q = true ∨ (index ≤ q ∧ q < index + pageCount) ∧ q ≤ s.bits := by
    intro q
    rw [lockPages, lockPage, used_forPages_take, touches_iff q (by omega), hPage]
    rfl
  constructor
  · rintro r hr q hq
    cases hr
    rw [hCovers] at hq
    refine ⟨by omega, hFree q hq.1 hq.2, ?_⟩
    rw [hUsed]
    exact .inr ⟨hq, by omega⟩
  intro q _ hOut
  have hq := hOut _ rfl
  rw [hCovers] at hq
  rw [Bool.eq_iff_iff, hUsed]
  tauto

private theorem handedOut_none (hint : Nat) :
    HandedOut s { s with pageBitmapIndex := hint } none := by
  constructor
  · intro r hr
    cases hr
  · intro q _ _
    rfl

theorem requestPage_handedOut {answer : Option Nat} (hBits : s.bits ≤ 2 ^ 52)
    (h : requestPage s = (answer, s')) : HandedOut s s'
    (PageEvent.requestPage answer).granted := by
  rcases requestPage_cases h with ⟨index, _, hLt, hFree, _, rfl, rfl⟩ | ⟨_, rfl, rfl⟩
  · have hOne : lockPage { s with pageBitmapIndex := index } (pageAddress index) =
          lockPages { s with pageBitmapIndex := index } (pageAddress index) 1 := by
      have hWord : u64 (pageAddress index + 0 * 4096) = pageAddress index := by
        rw [Nat.zero_mul, Nat.add_zero]
        exact u64_of_lt (pageAddress_lt index)
      rw [lockPages, forPages_succ, forPages_zero, hWord]
    rw [hOne]
    apply handedOut_lock hBits (by omega) hLt
    intro q hLow hHigh
    rwa [show q = index by omega]
  · exact handedOut_none _

theorem requestPages_handedOut (hBits : s.bits ≤ 2 ^ 52) (hZero : 0 < s.bits → s.used 0 = true)
    (hInside : StaysInside s pageCount)
    (h : requestPages fuel s pageCount = some (address, s')) : HandedOut s s'
    (PageEvent.requestPages pageCount address).granted := by
  rcases requestPages_cases h with ⟨start, index, hTried, hFinds, rfl, rfl⟩ | ⟨_, rfl, rfl⟩
  · have hLt := hFinds.2.1
    have hEnd := hInside.le hBits hTried hFinds
    have hIndex : index ≠ 0 := by
      rintro rfl
      have hFree := hFinds.2.2.1
      rw [hZero hLt] at hFree
      cases hFree
    have hAddress : pageAddress index ≠ 0 := by
      have hDiv : pageAddress index / 4096 = index := pageAddress_div (by omega)
      omega
    rw [PageEvent.granted, if_neg hAddress]
    apply handedOut_lock hBits hEnd hLt
    intro q hLow hHigh
    exact hFinds.2.free_of_inside hBits hEnd hLow hHigh
  · exact handedOut_none _

------ The Ownership Invariant

theorem PageEvent.Does.bits_eq (h : e.Does s s') : s'.bits = s.bits := by
  cases e with
  | requestPage answer =>
    rcases requestPage_cases h with ⟨index, _, _, _, _, _, rfl⟩ | ⟨_, _, rfl⟩
    · simp [bits, lockPage]
    · rfl
  | requestPages pageCount address =>
    rcases h with ⟨fuel, h⟩
    rcases requestPages_cases h with ⟨start, index, _, _, _, rfl⟩ | ⟨_, _, rfl⟩
    · simp [bits, lockPages, lockPage]
    · rfl
  | freePage address =>
    cases h
    simp [bits]
  | freePages address pageCount =>
    cases h
    simp [bits]

theorem PageRange.Apart.symm {t : PageRange} (h : r.Apart t) : t.Apart r :=
  fun index ht hr => h index hr ht

/-
  Outstanding ranges cover pages in use inside the bitmap, never page 0, and no two of them meet.
-/
structure Owned (s : PageClients) : Prop where
  bits_le : s.allocator.bits ≤ 2 ^ 52
  zero : 0 < s.allocator.bits → s.allocator.used 0 = true
  held : ∀ r ∈ s.outstanding, ∀ q, r.Covers q →
    q < s.allocator.bits ∧ s.allocator.used q = true ∧ q ≠ 0
  apart : s.outstanding.Pairwise PageRange.Apart

theorem owned_start (params : GBPMemory) : Owned (PageClients.start m params) where
  bits_le := boot_bits_le m params
  zero := used_boot_zero m params
  held := by
    intro r hr
    cases hr
  apart := List.Pairwise.nil

def InsideStep (s : PageClients) (e : PageEvent) (s' : PageClients) : Prop :=
  PageStep s e s' ∧ ∀ pageCount address, e = .requestPages pageCount address →
        StaysInside s.allocator pageCount

variable {c c' : PageClients}

section

variable (hOwned : Owned c)

include hOwned

theorem InsideStep.handedOut (hStep : InsideStep c e c') (hRequest : e.returned = none) :
    HandedOut c.allocator c'.allocator e.granted := by
  rcases hStep with ⟨⟨hDoes, _, _⟩, hInside⟩
  cases e with
  | requestPage answer =>
    exact requestPage_handedOut hOwned.bits_le hDoes
  | requestPages pageCount address =>
    rcases hDoes with ⟨fuel, h⟩
    exact requestPages_handedOut hOwned.bits_le hOwned.zero (hInside pageCount address rfl) h
  | freePage address => cases hRequest
  | freePages address pageCount => cases hRequest

private theorem Owned.request {granted : Option PageRange}
    (hBits : c'.allocator.bits = c.allocator.bits)
    (hHanded : HandedOut c.allocator c'.allocator granted)
    (hHeld : c'.outstanding = granted.toList ++ c.outstanding) : Owned c' := by
  rcases hHanded with ⟨hGranted, hOther⟩
  -- a page in use is not granted, hence keeps its bit
  have hKeep : ∀ q < c.allocator.bits, c.allocator.used q = true →
    (∀ r, granted = some r → ¬ r.Covers q) ∧ c'.allocator.used q = true := by
    intro q hq hUsed
    have hNot : ∀ r, granted = some r → ¬ r.Covers q := by
      intro r hr hCovers
      have hFree := (hGranted r hr q hCovers).2.1
      rw [hUsed] at hFree
      cases hFree
    refine ⟨hNot, ?_⟩
    rw [hOther q hq hNot]
    exact hUsed
  refine ⟨?_, ?_, ?_, ?_⟩
  · rw [hBits]
    exact hOwned.bits_le
  · intro hPos
    rw [hBits] at hPos
    exact (hKeep 0 hPos (hOwned.zero hPos)).2
  · intro r hr q hCovers
    rw [hBits]
    rw [hHeld, mem_append, Option.mem_toList] at hr
    rcases hr with hNew | hOld
    · rcases hGranted r hNew q hCovers with ⟨hLt, hFree, hUsed⟩
      refine ⟨hLt, hUsed, ?_⟩
      rintro rfl
      rw [hOwned.zero (by omega)] at hFree
      cases hFree
    · rcases hOwned.held r hOld q hCovers with ⟨hLt, hUsed, hNe⟩
      exact ⟨hLt, (hKeep q hLt hUsed).2, hNe⟩
  · rw [hHeld, pairwise_append]
    refine ⟨?_, hOwned.apart, ?_⟩
    · cases granted <;> simp
    intro r hr t ht q hNew hOld
    rw [Option.mem_toList] at hr
    rcases hOwned.held t ht q hOld with ⟨hLt, hUsed, _⟩
    exact (hKeep q hLt hUsed).1 r hr hNew

private theorem Owned.free (hMem : r ∈ c.outstanding) (hBits : c'.allocator.bits = c.allocator.bits)
    (hUsed : ∀ q, c'.allocator.used q = true ↔ c.allocator.used q = true ∧ ¬ r.Covers q)
    (hHeld : c'.outstanding = c.outstanding.erase r) : Owned c' := by
  have hPerm : (r :: c.outstanding.erase r).Pairwise PageRange.Apart :=
    ((perm_cons_erase hMem).pairwise_iff PageRange.Apart.symm).mp hOwned.apart
  rw [pairwise_cons] at hPerm
  refine ⟨?_, ?_, ?_, ?_⟩
  · rw [hBits]
    exact hOwned.bits_le
  · intro hPos
    rw [hBits] at hPos
    rw [hUsed]
    refine ⟨hOwned.zero hPos, ?_⟩
    intro hCovers
    exact (hOwned.held r hMem 0 hCovers).2.2 rfl
  · intro t ht q hCovers
    rw [hHeld] at ht
    rcases hOwned.held t (mem_of_mem_erase ht) q hCovers with ⟨hLt, hBit, hNe⟩
    rw [hBits, hUsed]
    refine ⟨hLt, ⟨hBit, ?_⟩, hNe⟩
    intro hIn
    exact hPerm.1 t ht q hIn hCovers
  · rw [hHeld]
    exact hPerm.2

private theorem Owned.touches_iff_covers (hMem : r ∈ c.outstanding) (q : Nat) :
    Touches r.address r.pageCount q ↔ r.Covers q := by
  have hFit : r.pageCount = 0 ∨ r.address / 4096 + r.pageCount ≤ 2 ^ 52 := by
    by_cases hZero : r.pageCount = 0
    · exact .inl hZero
    have hLast := hOwned.held r hMem (r.address / 4096 + (r.pageCount - 1)) ⟨by omega, by omega⟩
    have hBits := hOwned.bits_le
    exact .inr (by omega)
  rcases hFit with hZero | hFit
  · rw [hZero]
    simp only [not_touches_zero, false_iff, PageRange.Covers, hZero]
    omega
  · exact touches_iff q hFit

theorem Owned.step (hStep : InsideStep c e c') : Owned c' := by
  have hBits := hStep.1.1.bits_eq
  rcases hStep.1 with ⟨hDoes, hReturned, hHeld⟩
  cases e with
  | requestPage answer =>
    exact hOwned.request hBits (hStep.handedOut hOwned rfl) hHeld
  | requestPages pageCount address =>
    exact hOwned.request hBits (hStep.handedOut hOwned rfl) hHeld
  | freePage address =>
    have hMem := hReturned _ rfl
    apply hOwned.free hMem hBits _ hHeld
    intro q
    rw [show c'.allocator = PageFrameAllocator.freePage c.allocator address from hDoes,
      used_freePage]
    simp only [PageRange.Covers]
    constructor
    · rintro ⟨hUsed, hNe⟩
      exact ⟨hUsed, by omega⟩
    · rintro ⟨hUsed, hNot⟩
      exact ⟨hUsed, by omega⟩
  | freePages address pageCount =>
    have hMem := hReturned _ rfl
    apply hOwned.free hMem hBits _ hHeld
    intro q
    rw [show c'.allocator = PageFrameAllocator.freePages c.allocator address pageCount from hDoes,
      used_freePages, hOwned.touches_iff_covers hMem]

end

theorem outstanding_ranges_owned (m : Memory) (params : GBPMemory) {es : List PageEvent}
    {s : PageClients} (hRun : Run InsideStep (PageClients.start m params) es s) :
    s.outstanding.Pairwise PageRange.Apart ∧ ∀ e s', InsideStep s e s' → e.returned = none →
    HandedOut s.allocator s'.allocator e.granted := by
  have hOwned : Owned s := Run.invariant (owned_start m params)
      (fun _ _ _ hOwned hStep => hOwned.step hStep) hRun
  refine ⟨hOwned.apart, ?_⟩
  intro e s' hStep hRequest
  exact hStep.handedOut hOwned hRequest

------ A Window Past the Bitmap

def holedMap : GBPMemory where
  size := 0x8000000
  entry :=
    [⟨0, 257, 0x101000, .reserved⟩, ⟨0x102000, 32511, 0x7eff000, .free⟩]

theorem boot_holedMap_bits : (boot m holedMap).bits = 32768 := by
  rw [boot_bits]
  decide

theorem used_boot_holedMap {q : Nat} (hHigh : q ≤ 32768) :
    (boot m holedMap).used q = true ↔ q < 260 := by
  have hBuffer : bootBitmap holedMap = ⟨4096, 0x102000⟩ := by decide
  have hEntry : InFreeEntry holedMap q ↔ 258 ≤ q ∧ q < 32769 := by
    simp only [InFreeEntry, holedMap, mem_cons, not_mem_nil, or_false, exists_eq_or_imp,
      exists_eq_left, reduceCtorEq, false_and, false_or, true_and]
    exact touches_iff q (by decide)
  have hLow : Touches 0 0x100 q ↔ q < 256 := by
    rw [touches_iff q (by omega)]
    omega
  have hBitmap : Touches (bootBitmap holedMap).buffer ((bootBitmap holedMap).size / 4096 + 1) q ↔
    258 ≤ q ∧ q < 260 := by
    rw [hBuffer]
    exact touches_iff q (by decide)
  have hAll : Touches 0 (holedMap.size.toNat / 4096 + 1) q ↔ q < 32769 := by
    have hSize : holedMap.size.toNat = 0x8000000 := rfl
    rw [hSize, touches_iff q (by omega)]
    omega
  by_cases hFree : 260 ≤ q
  · rw [free_boot m holedMap]
    · simp only [Bool.false_eq_true, false_iff]
      omega
    · rw [hBuffer]
      exact hHigh
    · rw [hEntry]
      omega
    · rw [hLow]
      omega
    · rw [hBitmap]
      omega
  rw [used_boot m holedMap, hEntry, hLow, hBitmap, hAll]
  · omega
  · rw [hBuffer]
    exact Nat.lt_of_not_le (fun h => hFree (Nat.le_trans (by decide) h))

theorem requestPages_holedMap {pageCount : Nat} (hCount : pageCount ≤ 32509) :
    Found (boot m holedMap) (boot m holedMap).pageBitmapIndex pageCount 260 260 ∧
    ∃ s', requestPages 1 (boot m holedMap) pageCount = some (0x104000, s') := by
  have hBits := boot_holedMap_bits m
  have hFits : Fits (boot m holedMap) pageCount 260 := by
    refine ⟨by omega, ?_, ?_⟩
    · rw [← Bool.not_eq_true, used_boot_holedMap m (by omega)]
      omega
    rw [blocked_eq_false_iff]
    intro i hi
    rw [u64_of_lt (by omega), ← Bool.not_eq_true, used_boot_holedMap m (by omega)]
    omega
  have hAddress : pageAddress 260 = 0x104000 := u64_of_lt (by omega)
  have hHint : (boot m holedMap).pageBitmapIndex ≤ 260 := by
    rw [boot_pageBitmapIndex]
    omega
  rcases requestPages_of_fits hHint (fun q _ hq => (used_boot_holedMap m (by omega)).mpr hq)
      hFits with ⟨hTried, hRequest⟩
  rw [hAddress] at hRequest
  exact ⟨⟨hTried, scanFinds_self hFits⟩, _, hRequest⟩

theorem requestPages_past_bitmap : ∃ s', PageStep (PageClients.start (fun _ => 0) holedMap)
    (.requestPages 32509 0x104000) s' ∧ ¬ HandedOut (boot (fun _ => 0) holedMap) s'.allocator
    (PageEvent.requestPages 32509 0x104000).granted := by
  rcases requestPages_holedMap (fun _ => 0) (Nat.le_refl 32509) with ⟨_, s', hRequest⟩
  refine ⟨_, pageStep_requestPages hRequest (by omega), ?_⟩
  intro hHanded
  have hBits := boot_holedMap_bits (fun _ => 0)
  have hLast := (hHanded.1 _ rfl 32768 ⟨by decide, by decide⟩).1
  omega

theorem outstanding_ranges_owned_holedMap : ∃ s', Run InsideStep
    (PageClients.start (fun _ => 0) holedMap) [.requestPages 2 0x104000] s' ∧
    s'.outstanding = [⟨0x104000, 2⟩] ∧ s'.outstanding.Pairwise PageRange.Apart := by
  have hTwo : 2 ≤ 32509 := by decide
  rcases requestPages_holedMap (fun _ => 0) hTwo with ⟨_, s', hRequest⟩
  have hInside : StaysInside (boot (fun _ => 0) holedMap) 2 := by
    refine Or.inr (Or.inr ⟨?_, ?_⟩)
    · rw [boot_pageBitmapIndex, boot_holedMap_bits]
      omega
    intro q hLow hHigh
    rw [boot_holedMap_bits] at hLow hHigh
    rw [← Bool.not_eq_true, used_boot_holedMap _ (by omega)]
    omega
  have hStep : InsideStep (PageClients.start (fun _ => 0) holedMap) (.requestPages 2 0x104000)
      ⟨s', [⟨0x104000, 2⟩]⟩ := by
    refine ⟨pageStep_requestPages hRequest (by omega), ?_⟩
    intro pageCount address hEvent
    rw [← (PageEvent.requestPages.inj hEvent).1, PageClients.start_allocator]
    exact hInside
  have hRun := Run.snoc Run.nil hStep
  exact ⟨_, hRun, rfl, (outstanding_ranges_owned _ _ hRun).1⟩

end Fennix
