import Fennix.PMM.Ownership

/-
  Completeness of the search hint.
-/

namespace Fennix

variable (m : Memory) {fuel address : Nat}

open PageFrameAllocator

inductive AllocatorCall where
| client (e : PageEvent)
| lockPage (address : Nat)
| lockPages (address pageCount : Nat)
deriving DecidableEq, Repr

def AllocatorCall.Does (s : PageFrameAllocator) : AllocatorCall → PageFrameAllocator → Prop
| .client e, s' => e.Does s s'
| .lockPage address, s' =>
  s' = PageFrameAllocator.lockPage s address
| .lockPages address pageCount, s' =>
  s' = PageFrameAllocator.lockPages s address pageCount

def FreeRunAt (s : PageFrameAllocator) (pageCount index : Nat) : Prop :=
  index + pageCount ≤ s.bits ∧ ∀ q, index ≤ q → q < index + pageCount → s.used q = false

def FirstFree (s : PageFrameAllocator) (index : Nat) : Prop :=
  s.pageBitmapIndex ≤ index ∧ index < s.bits ∧ s.used index = false ∧
      ∀ q, s.pageBitmapIndex ≤ q → q < index → s.used q = true

/-
  `RequestPages` leaves no free page behind the hint and does not answer with page 0: the scan from
  the first free page finds a window, or there is no free page to pass, and the window is not at the
  bottom of the bitmap.
-/
def HintKept (s : PageFrameAllocator) (pageCount : Nat) : Prop :=
  ((∃ start index, FirstFree s start ∧ ScanFinds s pageCount start index) ∨ 0 < pageCount ∧
        ∀ q, s.pageBitmapIndex ≤ q → q < s.bits → s.used q = true) ∧
    ¬ FreeRunAt s (max pageCount 1) 0

def HintStep (s : PageFrameAllocator) (call : AllocatorCall) (s' : PageFrameAllocator) : Prop :=
  call.Does s s' ∧ ∀ pageCount address, call = .client (.requestPages pageCount address) →
        HintKept s pageCount

------ The Hint Invariant

structure Hinted (s : PageFrameAllocator) : Prop where
  bits_le : s.bits ≤ 2 ^ 52
  hint_le : s.pageBitmapIndex ≤ s.bits
  below : ∀ q < s.pageBitmapIndex, s.used q = true

variable {s s' : PageFrameAllocator}

theorem hinted_boot (params : GBPMemory) : Hinted (boot m params) where
  bits_le := boot_bits_le m params
  hint_le := by
    rw [boot_pageBitmapIndex]
    exact Nat.zero_le _
  below := by
    intro q hq
    rw [boot_pageBitmapIndex] at hq
    omega

section

variable (hHinted : Hinted s)

include hHinted

theorem Hinted.take (account : Account) (address : Nat) : Hinted (takePage account s address) := by
  rcases hHinted with ⟨hBits, hLe, hBelow⟩
  refine ⟨?_, ?_, ?_⟩
  · simpa [bits] using hBits
  · simpa [bits] using hLe
  · intro q hq
    rw [takePage_pageBitmapIndex] at hq
    rw [used_takePage]
    exact .inl (hBelow q hq)

theorem Hinted.takePages (account : Account) (address pageCount : Nat) :
    Hinted (forPages (takePage account) s address pageCount) :=
  forPages_invariant (P := Hinted) (fun _ a h => h.take account a) hHinted address pageCount

theorem Hinted.free (address : Nat) : Hinted (freePage s address) := by
  rcases hHinted with ⟨hBits, hLe, hBelow⟩
  have hHint := freePage_pageBitmapIndex s address
  have hSame : (freePage s address).bits = s.bits := by
    simp [bits]
  refine ⟨?_, ?_, ?_⟩
  · rw [hSame]
    exact hBits
  · rw [hSame, hHint]
    split
    · omega
    · exact hLe
  · intro q hq
    rw [hHint] at hq
    rw [used_freePage]
    cases hUsed : s.used (address / 4096) with
    | true =>
      rw [hUsed, if_pos rfl] at hq
      exact ⟨hBelow q (by omega), by omega⟩
    | false =>
      rw [hUsed, if_neg (by simp)] at hq
      refine ⟨hBelow q hq, ?_⟩
      rintro rfl
      rw [hBelow _ hq] at hUsed
      cases hUsed

private theorem Hinted.raise {hint : Nat} (hLe : hint ≤ s.bits)
    (hUsed : ∀ q, s.pageBitmapIndex ≤ q → q < hint → s.used q = true) :
    Hinted { s with pageBitmapIndex := hint } where
  bits_le := hHinted.bits_le
  hint_le := hLe
  below := by
    intro q hq
    by_cases hLow : q < s.pageBitmapIndex
    · exact hHinted.below q hLow
    · exact hUsed q (by omega) hq

theorem Hinted.freePages (address pageCount : Nat) :
    Hinted (freePages s address pageCount) :=
  forPages_invariant (P := Hinted) (fun _ a h => h.free a) hHinted address pageCount

theorem Hinted.requestPage {answer : Option Nat}
    (h : requestPage s = (answer, s')) : Hinted s' := by
  rcases requestPage_cases h with ⟨index, _, hLt, _, hSkipped, _, rfl⟩ | ⟨hFull, _, rfl⟩
  · apply Hinted.take
    exact hHinted.raise (Nat.le_of_lt hLt) hSkipped
  · rw [Nat.max_eq_right hHinted.hint_le]
    exact hHinted.raise (Nat.le_refl _) hFull

end

------ Multi-Page Requests

variable {pageCount : Nat}

theorem FirstFree.tried {start : Nat} (hFirst : FirstFree s start) : Tried s pageCount start :=
  ⟨hFirst.1, hFirst.2.1, hFirst.2.2.1, fun q hLow hHigh => Or.inl (hFirst.2.2.2 q hLow hHigh)⟩

section

variable (hHinted : Hinted s) (hKept : HintKept s pageCount)
variable (h : requestPages fuel s pageCount = some (address, s'))

include hHinted hKept h

theorem requestPages_kept :
    (∃ start index, FirstFree s start ∧ Fits s pageCount index ∧ address = pageAddress index ∧
    s' = lockPages { s with pageBitmapIndex := start } (pageAddress index) pageCount) ∨
    0 < pageCount ∧ (∀ q < s.bits, s.used q = true) ∧
    s' = { s with pageBitmapIndex := s.bits } := by
  rcases hKept.1 with ⟨first, found, hFirst, hFound⟩ | ⟨hPos, hFull⟩
  · refine Or.inl ?_
    rcases requestPages_cases h with ⟨start, index, hTried, hFinds, hAddress, hState⟩ |
      ⟨hGiven, _, _⟩
    · have hSame : start = first := tried_unique hTried hFinds hFirst.tried hFound
      subst hSame
      exact ⟨start, index, hFirst, hFinds.2, hAddress, hState⟩
    have hPast : s.bits ≤ first := hGiven.le hFirst.1 hFirst.2.2.1 hFound
    exact absurd hFirst.2.1 (Nat.not_lt.mpr hPast)
  refine Or.inr ⟨hPos, ?_, ?_⟩
  · intro q hq
    by_cases hLow : q < s.pageBitmapIndex
    · exact hHinted.below q hLow
    · exact hFull q (by omega) hq
  rcases requestPages_cases h with ⟨start, index, hTried, _, _, _⟩ | ⟨_, _, hState⟩
  · have hFree := hTried.2.2.1
    rw [hFull start hTried.1 hTried.2.1] at hFree
    cases hFree
  · rw [hState, Nat.max_eq_right hHinted.hint_le]

private theorem Hinted.requestPages : Hinted s' := by
  rcases requestPages_kept hHinted hKept h with ⟨start, index, hFirst, _, _, rfl⟩ | ⟨_, hFull, rfl⟩
  · apply Hinted.takePages
    exact hHinted.raise (Nat.le_of_lt hFirst.2.1) hFirst.2.2.2
  · exact hHinted.raise (Nat.le_refl _) (fun q _ hq => hFull q hq)

end

theorem not_freeRunAt_of_null {index : Nat} (hHinted : Hinted s) (hKept : HintKept s pageCount)
    (h : requestPages fuel s pageCount = some (0, s')) :
    ¬ FreeRunAt s pageCount index := by
  rintro ⟨hInside, hFree⟩
  rcases requestPages_kept hHinted hKept h with ⟨_, found, _, hFits, hAddress, _⟩ | ⟨hPos, hFull, _⟩
  · -- the null address is the address of page 0
    have hBits := hHinted.bits_le
    have hLt := hFits.1
    have hFound : found = 0 := by
      have hDiv : pageAddress found / 4096 = found := pageAddress_div (by omega)
      omega
    subst hFound
    apply hKept.2
    refine ⟨by omega, ?_⟩
    intro q _ hHigh
    by_cases hZero : q = 0
    · subst hZero
      exact hFits.2.1
    · exact hFits.free_of_inside hBits (by omega) (Nat.zero_le q) (by omega)
  have hUsed := hFull index (by omega)
  rw [hFree index (Nat.le_refl _) (by omega)] at hUsed
  cases hUsed

theorem Hinted.step {call : AllocatorCall} (hHinted : Hinted s) (hStep : HintStep s call s') :
    Hinted s' := by
  rcases hStep with ⟨hDoes, hKept⟩
  cases call with
  | lockPage address =>
    cases hDoes
    exact hHinted.take .used address
  | lockPages address pageCount =>
    cases hDoes
    exact hHinted.takePages .used address pageCount
  | client e =>
    cases e with
    | requestPage answer => exact hHinted.requestPage hDoes
    | requestPages pageCount address =>
      rcases hDoes with ⟨fuel, hDoes⟩
      exact hHinted.requestPages (hKept pageCount address rfl) hDoes
    | freePage address =>
      cases hDoes
      exact hHinted.free address
    | freePages address pageCount =>
      cases hDoes
      exact hHinted.freePages address pageCount

theorem search_hint_complete (m : Memory) (params : GBPMemory) {calls : List AllocatorCall}
    {s : PageFrameAllocator} (hRun : Run HintStep (boot m params) calls s) :
    (∀ q < s.pageBitmapIndex, s.used q = true) ∧
    (∀ s', requestPage s = (none, s') → ∀ q < s.bits, s.used q = true) ∧
    ∀ pageCount fuel s', HintKept s pageCount → requestPages fuel s pageCount =
    some (0, s') → ∀ index, ¬ FreeRunAt s pageCount index := by
  have hHinted : Hinted s := Run.invariant (hinted_boot m params)
      (fun _ _ _ hHinted hStep => hHinted.step hStep) hRun
  refine ⟨hHinted.below, ?_, ?_⟩
  · intro s' hRequest q hq
    rcases requestPage_cases hRequest with ⟨_, _, _, _, _, hSome, _⟩ | ⟨hFull, _, _⟩
    · cases hSome
    by_cases hLow : q < s.pageBitmapIndex
    · exact hHinted.below q hLow
    · exact hFull q (by omega) hq
  · intro pageCount fuel s' hKept hRequest index
    exact not_freeRunAt_of_null hHinted hKept hRequest

------ Stranded Pages

def plainMap : GBPMemory where
  size := 0x8000000
  entry :=
    [⟨0, 257, 0x101000, .reserved⟩, ⟨0x101000, 32511, 0x7eff000, .free⟩]

private theorem bootBitmap_plainMap : bootBitmap plainMap = ⟨4096, 0x101000⟩ := by
  decide

private theorem boot_plainMap_bits : (boot m plainMap).bits = 32768 := by
  rw [boot_bits]
  decide

private theorem inFreeEntry_plainMap (q : Nat) : InFreeEntry plainMap q ↔ 257 ≤ q ∧ q < 32768 := by
  simp only [InFreeEntry, plainMap, List.mem_cons, List.not_mem_nil, or_false, exists_eq_or_imp,
    exists_eq_left, reduceCtorEq, false_and, false_or, true_and]
  exact touches_iff q (by decide)

private theorem free_boot_plainMap {q : Nat} (hLow : 259 ≤ q) (hHigh : q < 32768) :
    (boot m plainMap).used q = false := by
  apply free_boot
  · rw [bootBitmap_plainMap]
    exact Nat.le_of_lt hHigh
  · rw [inFreeEntry_plainMap]
    omega
  · rw [touches_iff q (by omega)]
    omega
  · rw [bootBitmap_plainMap]
    intro hIn
    have hRange : 257 ≤ q ∧ q < 259 := (touches_iff q (by decide)).mp hIn
    omega

private theorem used_boot_plainMap_end : (boot m plainMap).used 32768 = true := by
  apply reserved_boot
  · rw [bootBitmap_plainMap]
    exact Nat.le_refl _
  · have hSize : plainMap.size.toNat = 0x8000000 := rfl
    rw [hSize, touches_iff 32768 (by omega)]
    omega
  · rw [inFreeEntry_plainMap]
    omega

private theorem requestPages_plainMap : requestPages 2 (boot m plainMap) 40000 =
    some (0, { boot m plainMap with pageBitmapIndex := 32768 }) := by
  have hBits := boot_plainMap_bits m
  rw [requestPages_of_fails, boot_pageBitmapIndex, hBits]
  · rfl
  intro q _ hq
  cases hUsed : (boot m plainMap).used q with
  | true => exact .inl rfl
  | false =>
    refine Or.inr ?_
    have hBlocked : (boot m plainMap).blocked 40000 q = true := by
      rw [← Bool.not_eq_false, blocked_eq_false_iff]
      intro hClear
      have hEnd := hClear (32768 - q) (by omega)
      rw [show q + (32768 - q) = 32768 by omega, u64_of_lt (by omega),
        used_boot_plainMap_end] at hEnd
      cases hEnd
    have hStride : u64 (q + 40000) = q + 40000 := u64_of_lt (by omega)
    have hNext : u64 (u64 (q + 40000) + 1) = q + 40001 := by
      rw [hStride]
      exact u64_of_lt (by omega)
    have hOut : ¬ q + 40001 < 32768 := by
      omega
    rw [hBits] at hq
    simp only [scanFrom, hBits, hq, hUsed, hBlocked, hNext, hOut, if_true, if_false,
      Bool.false_eq_true]

private theorem bits_setHint (s : PageFrameAllocator) (hint : Nat) :
    bits { s with pageBitmapIndex := hint } = s.bits :=
  rfl

private theorem used_setHint (s : PageFrameAllocator) (hint q : Nat) :
    used { s with pageBitmapIndex := hint } q = s.used q :=
  rfl

private theorem does_requestPages
    (h : requestPages fuel s pageCount = some (address, s')) :
    AllocatorCall.Does s (.client (.requestPages pageCount address)) s' :=
  ⟨fuel, h⟩

private theorem requestPage_of_bits_le (h : s.bits ≤ s.pageBitmapIndex) :
    (requestPage s).1 = none := by
  have hFirst : s.firstFree = none := by
    apply List.find?_range'_eq_none.mpr
    intro q hLow hHigh
    omega
  rw [requestPage, hFirst]

theorem requestPages_strands_free_pages : ∃ s, AllocatorCall.Does (boot (fun _ => 0) plainMap)
    (.client (.requestPages 40000 0)) s ∧
    (∀ q, 259 ≤ q → q < 32768 → q < s.pageBitmapIndex ∧ q < s.bits ∧ s.used q = false) ∧
    (requestPage s).1 = none := by
  have hBits := boot_plainMap_bits (fun _ => 0)
  refine ⟨_, does_requestPages (requestPages_plainMap _), ?_, requestPage_of_bits_le ?_⟩
  · intro q hLow hHigh
    rw [bits_setHint, used_setHint, hBits]
    exact ⟨hHigh, hHigh, free_boot_plainMap _ hLow hHigh⟩
  · apply Nat.le_of_eq
    rw [bits_setHint, hBits]

theorem search_hint_complete_holedMap : ∃ s, Run HintStep (boot (fun _ => 0) holedMap)
    [.client (.requestPages 2 0x104000)] s ∧ ∀ q < s.pageBitmapIndex, s.used q = true := by
  have hTwo : 2 ≤ 32509 := by decide
  rcases requestPages_holedMap (fun _ => 0) hTwo with ⟨⟨hTried, hFinds⟩, s, hRequest⟩
  have hUsed : ∀ q < 260, (boot (fun _ => 0) holedMap).used q = true := by
    intro q hq
    exact (used_boot_holedMap _ (by omega)).mpr hq
  have hKept : HintKept (boot (fun _ => 0) holedMap) 2 := by
    refine ⟨Or.inl ⟨260, 260, ?_, hFinds⟩, ?_⟩
    · exact ⟨hTried.1, hTried.2.1, hTried.2.2.1, fun q _ hq => hUsed q hq⟩
    intro hRun
    have hFree := hRun.2 0 (by omega) (by omega)
    rw [hUsed 0 (by omega)] at hFree
    cases hFree
  have hStep : HintStep (boot (fun _ => 0) holedMap) (.client (.requestPages 2 0x104000)) s := by
    refine ⟨does_requestPages hRequest, ?_⟩
    intro pageCount address hCall
    have hEvent := AllocatorCall.client.inj hCall
    rw [← (PageEvent.requestPages.inj hEvent).1]
    exact hKept
  have hRun := Run.snoc Run.nil hStep
  exact ⟨_, hRun, (search_hint_complete _ _ hRun).1⟩

------ First Fit for Single Pages

inductive SinglePageCall where
| requestPage
| freePage (address : Nat)
| freePages (address pageCount : Nat)
| lockPage (address : Nat)
| lockPages (address pageCount : Nat)
| reservePage (address : Nat)
| reservePages (address pageCount : Nat)
deriving DecidableEq, Repr

namespace SinglePageCall

def perform (s : PageFrameAllocator) : SinglePageCall → PageFrameAllocator
| .requestPage => (PageFrameAllocator.requestPage s).2
| .freePage address => PageFrameAllocator.freePage s address
| .freePages address pageCount =>
  PageFrameAllocator.freePages s address pageCount
| .lockPage address => PageFrameAllocator.lockPage s address
| .lockPages address pageCount =>
  PageFrameAllocator.lockPages s address pageCount
| .reservePage address =>
  PageFrameAllocator.reservePage s address
| .reservePages address pageCount =>
  PageFrameAllocator.reservePages s address pageCount

def performAll (s : PageFrameAllocator) (calls : List SinglePageCall) : PageFrameAllocator :=
  calls.foldl perform s

end SinglePageCall

def LowestFree (s : PageFrameAllocator) (index : Nat) : Prop :=
  index < s.bits ∧ s.used index = false ∧ ∀ q < index, s.used q = true

variable {s s' : PageFrameAllocator}

theorem Hinted.perform (hHinted : Hinted s) (call : SinglePageCall) : Hinted (call.perform s) := by
  cases call with
  | requestPage => exact hHinted.requestPage rfl
  | freePage address => exact hHinted.free address
  | freePages address pageCount =>
    exact hHinted.freePages address pageCount
  | lockPage address => exact hHinted.take .used address
  | lockPages address pageCount =>
    exact hHinted.takePages .used address pageCount
  | reservePage address =>
    exact hHinted.take .reserved address
  | reservePages address pageCount =>
    exact hHinted.takePages .reserved address pageCount

theorem Hinted.performAll (hHinted : Hinted s) (calls : List SinglePageCall) :
    Hinted (SinglePageCall.performAll s calls) := by
  induction calls generalizing s with
  | nil => exact hHinted
  | cons call calls ih => exact ih (hHinted.perform call)

theorem lowestFree_of_requestPage {address : Nat} (hHinted : Hinted s)
    (h : requestPage s = (some address, s')) :
    ∃ index, address = index * 4096 ∧ LowestFree s index := by
  rcases requestPage_cases h with ⟨index, _, hLt, hFree, hSkipped, hAnswer, _⟩ | ⟨_, hNone, _⟩
  · have hBits := hHinted.bits_le
    refine ⟨index, ?_, hLt, hFree, ?_⟩
    · rw [Option.some.inj hAnswer]
      exact u64_of_lt (by omega)
    intro q hq
    by_cases hLow : q < s.pageBitmapIndex
    · exact hHinted.below q hLow
    · exact hSkipped q (Nat.not_lt.mp hLow) hq
  · cases hNone

theorem requestPage_lowest_free (m : Memory) (params : GBPMemory) (calls : List SinglePageCall) :
    let s := SinglePageCall.performAll (boot m params) calls
    (∀ address s', requestPage s = (some address, s') →
      ∃ index, address = index * 4096 ∧ LowestFree s index) ∧
    ∀ q < s.pageBitmapIndex, s.used q = true := by
  intro s
  have hHinted : Hinted s := (hinted_boot m params).performAll calls
  exact ⟨fun _ _ h => lowestFree_of_requestPage hHinted h, hHinted.below⟩

end Fennix
