import Fennix.PMM.PageBits
import Mathlib.Logic.Relation

/-
  What the two page searches find.

  The inner loop of `RequestPages` is a deterministic walk over page indices.
-/

namespace Fennix

namespace PageFrameAllocator

variable {index start i j fuel : Nat} {answer : Option Nat}

open Relation

variable {s : PageFrameAllocator} {pageCount : Nat}

def ScanStep (s : PageFrameAllocator) (pageCount i j : Nat) : Prop :=
  i < s.bits ∧ (s.used i = true ∧ j = u64 (i + 1) ∨ s.used i = false ∧
        s.blocked pageCount i = true ∧ j = u64 (u64 (i + pageCount) + 1))

def Fits (s : PageFrameAllocator) (pageCount index : Nat) : Prop :=
  index < s.bits ∧ s.used index = false ∧ s.blocked pageCount index = false

def ScanFinds (s : PageFrameAllocator) (pageCount start index : Nat) : Prop :=
  ReflTransGen (ScanStep s pageCount) start index ∧ Fits s pageCount index

def ScanFails (s : PageFrameAllocator) (pageCount start : Nat) : Prop :=
  ∃ index, ReflTransGen (ScanStep s pageCount) start index ∧ s.bits ≤ index

theorem scanStep_unique : Relator.RightUnique (ScanStep s pageCount) := by
  rintro i j k ⟨_, hj⟩ ⟨_, hk⟩
  rcases hj with ⟨hUsed, rfl⟩ | ⟨hFree, _, rfl⟩
  · rcases hk with ⟨_, rfl⟩ | ⟨hFree, _, _⟩
    · rfl
    · rw [hUsed] at hFree
      cases hFree
  rcases hk with ⟨hUsed, _⟩ | ⟨_, _, rfl⟩
  · rw [hUsed] at hFree
    cases hFree
  · rfl

variable {next : Nat}

theorem not_scanStep_of_fits (hFits : Fits s pageCount index) :
    ¬ ScanStep s pageCount index next := by
  rcases hFits with ⟨_, hFree, hClear⟩
  rintro ⟨_, ⟨hUsed, _⟩ | ⟨_, hBlocked, _⟩⟩
  · rw [hFree] at hUsed
    cases hUsed
  · rw [hClear] at hBlocked
    cases hBlocked

theorem not_scanStep_of_bits_le (h : s.bits ≤ index) : ¬ ScanStep s pageCount index next := by
  rintro ⟨hLt, _⟩
  omega

theorem scan_end_unique (hi : ReflTransGen (ScanStep s pageCount) start i)
    (hj : ReflTransGen (ScanStep s pageCount) start j) (hiEnd : ∀ k, ¬ ScanStep s pageCount i k)
    (hjEnd : ∀ k, ¬ ScanStep s pageCount j k) : i = j := by
  rcases ReflTransGen.total_of_right_unique scanStep_unique hi hj with hFrom | hFrom
  · rcases hFrom.cases_head with hEq | ⟨k, hStep, _⟩
    · exact hEq
    · exact (hiEnd k hStep).elim
  rcases hFrom.cases_head with hEq | ⟨k, hStep, _⟩
  · exact hEq.symm
  · exact (hjEnd k hStep).elim

theorem scanFinds_unique (hi : ScanFinds s pageCount start i) (hj : ScanFinds s pageCount start j) :
    i = j :=
  scan_end_unique hi.1 hj.1 (fun _ => not_scanStep_of_fits hi.2)
    (fun _ => not_scanStep_of_fits hj.2)

theorem not_scanFails_of_scanFinds (hFinds : ScanFinds s pageCount start index) :
    ¬ ScanFails s pageCount start := by
  rintro ⟨past, hPast, hOut⟩
  have hEq : index = past := scan_end_unique hFinds.1 hPast (fun _ => not_scanStep_of_fits hFinds.2)
      (fun _ => not_scanStep_of_bits_le hOut)
  have hIn := hFinds.2.1
  omega

theorem scanFinds_self (hFits : Fits s pageCount index) : ScanFinds s pageCount index index :=
  ⟨ReflTransGen.refl, hFits⟩

theorem scanFrom_cases (h : scanFrom s pageCount fuel start = some answer) :
    (∃ index, answer = some index ∧ ScanFinds s pageCount start index) ∨
    answer = none ∧ ScanFails s pageCount start := by
  induction fuel generalizing start with
  | zero => cases h
  | succ fuel ih =>
    have hOn : ∀ next, ScanStep s pageCount start next →
      scanFrom s pageCount fuel next = some answer →
      (∃ index, answer = some index ∧ ScanFinds s pageCount start index) ∨
      answer = none ∧ ScanFails s pageCount start := by
      intro next hStep hRest
      rcases ih hRest with ⟨index, hAnswer, hScan, hFits⟩ | ⟨hAnswer, index, hScan, hOut⟩
      · exact .inl ⟨index, hAnswer, hScan.head hStep, hFits⟩
      · exact .inr ⟨hAnswer, index, hScan.head hStep, hOut⟩
    -- one case for each way an iteration goes on or ends
    unfold scanFrom at h
    by_cases hIn : start < s.bits
    · rw [if_pos hIn] at h
      cases hUsed : s.used start with
      | true =>
        rw [hUsed, if_pos rfl] at h
        exact hOn _ ⟨hIn, Or.inl ⟨hUsed, rfl⟩⟩ h
      | false =>
        rw [hUsed, if_neg (by simp)] at h
        cases hBlocked : s.blocked pageCount start with
        | true =>
          rw [hBlocked, if_pos rfl] at h
          exact hOn _ ⟨hIn, Or.inr ⟨hUsed, hBlocked, rfl⟩⟩ h
        | false =>
          rw [hBlocked, if_neg (by simp)] at h
          refine Or.inl ⟨start, (Option.some.inj h).symm, ?_⟩
          exact scanFinds_self ⟨hIn, hUsed, hBlocked⟩
    rw [if_neg hIn] at h
    refine Or.inr ⟨(Option.some.inj h).symm, start, ?_⟩
    exact ⟨ReflTransGen.refl, by omega⟩

def GivenUp (s : PageFrameAllocator) (pageCount low high : Nat) : Prop :=
  ∀ q, low ≤ q → q < high → s.used q = true ∨ ScanFails s pageCount q

def Tried (s : PageFrameAllocator) (pageCount start : Nat) : Prop :=
  s.pageBitmapIndex ≤ start ∧ start < s.bits ∧ s.used start = false ∧
      GivenUp s pageCount s.pageBitmapIndex start

/- A free page whose scan finds a range is not given up. -/
theorem GivenUp.le {low high : Nat} (hGivenUp : GivenUp s pageCount low high) (hLow : low ≤ start)
    (hFree : s.used start = false) (hFinds : ScanFinds s pageCount start index) :
    high ≤ start := by
  by_contra hHigh
  rcases hGivenUp start hLow (by omega) with hUsed | hFails
  · rw [hFree] at hUsed
    cases hUsed
  · exact not_scanFails_of_scanFinds hFinds hFails

theorem tried_unique {other : Nat} (hStart : Tried s pageCount start)
    (hFinds : ScanFinds s pageCount start index) (hOther : Tried s pageCount other) {found : Nat}
    (hFound : ScanFinds s pageCount other found) : start = other := by
  have hLe : start ≤ other := hStart.2.2.2.le hOther.1 hOther.2.2.1 hFound
  have hGe : other ≤ start := hOther.2.2.2.le hStart.1 hStart.2.2.1 hFinds
  exact Nat.le_antisymm hLe hGe

variable {left hint : Nat}

private theorem searchFrom_cases {last : Nat}
    (h : searchFrom s pageCount fuel left hint = some (answer, last)) :
    (∃ index, answer = some index ∧ hint ≤ last ∧ last < hint + left ∧ s.used last = false ∧
    ScanFinds s pageCount last index ∧ GivenUp s pageCount hint last) ∨
    answer = none ∧ last = hint + left ∧ GivenUp s pageCount hint (hint + left) := by
  induction left generalizing hint with
  | zero =>
    cases h
    refine Or.inr ⟨rfl, rfl, ?_⟩
    intro q hLow hHigh
    omega
  | succ left ih =>
    unfold searchFrom at h
    -- whether `hint` is used or its scan failed, it is given up
    have hNext : searchFrom s pageCount fuel left (hint + 1) = some (answer, last) →
      (s.used hint = true ∨ ScanFails s pageCount hint) →
      (∃ index, answer = some index ∧ hint ≤ last ∧ last < hint + (left + 1) ∧
      s.used last = false ∧ ScanFinds s pageCount last index ∧
      GivenUp s pageCount hint last) ∨
      answer = none ∧ last = hint + (left + 1) ∧ GivenUp s pageCount hint
      (hint + (left + 1)) := by
      intro hRest hHint
      have hExtend : ∀ high, GivenUp s pageCount (hint + 1) high →
        GivenUp s pageCount hint high := by
        intro high hGiven q hLow hHigh
        by_cases hEq : q = hint
        · exact hEq ▸ hHint
        · exact hGiven q (by omega) hHigh
      rcases ih hRest with ⟨index, hAnswer, hLe, hLt, hFree, hFinds, hGiven⟩ |
        ⟨hAnswer, hLast, hGiven⟩
      · exact .inl ⟨index, hAnswer, by omega, by omega, hFree, hFinds, hExtend _ hGiven⟩
      refine Or.inr ⟨hAnswer, by omega, hExtend _ ?_⟩
      rw [show hint + (left + 1) = hint + 1 + left by
        omega]
      exact hGiven
    cases hUsed : s.used hint with
    | true =>
      rw [hUsed, if_pos rfl] at h
      exact hNext h (.inl hUsed)
    | false =>
      rw [hUsed, if_neg (by simp)] at h
      cases hScan : scanFrom s pageCount fuel hint with
      | none =>
        rw [hScan] at h
        cases h
      | some found =>
        rw [hScan] at h
        rcases scanFrom_cases hScan with ⟨index, rfl, hFinds⟩ | ⟨rfl, hFails⟩
        · cases h
          refine Or.inl ⟨index, rfl, Nat.le_refl _, by omega, hUsed, hFinds, ?_⟩
          intro q hLow hHigh
          omega
        · exact hNext h (.inr hFails)
variable {s' : PageFrameAllocator}

theorem requestPages_cases {address : Nat} (h : requestPages fuel s pageCount = some (address, s'))
    : (∃ start index, Tried s pageCount start ∧ ScanFinds s pageCount start index ∧
    address = pageAddress index ∧ s' = lockPages { s with pageBitmapIndex := start }
    (pageAddress index) pageCount) ∨
    GivenUp s pageCount s.pageBitmapIndex s.bits ∧ address = 0 ∧ s' = { s with
      pageBitmapIndex :=
              max s.pageBitmapIndex s.bits } := by
  unfold requestPages at h
  cases hSearch : searchFrom s pageCount fuel (s.bits - s.pageBitmapIndex) s.pageBitmapIndex with
  | none =>
    rw [hSearch] at h
    cases h
  | some found =>
    rcases found with ⟨answer, last⟩
    rw [hSearch] at h
    rcases searchFrom_cases hSearch with ⟨index, rfl, hLe, hLt, hFree, hFinds, hGiven⟩ |
      ⟨rfl, hLast, hGiven⟩
    · cases h
      exact .inl ⟨last, index, ⟨hLe, by omega, hFree, hGiven⟩, hFinds, rfl, rfl⟩
    cases h
    refine Or.inr ⟨?_, rfl, ?_⟩
    · intro q hLow hHigh
      exact hGiven q hLow (by omega)
    have hHint : last = max s.pageBitmapIndex s.bits := by
      omega
    rw [hHint]

theorem requestPage_cases (h : requestPage s = (answer, s')) :
    (∃ index, s.pageBitmapIndex ≤ index ∧ index < s.bits ∧ s.used index = false ∧
    (∀ q, s.pageBitmapIndex ≤ q → q < index → s.used q = true) ∧
    answer = some (pageAddress index) ∧ s' = lockPage { s with pageBitmapIndex := index }
    (pageAddress index)) ∨
    (∀ q, s.pageBitmapIndex ≤ q → q < s.bits → s.used q = true) ∧ answer = none ∧ s' = { s with
      pageBitmapIndex :=
              max s.pageBitmapIndex s.bits } := by
  unfold requestPage at h
  cases hFirst : s.firstFree with
  | some index =>
    rw [hFirst] at h
    cases h
    rcases List.find?_range'_eq_some.mp hFirst with ⟨hFree, hMem, hBefore⟩
    rw [List.mem_range'_1] at hMem
    refine Or.inl ⟨index, hMem.1, by omega, by simpa using hFree, ?_, rfl, rfl⟩
    intro q hLow hHigh
    simpa using hBefore q hLow hHigh
  | none =>
    rw [hFirst] at h
    cases h
    refine Or.inr ⟨?_, rfl, rfl⟩
    intro q hLow hHigh
    simpa using List.find?_range'_eq_none.mp hFirst q hLow (by omega)

private theorem searchFrom_skip (k : Nat)
    (hSkip : ∀ q, hint ≤ q → q < hint + k →
    s.used q = true ∨ scanFrom s pageCount fuel q = some none) :
    searchFrom s pageCount fuel (k + left) hint =
    searchFrom s pageCount fuel left (hint + k) := by
  induction k generalizing hint with
  | zero => simp
  | succ k ih =>
    have hRest : searchFrom s pageCount fuel (k + left) (hint + 1) =
      searchFrom s pageCount fuel left (hint + 1 + k) := by
      apply ih
      intro q hLow hHigh
      exact hSkip q (by omega) (by omega)
    rw [show k + 1 + left = (k + left) + 1 by omega, searchFrom, hRest,
      show hint + 1 + k = hint + (k + 1) by omega]
    rcases hSkip hint (by omega) (by omega) with hUsed | hFails
    · rw [hUsed, if_pos rfl]
    · rw [hFails]
      split <;> rfl

theorem requestPages_of_fails (hFails : ∀ q, s.pageBitmapIndex ≤ q → q < s.bits →
    s.used q = true ∨ scanFrom s pageCount fuel q = some none) :
    requestPages fuel s pageCount = some (0, { s with
    pageBitmapIndex :=
          max s.pageBitmapIndex s.bits }) := by
  have hSearch : searchFrom s pageCount fuel (s.bits - s.pageBitmapIndex) s.pageBitmapIndex =
    some (none, max s.pageBitmapIndex s.bits) := by
    have hHint : s.pageBitmapIndex + (s.bits - s.pageBitmapIndex) =
      max s.pageBitmapIndex s.bits := by
      omega
    rw [← Nat.add_zero (s.bits - s.pageBitmapIndex), searchFrom_skip, hHint, searchFrom]
    intro q hLow hHigh
    exact hFails q hLow (by omega)
  rw [requestPages, hSearch]

theorem requestPages_of_scan (hLow : s.pageBitmapIndex ≤ start) (hIn : start < s.bits)
    (hFree : s.used start = false) (hSkip : ∀ q, s.pageBitmapIndex ≤ q → q < start →
    s.used q = true ∨ scanFrom s pageCount fuel q = some none)
    (hScan : scanFrom s pageCount fuel start = some (some index)) :
    requestPages fuel s pageCount = some (pageAddress index,
    lockPages { s with pageBitmapIndex := start } (pageAddress index) pageCount) := by
  have hSearch : searchFrom s pageCount fuel (s.bits - s.pageBitmapIndex) s.pageBitmapIndex =
    some (some index, start) := by
    have hLeft : s.bits - s.pageBitmapIndex = (start - s.pageBitmapIndex) +
      ((s.bits - start - 1) + 1) := by
      omega
    have hHint : s.pageBitmapIndex + (start - s.pageBitmapIndex) = start := by
      omega
    rw [hLeft, searchFrom_skip]
    · rw [hHint, searchFrom, hFree, if_neg (by simp), hScan]
    · intro q hq hHigh
      exact hSkip q hq (by omega)
  rw [requestPages, hSearch]

theorem requestPages_of_fits (hLow : s.pageBitmapIndex ≤ start)
    (hUsed : ∀ q, s.pageBitmapIndex ≤ q → q < start → s.used q = true)
    (hFits : Fits s pageCount start) :
    Tried s pageCount start ∧ requestPages 1 s pageCount = some (pageAddress start,
    lockPages { s with pageBitmapIndex := start } (pageAddress start) pageCount) := by
  have hScan : scanFrom s pageCount 1 start = some (some start) := by
    simp [scanFrom, hFits.1, hFits.2.1, hFits.2.2]
  constructor
  · exact ⟨hLow, hFits.1, hFits.2.1, fun q hq hHigh => Or.inl (hUsed q hq hHigh)⟩
  · exact requestPages_of_scan hLow hFits.1 hFits.2.1
      (fun q hq hHigh => Or.inl (hUsed q hq hHigh)) hScan

theorem scanFrom_returns (hBits : s.bits ≤ 2 ^ 52) (hCount : pageCount ≤ 2 ^ 52)
    (hFuel : s.bits ≤ start + fuel) : ∃ answer, scanFrom s pageCount (fuel + 1) start =
    some answer := by
  induction fuel generalizing start with
  | zero => exact ⟨none, by rw [scanFrom, if_neg (by omega)]⟩
  | succ fuel ih =>
    rw [scanFrom]
    split
    · rename_i hIn
      split
      · rw [u64_of_lt (by omega)]
        exact ih (by omega)
      split
      · rw [u64_of_lt (n := start + pageCount) (by omega), u64_of_lt (by omega)]
        exact ih (by omega)
      · exact ⟨_, rfl⟩
    · exact ⟨_, rfl⟩

/-
  The search for `pageCount` pages from page `first` on gives up every page before `start`, and the
  scan that begins at `start` takes the pages from `index` on.
-/
def Found (s : PageFrameAllocator) (first pageCount start index : Nat) : Prop :=
  (first ≤ start ∧ start < s.bits ∧ s.used start = false ∧ GivenUp s pageCount first start) ∧
    ScanFinds s pageCount start index

/- The search that starts where it stopped stops there again. -/
theorem Found.again {first : Nat} (h : Found s first pageCount start index) :
    Found s start pageCount start index :=
  ⟨⟨Nat.le_refl _, h.1.2.1, h.1.2.2.1, fun q hLow hHigh => absurd hLow (by omega)⟩, h.2⟩

theorem requestPages_of_found (hBits : s.bits ≤ 2 ^ 52) (hCount : pageCount ≤ 2 ^ 52)
    (h : Found s s.pageBitmapIndex pageCount start index) :
    requestPages (s.bits + 1) s pageCount = some (pageAddress index,
    lockPages { s with pageBitmapIndex := start } (pageAddress index) pageCount) := by
  rcases h with ⟨⟨hLow, hIn, hFree, hGivenUp⟩, hFinds⟩
  have hReturns : ∀ q, ∃ answer, scanFrom s pageCount (s.bits + 1) q = some answer :=
    fun q => scanFrom_returns hBits hCount (by omega)
  refine requestPages_of_scan hLow hIn hFree ?_ ?_
  · intro q hq hHigh
    rcases hGivenUp q hq hHigh with hUsed | hFails
    · exact .inl hUsed
    rcases hReturns q with ⟨answer, hScan⟩
    rcases scanFrom_cases hScan with ⟨found, _, hFound⟩ | ⟨rfl, _⟩
    · exact (not_scanFails_of_scanFinds hFound hFails).elim
    · exact .inr hScan
  · rcases hReturns start with ⟨answer, hScan⟩
    rcases scanFrom_cases hScan with ⟨found, rfl, hFound⟩ | ⟨_, hFails⟩
    · rw [hScan, scanFinds_unique hFound hFinds]
    · exact (not_scanFails_of_scanFinds hFinds hFails).elim

theorem pageAddress_lt (index : Nat) : pageAddress index < 2 ^ 64 := by
  unfold pageAddress u64
  exact Nat.mod_lt _ (by omega)

theorem pageAddress_div (h : index < 2 ^ 52) : pageAddress index / 4096 = index := by
  have hWord : pageAddress index = index * 4096 := u64_of_lt (by omega)
  omega

theorem blocked_eq_false_iff : s.blocked pageCount index = false ↔
    ∀ i < pageCount, s.used (u64 (index + i)) = false := by
  simp [blocked]

theorem Fits.free_of_inside (hFits : Fits s pageCount index) (hBits : s.bits ≤ 2 ^ 52)
    (hInside : index + pageCount ≤ s.bits) {q : Nat} (hLow : index ≤ q)
    (hHigh : q < index + pageCount) : s.used q = false := by
  have hClear := blocked_eq_false_iff.mp hFits.2.2 (q - index) (by omega)
  have hWord : u64 (index + (q - index)) = q := by
    rw [show index + (q - index) = q by omega]
    exact u64_of_lt (by omega)
  rwa [hWord] at hClear

end PageFrameAllocator

end Fennix
