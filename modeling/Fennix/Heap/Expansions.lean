import Fennix.Heap.DefaultAlloc
import Fennix.Heap.Xalloc

/-
  How often `malloc` grows the heap before it returns.
-/

namespace Fennix

open SegmentHeap Option Run

namespace SegmentHeap

def mallocCalls (mode : LastUpdates) : (fuel : Nat) → SegmentHeap → Nat →
      Option (Nat × Nat × SegmentHeap)
| 0, _, _ => none
| fuel + 1, s, size =>
  if s.heapStart = 0 then some (0, 0, s)
  else
    let size := roundSize size
    if size = 0 then some (0, 0, s)
    else
      match s.search size (fuel + 1) s.heapStart with
      | none => none
      | some (some h) =>
        some (0, u64 (h + headerSize), s.take mode size h)
      | some none =>
        (mallocCalls mode fuel (s.expandHeap mode size) size).map (fun r => (r.1 + 1, r.2))

end SegmentHeap

variable {guarded : Nat → Prop} {mode : LastUpdates} {s s' : SegmentHeap} {segs : List Segment}
variable {size fuel : Nat}

theorem malloc_eq_mallocCalls (mode : LastUpdates) (fuel : Nat) (s : SegmentHeap) (size : Nat) :
    malloc mode fuel s size = (mallocCalls mode fuel s size).map Prod.snd := by
  induction fuel generalizing s size with
  | zero => rfl
  | succ fuel ih =>
    rw [malloc, mallocCalls]
    by_cases hStart : s.heapStart = 0
    · rw [if_pos hStart, if_pos hStart, map_some]
    rw [if_neg hStart, if_neg hStart]
    dsimp only
    by_cases hZero : roundSize size = 0
    · rw [if_pos hZero, if_pos hZero, map_some]
    rw [if_neg hZero, if_neg hZero]
    rcases s.search (roundSize size) (fuel + 1) s.heapStart with _ | _ | h
    · rfl
    · dsimp only
      rw [ih, map_map]
      rfl
    · rfl

variable {h : Nat}

theorem mallocCalls_found (hStart : s.heapStart ≠ 0) (hZero : roundSize size ≠ 0)
    (hSearch : s.search (roundSize size) (fuel + 1) s.heapStart = some (some h)) :
    mallocCalls mode (fuel + 1) s size =
    some (0, u64 (h + headerSize), s.take mode (roundSize size) h) := by
  rw [mallocCalls, if_neg hStart]
  dsimp only
  rw [if_neg hZero, hSearch]

theorem mallocCalls_retry (hStart : s.heapStart ≠ 0) (hZero : roundSize size ≠ 0)
    (hSearch : s.search (roundSize size) (fuel + 1) s.heapStart = some none) :
    mallocCalls mode (fuel + 1) s size = (mallocCalls mode fuel (s.expandHeap mode (roundSize size))
    (roundSize size)).map (fun r => (r.1 + 1, r.2)) := by
  rw [mallocCalls, if_neg hStart]
  dsimp only
  rw [if_neg hZero, hSearch]

theorem search_mono {answer : Option Nat} (hSearch : s.search size fuel h = some answer) :
    s.search size (fuel + 1) h = some answer := by
  induction fuel generalizing h with
  | zero => cases hSearch
  | succ fuel ih =>
    rw [search] at hSearch ⊢
    by_cases hFits : s.fits size h = true
    · rw [if_pos hFits] at hSearch ⊢
      exact hSearch
    rw [if_neg hFits] at hSearch ⊢
    by_cases hEnd : s.get h .next = 0
    · rw [if_pos hEnd] at hSearch ⊢
      exact hSearch
    rw [if_neg hEnd] at hSearch ⊢
    exact ih hSearch

variable {r : Nat × Nat × SegmentHeap}

private theorem mallocCalls_succ (h : mallocCalls mode fuel s size = some r) :
    mallocCalls mode (fuel + 1) s size = some r := by
  induction fuel generalizing s size r with
  | zero => cases h
  | succ fuel ih =>
    by_cases hStart : s.heapStart = 0
    · rw [mallocCalls, if_pos hStart] at h ⊢
      exact h
    by_cases hZero : roundSize size = 0
    · rw [mallocCalls, if_neg hStart] at h ⊢
      dsimp only at h ⊢
      rw [if_pos hZero] at h ⊢
      exact h
    rcases hSearch : s.search (roundSize size) (fuel + 1) s.heapStart with _ | _ | found
    · rw [mallocCalls, if_neg hStart] at h
      dsimp only at h
      rw [if_neg hZero, hSearch] at h
      cases h
    · rw [mallocCalls_retry hStart hZero hSearch] at h
      rw [mallocCalls_retry hStart hZero (search_mono hSearch)]
      rcases map_eq_some_iff.mp h with ⟨r', hRest, rfl⟩
      rw [ih hRest, map_some]
    · rw [mallocCalls_found hStart hZero hSearch] at h
      rw [mallocCalls_found hStart hZero (search_mono hSearch)]
      exact h

theorem mallocCalls_mono {fuel' : Nat} (h : mallocCalls mode fuel s size = some r)
    (hLe : fuel ≤ fuel') : mallocCalls mode fuel' s size = some r := by
  induction hLe with
  | refl => exact h
  | step _ ih => exact mallocCalls_succ ih

theorem mallocCalls_rounded (hRounded : roundSize (roundSize size) = roundSize size)
    (mode : LastUpdates) (fuel : Nat) (s : SegmentHeap) : mallocCalls mode fuel s (roundSize size) =
    mallocCalls mode fuel s size := by
  cases fuel with
  | zero => rfl
  | succ fuel => rw [mallocCalls, mallocCalls, hRounded]

private theorem search_returns (hSound : Sound guarded s segs) (size : Nat)
    (hFuel : segs.length ≤ fuel) :
    (∃ g ∈ segs, CanHold size g ∧ s.search size fuel s.heapStart = some (some g.address)) ∨
    (∀ g ∈ segs, ¬ CanHold size g) ∧ s.search size fuel s.heapStart = some none := by
  rcases search_start size fuel hSound with hSearch | ⟨_, hFew⟩
  · rw [hSearch]
    rcases firstFit_cases size segs with ⟨xs, c, ys, rfl, hHold, _, hAnswer⟩ | ⟨hNone, hAnswer⟩
    · exact .inl ⟨c, by simp, hHold, by rw [hAnswer]⟩
    · exact .inr ⟨hNone, by rw [hAnswer]⟩
  · omega

variable {calls address : Nat}

section Rounded

variable {n : Nat}

theorem mallocCalls_of_hold (mode : LastUpdates) (hSound : Sound guarded s segs)
    (hRounded : roundSize n = n) (hMin : 16 ≤ n) (hHold : ∃ g ∈ segs, CanHold n g) :
    ∃ fuel address s', mallocCalls mode fuel s n = some (0, address, s') ∧ address ≠ 0 := by
  have hStart := hSound.placed.2
  rcases search_returns hSound n (Nat.le_succ segs.length) with ⟨g, hg, _, hSearch⟩ | ⟨hNone, _⟩
  · have hBounds := hSound.bounds hg
    rw [← hRounded] at hSearch
    refine ⟨_, _, _, mallocCalls_found (by omega) (by omega) hSearch, ?_⟩
    rw [headerSize, u64_of_lt (by omega)]
    omega
  · rcases hHold with ⟨g, hg, hFits⟩
    exact (hNone g hg hFits).elim

theorem mallocCalls_of_none (hSound : Sound guarded s segs) (hRounded : roundSize n = n)
    (hMin : 16 ≤ n) (hNone : ∀ g ∈ segs, ¬ CanHold n g)
    (hRest : mallocCalls mode fuel (s.expandHeap mode n) n = some (calls, address, s')) :
    ∃ fuel', mallocCalls mode fuel' s n = some (calls + 1, address, s') := by
  have hStart := hSound.placed.2
  have hMore := mallocCalls_mono hRest (Nat.le_max_right segs.length fuel)
  rcases search_returns hSound n (Nat.le_succ_of_le (Nat.le_max_left segs.length fuel)) with
    ⟨g, hg, hHold, _⟩ | ⟨_, hSearch⟩
  · exact (hNone g hg hHold).elim
  refine ⟨max segs.length fuel + 1, ?_⟩
  rw [← hRounded] at hSearch
  rw [mallocCalls_retry (by omega) (by omega) hSearch, hRounded, hMore, map_some]

private theorem mallocCalls_returns_rounded (mode : LastUpdates) (hSound : Sound guarded s segs)
    (hQuiet : Quiet segs) (hRounded : roundSize n = n) (hMin : 16 ≤ n) (hRoom : HasRoom s segs n) :
    ∃ fuel calls address s', mallocCalls mode fuel s n = some (calls, address, s') ∧
    calls ≤ 2 ∧ address ≠ 0 := by
  by_cases hHold : ∃ g ∈ segs, CanHold n g
  · rcases mallocCalls_of_hold mode hSound hRounded hMin
      hHold with ⟨fuel, address, s', hCall, hNonnull⟩
    exact ⟨fuel, 0, address, s', hCall, by omega, hNonnull⟩
  have hNone : ∀ g ∈ segs, ¬ CanHold n g := fun g hg hFits => hHold ⟨g, hg, hFits⟩
  rcases hRoom.expandHeap mode hSound hQuiet hMin hNone with
    ⟨segs₁, hSound₁, hQuiet₁, hRoom₁, hNext₁⟩
  by_cases hHold₁ : ∃ g ∈ segs₁, CanHold n g
  · -- the first growth is enough
    rcases mallocCalls_of_hold mode hSound₁ hRounded hMin
      hHold₁ with ⟨fuel, address, s', hCall, hNonnull⟩
    rcases mallocCalls_of_none hSound hRounded hMin hNone hCall with ⟨fuel', hCall'⟩
    exact ⟨fuel', 1, address, s', hCall', by omega, hNonnull⟩
  -- it was too short by a header: the next one joins it
  have hNone₁ : ∀ g ∈ segs₁, ¬ CanHold n g := fun g hg hFits => hHold₁ ⟨g, hg, hFits⟩
  rcases hNext₁ with hFits | ⟨_, hFree₁⟩
  · exact (hHold₁ hFits).elim
  rcases hRoom₁.expandHeap mode hSound₁ hQuiet₁ hMin hNone₁ with ⟨segs₂, hSound₂, _, _, hNext₂⟩
  rcases hNext₂ with hHold₂ | ⟨hUsed₁, _⟩
  · rcases mallocCalls_of_hold mode hSound₂ hRounded hMin
      hHold₂ with ⟨fuel, address, s', hCall, hNonnull⟩
    rcases mallocCalls_of_none hSound₁ hRounded hMin hNone₁ hCall with ⟨fuel₁, hCall₁⟩
    rcases mallocCalls_of_none hSound hRounded hMin hNone hCall₁ with ⟨fuel₂, hCall₂⟩
    exact ⟨fuel₂, 2, address, s', hCall₂, by omega, hNonnull⟩
  · rw [hFree₁] at hUsed₁
    cases hUsed₁

end Rounded

theorem mallocCalls_returns (mode : LastUpdates) (hSound : Sound guarded s segs)
    (hQuiet : Quiet segs) (hSize : size < 2 ^ 64) (hZero : roundSize size ≠ 0)
    (hRoom : HasRoom s segs (roundSize size)) : ∃ fuel calls address s',
    mallocCalls mode fuel s size = some (calls, address, s') ∧ calls ≤ 2 ∧ address ≠ 0 := by
  rcases roundSize_cases hSize with hWraps | ⟨hMin, hMod, _, _⟩
  · exact (hZero hWraps).elim
  have hRounded := roundSize_rounded hMin hMod
  rcases mallocCalls_returns_rounded mode hSound hQuiet hRounded hMin hRoom with
    ⟨fuel, calls, address, s', hCall, hFew, hNonnull⟩
  rw [mallocCalls_rounded hRounded] at hCall
  exact ⟨fuel, calls, address, s', hCall, hFew, hNonnull⟩

theorem default_malloc_returns (m : Memory) {heapAddress pageCount : Nat}
    (hAligned : heapAddress % 4096 = 0) (hNonnull : heapAddress ≠ 0) (hPages : 1 ≤ pageCount)
    {es : List HeapEvent} {c : HeapClients}
    (hRun : Run DefaultStep ⟨initHeap m heapAddress pageCount, []⟩ es c)
    (hTop : c.heap.heapTop < 2 ^ 64) (hSize : size < 2 ^ 64) (hZero : roundSize size ≠ 0)
    (hGrowth : (∀ h, Reaches c.heap h → c.heap.fits (roundSize size) h = false) →
    c.heap.heapEnd + growth c.heap (roundSize size) < 2 ^ 64) : ∃ fuel calls address s',
    mallocCalls .kept fuel c.heap size = some (calls, address, s') ∧
    malloc .kept fuel c.heap size = some (address, s') ∧ calls ≤ 2 ∧ address ≠ 0 := by
  rcases DefaultOk.run m hAligned hNonnull hPages hRun hTop with ⟨segs, hOk, hLast⟩
  have hRoom : HasRoom c.heap segs (roundSize size) := by
    by_cases hHold : ∃ g ∈ segs, CanHold (roundSize size) g
    · exact .inl hHold
    refine Or.inr ⟨hLast, ?_⟩
    rw [← hOk.sound.ends.1]
    apply hGrowth
    intro h hReaches
    rcases hOk.sound.reaches_iff.mp hReaches with ⟨g, hg, rfl⟩
    rw [← Bool.not_eq_true, hOk.sound.fits_iff _ hg]
    exact fun hFits => hHold ⟨g, hg, hFits⟩
  rcases mallocCalls_returns .kept hOk.sound hOk.quiet hSize hZero hRoom with
    ⟨fuel, calls, address, s', hCall, hFew, hBlock⟩
  refine ⟨fuel, calls, address, s', hCall, ?_, hFew, hBlock⟩
  rw [malloc_eq_mallocCalls, hCall, map_some]

def onePage : SegmentHeap :=
  initHeap (fun _ => 0) 0x100000 1

theorem default_malloc_returns_onePage : ∃ c, Run DefaultStep ⟨onePage, []⟩
    [.malloc 4064 0x100020] c ∧ ∃ fuel calls address s', mallocCalls .kept fuel c.heap 4080 =
    some (calls, address, s') ∧ calls ≤ 2 ∧ address ≠ 0 := by
  let s₁ := afterMalloc .kept onePage 4064
  have hRun : Run DefaultStep ⟨onePage, []⟩ [.malloc 4064 0x100020] ⟨s₁, [⟨0x100020, 4064⟩]⟩ := by
    apply snoc nil
    exact ⟨by decide, malloc_afterMalloc (by decide +kernel), rfl⟩
  have hTop : s₁.heapTop < 2 ^ 64 := by
    decide +kernel
  have hGrowth : s₁.heapEnd + growth s₁ (roundSize 4080) < 2 ^ 64 := by
    decide +kernel
  rcases default_malloc_returns (fun _ => 0) (by decide) (by decide) (by decide) hRun hTop
      (by decide) (by decide) (fun _ => hGrowth) with
    ⟨fuel, calls, address, s', hCall, _, hFew, hBlock⟩
  exact ⟨_, hRun, fuel, calls, address, s', hCall, hFew, hBlock⟩

theorem xalloc_malloc_returns (m : Memory) {base : Nat} (hAligned : base % 4096 = 0)
    (hNonnull : base ≠ 0) (hBase : base + 16 * 4096 < 2 ^ 64) {es : List HeapEvent}
    {c : HeapClients} (hRun : Run XallocSafeStep ⟨allocatorV1 m base, []⟩ es c)
    (hSize : size < 2 ^ 64) (hZero : roundSize size ≠ 0)
    (hRight : LastSegmentRight c.heap (roundSize size)) : ∃ fuel calls address s',
    mallocCalls .lost fuel c.heap size = some (calls, address, s') ∧
    malloc .lost fuel c.heap size = some (address, s') ∧ calls ≤ 2 ∧ address ≠ 0 := by
  rcases consistent_of_safe_run m hAligned hNonnull hBase hRun with ⟨segs, hOk⟩
  rcases mallocCalls_returns .lost hOk.sound hOk.quiet hSize hZero (hRight.hasRoom hOk.sound) with
    ⟨fuel, calls, address, s', hCall, hFew, hBlock⟩
  refine ⟨fuel, calls, address, s', hCall, ?_, hFew, hBlock⟩
  rw [malloc_eq_mallocCalls, hCall, map_some]

private def freshHeap : SegmentHeap :=
  allocatorV1 (fun _ => 0) userHeapBase

theorem xalloc_malloc_returns_usedHeap : ∃ c, Run XallocSafeStep ⟨freshHeap, []⟩
    [.malloc 16 (userHeapBase + 0x20), .free (userHeapBase + 0x20)] c ∧
    ∃ fuel calls address s', mallocCalls .lost fuel c.heap 0x20000 =
    some (calls, address, s') ∧ calls ≤ 2 ∧ address ≠ 0 := by
  let s₁ := afterMalloc .lost freshHeap 16
  let s₂ := s₁.free .lost (userHeapBase + 0x20)
  have hMalloc : XallocSafeStep ⟨freshHeap, []⟩ (.malloc 16 (userHeapBase + 0x20))
      ⟨s₁, [⟨userHeapBase + 0x20, 16⟩]⟩ := by
    refine ⟨⟨by decide, malloc_afterMalloc (by decide +kernel), rfl⟩, ?_⟩
    rintro size address hSame _
    cases hSame
    exact .inl ⟨_, .refl, by decide +kernel⟩
  have hFree : XallocSafeStep ⟨s₁, [⟨userHeapBase + 0x20, 16⟩]⟩ (.free (userHeapBase + 0x20))
      ⟨s₂, []⟩ :=
    ⟨⟨⟨⟨userHeapBase + 0x20, 16⟩, by simp, rfl⟩, rfl, rfl⟩, nofun⟩
  have hRun := snoc (snoc nil hMalloc) hFree
  have hLast : s₂.lastHdr = s₂.heapStart ∧ s₂.get s₂.lastHdr .next = 0 ∧
      s₂.heapEnd + growth s₂ (roundSize 0x20000) < 2 ^ 64 := by
    decide +kernel
  have hRight : LastSegmentRight s₂ (roundSize 0x20000) :=
    .inr ⟨hLast.1 ▸ .refl, hLast.2⟩
  rcases xalloc_malloc_returns (fun _ => 0) (by decide) (by decide) (by decide) hRun (by decide)
      (by decide) hRight with ⟨fuel, calls, address, s', hCall, _, hFew, hBlock⟩
  exact ⟨_, hRun, fuel, calls, address, s', hCall, hFew, hBlock⟩

private def Alone (s : SegmentHeap) (n : Nat) : Prop :=
  s.heapStart ≠ 0 ∧ s.fits n s.heapStart = false ∧ s.get s.heapStart .next = 0

private theorem Alone.grows {n : Nat} (hAlone : Alone s n) (hRounded : roundSize n = n)
    (hPos : n ≠ 0) (h : mallocCalls mode fuel s n = some (calls, address, s')) : ∃ fuel' k,
    mallocCalls mode fuel' (s.expandHeap mode n) n = some (k, address, s') ∧ calls = k + 1 := by
  rcases hAlone with ⟨hStart, hFits, hNext⟩
  cases fuel with
  | zero => cases h
  | succ fuel =>
    have hSearch : s.search (roundSize n) (fuel + 1) s.heapStart = some none := by
      rw [hRounded, search, if_neg (by simp [hFits]), if_pos hNext]
    rw [mallocCalls_retry hStart (by omega) hSearch, hRounded] at h
    rcases map_eq_some_iff.mp h with ⟨⟨k, r⟩, hRest, hEq⟩
    cases hEq
    exact ⟨fuel, k, hRest, rfl⟩

theorem xalloc_malloc_misses_growth : ∃ c : HeapClients, Run XallocStep
    ⟨allocatorV1 (fun _ => 0) userHeapBase, []⟩
    [.malloc 0xFFE0 (userHeapBase + 0x20), .malloc 16 (userHeapBase + 0x10020),
    .free (userHeapBase + 0x20), .free (userHeapBase + 0x10020)] c ∧
    ∀ fuel calls address s', mallocCalls .lost fuel c.heap 0x20000 = some (calls, address, s') →
    2 < calls := by
  let s₁ := afterMalloc .lost freshHeap 0xFFE0
  let s₂ := afterMalloc .lost s₁ 16
  let s₃ := s₂.free .lost (userHeapBase + 0x20)
  let s₄ := s₃.free .lost (userHeapBase + 0x10020)
  have hFirst : XallocStep ⟨freshHeap, []⟩ (.malloc 0xFFE0 (userHeapBase + 0x20))
      ⟨s₁, [⟨userHeapBase + 0x20, 0xFFE0⟩]⟩ :=
    ⟨by decide, malloc_afterMalloc (by decide +kernel), rfl⟩
  have hSecond : XallocStep ⟨s₁, [⟨userHeapBase + 0x20, 0xFFE0⟩]⟩
      (.malloc 16 (userHeapBase + 0x10020))
      ⟨s₂, [⟨userHeapBase + 0x10020, 16⟩, ⟨userHeapBase + 0x20, 0xFFE0⟩]⟩ :=
    ⟨by decide, malloc_afterMalloc (by decide +kernel), rfl⟩
  have hThird : XallocStep ⟨s₂, [⟨userHeapBase + 0x10020, 16⟩, ⟨userHeapBase + 0x20, 0xFFE0⟩]⟩
      (.free (userHeapBase + 0x20)) ⟨s₃, [⟨userHeapBase + 0x10020, 16⟩]⟩ :=
    ⟨⟨⟨userHeapBase + 0x20, 0xFFE0⟩, by simp, rfl⟩, rfl, rfl⟩
  have hFourth : XallocStep ⟨s₃, [⟨userHeapBase + 0x10020, 16⟩]⟩
      (.free (userHeapBase + 0x10020)) ⟨s₄, []⟩ :=
    ⟨⟨⟨userHeapBase + 0x10020, 16⟩, by simp, rfl⟩, rfl, rfl⟩
  refine ⟨⟨s₄, []⟩, snoc (snoc (snoc (snoc nil hFirst) hSecond) hThird) hFourth, ?_⟩
  intro fuel calls address s' hCall
  have hRounded : roundSize 0x20000 = 0x20000 := by
    decide
  have hZero : 0x20000 ≠ 0 := by
    decide
  have hAlone₄ : Alone s₄ 0x20000 := by
    unfold Alone
    decide +kernel
  rcases hAlone₄.grows hRounded hZero hCall with ⟨fuel₁, k₁, hCall₁, hk₁⟩
  have hAlone₅ : Alone (s₄.expandHeap .lost 0x20000) 0x20000 := by
    unfold Alone
    decide +kernel
  rcases hAlone₅.grows hRounded hZero hCall₁ with ⟨fuel₂, k₂, hCall₂, hk₂⟩
  have hAlone₆ : Alone ((s₄.expandHeap .lost 0x20000).expandHeap .lost 0x20000) 0x20000 := by
    unfold Alone
    decide +kernel
  rcases hAlone₆.grows hRounded hZero hCall₂ with ⟨_, k₃, _, hk₃⟩
  omega

end Fennix
