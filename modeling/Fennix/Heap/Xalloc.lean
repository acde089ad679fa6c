import Fennix.Heap.Clients

/-
  The allocator `Xalloc::AllocatorV1`.

  It is the default heap except that `LastSegment` is passed to `Split` and the joins by value, so
  that it is stale once the last segment was split or joined.
-/

------ The Allocator

namespace Fennix

open SegmentHeap List Run

def allocatorV1 (m : Memory) (address : Nat) : SegmentHeap :=
  start m address (16 * 4096) (address + 16 * 4096)

def userHeapBase : Nat := 0xFFFFD00000000000

def Reaches (s : SegmentHeap) (h : Nat) : Prop :=
  Relation.ReflTransGen (fun a b => b = s.get a .next ∧ b ≠ 0) s.heapStart h

/-
  The bytes by which `Malloc` grows the heap when no segment can hold `size`: a second time if the
  new segment is not joined to a free one and is too short by its header.
-/
def growth (s : SegmentHeap) (size : Nat) : Nat :=
  if s.isFree s.lastHdr = true ∨ size + 32 ≤ alignUp size 4096 then
    alignUp size 4096
  else 2 * alignUp size 4096

/-
  `Malloc` does not link through a stale `LastSegment`: a segment can be taken, or `LastSegment` is
  the last segment reached and the addresses behind it do not run out.
-/
def LastSegmentRight (s : SegmentHeap) (size : Nat) : Prop :=
  (∃ h, Reaches s h ∧ s.fits size h = true) ∨ Reaches s s.lastHdr ∧ s.get s.lastHdr .next = 0 ∧
      s.heapEnd + growth s size < 2 ^ 64

def XallocStep (c : HeapClients) (e : HeapEvent) (c' : HeapClients) : Prop :=
  e.Does .lost c c'

def XallocSafeStep (c : HeapClients) (e : HeapEvent) (c' : HeapClients) : Prop :=
  XallocStep c e c' ∧ ∀ size address, e = .malloc size address → roundSize size ≠ 0 →
        LastSegmentRight c.heap (roundSize size)

------ Reaching Segments

variable {guarded : Nat → Prop} {mode : LastUpdates} {s s' : SegmentHeap} {segs : List Segment}
variable {h : Nat}

theorem Reaches.mem_of_closed {hs : List Nat} (hReaches : Reaches s h) (hStart : s.heapStart ∈ hs)
    (hNext : ∀ a ∈ hs, s.get a .next ∈ hs ∨ s.get a .next = 0) : h ∈ hs := by
  induction hReaches with
  | refl => exact hStart
  | tail _ hStep ih =>
    rcases hStep with ⟨hEq, hNonzero⟩
    rcases hNext _ ih with hIn | hNull
    · rw [hEq]
      exact hIn
    · exact (hNonzero (hEq.trans hNull)).elim

theorem Sound.reaches_iff (hSound : Sound guarded s segs) :
    Reaches s h ↔ ∃ g ∈ segs, g.address = h := by
  cases segs with
  | nil => exact (hSound.ne_nil rfl).elim
  | cons f rest =>
    have hFirst : s.heapStart = f.address := hSound.tiled.1.symm
    constructor
    · intro hReaches
      apply mem_map.mp
      apply hReaches.mem_of_closed
      · rw [hFirst]
        exact mem_cons_self
      intro h hh
      rcases mem_map.mp hh with ⟨g, hg, hEq⟩
      rcases append_of_mem hg with ⟨pre, post, hShape⟩
      rw [hShape] at hSound ⊢
      rw [← hEq, hSound.links.1]
      cases post with
      | nil => exact .inr rfl
      | cons k post =>
        refine Or.inl ?_
        show k.address ∈ _
        simp
    rintro ⟨g, hg, hEq⟩
    have hIn : g.address ∈ f.address :: rest.map Segment.address := mem_map_of_mem hg
    have hPath := hSound.linked.reached hIn
    rw [Reaches, hFirst, ← hEq]
    refine Relation.ReflTransGen.mono ?_ _ _ hPath
    intro x y hxy
    refine ⟨hxy.1, ?_⟩
    rcases mem_map.mp hxy.2 with ⟨k, hk, hy⟩
    have hBounds := hSound.bounds (mem_cons_of_mem f hk)
    omega

theorem Sound.reaches_history (hSound : Sound guarded s segs) (hh : h ∈ s.segments) :
    Reaches s h := by
  rw [hSound.reaches_iff]
  exact mem_map.mp (hSound.history.mem_iff.mp hh)

theorem Sound.lastIs_of_next (hSound : Sound guarded s segs) (hReaches : Reaches s s.lastHdr)
    (hNext : s.get s.lastHdr .next = 0) : LastIs s segs := by
  rcases hSound.reaches_iff.mp hReaches with ⟨g, hg, hEq⟩
  rcases append_of_mem hg with ⟨pre, post, hShape⟩
  rw [hShape] at hSound ⊢
  rw [← hEq, hSound.links.1] at hNext
  cases post with
  | nil =>
    rw [LastIs, ← hEq, lastAddress_append pre (by simp)]
    rfl
  | cons k post =>
    have hBounds := hSound.bounds (g := k) (by simp)
    have hNull : k.address = 0 := hNext
    omega

------ Growing Enough

def HasRoom (s : SegmentHeap) (segs : List Segment) (size : Nat) : Prop :=
  (∃ g ∈ segs, CanHold size g) ∨ LastIs s segs ∧ s.heapTop + growth s size < 2 ^ 64

variable {size : Nat}

theorem HasRoom.canServe (hRoom : HasRoom s segs size) : CanServe s segs size := by
  rcases hRoom with hHold | ⟨hLast, _⟩
  · exact .inl hHold
  · exact .inr hLast

theorem LastSegmentRight.hasRoom (hRight : LastSegmentRight s size) (hSound : Sound guarded s segs)
    : HasRoom s segs size := by
  rcases hRight with ⟨h, hReaches, hFits⟩ | ⟨hReaches, hNext, hEnd⟩
  · rcases hSound.reaches_iff.mp hReaches with ⟨g, hg, hEq⟩
    rw [← hEq] at hFits
    have hHold := (hSound.fits_iff size hg).mp hFits
    exact .inl ⟨g, hg, hHold⟩
  · rw [hSound.ends.1] at hEnd
    exact .inr ⟨hSound.lastIs_of_next hReaches hNext, hEnd⟩

theorem HasRoom.expandHeap {n : Nat} (hRoom : HasRoom s segs n) (mode : LastUpdates)
    (hSound : Sound guarded s segs) (hQuiet : Quiet segs) (hMin : 16 ≤ n)
    (hNone : ∀ g ∈ segs, ¬ CanHold n g) : ∃ segs', Sound guarded (s.expandHeap mode n) segs' ∧
    Quiet segs' ∧ HasRoom (s.expandHeap mode n) segs' n ∧
    ((∃ g ∈ segs', CanHold n g) ∨ s.isFree s.lastHdr = false ∧ (s.expandHeap mode n).isFree
    (s.expandHeap mode n).lastHdr = true) := by
  rcases hRoom with ⟨g, hg, hHold⟩ | ⟨hLast, hBound⟩
  · exact (hNone g hg hHold).elim
  have hLess : alignUp n 4096 ≤ growth s n := by
    unfold growth
    split <;> omega
  rcases expandHeap_spec hSound hLast hMin (by omega) (rfl : s.expandHeap mode n = _) with
    ⟨segs', hGrows, hSound', _, _, hServe, _⟩
  refine ⟨segs', hSound', hGrows.quiet hQuiet, ?_⟩
  rcases hServe with hHold | ⟨⟨hLast', hFree'⟩, hUsed, hShort⟩
  · exact ⟨Or.inl hHold, Or.inl hHold⟩
  refine ⟨Or.inr ⟨hLast', ?_⟩, Or.inr ⟨hUsed, hFree'⟩⟩
  have hTwice : growth s n = 2 * alignUp n 4096 := by
    unfold growth
    rw [if_neg]
    rintro (hFree | hLong)
    · rw [hUsed] at hFree
      cases hFree
    · omega
  have hOnce : growth (s.expandHeap mode n) n = alignUp n 4096 := by
    unfold growth
    rw [if_pos (.inl hFree')]
  rw [hOnce, expandHeap_heapTop]
  omega

theorem malloc_heapTop_lt {fuel address : Nat} (hSound : Sound guarded s segs) (hQuiet : Quiet segs)
    (hRoom : roundSize size ≠ 0 → HasRoom s segs (roundSize size)) (hSize : size < 2 ^ 64)
    (hMalloc : malloc mode fuel s size = some (address, s')) : s'.heapTop < 2 ^ 64 := by
  induction fuel generalizing s segs size with
  | zero => cases hMalloc
  | succ fuel ih =>
    rcases malloc_first hSound hMalloc with ⟨_, _, hSame⟩ |
      ⟨hZero, ⟨_, _, _, _, _, _, _, hStep⟩ | ⟨hNone, hAgain⟩⟩
    · rw [hSame]
      exact hSound.ends.2
    · rw [← hStep, take_heapTop]
      exact hSound.ends.2
    · rcases roundSize_cases hSize with hWraps | ⟨hMin, hMod, _, hLt⟩
      · exact (hZero hWraps).elim
      have hRounded := roundSize_rounded hMin hMod
      rcases (hRoom hZero).expandHeap mode hSound hQuiet hMin hNone with
        ⟨segs₁, hSound₁, hQuiet₁, hRoom₁, _⟩
      apply ih hSound₁ hQuiet₁ _ hLt hAgain
      intro _
      rw [hRounded]
      exact hRoom₁

variable {c c' : HeapClients}

theorem Consistent.xallocSafeStep {e : HeapEvent} (hOk : Consistent c segs)
    (hStep : XallocSafeStep c e c') : ∃ segs', Stepped .lost c segs c' segs' := by
  rcases hStep with ⟨hDoes, hRight⟩
  have hRoom : ∀ size address, e = .malloc size address → roundSize size ≠ 0 →
    HasRoom c.heap segs (roundSize size) := by
    intro size address hEvent hZero
    exact (hRight size address hEvent hZero).hasRoom hOk.sound
  apply hOk.step _ hDoes
  · cases e with
    | malloc size address =>
      rcases hDoes with ⟨hSize, ⟨fuel, hMalloc⟩, _⟩
      exact malloc_heapTop_lt hOk.sound hOk.quiet (hRoom size address rfl) hSize hMalloc
    | free address =>
      rcases hDoes with ⟨_, hHeap, _⟩
      rw [hHeap, free_heapTop]
      exact hOk.sound.ends.2
    | write x byte =>
      rcases hDoes with ⟨_, hHeap, _⟩
      rw [hHeap]
      exact hOk.sound.ends.2
  · intro size address hEvent hZero
    exact (hRoom size address hEvent hZero).canServe

theorem consistent_of_safe_run (m : Memory) {base : Nat} (hAligned : base % 4096 = 0)
    (hNonnull : base ≠ 0) (hBase : base + 16 * 4096 < 2 ^ 64) {es : List HeapEvent}
    (hRun : Run XallocSafeStep ⟨allocatorV1 m base, []⟩ es c) : ∃ segs, Consistent c segs := by
  have hStart : Consistent ⟨allocatorV1 m base, []⟩ [⟨base, 16 * 4096 - 32, true⟩] :=
    Consistent.start m (by omega) (by omega) (by decide) (by decide) hBase
  apply invariant (P := fun c => ∃ segs, Consistent c segs) ⟨_, hStart⟩ _ hRun
  rintro c e c' ⟨segs, hConsistent⟩ hStep
  rcases hConsistent.xallocSafeStep hStep with ⟨segs', hStepped⟩
  exact ⟨segs', hStepped.consistent⟩

theorem xalloc_isolation (m : Memory) {base : Nat} (hAligned : base % 4096 = 0)
    (hBase : base + 16 * 4096 < 2 ^ 64) {es : List HeapEvent} {c : HeapClients}
    (hRun : Run XallocSafeStep ⟨allocatorV1 m base, []⟩ es c) : c.DisjointPayloads ∧
    (∀ b ∈ c.live, b.size ≤ c.payloadLength b) ∧ (∀ h ∈ c.heap.segments, Reaches c.heap h) ∧
    ∀ e c', XallocSafeStep c e c' → Spared (Lasting c c') c.heap c'.heap := by
  by_cases hNull : base = 0
  · -- an allocator at the null address does nothing
    subst hNull
    have hSame : c = ⟨allocatorV1 m 0, []⟩ := by
      apply invariant (P := fun c => c = ⟨allocatorV1 m 0, []⟩) rfl _ hRun
      intro c e c' hEq hStep
      subst hEq
      exact HeapEvent.Does.null rfl rfl hStep.1
    subst hSame
    refine ⟨List.Pairwise.nil, ?_, ?_, ?_⟩
    · intro b hb
      cases hb
    · intro h hh
      rw [mem_singleton.mp hh]
      exact Relation.ReflTransGen.refl
    · intro e c' hStep
      have hStay := HeapEvent.Does.null rfl rfl hStep.1
      rw [hStay]
      exact Spared.refl
  rcases consistent_of_safe_run m hAligned hNull hBase hRun with ⟨segs, hConsistent⟩
  refine ⟨hConsistent.disjoint, ?_, ?_, ?_⟩
  · intro b hb
    rcases hConsistent.held b hb with ⟨g, hg, hHeld⟩
    rw [hConsistent.payloadLength_eq hg hHeld]
    exact hHeld.2.2
  · intro h hh
    exact hConsistent.sound.reaches_history hh
  · intro e c' hStep
    rcases hConsistent.xallocSafeStep hStep with ⟨segs', hStepped⟩
    exact hStepped.spared

------ Two Allocations

private def userHeap : SegmentHeap :=
  allocatorV1 (fun _ => 0) userHeapBase

private theorem reaches_start (s : SegmentHeap) : Reaches s s.heapStart :=
  Relation.ReflTransGen.refl

theorem xalloc_isolation_userHeap : ∃ c : HeapClients, c.live.length = 2 ∧ c.DisjointPayloads ∧
    ∀ h ∈ c.heap.segments, Reaches c.heap h := by
  let s₁ := afterMalloc .lost userHeap 16
  let s₂ := afterMalloc .lost s₁ 100
  have hFirst : Run XallocSafeStep ⟨userHeap, []⟩ [.malloc 16 (userHeapBase + 32)]
    ⟨s₁, [⟨userHeapBase + 32, 16⟩]⟩ := by
    apply snoc nil
    refine ⟨⟨by decide, malloc_afterMalloc (by decide +kernel), rfl⟩, ?_⟩
    intro size address hEvent _
    rw [← (HeapEvent.malloc.inj hEvent).1]
    exact .inl ⟨_, reaches_start _, by decide +kernel⟩
  have hRun : Run XallocSafeStep ⟨userHeap, []⟩ [.malloc 16 (userHeapBase + 32),
    .malloc 100 (userHeapBase + 80)]
    ⟨s₂, [⟨userHeapBase + 80, 100⟩, ⟨userHeapBase + 32, 16⟩]⟩ := by
    apply snoc hFirst
    refine ⟨⟨by decide, malloc_afterMalloc (by decide +kernel), rfl⟩, ?_⟩
    intro size address hEvent _
    rw [← (HeapEvent.malloc.inj hEvent).1]
    refine Or.inl ⟨userHeapBase + 48, (reaches_start _).tail ⟨?_, ?_⟩, ?_⟩
    · decide +kernel
    · decide
    · decide +kernel
  rcases xalloc_isolation (fun _ => 0) (by decide) (by decide) hRun with ⟨hDisjoint, _, hReached, _⟩
  exact ⟨_, rfl, hDisjoint, hReached⟩

theorem xalloc_strands_segment : ∃ c : HeapClients, Run XallocStep
    ⟨allocatorV1 (fun _ => 0) userHeapBase, []⟩
    [.malloc 16 (userHeapBase + 0x20), .malloc 0x10000 (userHeapBase + 0x10020)] c ∧
    userHeapBase + 0x30 ∈ c.heap.segments ∧ ¬ Reaches c.heap (userHeapBase + 0x30) := by
  let s₁ := afterMalloc .lost userHeap 16
  let s₂ := afterMalloc .lost s₁ 0x10000
  have hFirst : Run XallocStep ⟨userHeap, []⟩ [.malloc 16 (userHeapBase + 0x20)]
    ⟨s₁, [⟨userHeapBase + 0x20, 16⟩]⟩ := by
    apply snoc nil
    exact ⟨by decide, malloc_afterMalloc (by decide +kernel), rfl⟩
  refine ⟨⟨s₂, [⟨userHeapBase + 0x10020, 0x10000⟩, ⟨userHeapBase + 0x20, 16⟩]⟩, ?_, ?_, ?_⟩
  · apply snoc hFirst
    exact ⟨by decide, malloc_afterMalloc (by decide +kernel), rfl⟩
  · decide +kernel
  · intro hReaches
    -- the headers reached are these three
    have hIn : userHeapBase + 0x30 ∈ [userHeapBase, userHeapBase + 0x10000,
      userHeapBase + 0x20020] :=
      hReaches.mem_of_closed (by decide +kernel) (by decide +kernel)
    revert hIn
    decide

end Fennix
