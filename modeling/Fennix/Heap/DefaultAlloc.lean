import Fennix.Heap.Clients

/-
  The default kernel heap.
-/

namespace Fennix

open SegmentHeap List Run

def initHeap (m : Memory) (heapAddress pageCount : Nat) : SegmentHeap :=
  start m heapAddress (u64 (pageCount * 4096)) (heapAddress + pageCount * 4096)

/-
  The segments are those that `Next` leads to from `HeapStart`, with the lengths and flags of their
  headers.
-/
structure HeapInvariant (c : HeapClients) (segs : List Segment) : Prop where
  first : segs ≠ [] ∧ c.heap.heapStart = firstAddress segs
  linked : Linked (fun h => c.heap.get h .next) (fun h => c.heap.get h .last) 0
    (segs.map Segment.address) 0
  fields : ∀ g ∈ segs, c.heap.get g.address .length = g.length ∧ c.heap.isFree g.address = g.free
  tiled : Tiling Segment.address Segment.size c.heap.heapStart segs c.heap.heapEnd
  last : c.heap.lastHdr = lastAddress segs
  quiet : Quiet segs
  disjoint : c.DisjointPayloads
  held : ∀ b ∈ c.live, b.address % 16 = 0 ∧ b.size ≤ c.payloadLength b ∧ ∃ g ∈ segs, HeldIn g b

variable {c c' : HeapClients} {segs : List Segment}

theorem Consistent.heapInvariant (hOk : Consistent c segs) (hLast : LastIs c.heap segs) :
    HeapInvariant c segs where
  first := by
    refine ⟨hOk.sound.ne_nil, ?_⟩
    cases segs with
    | nil => exact (hOk.sound.ne_nil rfl).elim
    | cons g rest => exact hOk.sound.tiled.1.symm
  linked := hOk.sound.linked
  fields := hOk.sound.fields
  tiled := by
    rw [hOk.sound.ends.1]
    exact hOk.sound.tiled
  last := hLast
  quiet := hOk.quiet
  disjoint := hOk.disjoint
  held := by
    intro b hb
    rcases hOk.held b hb with ⟨g, hg, hHeld⟩
    refine ⟨hOk.aligned hb, ?_, g, hg, hHeld⟩
    rw [hOk.payloadLength_eq hg hHeld]
    exact hHeld.2.2

def DefaultStep : HeapClients → HeapEvent → HeapClients → Prop :=
  fun c e c' => e.Does .kept c c'

def DefaultOk (c : HeapClients) : Prop :=
  c.heap.heapTop < 2 ^ 64 → ∃ segs, Consistent c segs ∧ LastIs c.heap segs

theorem DefaultOk.step {e : HeapEvent} (hOk : DefaultOk c) (hStep : DefaultStep c e c') :
    DefaultOk c' := by
  intro hTop
  have hGrow := HeapEvent.Does.heapTop_le hStep
  rcases hOk (Nat.lt_of_le_of_lt hGrow hTop) with ⟨segs, hConsistent, hLast⟩
  have hServe : ∀ size address, e = .malloc size address → roundSize size ≠ 0 →
    CanServe c.heap segs (roundSize size) :=
    fun _ _ _ _ => Or.inr hLast
  rcases hConsistent.step hServe hStep hTop with ⟨segs', hStepped⟩
  exact ⟨segs', hStepped.consistent, hStepped.last rfl hLast⟩

variable {pageCount : Nat}

theorem heapInvariant_null (m : Memory) (hPages : 1 ≤ pageCount) (hTop : pageCount * 4096 < 2 ^ 64)
    : HeapInvariant ⟨initHeap m 0 pageCount, []⟩ [⟨0, pageCount * 4096 - 32, true⟩] := by
  have hLengthFit : u64 (pageCount * 4096) = pageCount * 4096 := u64_of_lt hTop
  have hSub : sub64 (pageCount * 4096) headerSize = pageCount * 4096 - 32 :=
    sub64_of_le (by rw [headerSize]; omega) hTop
  unfold initHeap
  rw [hLengthFit]
  rcases start_fields m 0 (pageCount * 4096) (0 + pageCount * 4096) with
    ⟨hNext, hLast, hLength, hFree⟩
  rw [hSub] at hLength
  refine ⟨⟨cons_ne_nil _ _, rfl⟩, ⟨hNext, hLast, trivial⟩, ?_, ⟨rfl, ?_⟩, rfl,
    isChain_singleton _, List.Pairwise.nil, ?_⟩
  · intro g hg
    rw [mem_singleton] at hg
    rw [hg]
    exact ⟨hLength, hFree⟩
  · show 0 + (32 + (pageCount * 4096 - 32)) = u64 (0 + pageCount * 4096)
    rw [Nat.zero_add, Nat.zero_add, hLengthFit]
    omega
  · intro b hb
    cases hb
variable {es : List HeapEvent}

theorem DefaultOk.run (m : Memory) {heapAddress : Nat} (hAligned : heapAddress % 4096 = 0)
    (hNonnull : heapAddress ≠ 0) (hPages : 1 ≤ pageCount) {c : HeapClients}
    (hRun : Run DefaultStep ⟨initHeap m heapAddress pageCount, []⟩ es c) : DefaultOk c := by
  refine invariant ?_ (fun _ _ _ hOk hStep => hOk.step hStep) hRun
  intro hFirst
  have hSum : heapAddress + pageCount * 4096 < 2 ^ 64 := hFirst
  unfold initHeap
  rw [u64_of_lt (by omega : pageCount * 4096 < 2 ^ 64)]
  exact ⟨_, Consistent.start m (by omega) (by omega) (by omega) (by omega) hSum, rfl⟩

theorem default_run_null {m : Memory} {c : HeapClients}
    (hRun : Run DefaultStep ⟨initHeap m 0 pageCount, []⟩ es c) :
    c = ⟨initHeap m 0 pageCount, []⟩ := by
  apply invariant (P := fun c => c = ⟨initHeap m 0 pageCount, []⟩) rfl _ hRun
  intro c e c' hEq hStep
  subst hEq
  exact HeapEvent.Does.null rfl rfl hStep

theorem default_heap_invariant (m : Memory) {heapAddress pageCount : Nat}
    (hAligned : heapAddress % 4096 = 0) (hPages : 1 ≤ pageCount) {es : List HeapEvent}
    {c : HeapClients} (hRun : Run DefaultStep ⟨initHeap m heapAddress pageCount, []⟩ es c)
    (hTop : c.heap.heapTop < 2 ^ 64) : ∃ segs, HeapInvariant c segs := by
  by_cases hNull : heapAddress = 0
  · subst hNull
    have hSame := default_run_null hRun
    subst hSame
    have hSum : 0 + pageCount * 4096 < 2 ^ 64 := hTop
    exact ⟨_, heapInvariant_null m hPages (by omega)⟩
  have hOk := DefaultOk.run m hAligned hNull hPages hRun
  rcases hOk hTop with ⟨segs, hConsistent, hLast⟩
  exact ⟨segs, hConsistent.heapInvariant hLast⟩

private def smallHeap : SegmentHeap :=
  initHeap (fun _ => 0) 0x100000 1

theorem default_heap_invariant_smallHeap : ∃ c segs, c.live = [⟨0x1000b0, 5000⟩] ∧
    HeapInvariant c segs := by
  let s₁ := afterMalloc .kept smallHeap 100
  let s₂ := afterMalloc .kept s₁ 5000
  let s₃ := s₂.free .kept 0x100020
  have hRun : Run DefaultStep ⟨smallHeap, []⟩ [.malloc 100 0x100020, .malloc 5000 0x1000b0,
    .free 0x100020] ⟨s₃, [⟨0x1000b0, 5000⟩]⟩ := by
    have hFirst : Run DefaultStep ⟨smallHeap, []⟩ [.malloc 100 0x100020]
      ⟨s₁, [⟨0x100020, 100⟩]⟩ := by
      apply snoc nil
      exact ⟨by decide, malloc_afterMalloc (by decide +kernel), rfl⟩
    have hSecond : Run DefaultStep ⟨smallHeap, []⟩ [.malloc 100 0x100020, .malloc 5000 0x1000b0]
      ⟨s₂, [⟨0x1000b0, 5000⟩, ⟨0x100020, 100⟩]⟩ := by
      apply snoc hFirst
      exact ⟨by decide, malloc_afterMalloc (by decide +kernel), rfl⟩
    apply snoc hSecond
    exact ⟨⟨⟨0x100020, 100⟩, by simp, rfl⟩, rfl, rfl⟩
  have hTop : s₃.heapTop < 2 ^ 64 := by
    decide +kernel
  rcases default_heap_invariant (fun _ => 0) (by decide) (by decide) hRun hTop with
    ⟨segs, hInvariant⟩
  exact ⟨_, segs, rfl, hInvariant⟩

end Fennix
