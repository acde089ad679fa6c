import Fennix.Heap.Realloc

/-
  The default heap as the kernel uses it.

  `HeapMalloc` fills the block it hands out with zeros, also the null address that the allocator
  returns for a size that its rounding wraps to zero. For all other sizes a fill is a run of writes
  by the new holder, so kernel code meets the heap's invariants and always gets a cleared block.
-/

namespace Fennix

open SegmentHeap

inductive AllocationAlgorithm where
| noAllocationAlgorithm
| default
| libAlloc
| libAlloc11
| buddyAlloc
| xallocV1
deriving DecidableEq, Repr

/-
  `realloc` of an allocator that keeps the state `σ` besides what is in memory; `none` if it does
  not return.
-/
def Realloc (σ : Type) :=
  Memory → σ → (address size : Nat) → Option (Nat × Memory × σ)

structure Backends (σ : Type) where
  default : Realloc σ
  libAlloc : Realloc σ
  libAlloc11 : Realloc σ
  buddyAlloc : Realloc σ
  xallocV1 : Realloc σ

structure KernelHeap (σ : Type) where
  algorithmToUse : AllocationAlgorithm
  memory : Memory
  state : σ

variable {σ : Type}

def Backends.select (k : Backends σ) : AllocationAlgorithm → Option (Realloc σ)
| .noAllocationAlgorithm => none
| .default => some k.default
| .libAlloc => some k.libAlloc
| .libAlloc11 => some k.libAlloc11
| .buddyAlloc => some k.buddyAlloc
| .xallocV1 => some k.xallocV1

def heapRealloc (k : Backends σ) (h : KernelHeap σ)
    (address size : Nat) : Option (Nat × KernelHeap σ) := do
  let realloc ← k.select h.algorithmToUse
  let (ret, memory, state) ← realloc h.memory h.state address size
  return (ret, { h with memory := memory.fill ret 0 size, state := state })

def ReallocCorrect (realloc : Realloc σ) (m : Memory) (state : σ)
    (address length size : Nat) : Prop :=
  ∃ ret m' state', realloc m state address size = some (ret, m', state') ∧
      ∀ i, i < min length size → m' (ret + i) = m (address + i)

def segmentRealloc (mode : LastUpdates) (fuel : Nat) : Realloc SegmentHeap :=
  fun m s address size =>
    (SegmentHeap.realloc mode fuel { s with memory := m } address size).map
        fun r => (r.address, r.heap.memory, r.heap)

theorem segmentRealloc_correct {mode : LastUpdates} {c : HeapClients} {segs : List Segment}
    {b : Block} {n : Nat} (hOk : Consistent c segs) (hb : b ∈ c.live)
    (hWord : max n 16 * 16 < 2 ^ 64) (hRoom : HasRoom c.heap segs (max n 16 * 16)) : ∃ fuel,
    ReallocCorrect (segmentRealloc mode fuel) c.heap.memory c.heap b.address (c.payloadLength b)
    n := by
  rcases hOk.realloc_returns mode hb hWord hRoom with ⟨fuel, r, hRealloc⟩
  rcases hOk.realloc_block hb hWord hRoom hRealloc with ⟨_, _, hCopied, _⟩
  refine ⟨fuel, r.address, r.heap.memory, r.heap, ?_, hCopied⟩
  unfold segmentRealloc
  rw [hRealloc, Option.map_some]

theorem heapRealloc_preserves_iff (k : Backends σ) (h : KernelHeap σ) {realloc : Realloc σ}
    {address length size : Nat} (hSelected : k.select h.algorithmToUse = some realloc)
    (hCorrect : ReallocCorrect realloc h.memory h.state address length size) : ∃ ret h',
    heapRealloc k h address size = some (ret, h') ∧
    ((∀ i, i < min length size → h'.memory (ret + i) = h.memory (address + i)) ↔
    ∀ i, i < min length size → h.memory (address + i) = 0) := by
  rcases hCorrect with ⟨ret, m', state', hRealloc, _⟩
  refine ⟨ret, { h with memory := m'.fill ret 0 size, state := state' }, ?_, ?_⟩
  · simp [heapRealloc, hSelected, hRealloc]
  have hCleared : ∀ i, i < min length size → m'.fill ret 0 size (ret + i) = 0 := by
    intro i hi
    exact Memory.fill_inside _ _ (by omega) (by omega)
  constructor
  · intro hKept i hi
    rw [← hKept i hi]
    exact hCleared i hi
  intro hZero i hi
  rw [hZero i hi]
  exact hCleared i hi

private def segmentBackends (fuel : Nat) : Backends SegmentHeap where
  default := segmentRealloc .kept fuel
  libAlloc := fun _ _ _ _ => none
  libAlloc11 := fun _ _ _ _ => none
  buddyAlloc := fun _ _ _ _ => none
  xallocV1 := segmentRealloc .lost fuel

private def letterBlock : HeapClients :=
  { shortBlock with
    heap :=
      { shortBlock.heap with memory := shortBlock.heap.memory.write 0x100020 0x41 } }

private theorem letterBlock_run : Run DefaultStep ⟨onePage, []⟩
    [.malloc 16 0x100020, .write 0x100020 0x41] letterBlock := by
  apply Run.snoc shortBlock_run
  refine ⟨⟨⟨0x100020, 16⟩, by decide, ?_⟩, rfl, rfl⟩
  unfold HeapClients.InPayload
  decide +kernel

private theorem letterBlock_correct : ∃ fuel, ReallocCorrect (segmentRealloc .kept fuel)
    letterBlock.heap.memory letterBlock.heap 0x100020 16 32 := by
  rcases DefaultOk.run (fun _ => 0) (by decide) (by decide)
      (by decide) letterBlock_run (by decide +kernel) with ⟨segs, hOk, _⟩
  have hLength : letterBlock.payloadLength ⟨0x100020, 16⟩ = 16 := by
    decide +kernel
  have hNext : Reaches letterBlock.heap 0x100030 :=
    Relation.ReflTransGen.tail Relation.ReflTransGen.refl ⟨by decide +kernel, by decide⟩
  have hRight : LastSegmentRight letterBlock.heap (max 32 16 * 16) :=
    Or.inl ⟨0x100030, hNext, by decide +kernel⟩
  rw [← hLength]
  exact segmentRealloc_correct (b := ⟨0x100020, 16⟩) hOk
    (by decide) (by decide) (hRight.hasRoom hOk.sound)

theorem heapRealloc_preserves_iff_letterBlock : ∃ fuel ret h', heapRealloc (segmentBackends fuel)
    ⟨.default, letterBlock.heap.memory, letterBlock.heap⟩ 0x100020 32 = some (ret, h') ∧
    ¬ ∀ i, i < 16 → h'.memory (ret + i) = letterBlock.heap.memory (0x100020 + i) := by
  rcases letterBlock_correct with ⟨fuel, hCorrect⟩
  rcases heapRealloc_preserves_iff (segmentBackends fuel)
    ⟨.default, letterBlock.heap.memory, letterBlock.heap⟩
      rfl hCorrect with ⟨ret, h', hRealloc, hIff⟩
  refine ⟨fuel, ret, h', hRealloc, ?_⟩
  intro hKept
  have hZero := hIff.mp hKept 0 (by decide)
  exact absurd hZero (by decide +kernel)

theorem heapRealloc_loses_byte : ∃ c fuel ret h', Run DefaultStep ⟨onePage, []⟩
    [.malloc 16 0x100020, .write 0x100020 0x41] c ∧ ReallocCorrect (segmentRealloc .kept fuel)
    c.heap.memory c.heap 0x100020 16 32 ∧ heapRealloc (segmentBackends fuel)
    ⟨.default, c.heap.memory, c.heap⟩ 0x100020 32 = some (ret, h') ∧
    c.heap.memory 0x100020 = 0x41 ∧ h'.memory ret = 0 := by
  rcases letterBlock_correct with ⟨fuel, hCorrect⟩
  rcases hCorrect with ⟨ret, m', state', hRealloc, hCopied⟩
  refine ⟨letterBlock, fuel, ret, ⟨.default, m'.fill ret 0 32, state'⟩, letterBlock_run,
    ⟨ret, m', state', hRealloc, hCopied⟩, ?_, by decide +kernel, ?_⟩
  · simp [heapRealloc, Backends.select, segmentBackends, hRealloc]
  · exact Memory.fill_inside _ _ (by omega) (by omega)

------ Allocation

inductive KernelHeapEvent where
| heapMalloc (size address : Nat)
| heapFree (address : Nat)
| write (address : Nat) (byte : BitVec 8)

def HeapClients.cleared (c : HeapClients) (address size : Nat) : HeapClients :=
  { c with heap := { c.heap with memory := c.heap.memory.fill address 0 size } }

def KernelHeapStep (c : HeapClients) : KernelHeapEvent → HeapClients → Prop
| .heapMalloc size address, c' =>
  ∃ given, DefaultStep c (.malloc size address) given ∧ c' = given.cleared address size
| .heapFree address, c' => DefaultStep c (.free address) c'
| .write address byte, c' => DefaultStep c (.write address byte) c'

def KernelHeapEvent.InRange : KernelHeapEvent → Prop
| .heapMalloc size _ => roundSize size ≠ 0
| _ => True

def InRangeStep (c : HeapClients) (e : KernelHeapEvent) (c' : HeapClients) : Prop :=
  e.InRange ∧ KernelHeapStep c e c'

variable {c c' : HeapClients} {b : Block} {segs : List Segment} {size address : Nat}

theorem fill_succ (m : Memory) (a n : Nat) (v : BitVec 8) :
    m.fill a v (n + 1) = (m.fill a v n).write (a + n) v := by
  funext x
  simp only [Memory.fill, Memory.write]
  by_cases hLast : x = a + n
  · rw [if_pos (by omega), if_pos hLast]
  · rw [if_neg hLast]
    refine if_congr ?_ rfl rfl
    omega

/- Each byte that is filled is a write of the block's holder. -/
theorem DefaultOk.cleared (hOk : DefaultOk c) (hTop : c.heap.heapTop < 2 ^ 64)
    (hb : b ∈ c.live) {n : Nat} (hn : n ≤ b.size) : DefaultOk (c.cleared b.address n) := by
  induction n with
  | zero =>
    have hSame : c.cleared b.address 0 = c := by
      have hFill : c.heap.memory.fill b.address 0 0 = c.heap.memory := by
        funext x
        exact Memory.fill_outside _ _ (by omega)
      rw [HeapClients.cleared, hFill]
    rwa [hSame]
  | succ n ih =>
    have hBefore := ih (by omega)
    refine hBefore.step (e := .write (b.address + n) 0) ⟨⟨b, hb, ?_⟩, ?_, rfl⟩
    · rcases hBefore hTop with ⟨segs, hConsistent, _⟩
      rcases hConsistent.held b hb with ⟨g, hg, hHeld⟩
      have hLong := hHeld.2.2
      rw [HeapClients.InPayload, hConsistent.payloadLength_eq hg hHeld]
      omega
    · simp only [HeapClients.cleared, fill_succ]

theorem DefaultOk.malloc_live (hOk : DefaultOk c) (hRange : roundSize size ≠ 0)
    (hGiven : DefaultStep c (.malloc size address) c') (hTop : c'.heap.heapTop < 2 ^ 64) :
    ⟨address, size⟩ ∈ c'.live ∧ ∀ k ∈ c.live, ∀ x, c.InPayload k x →
    c'.heap.memory x = c.heap.memory x ∧ (x < address ∨ address + size ≤ x) := by
  rcases hOk (Nat.lt_of_le_of_lt (HeapEvent.Does.heapTop_le hGiven) hTop) with
    ⟨segs, hConsistent, hLast⟩
  rcases hGiven with ⟨hSize, ⟨fuel, hMalloc⟩, hLive⟩
  have hGuard : Sound (fun x => ∃ k ∈ c.live, c.InPayload k x) c.heap segs :=
    hConsistent.guard (fun _ hx => hx)
  rcases malloc_spec hGuard hConsistent.quiet (fun _ => Or.inr hLast) hSize hMalloc hTop with
    ⟨hWraps, _, _⟩ | ⟨segs', a, hServed⟩
  · exact absurd hWraps hRange
  have hAddress := hServed.address
  have hLong := hServed.size
  rw [if_neg (by omega)] at hLive
  refine ⟨by simp [hLive], ?_⟩
  intro k hk x hx
  refine ⟨hServed.spared.memory_eq (malloc_recorded hMalloc) ⟨k, hk, hx⟩, ?_⟩
  rcases hConsistent.held k hk with ⟨g, hg, hHeld⟩
  have hInside := hConsistent.inPayload_bounds hg hHeld hx
  have hApart := hServed.apart hg hHeld.1
  simp only [Segment.size] at hInside hApart
  omega

theorem DefaultOk.kernelStep {e : KernelHeapEvent} (hOk : DefaultOk c)
    (hStep : InRangeStep c e c') : DefaultOk c' := by
  rcases hStep with ⟨hRange, hStep⟩
  cases e with
  | heapMalloc size address =>
    rcases hStep with ⟨given, hGiven, rfl⟩
    intro hTop
    have hLive := (hOk.malloc_live hRange hGiven hTop).1
    exact (hOk.step hGiven).cleared (b := ⟨address, size⟩) hTop hLive (Nat.le_refl _) hTop
  | heapFree address => exact hOk.step (e := .free address) hStep
  | write address byte => exact hOk.step (e := .write address byte) hStep

/-
  Whatever was allocated, freed and written before, as long as no size of a `HeapMalloc` wraps when
  it is rounded and the heap ends in the address space, `HeapMalloc` hands out zeros, keeps every
  byte of the blocks that are held, and leaves no two blocks with a byte in common.
-/
theorem heapMalloc_clears (m : Memory) {heapAddress pageCount : Nat} {es : List KernelHeapEvent}
    (hAligned : heapAddress % 4096 = 0) (hNonnull : heapAddress ≠ 0) (hPages : 1 ≤ pageCount)
    (hRun : Run InRangeStep ⟨initHeap m heapAddress pageCount, []⟩ es c)
    (hStep : InRangeStep c (.heapMalloc size address) c') (hTop : c'.heap.heapTop < 2 ^ 64) :
    (∀ i < size, c'.heap.memory (address + i) = 0) ∧
    (∀ k ∈ c.live, ∀ x, c.InPayload k x → c'.heap.memory x = c.heap.memory x) ∧
    c'.DisjointPayloads := by
  have hOk : DefaultOk c := Run.invariant (DefaultOk.run m hAligned hNonnull hPages Run.nil)
    (fun _ _ _ hOk hStep => hOk.kernelStep hStep) hRun
  rcases hOk.kernelStep hStep hTop with ⟨segs, hConsistent, _⟩
  rcases hStep with ⟨hRange, given, hGiven, rfl⟩
  refine ⟨?_, ?_, hConsistent.disjoint⟩
  · intro i hi
    exact Memory.fill_inside _ _ (by omega) (by omega)
  · intro k hk x hx
    have hKept := (hOk.malloc_live hRange hGiven hTop).2 k hk x hx
    exact (Memory.fill_outside _ _ hKept.2).trans hKept.1

/- A heap on memory full of 0xFF, with one block that is held and written to. -/
def writtenBlock : HeapClients :=
  let given : HeapClients :=
    ⟨afterMalloc .kept (initHeap (fun _ => 0xFF) 0x100000 1) 16, [⟨0x100020, 16⟩]⟩
  let c := given.cleared 0x100020 16
  { c with heap := { c.heap with memory := c.heap.memory.write 0x100020 7 } }

theorem writtenBlock_run : Run InRangeStep ⟨initHeap (fun _ => 0xFF) 0x100000 1, []⟩
    [.heapMalloc 16 0x100020, .write 0x100020 7] writtenBlock := by
  have hMalloc : InRangeStep ⟨initHeap (fun _ => 0xFF) 0x100000 1, []⟩ (.heapMalloc 16 0x100020)
      (HeapClients.cleared ⟨afterMalloc .kept (initHeap (fun _ => 0xFF) 0x100000 1) 16,
        [⟨0x100020, 16⟩]⟩ 0x100020 16) :=
    ⟨(by decide : roundSize 16 ≠ 0), _,
      ⟨by decide, malloc_afterMalloc (by decide +kernel), rfl⟩, rfl⟩
  refine (Run.nil.snoc hMalloc).snoc ⟨trivial, ⟨_, List.mem_singleton_self _, ?_⟩, rfl, rfl⟩
  exact ⟨by decide, by decide +kernel⟩

/- The next block is cleared, and the byte in the first one stays. -/
theorem heapMalloc_clears_writtenBlock : ∃ c',
    InRangeStep writtenBlock (.heapMalloc 16 0x100050) c' ∧
    (∀ i < 16, c'.heap.memory (0x100050 + i) = 0) ∧ c'.heap.memory 0x100020 = 7 := by
  have hStep : InRangeStep writtenBlock (.heapMalloc 16 0x100050)
      (HeapClients.cleared ⟨afterMalloc .kept writtenBlock.heap 16,
        ⟨0x100050, 16⟩ :: writtenBlock.live⟩ 0x100050 16) :=
    ⟨(by decide : roundSize 16 ≠ 0), _,
      ⟨by decide, malloc_afterMalloc (by decide +kernel), rfl⟩, rfl⟩
  rcases heapMalloc_clears (fun _ => 0xFF) (by decide) (by decide) (by decide) writtenBlock_run
    hStep (by decide +kernel) with ⟨hZeros, hKept, _⟩
  refine ⟨_, hStep, hZeros, ?_⟩
  rw [hKept ⟨0x100020, 16⟩ (List.mem_singleton_self _) 0x100020 ⟨by decide, by decide +kernel⟩]
  rfl

end Fennix
