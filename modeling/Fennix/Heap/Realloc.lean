import Fennix.Heap.Expansions

/-
  Moving blocks of the two heaps.
-/

namespace Fennix

open List Option Memory

def memcpy (m : Memory) (dest src : Nat) : Nat → Memory × List Nat
| 0 => (m, [])
| n + 1 =>
  let r := memcpy m dest src n
  (r.1.write (u64 (dest + n)) (r.1 (u64 (src + n))), u64 (src + n) :: r.2)

section Copying

variable {m : Memory} {dest src n i x : Nat}

theorem mem_memcpy_reads : x ∈ (memcpy m dest src n).2 ↔ ∃ i, i < n ∧ x = u64 (src + i) := by
  induction n with
  | zero => simp [memcpy]
  | succ n ih =>
    rw [memcpy, mem_cons, ih]
    constructor
    · rintro (hEq | ⟨i, hi, hEq⟩)
      · exact ⟨n, by omega, hEq⟩
      · exact ⟨i, by omega, hEq⟩
    rintro ⟨i, hi, hEq⟩
    by_cases hLast : i = n
    · rw [hLast] at hEq
      exact .inl hEq
    · exact .inr ⟨i, by omega, hEq⟩

theorem memcpy_succ : (memcpy m dest src (n + 1)).1 = (memcpy m dest src n).1.write (u64 (dest + n))
    ((memcpy m dest src n).1 (u64 (src + n))) :=
  rfl

theorem memcpy_outside (hDest : dest + n ≤ 2 ^ 64) (hx : x < dest ∨ dest + n ≤ x) :
    (memcpy m dest src n).1 x = m x := by
  induction n with
  | zero => rfl
  | succ n ih =>
    have hAt : u64 (dest + n) = dest + n := u64_of_lt (by omega)
    rw [memcpy_succ, hAt, write_other _ _ (by omega)]
    exact ih (by omega) (by omega)

theorem memcpy_byte (hDest : dest + n ≤ 2 ^ 64) (hi : i < n)
    (hApart : u64 (src + i) < dest ∨ dest + n ≤ u64 (src + i)) :
    (memcpy m dest src n).1 (dest + i) = m (u64 (src + i)) := by
  induction n with
  | zero => cases hi
  | succ n ih =>
    have hAt : u64 (dest + n) = dest + n := u64_of_lt (by omega)
    rw [memcpy_succ, hAt]
    by_cases hLast : i = n
    · rw [hLast, write_same]
      rw [hLast] at hApart
      exact memcpy_outside (by omega) (by omega)
    · rw [write_other _ _ (by omega)]
      exact ih (by omega) (by omega) (by omega)

end Copying

------ The Functions

namespace SegmentHeap

def calloc (mode : LastUpdates) (fuel : Nat) (s : SegmentHeap)
    (n size : Nat) : Option (Nat × SegmentHeap) :=
  if s.heapStart = 0 then some (0, s)
  else
    let size := if size < 0x10 then 0x10 else size
    (malloc mode fuel s (u64 (n * size))).map fun r =>
      if r.1 ≠ 0 then
        (r.1, { r.2 with memory := r.2.memory.fill r.1 0 (u64 (n * size)) })
      else r

structure Reallocated where
  address : Nat
  heap : SegmentHeap
  reads : List Nat

def realloc (mode : LastUpdates) (fuel : Nat) (s : SegmentHeap)
    (address size : Nat) : Option Reallocated :=
  if s.heapStart = 0 then some ⟨0, s, []⟩
  else if address = 0 ∧ size = 0 then
    some ⟨0, s.free mode address, []⟩
  else if address = 0 then
    (calloc mode fuel s size 1).map fun r => ⟨r.1, r.2, []⟩
  else
    let size := if size < 0x10 then 0x10 else size
    (calloc mode fuel s size 1).map fun r =>
      let copied := memcpy r.2.memory r.1 address size
      ⟨r.1, { r.2 with memory := copied.1 }, copied.2⟩

end SegmentHeap

open SegmentHeap

variable {guarded : Nat → Prop} {mode : LastUpdates} {s s' s'' : SegmentHeap}

theorem realloc_of_block {fuel address n : Nat} (hStart : s.heapStart ≠ 0) (hBlock : address ≠ 0)
    (hWord : max n 16 * 16 < 2 ^ 64) :
    realloc mode fuel s address n = (malloc mode fuel s (max n 16 * 16)).map fun r =>
    let zeroed :=
          if r.1 ≠ 0 then
            r.2.memory.fill r.1 0 (max n 16 * 16)
          else r.2.memory
        let copied := memcpy zeroed r.1 address (max n 16)
        ⟨r.1, { r.2 with memory := copied.1 }, copied.2⟩ := by
  have hSize : (if n < 0x10 then 0x10 else n) = max n 16 := by
    split <;> omega
  have hBytes : u64 (max n 16 * 16) = max n 16 * 16 := u64_of_lt hWord
  rw [realloc, if_neg hStart, if_neg (fun h => hBlock h.1), if_neg hBlock]
  dsimp only
  rw [hSize]
  unfold calloc
  rw [if_neg hStart]
  dsimp only
  rw [if_pos (by decide), hBytes, Option.map_map]
  congr 1
  funext r
  simp only [Function.comp]
  split <;> rfl

------ Header Writes

def Recorded (s s' : SegmentHeap) : Prop :=
  ∃ new, s'.written = new ++ s.written ∧ ∀ x, (∀ e ∈ new, x < e.1 ∨ e.1 + e.2 ≤ x) →
      s'.memory x = s.memory x

namespace Recorded

theorem refl : Recorded s s :=
  ⟨[], rfl, fun _ _ => rfl⟩

section

variable (h : Recorded s s')

include h

theorem trans (h' : Recorded s' s'') : Recorded s s'' := by
  rcases h with ⟨new, hWritten, hSame⟩
  rcases h' with ⟨new', hWritten', hSame'⟩
  refine ⟨new' ++ new, ?_, ?_⟩
  · rw [hWritten', hWritten, append_assoc]
  · intro x hx
    rw [hSame' x (fun e he => hx e (by simp [he])), hSame x (fun e he => hx e (by simp [he]))]

theorem set (a : Nat) (f : HeaderField) (v : Nat) : Recorded s (s'.set a f v) := by
  refine h.trans ⟨[(a + f.offset, f.width)], rfl, ?_⟩
  intro x hx
  exact store_outside _ _ (hx (a + f.offset, f.width) (by simp))

theorem congr (hMemory : s''.memory = s'.memory) (hWritten : s''.written = s'.written) :
    Recorded s s'' := by
  unfold Recorded at *
  rw [hMemory, hWritten]
  exact h

theorem moveLast (mode : LastUpdates) (old new : Nat) : Recorded s (s'.moveLast mode old new) := by
  unfold SegmentHeap.moveLast
  split
  · exact h.congr rfl rfl
  · exact h

theorem created (a : Nat) : Recorded s (s'.created a) :=
  h.congr rfl rfl

theorem joined (a : Nat) : Recorded s (s'.joined a) :=
  h.congr rfl rfl

end

section

variable (mode : LastUpdates)

theorem split (this n : Nat) : Recorded s (s.split mode this n) := by
  unfold SegmentHeap.split
  dsimp only
  split_ifs
  · exact refl
  · exact refl
  · refine created (moveLast ?_ mode _ _) _
    exact ((((((refl.set _ _ _).set _ _ _).set _ _ _).set _ _ _).set _ _ _).set _ _ _).set _ _ _

theorem combineForward (this : Nat) : Recorded s (s.combineForward mode this) := by
  unfold SegmentHeap.combineForward
  extract_lets next s₁ s₂ s₃ s₄
  have h₁ : Recorded s s₁ := moveLast refl mode _ _
  have h₂ : Recorded s s₂ := by
    unfold s₂
    split
    · exact h₁.set _ _ _
    · exact h₁
  split_ifs
  · exact refl
  · exact refl
  · exact joined ((h₂.set _ _ _).set _ _ _) _

theorem combineBackward (this : Nat) : Recorded s (s.combineBackward mode this) := by
  unfold SegmentHeap.combineBackward
  dsimp only
  split
  · exact combineForward mode _
  · exact refl

theorem expandHeap (n : Nat) : Recorded s (s.expandHeap mode n) := by
  unfold SegmentHeap.expandHeap
  extract_lets rounded pageCount new s₁ s₂ s₃ s₄ s₅ s₆ s₇
  have h₁ : Recorded s s₁ := refl.congr rfl rfl
  have h₄ : Recorded s s₄ := ((h₁.set _ _ _).set _ _ _).set _ _ _
  have h₅ : Recorded s s₅ := h₄.congr rfl rfl
  have h₇ : Recorded s s₇ := (h₅.set _ _ _).set _ _ _
  exact (h₇.created _).trans (combineBackward mode _)

theorem take (n h : Nat) : Recorded s (s.take mode n h) := by
  unfold SegmentHeap.take
  split
  · exact (split mode h n).set _ _ _
  · exact refl.set _ _ _

end

end Recorded

theorem malloc_recorded {fuel size address : Nat}
    (hMalloc : malloc mode fuel s size = some (address, s')) : Recorded s s' := by
  induction fuel generalizing s size with
  | zero => cases hMalloc
  | succ fuel ih =>
    rw [malloc] at hMalloc
    split at hMalloc
    · cases hMalloc
      exact Recorded.refl
    dsimp only at hMalloc
    split at hMalloc
    · cases hMalloc
      exact Recorded.refl
    split at hMalloc
    · cases hMalloc
    · cases hMalloc
      exact Recorded.take mode _ _
    · exact (Recorded.expandHeap mode _).trans (ih hMalloc)

theorem Spared.memory_eq {x : Nat} (hSpared : Spared guarded s s') (hRecorded : Recorded s s')
    (hx : guarded x) : s'.memory x = s.memory x := by
  rcases hSpared with ⟨new, hWritten, hUnguarded⟩
  rcases hRecorded with ⟨new', hWritten', hSame⟩
  rw [hWritten] at hWritten'
  have hNew := append_cancel_right hWritten'
  subst hNew
  apply hSame
  intro e he
  by_contra hIn
  exact hUnguarded e he x (by omega) (by omega) hx

------ Moving A Block

variable {c : HeapClients} {segs segs' : List Segment} {b : Block}

theorem Consistent.block_bounds (hOk : Consistent c segs) (hb : b ∈ c.live) :
    16 ≤ c.payloadLength b ∧ b.address + c.payloadLength b < 2 ^ 64 := by
  rcases hOk.held b hb with ⟨g, hg, hHeld⟩
  rw [hOk.payloadLength_eq hg hHeld, hHeld.2.1]
  have hSized := hOk.sound.sized g hg
  have hBounds := hOk.sound.bounds hg
  have hTop := hOk.sound.ends.2
  simp only [Segment.size] at hBounds
  omega

theorem memcpy_reads_iff {m : Memory} {dest n : Nat} (hOk : Consistent c segs) (hb : b ∈ c.live) :
    (∀ x ∈ (memcpy m dest b.address (max n 16)).2, c.InPayload b x) ↔ n ≤ c.payloadLength b := by
  rcases hOk.block_bounds hb with ⟨hMin, hWord⟩
  constructor
  · intro hInside
    by_contra hGrows
    -- the first byte behind the payload is read
    have hAt : u64 (b.address + c.payloadLength b) = b.address + c.payloadLength b :=
      u64_of_lt hWord
    have hRead := hInside (b.address + c.payloadLength b) (mem_memcpy_reads.mpr
      ⟨c.payloadLength b, by omega, hAt.symm⟩)
    exact Nat.lt_irrefl _ hRead.2
  intro hFits x hx
  rcases mem_memcpy_reads.mp hx with ⟨i, hi, hEq⟩
  rw [u64_of_lt (by omega)] at hEq
  exact ⟨by omega, by omega⟩

theorem Served.apart {size address : Nat} {a g : Segment}
    (hServed : Served guarded mode s segs size address s' segs' a) (hg : g ∈ segs)
    (hUsed : g.free = false) : g.address + g.size ≤ a.address ∨ a.address + a.size ≤ g.address := by
  have hIn := hServed.keeps g hg hUsed
  have hDiffer : g ≠ a := by
    intro hEq
    exact hServed.fresh g hg hUsed (by rw [hEq])
  exact hServed.sound.tiled.apart hIn hServed.mem hDiffer

private theorem moved_outside {m : Memory} {dest src n x : Nat} (hDest : dest + n * 16 ≤ 2 ^ 64)
    (hx : x < dest ∨ dest + n * 16 ≤ x) :
    (memcpy (m.fill dest 0 (n * 16)) dest src n).1 x = m x := by
  rw [memcpy_outside (by omega) (by omega), fill_outside _ _ hx]

theorem Consistent.realloc_block {fuel n : Nat} {r : Reallocated} (hOk : Consistent c segs)
    (hb : b ∈ c.live) (hWord : max n 16 * 16 < 2 ^ 64) (hRoom : HasRoom c.heap segs (max n 16 * 16))
    (hRealloc : realloc mode fuel c.heap b.address n = some r) : r.address ≠ 0 ∧
    ((∀ x ∈ r.reads, c.InPayload b x) ↔ n ≤ c.payloadLength b) ∧
    (∀ i, i < min (c.payloadLength b) n → r.heap.memory (r.address + i) =
    c.heap.memory (b.address + i)) ∧ r.heap.isFree (b.address - 32) = false := by
  rcases hOk.held b hb with ⟨g, hg, hHeld⟩
  have hStart := hOk.sound.placed.2
  have hPlace := hHeld.2.1
  have hBounds := hOk.block_bounds hb
  rw [realloc_of_block (by omega) (by omega) hWord] at hRealloc
  rcases map_eq_some_iff.mp hRealloc with ⟨⟨A, s₁⟩, hMalloc, hEq⟩
  have hRounded : roundSize (max n 16 * 16) = max n 16 * 16 :=
    roundSize_rounded (by omega) (by omega)
  rw [← hRounded] at hRoom
  have hTop := malloc_heapTop_lt hOk.sound hOk.quiet (fun _ => hRoom) hWord hMalloc
  have hGuard : Sound (fun x => c.InPayload b x) c.heap segs := hOk.guard (fun x hx => ⟨b, hb, hx⟩)
  rcases malloc_spec hGuard hOk.quiet (fun _ => hRoom.canServe) hWord hMalloc hTop with
    ⟨hWraps, _, _⟩ | ⟨segs', a, hServed⟩
  · omega
  have hIn := hServed.keeps g hg hHeld.1
  have hApart := hServed.apart hg hHeld.1
  have hNew := hServed.sound.bounds hServed.mem
  have hOld := hServed.sound.bounds hIn
  have hLong := hServed.size
  have hAddress := hServed.address
  have hLength := hOk.payloadLength_eq hg hHeld
  simp only [Segment.size] at hApart hNew hOld
  dsimp only at hEq
  rw [if_pos (by omega)] at hEq
  subst hEq
  refine ⟨by dsimp only; omega, memcpy_reads_iff hOk hb, ?_, ?_⟩
  · intro i hi
    have hAt : u64 (b.address + i) = b.address + i := u64_of_lt (by omega)
    dsimp only
    rw [memcpy_byte (by omega) (by omega) (by rw [hAt]; omega), hAt, fill_outside _ _ (by omega)]
    exact hServed.spared.memory_eq (malloc_recorded hMalloc) ⟨by omega, by omega⟩
  have hHeader : b.address - 32 = g.address := by
    omega
  have hFlag := (hServed.sound.fields g hIn).2
  rw [hHeld.1] at hFlag
  rw [← hFlag, hHeader]
  unfold SegmentHeap.isFree SegmentHeap.get
  have hAgree : AgreeOn (memcpy (s₁.memory.fill A 0 (max n 16 * 16)) A
    b.address (max n 16)).1
    s₁.memory (g.address + HeaderField.isFree.offset) HeaderField.isFree.width := by
    intro x hLow hHigh
    simp only [HeaderField.offset, HeaderField.width] at hLow hHigh
    exact moved_outside (by omega) (by omega)
  rw [load_congr hAgree]

theorem Consistent.realloc_returns {n : Nat} (mode : LastUpdates) (hOk : Consistent c segs)
    (hb : b ∈ c.live) (hWord : max n 16 * 16 < 2 ^ 64)
    (hRoom : HasRoom c.heap segs (max n 16 * 16)) :
    ∃ fuel r, realloc mode fuel c.heap b.address n = some r := by
  rcases hOk.held b hb with ⟨g, _, hHeld⟩
  have hStart := hOk.sound.placed.2
  have hPlace := hHeld.2.1
  have hRounded : roundSize (max n 16 * 16) = max n 16 * 16 :=
    roundSize_rounded (by omega) (by omega)
  rw [← hRounded] at hRoom
  rcases mallocCalls_returns mode hOk.sound hOk.quiet hWord (by omega) hRoom with
    ⟨fuel, calls, address, s', hCall, _, _⟩
  have hMalloc : SegmentHeap.malloc mode fuel c.heap (max n 16 * 16) = some (address, s') := by
    rw [malloc_eq_mallocCalls, hCall, map_some]
  refine ⟨fuel, isSome_iff_exists.mp ?_⟩
  rw [realloc_of_block (by omega) (by omega) hWord, hMalloc, map_some, isSome_some]

inductive Reached : LastUpdates → HeapClients → Prop
| default (m : Memory) {heapAddress pageCount : Nat} {es : List HeapEvent} {c : HeapClients} :
    heapAddress % 4096 = 0 → heapAddress ≠ 0 → 1 ≤ pageCount → Run DefaultStep
          ⟨initHeap m heapAddress pageCount, []⟩ es c → c.heap.heapTop < 2 ^ 64 → Reached .kept c
| xalloc (m : Memory) {base : Nat} {es : List HeapEvent} {c : HeapClients} :
    base % 4096 = 0 → base ≠ 0 → base + 16 * 4096 < 2 ^ 64 →
        Run XallocSafeStep ⟨allocatorV1 m base, []⟩ es c → Reached .lost c

theorem Reached.consistent (hReached : Reached mode c) : ∃ segs, Consistent c segs := by
  cases hReached with
  | default m hAligned hNonnull hPages hRun hTop =>
    rcases DefaultOk.run m hAligned hNonnull hPages hRun hTop with ⟨segs, hOk, _⟩
    exact ⟨segs, hOk⟩
  | xalloc m hAligned hNonnull hBase hRun =>
    exact consistent_of_safe_run m hAligned hNonnull hBase hRun

theorem realloc_copies {n : Nat} (hReached : Reached mode c) (hb : b ∈ c.live)
    (hWord : max n 16 * 16 < 2 ^ 64) (hRight : LastSegmentRight c.heap (max n 16 * 16)) :
    (∃ fuel r, realloc mode fuel c.heap b.address n = some r) ∧ ∀ fuel r,
    realloc mode fuel c.heap b.address n = some r → r.address ≠ 0 ∧
    ((∀ x ∈ r.reads, c.InPayload b x) ↔ n ≤ c.payloadLength b) ∧
    (∀ i, i < min (c.payloadLength b) n → r.heap.memory (r.address + i) =
    c.heap.memory (b.address + i)) ∧ r.heap.isFree (b.address - 32) = false := by
  rcases hReached.consistent with ⟨segs, hOk⟩
  have hRoom := hRight.hasRoom hOk.sound
  exact ⟨hOk.realloc_returns mode hb hWord hRoom, fun fuel r hRealloc =>
      hOk.realloc_block hb hWord hRoom hRealloc⟩

def shortBlock : HeapClients :=
  ⟨afterMalloc .kept onePage 16, [⟨0x100020, 16⟩]⟩

theorem shortBlock_run : Run DefaultStep ⟨onePage, []⟩ [.malloc 16 0x100020] shortBlock := by
  apply Run.snoc Run.nil
  exact ⟨by decide, malloc_afterMalloc (by decide +kernel), rfl⟩

theorem realloc_copies_shortBlock : ∃ fuel r,
    realloc .kept fuel shortBlock.heap 0x100020 16 = some r ∧
    (∀ x ∈ r.reads, shortBlock.InPayload ⟨0x100020, 16⟩ x) ∧ r.heap.isFree 0x100000 = false := by
  have hReached : Reached .kept shortBlock := Reached.default (fun _ => 0) (by decide) (by decide)
      (by decide) shortBlock_run (by decide +kernel)
  have hLength : shortBlock.payloadLength ⟨0x100020, 16⟩ = 16 := by
    decide +kernel
  have hNext : Reaches shortBlock.heap 0x100030 :=
    Relation.ReflTransGen.tail Relation.ReflTransGen.refl ⟨by decide +kernel, by decide⟩
  rcases realloc_copies (n := 16) hReached (b := ⟨0x100020, 16⟩) (by decide) (by decide)
    (.inl ⟨0x100030, hNext, by decide +kernel⟩) with ⟨⟨fuel, r, hRealloc⟩, hAll⟩
  rcases hAll fuel r hRealloc with ⟨_, hReads, _, hUsed⟩
  refine ⟨fuel, r, hRealloc, hReads.mpr ?_, hUsed⟩
  rw [hLength]

theorem realloc_reads_past : ∃ c r fuel, Run DefaultStep ⟨onePage, []⟩ [.malloc 16 0x100020] c ∧
    ⟨0x100020, 16⟩ ∈ c.live ∧ realloc .kept fuel c.heap 0x100020 32 = some r ∧
    (∃ x ∈ r.reads, ¬ c.InPayload ⟨0x100020, 16⟩ x) ∧ r.heap.isFree 0x100000 = false := by
  have hFacts : (realloc .kept 4 shortBlock.heap 0x100020 32).map
        (fun r => (decide (0x100030 ∈ r.reads), r.heap.isFree 0x100000)) =
      some (true, false) := by
    decide +kernel
  rcases map_eq_some_iff.mp hFacts with ⟨r, hRealloc, hPair⟩
  rcases Prod.mk.inj hPair with ⟨hRead, hUsed⟩
  refine ⟨shortBlock, r, 4, shortBlock_run, by decide,
    hRealloc, ⟨0x100030, of_decide_eq_true hRead, ?_⟩, hUsed⟩
  have hLength : shortBlock.payloadLength ⟨0x100020, 16⟩ = 16 := by
    decide +kernel
  rintro ⟨_, hHigh⟩
  rw [hLength] at hHigh
  exact absurd hHigh (by decide)

end Fennix
