import Fennix.Heap.Allocation
import Fennix.Library.Run

/-
  A segment heap and the clients that hold its blocks.

  Clients allocate, release blocks they hold and write to the payloads of their blocks.
-/

namespace Fennix

open List Segment

variable {e : HeapEvent} {g : Segment} {b : Block} {x address : Nat}

open SegmentHeap

structure Block where
  address : Nat
  size : Nat
deriving DecidableEq, Repr

structure HeapClients where
  heap : SegmentHeap
  live : List Block

namespace HeapClients

def payloadLength (c : HeapClients) (b : Block) : Nat :=
  c.heap.get (b.address - 32) .length

def InPayload (c : HeapClients) (b : Block) (x : Nat) : Prop :=
  b.address ≤ x ∧ x < b.address + c.payloadLength b

def DisjointPayloads (c : HeapClients) : Prop :=
  c.live.Pairwise (fun b k => ∀ x, ¬ (c.InPayload b x ∧ c.InPayload k x))

end HeapClients

inductive HeapEvent where
| malloc (size address : Nat)
| free (address : Nat)
| write (address : Nat) (byte : BitVec 8)
deriving DecidableEq, Repr

def HeapEvent.Does (mode : LastUpdates) (c : HeapClients) : HeapEvent → HeapClients → Prop
| .malloc size address, c' =>
  size < 2 ^ 64 ∧ (∃ fuel, SegmentHeap.malloc mode fuel c.heap size = some (address, c'.heap)) ∧
      c'.live =
        if address = 0 then c.live
        else ⟨address, size⟩ :: c.live
| .free address, c' =>
  (∃ b ∈ c.live, b.address = address) ∧ c'.heap = c.heap.free mode address ∧
      c'.live = c.live.filter (fun b => b.address ≠ address)
| .write address byte, c' =>
  (∃ b ∈ c.live, c.InPayload b address) ∧ c'.heap = { c.heap with
          memory := c.heap.memory.write address byte } ∧
      c'.live = c.live

def Lasting (c c' : HeapClients) (x : Nat) : Prop :=
  ∃ b ∈ c.live, b ∈ c'.live ∧ c.InPayload b x

theorem HeapEvent.Does.heapTop_le {mode : LastUpdates} {c c' : HeapClients}
    (hDoes : e.Does mode c c') : c.heap.heapTop ≤ c'.heap.heapTop := by
  cases e with
  | malloc size address =>
    rcases hDoes with ⟨_, ⟨fuel, hMalloc⟩, _⟩
    exact malloc_heapTop hMalloc
  | free address =>
    rcases hDoes with ⟨_, hHeap, _⟩
    rw [hHeap, free_heapTop]
  | write address byte =>
    rcases hDoes with ⟨_, hHeap, _⟩
    rw [hHeap]

------ Consistency

def HeldIn (g : Segment) (b : Block) : Prop :=
  g.free = false ∧ b.address = g.address + 32 ∧ b.size ≤ g.length

structure Consistent (c : HeapClients) (segs : List Segment) : Prop where
  sound : Sound (fun _ => False) c.heap segs
  quiet : Quiet segs
  held : ∀ b ∈ c.live, ∃ g ∈ segs, HeldIn g b
  distinct : c.live.Pairwise (fun b k => b.address ≠ k.address)

variable {guarded : Nat → Prop} {mode : LastUpdates} {c c' : HeapClients}
variable {segs segs' : List Segment}
variable {s : SegmentHeap}

theorem Sound.unguard (hSound : Sound guarded s segs) : Sound (fun _ => False) s segs :=
  { hSound with
    clear :=
      ⟨fun _ _ _ _ _ h => h, fun _ _ _ _ _ _ h => h, fun _ _ h => h, fun _ _ h => h⟩ }

section

variable (hOk : Consistent c segs)

include hOk

theorem Consistent.payloadLength_eq (hg : g ∈ segs) (hHeld : HeldIn g b) :
    c.payloadLength b = g.length := by
  unfold HeapClients.payloadLength
  rw [hHeld.2.1, Nat.add_sub_cancel]
  exact (hOk.sound.fields g hg).1

theorem Consistent.inPayload_bounds (hg : g ∈ segs) (hHeld : HeldIn g b) (hx : c.InPayload b x) :
    g.address + 32 ≤ x ∧ x < g.address + g.size := by
  rcases hx with ⟨hLow, hHigh⟩
  rw [hOk.payloadLength_eq hg hHeld] at hHigh
  rw [hHeld.2.1] at hLow hHigh
  simp only [size]
  omega

theorem Consistent.disjoint : c.DisjointPayloads := by
  apply List.Pairwise.imp_of_mem _ hOk.distinct
  intro b k hb hk hNe x hBoth
  rcases hOk.held b hb with ⟨g, hg, hHeldB⟩
  rcases hOk.held k hk with ⟨h, hh, hHeldK⟩
  have hInB := hOk.inPayload_bounds hg hHeldB hBoth.1
  have hInK := hOk.inPayload_bounds hh hHeldK hBoth.2
  have hDiffer : g ≠ h := by
    intro hEq
    apply hNe
    rw [hHeldB.2.1, hHeldK.2.1, hEq]
  have hApart := hOk.sound.tiled.apart hg hh hDiffer
  omega

theorem Consistent.guard (hGuarded : ∀ x, guarded x → ∃ b ∈ c.live, c.InPayload b x) :
    Sound guarded c.heap segs := by
  have hInside : ∀ x, guarded x → ∃ g ∈ segs, g.free = false ∧
    g.address + 32 ≤ x ∧ x < g.address + g.size := by
    intro x hx
    rcases hGuarded x hx with ⟨b, hb, hIn⟩
    rcases hOk.held b hb with ⟨g, hg, hHeld⟩
    exact ⟨g, hg, hHeld.1, hOk.inPayload_bounds hg hHeld hIn⟩
  refine { hOk.sound with clear := ⟨?_, ?_, ?_, ?_⟩ }
  · intro g hg x hLow hHigh hx
    rcases hInside x hx with ⟨k, hk, _, hFrom, hTo⟩
    have hSize : g.address + 32 ≤ g.address + g.size := by
      simp only [size]
      omega
    by_cases hEq : g = k
    · rw [hEq] at hHigh
      omega
    · have hApart := hOk.sound.tiled.apart hg hk hEq
      omega
  · intro g hg hFree x hLow hHigh hx
    rcases hInside x hx with ⟨k, hk, hUsed, hFrom, hTo⟩
    have hDiffer : g ≠ k := by
      intro hEq
      rw [hEq, hUsed] at hFree
      cases hFree
    have hApart := hOk.sound.tiled.apart hg hk hDiffer
    omega
  · intro x hPast hx
    rcases hInside x hx with ⟨k, hk, _, _, hTo⟩
    have hBounds := hOk.sound.bounds hk
    omega
  · intro x hBelow hx
    rcases hInside x hx with ⟨k, hk, _, hFrom, _⟩
    have hBounds := hOk.sound.tiled.mem_bounds hk
    omega

end

structure Stepped (mode : LastUpdates) (c : HeapClients) (segs : List Segment) (c' : HeapClients)
    (segs' : List Segment) : Prop where
  consistent : Consistent c' segs'
  start : c'.heap.heapStart = c.heap.heapStart
  spared : Spared (Lasting c c') c.heap c'.heap
  last : mode = .kept → LastIs c.heap segs → LastIs c'.heap segs'

variable {size : Nat}

section

variable (hOk : Consistent c segs)

include hOk

theorem Consistent.guard_lasting (c' : HeapClients) : Sound (Lasting c c') c.heap segs := by
  apply hOk.guard
  rintro x ⟨b, hb, _, hIn⟩
  exact ⟨b, hb, hIn⟩

theorem Consistent.malloc (hServe : roundSize size ≠ 0 → CanServe c.heap segs (roundSize size))
    (hDoes : (HeapEvent.malloc size address).Does mode c c') (hTop : c'.heap.heapTop < 2 ^ 64) :
    ∃ segs', Stepped mode c segs c' segs' := by
  rcases hDoes with ⟨hSize, ⟨fuel, hMalloc⟩, hLive⟩
  rcases malloc_spec (hOk.guard_lasting c') hOk.quiet hServe hSize hMalloc hTop with
    ⟨_, hNull, hSame⟩ | ⟨segs', a, hServed⟩
  · rw [if_pos hNull] at hLive
    refine ⟨segs, ⟨?_, hOk.quiet, ?_, ?_⟩, ?_, ?_, ?_⟩
    · rw [hSame]
      exact hOk.sound
    · rw [hLive]
      exact hOk.held
    · rw [hLive]
      exact hOk.distinct
    · rw [hSame]
    · rw [hSame]
      exact Spared.refl
    · intro _ hLast
      rw [hSame]
      exact hLast
  have hAddress := hServed.address
  rw [if_neg (by omega)] at hLive
  refine ⟨segs', ⟨hServed.sound.unguard, hServed.quiet,
    ?_, ?_⟩, hServed.start, hServed.spared, hServed.last⟩
  · rw [hLive]
    intro b hb
    rcases mem_cons.mp hb with hEq | hOld
    · rw [hEq]
      exact ⟨a, hServed.mem, hServed.used, hAddress, hServed.size⟩
    · rcases hOk.held b hOld with ⟨g, hg, hHeld⟩
      exact ⟨g, hServed.keeps g hg hHeld.1, hHeld⟩
  rw [hLive]
  refine pairwise_cons.mpr ⟨?_, hOk.distinct⟩
  intro b hb hEq
  rcases hOk.held b hb with ⟨g, hg, hHeld⟩
  apply hServed.fresh g hg hHeld.1
  have hBlock := hHeld.2.1
  have hNew : address = b.address := hEq
  omega

theorem Consistent.free (hDoes : (HeapEvent.free address).Does mode c c') :
    ∃ segs', Stepped mode c segs c' segs' := by
  rcases hDoes with ⟨⟨b, hb, hAddress⟩, hHeap, hLive⟩
  rcases hOk.held b hb with ⟨a, ha, hHeld⟩
  rcases append_of_mem ha with ⟨pre, post, hShape⟩
  have hGuarded := hOk.guard_lasting c'
  -- the blocks that remain are in other segments
  have hOther : ∀ k ∈ c'.live, k ∈ c.live ∧ k.address ≠ address := by
    intro k hk
    rw [hLive] at hk
    rcases mem_filter.mp hk with ⟨hIn, hNe⟩
    exact ⟨hIn, by simpa using hNe⟩
  have hUnguarded : Unguarded (Lasting c c') a.address a.size := by
    rintro x hLow hHigh ⟨k, hk, hStays, hIn⟩
    rcases hOk.held k hk with ⟨g, hg, hHeldK⟩
    have hInside := hOk.inPayload_bounds hg hHeldK hIn
    have hDiffer : a ≠ g := by
      intro hEq
      apply (hOther k hStays).2
      rw [hHeldK.2.1, ← hEq, ← hHeld.2.1, hAddress]
    have hApart := hOk.sound.tiled.apart ha hg hDiffer
    omega
  have hQuiet := hOk.quiet
  rw [hShape] at hGuarded hQuiet
  have hBlock : address = a.address + 32 := by
    rw [← hAddress]
    exact hHeld.2.1
  rcases free_spec hGuarded hQuiet hUnguarded hBlock hHeap.symm with
    ⟨segs', hEdited, hQuiet', hKeeps⟩
  rw [← hShape] at hEdited
  refine ⟨segs', ⟨hEdited.sound.unguard, hQuiet', ?_, ?_⟩, hEdited.extent.1, hEdited.spared,
    hEdited.last⟩
  · intro k hk
    rcases hOther k hk with ⟨hOld, hNe⟩
    rcases hOk.held k hOld with ⟨g, hg, hHeldK⟩
    refine ⟨g, hKeeps g ?_ hHeldK.1, hHeldK⟩
    rw [hShape] at hg
    rcases mem_middle_cases hg with hEq | hIn
    · refine (hNe ?_).elim
      rw [hHeldK.2.1, hEq, hBlock]
    · exact hIn
  · rw [hLive]
    exact List.Pairwise.filter _ hOk.distinct

theorem Consistent.get_write (hg : g ∈ segs) (hb : b ∈ c.live) (hIn : c.InPayload b x)
    (byte : BitVec 8) (f : HeaderField) : ({ c.heap with
    memory := c.heap.memory.write x byte } : SegmentHeap).get g.address f =
    c.heap.get g.address f := by
  rcases hOk.held b hb with ⟨k, hk, hHeld⟩
  have hInside := hOk.inPayload_bounds hk hHeld hIn
  have hRange : f.offset + f.width ≤ 32 := by
    cases f <;> decide
  have hSize : g.address + 32 ≤ g.address + g.size := by
    simp only [size]
    omega
  apply Memory.load_write_other
  by_cases hEq : g = k
  · rw [hEq]
    omega
  · have hApart := hOk.sound.tiled.apart hg hk hEq
    omega

theorem Consistent.write {byte : BitVec 8} (hDoes : (HeapEvent.write x byte).Does mode c c') :
    Stepped mode c segs c' segs := by
  rcases hDoes with ⟨⟨b, hb, hIn⟩, hHeap, hLive⟩
  have hGet : ∀ g ∈ segs, ∀ f, c'.heap.get g.address f = c.heap.get g.address f := by
    intro g hg f
    rw [hHeap]
    exact hOk.get_write hg hb hIn byte f
  have hLinks : ∀ f, ∀ h ∈ segs.map address, c'.heap.get h f = c.heap.get h f := by
    intro f h hh
    rcases mem_map.mp hh with ⟨g, hg, hEq⟩
    rw [← hEq]
    exact hGet g hg f
  have hSound : Sound (fun _ => False) c'.heap segs := by
    refine ⟨?_, ?_, ?_, hOk.sound.sized, ?_, ?_, ?_, ?_, ?_⟩
    · exact hOk.sound.linked.congr (hLinks .next) (hLinks .last)
    · intro g hg
      rcases hOk.sound.fields g hg with ⟨hLength, hFlag⟩
      refine ⟨(hGet g hg .length).trans hLength, ?_⟩
      unfold isFree at *
      rw [hGet g hg .isFree]
      exact hFlag
    · rw [hHeap]
      exact hOk.sound.tiled
    · rw [hHeap]
      exact hOk.sound.placed
    · rw [hHeap]
      exact hOk.sound.room
    · rw [hHeap]
      exact hOk.sound.ends
    · rw [hHeap]
      exact hOk.sound.history
    · rw [hHeap]
      exact hOk.sound.clear
  refine ⟨⟨hSound, hOk.quiet, ?_, ?_⟩, ?_, ?_, ?_⟩
  · rw [hLive]
    exact hOk.held
  · rw [hLive]
    exact hOk.distinct
  · rw [hHeap]
  · rw [hHeap]
    exact Spared.refl
  · intro _ hLast
    rw [hHeap]
    exact hLast

theorem Consistent.step (hServe : ∀ size address, e = .malloc size address →
    roundSize size ≠ 0 → CanServe c.heap segs (roundSize size)) (hDoes : e.Does mode c c')
    (hTop : c'.heap.heapTop < 2 ^ 64) : ∃ segs', Stepped mode c segs c' segs' := by
  cases e with
  | malloc size address =>
    exact hOk.malloc (hServe size address rfl) hDoes hTop
  | free address =>
    exact hOk.free hDoes
  | write x byte =>
    exact ⟨segs, hOk.write hDoes⟩

end

theorem start_fields (m : Memory) (base heapLength heapTop : Nat) :
    (start m base heapLength heapTop).get base .next = 0 ∧
    (start m base heapLength heapTop).get base .last = 0 ∧
    (start m base heapLength heapTop).get base .length = sub64 heapLength headerSize ∧
    (start m base heapLength heapTop).isFree base = true := by
  have hFit : sub64 heapLength headerSize < 2 ^ 64 := by
    unfold sub64 u64
    exact Nat.mod_lt _ (by decide)
  have hSame : base = base ∨ Apart base base := Or.inl rfl
  unfold start
  dsimp only
  refine ⟨?_, ?_, ?_, ?_⟩
  · rw [get_set_field _ _ hSame (by decide), get_set_field _ _ hSame (by decide),
      get_set_self _ _ _ (by decide)]
  · rw [get_set_field _ _ hSame (by decide), get_set_self _ _ _ (by decide)]
  · rw [get_set_field _ _ hSame (by decide), get_set_field _ _ hSame (by decide),
      get_set_field _ _ hSame (by decide), get_set_self _ _ _ hFit]
  · unfold isFree
    rw [get_set_self _ _ _ (by decide)]
    rfl

theorem Consistent.start (m : Memory) {base heapLength : Nat} (hAligned : base % 16 = 0)
    (hLow : 32 ≤ base) (hMin : 48 ≤ heapLength) (hMod : heapLength % 16 = 0)
    (hTop : base + heapLength < 2 ^ 64) : Consistent
    ⟨start m base heapLength (base + heapLength), []⟩
    [⟨base, heapLength - 32, true⟩] := by
  rcases start_fields m base heapLength (base + heapLength) with ⟨hNext, hLast, hLength, hFree⟩
  have hSub : sub64 heapLength headerSize = heapLength - 32 :=
    sub64_of_le (by rw [headerSize]; omega) (by omega)
  have hEnd : u64 (base + heapLength) = base + heapLength := u64_of_lt hTop
  rw [hSub] at hLength
  refine ⟨⟨⟨hNext, hLast, trivial⟩, ?_, ⟨rfl, ?_⟩, ?_, ⟨hAligned, hLow⟩, ?_, ⟨hEnd, hTop⟩,
    List.Perm.refl _, ?_⟩, isChain_singleton _, ?_, List.Pairwise.nil⟩
  · intro g hg
    rw [mem_singleton] at hg
    rw [hg]
    exact ⟨hLength, hFree⟩
  · show base + (32 + (heapLength - 32)) = base + heapLength
    omega
  · intro g hg
    rw [mem_singleton] at hg
    rw [hg]
    dsimp only
    omega
  · show base < base + heapLength
    omega
  · exact ⟨fun _ _ _ _ _ h => h, fun _ _ _ _ _ _ h => h, fun _ _ h => h, fun _ _ h => h⟩
  · intro b hb
    cases hb

theorem Consistent.aligned (hOk : Consistent c segs) (hb : b ∈ c.live) : b.address % 16 = 0 := by
  rcases hOk.held b hb with ⟨g, hg, hHeld⟩
  have hDvd : 16 ∣ g.address := by
    apply hOk.sound.tiled.dvd_place _ _ hg
    · exact Nat.dvd_of_mod_eq_zero hOk.sound.placed.1
    intro k hk
    have hSized := (hOk.sound.sized k hk).2
    simp only [size]
    omega
  have hAddress := hHeld.2.1
  omega

------ Runs on the Null Address and on Given Sizes

theorem HeapEvent.Does.null (hStart : c.heap.heapStart = 0) (hLive : c.live = [])
    (hStep : e.Does mode c c') : c' = c := by
  have hSame : c'.heap = c.heap → c'.live = c.live → c' = c := by
    intro hHeap hBlocks
    cases c
    cases c'
    cases hHeap
    cases hBlocks
    rfl
  cases e with
  | malloc size address =>
    rcases hStep with ⟨_, ⟨fuel, hMalloc⟩, hBlocks⟩
    cases fuel with
    | zero => cases hMalloc
    | succ fuel =>
      rw [SegmentHeap.malloc, if_pos hStart] at hMalloc
      have hPair := Prod.mk.inj (Option.some.inj hMalloc)
      rw [if_pos hPair.1.symm] at hBlocks
      exact hSame hPair.2.symm hBlocks
  | free address =>
    rcases hStep with ⟨⟨b, hb, _⟩, _⟩
    rw [hLive] at hb
    cases hb
  | write x byte =>
    rcases hStep with ⟨⟨b, hb, _⟩, _⟩
    rw [hLive] at hb
    cases hb

def afterMalloc (mode : LastUpdates) (s : SegmentHeap) (size : Nat) : SegmentHeap :=
  ((malloc mode 4 s size).getD (0, s)).2

theorem malloc_afterMalloc (h : (malloc mode 4 s size).map Prod.fst = some address) :
    ∃ fuel, malloc mode fuel s size = some (address, afterMalloc mode s size) := by
  refine ⟨4, ?_⟩
  unfold afterMalloc
  cases hResult : malloc mode 4 s size with
  | none =>
    rw [hResult] at h
    cases h
  | some answer =>
    rw [hResult] at h
    rw [← Option.some.inj h]
    rfl

end Fennix
