import Fennix.VMM.Permissions

/-
  The kernel's own image in the kernel's table.
-/

namespace Fennix

open PageDirectoryEntry PageFrameAllocator KernelTables Option BitVec PageMapIndexer

------ The Entry of a Page

def PageMapIndexer.stem (indexer : PageMapIndexer) : List (Fin 512) :=
  [indexer.pdp, indexer.pd, indexer.pt]

theorem length_stem_le (indexer : PageMapIndexer) : indexer.stem.length ≤ 3 :=
  Nat.le_refl 3

def translate (m : Memory) (pml4 v : BitVec 64) : Option (BitVec 64) :=
  match walk m pml4 v with
  | .page p => some (p + BitVec.ofNat 64 (v.toNat % 4096))
  | .notPresent => none
  | .reservedBit => none

def leafEntry (m : Memory) (pml4 v : BitVec 64) : Option PageDirectoryEntry :=
  (follow (child m) pml4 (of v).stem).map
    (fun t => readEntry m t (of v).p)

structure LeafAt (pml4 v : BitVec 64) (entry : Option (BitVec 64)) (writable : Bool)
    (s : PageFrameAllocator) : Prop extends LeadsTo pml4 v entry s where
  flag : flagAt s.memory pml4 1 (of v).stem (of v).p = writable

section Leaf

variable {pml4 v : BitVec 64} {entry : Option (BitVec 64)} {writable : Bool}
variable {s s' : PageFrameAllocator} {p t flags stop : BitVec 64}
variable {x : BitVec 64 × PageFrameAllocator} {start base : BitVec 64}

theorem LeafAt.leafEntry_eq (h : LeafAt pml4 v (some p) writable s) :
    ∃ pte, leafEntry s.memory pml4 v = some pte ∧ pte.getFlag PTFlag.RW = writable := by
  have hLookup := h.lookup
  rw [lookup, follow_snoc] at hLookup
  rcases bind_eq_some_iff.mp hLookup with ⟨t, hFollow, _⟩
  have hTable : follow (child s.memory) pml4 (of v).stem = some t := hFollow
  have hFlag := h.flag
  rw [flagAt_of_follow hTable] at hFlag
  refine ⟨readEntry s.memory t (of v).p, ?_, ?_⟩
  · rw [leafEntry, hTable]
    rfl
  · rw [RW_eq_twoPow, getFlag_twoPow _ 1 (by decide)]
    exact hFlag

theorem passes_iff_samePage (v t : BitVec 64) : ((of t).path.take ((of v).stem.length + 1) =
    (of v).stem ++ [(of v).p]) ↔ SamePage v t := by
  rw [← of_eq_iff, ← path_inj]
  exact eq_comm

section

variable (h : LeafAt pml4 v entry writable s)

include h

theorem LeafAt.mapMemory (hFlags : TableFlags flags)
    (hCall : mapMemory pml4 s t p flags = some s') : LeafAt pml4 v
    (if SamePage v t then some (framePage p) else entry)
    (if SamePage v t then writable || flags.getLsbD 1 else writable) s' := by
  refine ⟨h.toLeadsTo.mapMemory hFlags hCall, ?_⟩
  rw [h.mapped.flagAt_mapMemory hFlags hCall (by decide) (length_stem_le _), h.flag]
  by_cases hSame : SamePage v t
  · rw [if_pos hSame, if_pos ⟨(passes_iff_samePage v t).mpr hSame, Or.inl rfl⟩]
    simp [stamped]
  · rw [if_neg hSame, if_neg (fun hBoth => hSame ((passes_iff_samePage v t).mp hBoth.1))]

theorem LeafAt.mapMemory_other (hFlags : TableFlags flags) (hOther : ¬ SamePage v t)
    (hCall : KernelTables.mapMemory pml4 s t p flags = some s') :
    LeafAt pml4 v entry writable s' := by
  have hAfter := h.mapMemory hFlags hCall
  rw [if_neg hOther, if_neg hOther] at hAfter
  exact hAfter

theorem LeafAt.lockPage (address : Nat) : LeafAt pml4 v entry writable (s.lockPage address) := by
  refine ⟨h.toLeadsTo.lockPage address, ?_⟩
  exact (h.mapped.flagAt_take (onlyBits_takePage .used s address) (takes_lockPage s address).used 1
    (length_stem_le _) _).trans h.flag

end

theorem leafAt_createRoot (hReady : Ready s) (h : createRoot s = some (pml4, s')) (v : BitVec 64) :
    LeafAt pml4 v none false s' := by
  rcases kernelMapped_createRoot hReady h with ⟨hMapped, _, m, hMemory⟩
  refine ⟨⟨hMapped, ?_⟩, ?_⟩
  · rw [hMemory]
    exact lookup_start m pml4 _
  · exact (flagsTold_start hMapped hMemory).pages 1 (by decide) _ rfl _

------ The Loops before the Image

variable {fuel : Nat}

theorem LeafAt.normalLoop (h : LeafAt pml4 v entry writable s)
    (hApart : ∀ t < stop, ¬ SamePage v t ∧
    ¬ SamePage v (normalVMAOffset + t))
    (hLoop : loopUp 4096 stop (mapNormal pml4) fuel 0 (normalVMAOffset, s) = some x) :
    LeafAt pml4 v entry writable x.2 := by
  have hEnd := loopUp_invariant (P := fun t x => x.1 = normalVMAOffset + t ∧
      LeafAt pml4 v entry writable x.2) ?_ ⟨(add_zero _).symm, h⟩ hLoop
  · rcases hEnd with ⟨_, _, _, hLast⟩
    exact hLast
  rintro t ⟨offset, s₁⟩ x' ⟨hOffset, hLeaf⟩ hBelow hRound
  have hOffset' : offset = normalVMAOffset + t := hOffset
  rcases hApart t hBelow with ⟨hLow, hHigh⟩
  rcases bind_eq_some_iff.mp hRound with ⟨s₂, hFirst, hRest⟩
  rcases bind_eq_some_iff.mp hRest with ⟨s₃, hSecond, hEq⟩
  rw [← some.inj hEq]
  refine ⟨?_, ?_⟩
  · change offset + 4096 = _
    rw [hOffset', add_assoc]
  rw [hOffset'] at hSecond
  exact (LeafAt.mapMemory_other hLeaf tableFlags_RW_US
    hLow hFirst).mapMemory_other tableFlags_RW_US hHigh hSecond

theorem LeafAt.framebufferLoop (h : LeafAt pml4 v entry writable s)
    (hApart : ∀ t, start ≤ t → t < stop → ¬ SamePage v t)
    (hLoop : loopUp 4096 stop (mapFramebuffer pml4) fuel start s = some s') :
    LeafAt pml4 v entry writable s' := by
  refine loopUp_keeps (by decide) ?_ h hLoop
  intro t s₁ s₂ hLow hBelow hLeaf hRound
  exact hLeaf.mapMemory_other tableFlags_RW_US (hApart t hLow hBelow) hRound

------ The Loops over the Image

def Covers (start stop v : BitVec 64) : Prop :=
  start.toNat ≤ v.toNat ∧ v.toNat < stop.toNat

instance (start stop v : BitVec 64) : Decidable (Covers start stop v) :=
  inferInstanceAs (Decidable (_ ∧ _))

def frameFrom (base start v : BitVec 64) : BitVec 64 :=
  BitVec.ofNat 64 (base.toNat + (v.toNat / 4096 * 4096 - start.toNat))

structure LoopLayout (base start stop : BitVec 64) : Prop where
  start_aligned : start.toNat % 4096 = 0
  stop_aligned : stop.toNat % 4096 = 0
  start_le : start.toNat ≤ stop.toNat
  base_aligned : base.toNat % 4096 = 0
  base_le : base.toNat + (stop.toNat - start.toNat) ≤ 2 ^ 52

structure Progress (pml4 v base start flags : BitVec 64) (entry : Option (BitVec 64))
    (writable : Bool) (s : PageFrameAllocator) (t : BitVec 64)
    (x : BitVec 64 × PageFrameAllocator) : Prop where
  cursor : x.1.toNat = base.toNat + (t.toNat - start.toNat)
  leaf : LeafAt pml4 v (if Covers start t v then
        some (frameFrom base start v) else entry)
      (if Covers start t v then
        writable || flags.getLsbD 1 else writable) x.2
  bits : x.2.bits = s.bits
  kept : ∀ q, s.used q = true → x.2.used q = true
  locked : Covers start t v → (frameFrom base start v).toNat / 4096 < s.bits →
      x.2.used ((frameFrom base start v).toNat / 4096) = true

theorem frameFrom_eq {cursor : BitVec 64} (hAligned : t.toNat % 4096 = 0)
    (hHere : v.toNat / 4096 = t.toNat / 4096)
    (hCursor : cursor.toNat = base.toNat + (t.toNat - start.toNat)) :
    frameFrom base start v = cursor := by
  have hPage : v.toNat / 4096 * 4096 = t.toNat := by omega
  apply eq_of_toNat_eq
  rw [frameFrom, toNat_ofNat, hPage, ← hCursor]
  exact Nat.mod_eq_of_lt cursor.isLt

theorem covers_next (hLow : start.toNat ≤ t.toNat) (hAligned : t.toNat % 4096 = 0)
    (hNext : (t + 4096).toNat = t.toNat + 4096) : Covers start (t + 4096) v ↔
    Covers start t v ∨ v.toNat / 4096 = t.toNat / 4096 := by
  rw [Covers, Covers, hNext]
  omega

theorem progress_round {s : PageFrameAllocator} {x' : BitVec 64 × PageFrameAllocator}
    (hFlags : TableFlags flags) (hLayout : LoopLayout base start stop)
    (hSame : Covers start stop t → t.toNat % 4096 = 0 → (SamePage v t ↔
    v.toNat / 4096 = t.toNat / 4096)) (hLow : start.toNat ≤ t.toNat)
    (hAligned : t.toNat % 4096 = 0) (hNext : (t + 4096).toNat = t.toNat + 4096)
    (h : Progress pml4 v base start flags entry writable s t x) (hBelow : t.toNat < stop.toNat)
    (hRound : mapKernel pml4 flags t x = some x') :
    Progress pml4 v base start flags entry writable s (t + 4096) x' := by
  rcases x with ⟨cursor, s₁⟩
  have hCursor : cursor.toNat = base.toNat + (t.toNat - start.toNat) := h.cursor
  have hBase := hLayout.base_le
  have hBaseAligned := hLayout.base_aligned
  have hStart := hLayout.start_aligned
  have hHere := hSame ⟨hLow, hBelow⟩ hAligned
  have hCovers := covers_next (v := v) hLow hAligned hNext
  rcases bind_eq_some_iff.mp hRound with ⟨s₂, hCall, hEq⟩
  rw [← some.inj hEq]
  have hLeaf := (h.leaf.mapMemory hFlags hCall).lockPage cursor.toNat
  rcases h.leaf.mapped.mapMemory hFlags hCall with ⟨_, hTakes, _⟩
  have hLock := takes_lockPage s₂ cursor.toNat
  have hBits₂ : s₂.bits = s.bits := (congrArg Bitmap.bits hTakes.pageBitmap).trans h.bits
  have hBits : (s₂.lockPage cursor.toNat).bits = s.bits :=
    (congrArg Bitmap.bits hLock.pageBitmap).trans hBits₂
  have hKept : ∀ q, s₁.used q = true → (s₂.lockPage cursor.toNat).used q = true :=
    fun q hq => hLock.used q (hTakes.used q hq)
  refine ⟨?_, ?_, hBits, fun q hq => hKept q (h.kept q hq), ?_⟩
  · change (cursor + 4096).toNat = _
    have hPage : (4096 : BitVec 64).toNat = 4096 := rfl
    rw [toNat_add, hCursor, hNext, hPage]
    omega
  · by_cases hv : v.toNat / 4096 = t.toNat / 4096
    · -- the page is mapped in this round
      have hBefore : ¬ Covers start t v := by
        rw [Covers]
        omega
      have hAfter : Covers start (t + 4096) v := hCovers.mpr (.inr hv)
      have hPage : IsPage cursor := by
        rw [IsPage]
        omega
      rw [if_pos (hHere.mpr hv), if_pos (hHere.mpr hv), if_neg hBefore,
        framePage_of_isPage hPage] at hLeaf
      rw [if_pos hAfter, if_pos hAfter, frameFrom_eq hAligned hv hCursor]
      exact hLeaf
    have hAlike : Covers start (t + 4096) v ↔ Covers start t v := hCovers.trans (or_iff_left hv)
    rw [if_neg (fun hPage => hv (hHere.mp hPage)),
      if_neg (fun hPage => hv (hHere.mp hPage))] at hLeaf
    simp only [hAlike]
    exact hLeaf
  · intro hAfter hFrame
    rcases hCovers.mp hAfter with hBefore | hv
    · exact hKept _ (h.locked hBefore hFrame)
    rw [frameFrom_eq hAligned hv hCursor] at hFrame ⊢
    refine (used_takePage .used s₂ cursor.toNat _).mpr (.inr ⟨rfl, ?_⟩)
    omega

theorem LeafAt.kernelLoop (h : LeafAt pml4 v entry writable s) (hFlags : TableFlags flags)
    (hLayout : LoopLayout base start stop)
    (hSame : ∀ t, Covers start stop t → t.toNat % 4096 = 0 → (SamePage v t ↔
    v.toNat / 4096 = t.toNat / 4096))
    (hLoop : loopUp 4096 stop (mapKernel pml4 flags) fuel start (base, s) = some x) :
    Progress pml4 v base start flags entry writable s stop x := by
  have hStart := hLayout.start_aligned
  have hStop := hLayout.stop_aligned
  have hPage : (4096 : BitVec 64).toNat = 4096 := rfl
  have hEnd := loopUp_invariant_up (P := fun t x => t.toNat ≤ stop.toNat ∧
      Progress pml4 v base start flags entry writable s t x)
    (by decide) ?_ ⟨hLayout.start_le, ?_⟩ hLoop
  · rcases hEnd with ⟨last, hPast, _, _, hLast, hProgress⟩
    have hSameEnd : last = stop := eq_of_toNat_eq (Nat.le_antisymm hLast (Nat.not_lt.mp hPast))
    rw [hSameEnd] at hProgress
    exact hProgress
  · rintro t x₁ x₂ hLow hAligned hNext ⟨_, hProgress⟩ hBelow hRound
    have hBefore : t.toNat < stop.toNat := hBelow
    rw [hPage] at hAligned hNext
    refine ⟨by omega, ?_⟩
    exact progress_round hFlags hLayout (hSame t) hLow (by omega) hNext hProgress hBefore hRound
  · have hNone : ¬ Covers start start v := by
      rw [Covers]
      omega
    refine ⟨?_, ?_, rfl, fun _ hq => hq, ?_⟩
    · rw [Nat.sub_self, Nat.add_zero]
    · rw [if_neg hNone, if_neg hNone]
      exact h
    · exact fun hSome => absurd hSome hNone

end Leaf

------ The Whole Image

structure ImageLayout (symbols : KernelSymbols) (early : EarlyParams) : Prop where
  start_aligned : symbols.kernelStart.toNat % 4096 = 0
  textEnd_aligned : symbols.kernelTextEnd.toNat % 4096 = 0
  roDataEnd_aligned : symbols.kernelRoDataEnd.toNat % 4096 = 0
  end_aligned : symbols.kernelEnd.toNat % 4096 = 0
  start_le : symbols.kernelStart.toNat ≤ symbols.kernelTextEnd.toNat
  textEnd_le : symbols.kernelTextEnd.toNat ≤ symbols.kernelRoDataEnd.toNat
  roDataEnd_le : symbols.kernelRoDataEnd.toNat ≤ symbols.kernelEnd.toNat
  base_aligned : early.kernelBasePhysical.toNat % 4096 = 0
  base_le : early.kernelBasePhysical.toNat + (symbols.kernelEnd.toNat - symbols.kernelStart.toNat) ≤
        2 ^ 52

def InImage (symbols : KernelSymbols) (v : BitVec 64) : Prop :=
  Covers symbols.kernelStart symbols.kernelEnd v

instance (symbols : KernelSymbols) (v : BitVec 64) : Decidable (InImage symbols v) :=
  inferInstanceAs (Decidable (Covers _ _ _))

def GBPFramebuffer.loopEnd (fb : GBPFramebuffer) : BitVec 64 :=
  fb.baseAddress + (fb.bufferSize + 4096)

structure ImageApart (symbols : KernelSymbols) (early : EarlyParams) : Prop where
  normal : ∀ v t, InImage symbols v → t < early.mem.size.toBitVec → ¬ SamePage v t ∧
        ¬ SamePage v (normalVMAOffset + t)
  framebuffer : ∀ v t, InImage symbols v → early.framebuffer.baseAddress ≤ t →
      t < early.framebuffer.loopEnd → ¬ SamePage v t
  image : ∀ v w, InImage symbols v → InImage symbols w →
    SamePage v w → v.toNat / 4096 = w.toNat / 4096

structure RangesApart (symbols : KernelSymbols) (early : EarlyParams) : Prop where
  normal : ∀ t < early.mem.size.toBitVec,
    ¬ InImage symbols t ∧ ¬ InImage symbols (normalVMAOffset + t)
  framebuffer : ∀ t, early.framebuffer.baseAddress ≤ t →
    t < early.framebuffer.loopEnd → ¬ InImage symbols t

structure RangesCanonical (symbols : KernelSymbols) (early : EarlyParams) : Prop where
  image : ∀ v, InImage symbols v → Canonical v
  normal : ∀ t < early.mem.size.toBitVec, Canonical t ∧
      Canonical (normalVMAOffset + t)
  framebuffer : ∀ t, early.framebuffer.baseAddress ≤ t →
    t < early.framebuffer.loopEnd → Canonical t

section Image

variable {symbols : KernelSymbols} {early : EarlyParams} {pml4 v : BitVec 64}
variable {s s' : PageFrameAllocator} {fuel : Nat} {start stop : BitVec 64}

theorem inImage_of_page (hLayout : ImageLayout symbols early) {w : BitVec 64}
    (hv : InImage symbols v) (hSame : v.toNat / 4096 = w.toNat / 4096) : InImage symbols w := by
  have hStart := hLayout.start_aligned
  have hEnd := hLayout.end_aligned
  rw [InImage, Covers] at hv ⊢
  omega

theorem imageApart_of_canonical (hLayout : ImageLayout symbols early)
    (hCanonical : RangesCanonical symbols early) (hApart : RangesApart symbols early) :
    ImageApart symbols early := by
  have hOther : ∀ v t, InImage symbols v → Canonical t → ¬ InImage symbols t →
    ¬ SamePage v t := by
    intro v t hv ht hOutside hSame
    rw [samePage_iff_of_canonical (hCanonical.image v hv) ht] at hSame
    exact hOutside (inImage_of_page hLayout hv hSame)
  refine ⟨?_, ?_, ?_⟩
  · intro v t hv ht
    rcases hCanonical.normal t ht with ⟨hLow, hHigh⟩
    rcases hApart.normal t ht with ⟨hFirst, hSecond⟩
    exact ⟨hOther v t hv hLow hFirst, hOther v _ hv hHigh hSecond⟩
  · intro v t hv hBase hEnd
    exact hOther v t hv (hCanonical.framebuffer t hBase hEnd) (hApart.framebuffer t hBase hEnd)
  · intro v w hv hw hSame
    rwa [samePage_iff_of_canonical
      (hCanonical.image v hv) (hCanonical.image w hw)] at hSame

theorem frameFrom_section (early : EarlyParams) {base : BitVec 64}
    (hStart : symbols.kernelStart.toNat ≤ start.toNat)
    (hBase : base.toNat = early.kernelBasePhysical.toNat +
    (start.toNat - symbols.kernelStart.toNat)) (hAligned : start.toNat % 4096 = 0)
    (hv : start.toNat ≤ v.toNat) : frameFrom base start v =
    frameFrom early.kernelBasePhysical symbols.kernelStart v := by
  rw [frameFrom, frameFrom, hBase]
  congr 1
  omega

structure ImagePage (symbols : KernelSymbols) (early : EarlyParams) (pml4 v : BitVec 64)
    (s : PageFrameAllocator) : Prop where
  leaf : LeafAt pml4 v (some (frameFrom early.kernelBasePhysical symbols.kernelStart v))
      (decide (¬ Covers symbols.kernelTextEnd symbols.kernelRoDataEnd v)) s
  locked : (frameFrom early.kernelBasePhysical symbols.kernelStart v).toNat / 4096 < s.bits →
      s.used ((frameFrom early.kernelBasePhysical symbols.kernelStart v).toNat / 4096) = true

structure SectionLoop (symbols : KernelSymbols) (early : EarlyParams)
    (base start stop : BitVec 64) : Prop extends LoopLayout base start stop where
  from_start : symbols.kernelStart.toNat ≤ start.toNat
  upto_end : stop.toNat ≤ symbols.kernelEnd.toNat
  cursor : base.toNat = early.kernelBasePhysical.toNat + (start.toNat - symbols.kernelStart.toNat)

section Sections

variable {base start stop flags : BitVec 64} {entry : Option (BitVec 64)} {writable : Bool}
variable {x : BitVec 64 × PageFrameAllocator}

theorem SectionLoop.progress (hSection : SectionLoop symbols early base start stop)
    (hApart : ImageApart symbols early) (hv : InImage symbols v) (hFlags : TableFlags flags)
    (h : LeafAt pml4 v entry writable s)
    (hLoop : loopUp 4096 stop (mapKernel pml4 flags) fuel start (base, s) = some x) :
    Progress pml4 v base start flags entry writable s stop x := by
  refine h.kernelLoop hFlags hSection.toLoopLayout ?_ hLoop
  intro t ht _
  have hImage : InImage symbols t := ⟨Nat.le_trans hSection.from_start ht.1,
    Nat.lt_of_lt_of_le ht.2 hSection.upto_end⟩
  constructor
  · exact hApart.image v t hv hImage
  · intro hPage
    rw [SamePage, hPage]

theorem SectionLoop.next {stop' : BitVec 64} (hSection : SectionLoop symbols early base start stop)
    (hLayout : ImageLayout symbols early)
    (hOver : Progress pml4 v base start flags entry writable s stop x)
    (hAligned : stop'.toNat % 4096 = 0) (hLe : stop.toNat ≤ stop'.toNat)
    (hEnd : stop'.toNat ≤ symbols.kernelEnd.toNat) : SectionLoop symbols early x.1 stop stop' := by
  have hCursor := hOver.cursor
  have hBase := hSection.cursor
  have hFrom := hSection.from_start
  have hStartLe := hSection.start_le
  have hStart := hSection.start_aligned
  have hStop := hSection.stop_aligned
  have hBaseAligned := hSection.base_aligned
  have hBaseLe := hLayout.base_le
  exact ⟨⟨hStop, hAligned, hLe, by omega, by omega⟩, Nat.le_trans hFrom hStartLe, hEnd, by omega⟩

theorem Progress.leaf_outside (hOver : Progress pml4 v base start flags entry writable s stop x)
    (hOut : ¬ Covers start stop v) : LeafAt pml4 v entry writable x.2 := by
  have hLeaf := hOver.leaf
  rw [if_neg hOut, if_neg hOut] at hLeaf
  exact hLeaf

theorem SectionLoop.enter (hSection : SectionLoop symbols early base start stop)
    (hOver : Progress pml4 v base start flags none false s stop x) (hIn : Covers start stop v)
    (hWritable : flags.getLsbD 1 = decide (¬ Covers symbols.kernelTextEnd
    symbols.kernelRoDataEnd v)) : ImagePage symbols early pml4 v x.2 := by
  have hFrame := frameFrom_section early hSection.from_start
    hSection.cursor hSection.start_aligned hIn.1
  have hLeaf := hOver.leaf
  have hLocked := hOver.locked hIn
  rw [if_pos hIn, if_pos hIn, Bool.false_or, hWritable, hFrame] at hLeaf
  rw [hFrame] at hLocked
  refine ⟨hLeaf, ?_⟩
  rw [hOver.bits]
  exact hLocked

theorem ImagePage.pass (hPage : ImagePage symbols early pml4 v s)
    (hSection : SectionLoop symbols early base start stop) (hApart : ImageApart symbols early)
    (hv : InImage symbols v) (hFlags : TableFlags flags) (hOut : ¬ Covers start stop v)
    (hLoop : loopUp 4096 stop (mapKernel pml4 flags) fuel start (base, s) = some x) :
    ImagePage symbols early pml4 v x.2 := by
  have hOver := hSection.progress hApart hv hFlags hPage.leaf hLoop
  refine ⟨hOver.leaf_outside hOut, ?_⟩
  rw [hOver.bits]
  exact fun hRoom => hOver.kept _ (hPage.locked hRoom)

end Sections

theorem imagePage_initKernelPML (hReady : Ready s) (hLayout : ImageLayout symbols early)
    (hApart : ImageApart symbols early) (h : initKernelPML fuel symbols early s = some (pml4, s'))
    (hv : InImage symbols v) : ImagePage symbols early pml4 v s' := by
  rcases initKernelPML_cases h with
    ⟨s₀, x₁, s₂, x₃, x₄, x₅, hRoot, hOne, hTwo, hThree, hFour, hFive, rfl⟩
  have hTextLe := hLayout.textEnd_le
  have hRoDataLe := hLayout.roDataEnd_le
  -- before the image there is nothing in its place
  have hLeaf₀ := leafAt_createRoot hReady hRoot v
  have hLeaf₁ := hLeaf₀.normalLoop (fun t ht => hApart.normal v t hv ht) hOne
  have hLeaf₂ := hLeaf₁.framebufferLoop (fun t hLow hBelow =>
      hApart.framebuffer v t hv hLow hBelow) hTwo
  have hText : SectionLoop symbols early early.kernelBasePhysical symbols.kernelStart
    symbols.kernelTextEnd := by
    have hBaseLe := hLayout.base_le
    exact ⟨⟨hLayout.start_aligned, hLayout.textEnd_aligned,
      hLayout.start_le, hLayout.base_aligned, by omega⟩, Nat.le_refl _, by omega, by omega⟩
  have hOver₃ := hText.progress hApart hv tableFlags_RW hLeaf₂ hThree
  have hRoData := hText.next hLayout hOver₃ hLayout.roDataEnd_aligned hTextLe hRoDataLe
  have hOver₄ := hRoData.progress hApart hv tableFlags_P hOver₃.leaf hFour
  have hData := hRoData.next hLayout hOver₄ hLayout.end_aligned hRoDataLe (Nat.le_refl _)
  rcases Nat.lt_or_ge v.toNat symbols.kernelTextEnd.toNat with hInText | hPastText
  · have hOut₄ : ¬ Covers symbols.kernelTextEnd symbols.kernelRoDataEnd v :=
      fun hIn => Nat.not_lt.mpr hIn.1 hInText
    have hOut₅ : ¬ Covers symbols.kernelRoDataEnd symbols.kernelEnd v := fun hIn => Nat.not_lt.mpr
        (Nat.le_trans hTextLe hIn.1) hInText
    have hPage₃ := hText.enter hOver₃ ⟨hv.1, hInText⟩ (decide_eq_true hOut₄).symm
    have hPage₄ := hPage₃.pass hRoData hApart hv tableFlags_P hOut₄ hFour
    exact hPage₄.pass hData hApart hv tableFlags_RW hOut₅ hFive
  have hLeaf₃ := hOver₃.leaf_outside (fun hIn => Nat.not_lt.mpr hPastText hIn.2)
  have hSkip₄ := hRoData.progress hApart hv tableFlags_P hLeaf₃ hFour
  rcases Nat.lt_or_ge v.toNat symbols.kernelRoDataEnd.toNat with hInRoData | hPastRoData
  · have hIn : Covers symbols.kernelTextEnd symbols.kernelRoDataEnd v := ⟨hPastText, hInRoData⟩
    have hOut₅ : ¬ Covers symbols.kernelRoDataEnd symbols.kernelEnd v :=
      fun hIn => Nat.not_lt.mpr hIn.1 hInRoData
    have hPage₄ := hRoData.enter hSkip₄ hIn (decide_eq_false (not_not.mpr hIn)).symm
    exact hPage₄.pass hData hApart hv tableFlags_RW hOut₅ hFive
  have hOut₄ : ¬ Covers symbols.kernelTextEnd symbols.kernelRoDataEnd v :=
    fun hIn => Nat.not_lt.mpr hPastRoData hIn.2
  have hOver₅ := hData.progress hApart hv tableFlags_RW (hSkip₄.leaf_outside hOut₄) hFive
  exact hData.enter hOver₅ ⟨hPastRoData, hv.2⟩ (decide_eq_true hOut₄).symm

def imageAddress (symbols : KernelSymbols) (early : EarlyParams) (v : BitVec 64) : BitVec 64 :=
  early.kernelBasePhysical + (v - symbols.kernelStart)

section

variable (hLayout : ImageLayout symbols early) (hv : InImage symbols v)

include hLayout hv

theorem toNat_imageAddress : (imageAddress symbols early v).toNat = early.kernelBasePhysical.toNat +
    (v.toNat - symbols.kernelStart.toNat) := by
  have hBaseLe := hLayout.base_le
  rcases hv with ⟨hFrom, hTo⟩
  rw [imageAddress, toNat_add, toNat_sub_of_le (le_def.mpr hFrom)]
  apply Nat.mod_eq_of_lt
  omega

theorem toNat_frameFrom_image : (frameFrom early.kernelBasePhysical symbols.kernelStart v).toNat =
    early.kernelBasePhysical.toNat + (v.toNat / 4096 * 4096 - symbols.kernelStart.toNat) := by
  have hBaseLe := hLayout.base_le
  rcases hv with ⟨hFrom, hTo⟩
  rw [frameFrom, toNat_ofNat]
  apply Nat.mod_eq_of_lt
  omega

theorem frameFrom_add_offset :
    frameFrom early.kernelBasePhysical symbols.kernelStart v + BitVec.ofNat 64 (v.toNat % 4096) =
    imageAddress symbols early v := by
  have hAddress := toNat_imageAddress hLayout hv
  have hFrame := toNat_frameFrom_image hLayout hv
  have hStart := hLayout.start_aligned
  have hLt := (imageAddress symbols early v).isLt
  apply eq_of_toNat_eq
  rcases hv with ⟨hFrom, hTo⟩
  rw [toNat_add, toNat_ofNat, hFrame]
  omega

theorem frame_of_imageAddress : (imageAddress symbols early v).toNat / 4096 =
    (frameFrom early.kernelBasePhysical symbols.kernelStart v).toNat / 4096 := by
  have hStart := hLayout.start_aligned
  have hBase := hLayout.base_aligned
  rw [toNat_imageAddress hLayout hv, toNat_frameFrom_image hLayout hv]
  rcases hv with ⟨hFrom, hTo⟩
  omega

end

theorem ImageLayout.noWrap (hLayout : ImageLayout symbols early)
    (hEnd : early.framebuffer.loopEnd.toNat + 4096 ≤ 2 ^ 64) : NoWrap symbols early := by
  have hText := hLayout.textEnd_aligned
  have hRoData := hLayout.roDataEnd_aligned
  have hKernel := hLayout.end_aligned
  have hTextLt := symbols.kernelTextEnd.isLt
  have hRoDataLt := symbols.kernelRoDataEnd.isLt
  have hKernelLt := symbols.kernelEnd.isLt
  exact ⟨hEnd, by omega, by omega, by omega⟩

theorem kernelImage_mapped (symbols : KernelSymbols) (early : EarlyParams) (s : PageFrameAllocator)
    (hReady : Ready s) (hLayout : ImageLayout symbols early) :
    (RangesCanonical symbols early → RangesApart symbols early → ImageApart symbols early) ∧
    (ImageApart symbols early → ∀ fuel pml4 s',
    initKernelPML fuel symbols early s = some (pml4, s') → ∀ v, InImage symbols v →
    translate s'.memory pml4 v = some (imageAddress symbols early v) ∧ (∃ pte,
    leafEntry s'.memory pml4 v = some pte ∧ (pte.getFlag PTFlag.RW = true ↔
    ¬ Covers symbols.kernelTextEnd symbols.kernelRoDataEnd v)) ∧
    ((imageAddress symbols early v).toNat / 4096 < s'.bits →
    s'.used ((imageAddress symbols early v).toNat / 4096) = true)) ∧
    (early.framebuffer.loopEnd.toNat + 4096 ≤ 2 ^ 64 → ∀ k fuel, Rounds k symbols early → k < fuel →
    k * 21 + 1 ≤ s.freeBits → ∃ pml4 s', initKernelPML fuel symbols early s =
    some (pml4, s')) := by
  refine ⟨imageApart_of_canonical hLayout, ?_, ?_⟩
  · intro hApart fuel pml4 s' h v hv
    have hPage := imagePage_initKernelPML hReady hLayout hApart h hv
    refine ⟨?_, ?_, ?_⟩
    · have hWalk := (hPage.leaf.mapped.walk_eq_page_iff v _).mpr hPage.leaf.lookup
      rw [translate, hWalk]
      exact congrArg some (frameFrom_add_offset hLayout hv)
    · rcases hPage.leaf.leafEntry_eq with ⟨pte, hEntry, hFlag⟩
      refine ⟨pte, hEntry, ?_⟩
      rw [hFlag, decide_eq_true_iff]
    · rw [frame_of_imageAddress hLayout hv]
      exact hPage.locked
  intro hEnd k fuel hRounds hFuel hRoom
  -- more memory than the bitmap has pages needs more rounds
  have hCount : s.freeBits ≤ s.bits := Nat.count_le _
  have hBits := hReady.bits_le
  have hNormal := hRounds.normal
  rcases initKernelPML_returns_of_noWrap (r := 0) hReady
    (by omega) (hLayout.noWrap hEnd) hRounds hFuel (by omega) with ⟨pml4, s', hInit, _⟩
  exact ⟨pml4, s', hInit⟩

theorem imageLayout_small : ImageLayout smallSymbols smallEarly := by
  constructor <;> decide

theorem inImage_small_iff (v : BitVec 64) : InImage smallSymbols v ↔ 0xFFFFFFFF80000000 ≤ v.toNat ∧
    v.toNat < 0xFFFFFFFF80003000 :=
  Iff.rfl

theorem outside_image_small {t : BitVec 64} (ht : t.toNat < 0x200000) : ¬ InImage smallSymbols t ∧
    ¬ InImage smallSymbols (normalVMAOffset + t) := by
  have hOffset : normalVMAOffset.toNat = 0xFFFF800000000000 :=
    rfl
  rw [inImage_small_iff, inImage_small_iff, toNat_add, hOffset]
  omega

theorem rangesApart_small : RangesApart smallSymbols smallEarly := by
  constructor
  · intro t ht
    exact outside_image_small ht
  intro t hLow hHigh
  have hLow' : 0xFFFF8000FD000000 ≤ t.toNat := hLow
  have hHigh' : t.toNat < 0xFFFF8000FD004000 := hHigh
  rw [inImage_small_iff]
  omega

theorem rangesCanonical_small : RangesCanonical smallSymbols smallEarly := by
  constructor
  · intro v hv
    rw [inImage_small_iff] at hv
    rw [Canonical]
    omega
  · intro t ht
    have ht' : t.toNat < 0x200000 := ht
    have hOffset : normalVMAOffset.toNat = 0xFFFF800000000000 :=
      rfl
    rw [Canonical, Canonical, toNat_add, hOffset]
    omega
  · intro t hLow _
    have hLow' : 0xFFFF8000FD000000 ≤ t.toNat := hLow
    rw [Canonical]
    omega

theorem kernelImage_mapped_small : ∃ pml4 s', initKernelPML 513 smallSymbols smallEarly
    (boot (fun _ => 0) smallEarly.mem) = some (pml4, s') ∧
    translate s'.memory pml4 0xFFFFFFFF80001234 = some 0x181234 ∧ ∃ pte,
    leafEntry s'.memory pml4 0xFFFFFFFF80001234 = some pte ∧ ¬ pte.getFlag PTFlag.RW = true := by
  rcases kernelImage_mapped smallSymbols smallEarly (boot (fun _ => 0) smallEarly.mem)
      (ready_boot _ (by decide)) imageLayout_small with ⟨hRanges, hMapped, hReturns⟩
  rcases hReturns (by decide) 512 513 rounds_small (by decide) (by rw [freeBits_small]; decide) with
    ⟨pml4, s', hInit⟩
  rcases hMapped (hRanges rangesCanonical_small rangesApart_small) 513
    pml4 s' hInit 0xFFFFFFFF80001234 (by decide) with ⟨hTranslate, ⟨pte, hEntry, hFlag⟩, _⟩
  refine ⟨pml4, s', hInit, hTranslate, pte, hEntry, ?_⟩
  rw [hFlag]
  decide

------ A Framebuffer in the Place of the Constants

def WritablePage (pml4 v : BitVec 64) (s : PageFrameAllocator) : Prop :=
  ∃ p, LeafAt pml4 v (some p) true s

theorem WritablePage.mapMemory {t p flags : BitVec 64} (h : WritablePage pml4 v s)
    (hFlags : TableFlags flags) (hCall : mapMemory pml4 s t p flags = some s') :
    WritablePage pml4 v s' := by
  rcases h with ⟨q, hLeaf⟩
  have hAfter := hLeaf.mapMemory hFlags hCall
  rw [Bool.true_or, ite_self] at hAfter
  by_cases hSame : SamePage v t
  · rw [if_pos hSame] at hAfter
    exact ⟨framePage p, hAfter⟩
  · rw [if_neg hSame] at hAfter
    exact ⟨q, hAfter⟩

theorem WritablePage.kernelLoop {flags : BitVec 64} {x x' : BitVec 64 × PageFrameAllocator}
    (h : WritablePage pml4 v x.2) (hFlags : TableFlags flags)
    (hLoop : loopUp 4096 stop (mapKernel pml4 flags) fuel start x = some x') :
    WritablePage pml4 v x'.2 := by
  refine loopUp_keeps (P := fun x => WritablePage pml4 v x.2) (by decide) ?_ h hLoop
  rintro t ⟨cursor, s₁⟩ x₂ _ _ hPage hRound
  rcases bind_eq_some_iff.mp hRound with ⟨s₂, hMap, hEq⟩
  rw [← some.inj hEq]
  rcases WritablePage.mapMemory hPage hFlags hMap with ⟨p, hLeaf⟩
  exact ⟨p, hLeaf.lockPage cursor.toNat⟩

theorem LeafAt.normalLoop_some {x x' : BitVec 64 × PageFrameAllocator}
    (h : ∃ entry writable, LeafAt pml4 v entry writable x.2)
    (hLoop : loopUp 4096 stop (mapNormal pml4) fuel start x = some x') :
    ∃ entry writable, LeafAt pml4 v entry writable x'.2 := by
  refine loopUp_keeps (P := fun x => ∃ entry writable, LeafAt pml4 v entry writable x.2)
    (by decide) ?_ h hLoop
  rintro t ⟨offset, s₁⟩ x₂ _ _ ⟨entry, writable, hLeaf⟩ hRound
  rcases bind_eq_some_iff.mp hRound with ⟨s₂, hFirst, hRest⟩
  rcases bind_eq_some_iff.mp hRest with ⟨s₃, hSecond, hEq⟩
  rw [← some.inj hEq]
  exact ⟨_, _, (LeafAt.mapMemory hLeaf tableFlags_RW_US hFirst).mapMemory tableFlags_RW_US hSecond⟩

theorem writablePage_framebufferLoop (h : ∃ entry writable, LeafAt pml4 v entry writable s)
    (hSame : SamePage v start) (hBelow : start < stop)
    (hLoop : loopUp 4096 stop (mapFramebuffer pml4) fuel start s = some s') :
    WritablePage pml4 v s' := by
  have hEnd := loopUp_invariant (P := fun t s => (t = start ∧
        ∃ entry writable, LeafAt pml4 v entry writable s) ∨
      WritablePage pml4 v s) ?_ (.inl ⟨rfl, h⟩) hLoop
  · rcases hEnd with ⟨last, hPast, ⟨hLast, _⟩ | hPage⟩
    · rw [hLast] at hPast
      exact absurd hBelow hPast
    · exact hPage
  intro t s₁ s₂ hBefore _ hRound
  right
  rcases hBefore with ⟨hFirst, entry, writable, hLeaf⟩ | hPage
  · rw [hFirst] at hRound
    have hAfter := LeafAt.mapMemory hLeaf tableFlags_RW_US hRound
    rw [if_pos hSame, if_pos hSame] at hAfter
    rw [show (PTFlag.RW ||| PTFlag.US).getLsbD 1 = true from rfl, Bool.or_true] at hAfter
    exact ⟨_, hAfter⟩
  · exact WritablePage.mapMemory hPage tableFlags_RW_US hRound

theorem writablePage_initKernelPML (hReady : Ready s)
    (hSame : SamePage v early.framebuffer.baseAddress)
    (hBelow : early.framebuffer.baseAddress < early.framebuffer.loopEnd)
    (h : initKernelPML fuel symbols early s = some (pml4, s')) : WritablePage pml4 v s' := by
  rcases initKernelPML_cases h with
    ⟨s₀, x₁, s₂, x₃, x₄, x₅, hRoot, hOne, hTwo, hThree, hFour, hFive, rfl⟩
  have hLeaf₁ := LeafAt.normalLoop_some ⟨_, _, leafAt_createRoot hReady hRoot v⟩ hOne
  have hPage₂ := writablePage_framebufferLoop hLeaf₁ hSame hBelow hTwo
  have hPage₃ := WritablePage.kernelLoop hPage₂ tableFlags_RW hThree
  have hPage₄ := hPage₃.kernelLoop tableFlags_P hFour
  exact hPage₄.kernelLoop tableFlags_RW hFive

def aliasEarly : EarlyParams :=
  { smallEarly with framebuffer := ⟨0x0000FFFF80001000, 0⟩ }

theorem rangesApart_alias : RangesApart smallSymbols aliasEarly := by
  constructor
  · intro t ht
    exact outside_image_small ht
  intro t _ hHigh
  have hHigh' : t.toNat < 0x0000FFFF80002000 := hHigh
  rw [inImage_small_iff]
  omega

theorem constants_writable : ImageLayout smallSymbols aliasEarly ∧
    RangesApart smallSymbols aliasEarly ∧ Ready (boot (fun _ => 0) aliasEarly.mem) ∧
    Covers smallSymbols.kernelTextEnd smallSymbols.kernelRoDataEnd 0xFFFFFFFF80001000 ∧ ∃ pml4 s',
    initKernelPML 513 smallSymbols aliasEarly
    (boot (fun _ => 0) aliasEarly.mem) = some (pml4, s') ∧ ∃ pte,
    leafEntry s'.memory pml4 0xFFFFFFFF80001000 = some pte ∧ pte.getFlag PTFlag.RW = true := by
  have hReady : Ready (boot (fun _ => 0) aliasEarly.mem) := ready_boot _ (by decide)
  have hLayout : ImageLayout smallSymbols aliasEarly := by
    constructor <;> decide
  have hRounds : Rounds 512 smallSymbols aliasEarly := by
    constructor <;> decide
  have hRoom : (boot (fun _ => 0) aliasEarly.mem).freeBits = 32510 := freeBits_small _
  have hReturns : ∃ pml4 s', initKernelPML 513 smallSymbols aliasEarly
      (boot (fun _ => 0) aliasEarly.mem) = some (pml4, s') ∧ Roomy pml4 0 s' := by
    apply initKernelPML_returns_of_noWrap hReady (by decide)
      (hLayout.noWrap (by decide)) hRounds (by decide)
    rw [hRoom]
    decide
  rcases hReturns with ⟨pml4, s', hInit, _⟩
  have hPage : WritablePage pml4 0xFFFFFFFF80001000 s' :=
    writablePage_initKernelPML hReady (by decide) (by decide) hInit
  rcases hPage with ⟨p, hLeaf⟩
  exact ⟨hLayout, rangesApart_alias, hReady, by decide, pml4, s', hInit, hLeaf.leafEntry_eq⟩

end Image

end Fennix
