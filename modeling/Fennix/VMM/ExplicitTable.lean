import Fennix.VMM.Mapping

/-
  The table argument of `MapMemory`, and `UnmapMemory`.
-/

namespace Fennix

open PageDirectoryEntry PageTableManager PageMapIndexer

variable {frames : Nat → BitVec 64} {P : BitVec 64} {s : PagingState} {m : Memory}

def topEntry (m : Memory) (P v : BitVec 64) : PageDirectoryEntry :=
  readEntry m P (of v).pdp

theorem walk_of_top_absent {v : BitVec 64} (hAbsent : (topEntry m P v).getFlag PTFlag.P = false) :
    walk m P v = .notPresent := by
  unfold walk
  dsimp only
  rw [topEntry] at hAbsent
  rw [if_pos hAbsent]

section TableArgument

variable (frames)

def mapThrough (writeBack : Bool) (top : BitVec 64) (s : PagingState)
    (virtualAddress physicalAddress flags : BitVec 64) : PagingState :=
  let indexer := of virtualAddress
  let first := nextTable frames writeBack flags top indexer.pdp s
  let second := nextTable frames true flags first.1 indexer.pd first.2
  let third := nextTable frames true flags second.1 indexer.pt second.2
  { third.2 with
    memory :=
      writeEntry third.2.memory third.1 indexer.p
        ((readEntry third.2.memory third.1 indexer.p).pointTo physicalAddress flags) }

variable (manager : PageTableManager) (s) (virtualAddress physicalAddress flags : BitVec 64)

theorem mapMemory_explicit (hNull : P ≠ 0) : mapMemory frames manager s virtualAddress
    physicalAddress flags P =
    some (mapThrough frames false P s virtualAddress physicalAddress flags) := by
  have hOwn : decide (P = 0) = false := decide_eq_false hNull
  rw [mapMemory, if_neg (fun h => hNull h.2)]
  simp only [hOwn, Bool.false_eq_true, if_false]
  rfl

theorem mapMemory_own (hNull : P ≠ 0) : mapMemory frames ⟨P⟩ s virtualAddress
    physicalAddress flags 0 =
    some (mapThrough frames true P s virtualAddress physicalAddress flags) := by
  rw [mapMemory, if_neg (fun h => hNull h.1)]
  simp only [decide_true, if_true]
  rfl

theorem mapThrough_of_present
    (hPresent : (topEntry s.memory P virtualAddress).getFlag PTFlag.P = true) :
    mapThrough frames false P s virtualAddress physicalAddress flags =
    mapThrough frames true P s virtualAddress physicalAddress flags := by
  have hFirst : nextTable frames false flags P (of virtualAddress).pdp s =
    nextTable frames true flags P (of virtualAddress).pdp s := by
    rw [topEntry] at hPresent
    rw [nextTable, nextTable, if_pos hPresent, if_pos hPresent]
  unfold mapThrough
  dsimp only
  rw [hFirst]

end TableArgument

section Dropped

variable {flags virtualAddress physicalAddress : BitVec 64}

private theorem nextTable_dropped {i : Fin 512} (flags : BitVec 64) (hRoot : Aligned P)
    (hFresh : FreshFrames frames P (s.requested + 1))
    (hAbsent : (readEntry s.memory P i).getFlag PTFlag.P = false) :
    ∃ s', nextTable frames false flags P i s = (frames s.requested, s') ∧
    s'.requested = s.requested + 1 ∧ (∀ j, readEntry s'.memory (frames s.requested) j = ⟨0⟩) ∧
    ∀ j, readEntry s'.memory P j = readEntry s.memory P j := by
  have hNew := hFresh s.requested (by omega)
  refine ⟨⟨s.memory.fill (frames s.requested).toNat 0 4096, s.requested + 1⟩, ?_, rfl, ?_, ?_⟩
  · rw [nextTable, hAbsent, if_neg (by decide)]
    rfl
  · exact readEntry_fill_same s.memory (frames s.requested)
  · intro j
    exact readEntry_fill_other j hRoot hNew.1.1 hNew.2.1.symm

private theorem nextTable_beside_root {k : Nat} (flags : BitVec 64) (i : Fin 512)
    (hRoot : Aligned P) (hFresh : FreshFrames frames P (s.requested + 1)) (hTable : k < s.requested)
    (hEmpty : ∀ j, readEntry s.memory (frames k) j = ⟨0⟩) :
    ∃ s', nextTable frames true flags (frames k) i s = (frames s.requested, s') ∧
    s'.requested = s.requested + 1 ∧ (∀ j, readEntry s'.memory (frames s.requested) j = ⟨0⟩) ∧
    ∀ j, readEntry s'.memory P j = readEntry s.memory P j := by
  have hAbsent : (readEntry s.memory (frames k) i).getFlag PTFlag.P = false := by
    rw [hEmpty]
    decide
  have hApart : frames k ≠ P := (hFresh k (by omega)).2.1
  let m := writeEntry (s.memory.fill (frames s.requested).toNat 0 4096) (frames k) i
      ((readEntry s.memory (frames k) i).pointTo (frames s.requested) flags)
  have hMemory : m = writeEntry _ (frames k) i ((readEntry s.memory (frames k) i).pointTo
    (frames s.requested) flags) :=
    rfl
  rcases child_create hRoot hFresh (.inr ⟨k, hTable, rfl⟩) hMemory with ⟨_, hNew, hOther⟩
  refine ⟨⟨m, s.requested + 1⟩, ?_, rfl, hNew, ?_⟩
  · rw [nextTable, hAbsent, if_neg (by decide)]
    rfl
  · intro j
    exact hOther P j (.inl rfl) (.inl hApart.symm)

section

variable (hRoot : Aligned P) (hFresh : FreshFrames frames P (s.requested + 3))
variable (hAbsent : (topEntry s.memory P virtualAddress).getFlag PTFlag.P = false)

include hRoot hFresh hAbsent

theorem mapThrough_of_absent (i : Fin 512) :
    readEntry (mapThrough frames false P s virtualAddress physicalAddress flags).memory P i =
    readEntry s.memory P i := by
  rcases hIndexer : of virtualAddress with ⟨a, b, c, d⟩
  rw [topEntry, hIndexer] at hAbsent
  rcases nextTable_dropped flags hRoot (hFresh.mono (by omega)) hAbsent with
    ⟨s₁, hOne, hCount₁, hEmpty₁, hKept₁⟩
  -- the levels below are created beside the root
  rcases nextTable_beside_root flags b hRoot (hFresh.mono (by omega)) (by omega) hEmpty₁ with
    ⟨s₂, hTwo, hCount₂, hEmpty₂, hKept₂⟩
  rcases nextTable_beside_root flags c hRoot (hFresh.mono (by omega)) (by omega) hEmpty₂ with
    ⟨s₃, hThree, _, _, hKept₃⟩
  have hLeaf := hFresh s₂.requested (by omega)
  unfold mapThrough
  dsimp only
  rw [hIndexer, hOne, hTwo, hThree,
    readEntry_writeEntry_other _ hRoot hLeaf.1.1 (.inl hLeaf.2.1.symm), hKept₃, hKept₂, hKept₁]

theorem walk_mapThrough_of_absent : walk
    (mapThrough frames false P s virtualAddress physicalAddress flags).memory P virtualAddress =
    .notPresent := by
  apply walk_of_top_absent
  rw [topEntry, mapThrough_of_absent hRoot hFresh hAbsent]
  exact hAbsent

end

theorem walk_mapThrough (hRoot : Aligned P) (hNull : P ≠ 0) (hMapped : Mapped frames P s)
    (hFlags : TableFlags flags) (hFresh : FreshFrames frames P (s.requested + 3)) : walk
    (mapThrough frames true P s virtualAddress physicalAddress flags).memory P virtualAddress =
    .page (framePage physicalAddress) := by
  rcases mapMemory_returns frames s virtualAddress physicalAddress flags hNull with
    ⟨own, hOwn, _, hLe⟩
  rcases mapMemory_spec hRoot hNull hMapped hFlags hOwn (hFresh.mono hLe) with ⟨hAfter, hLookup⟩
  have hWalk := walk_eq_lookup hAfter virtualAddress
  rw [hLookup, if_pos rfl] at hWalk
  rw [mapMemory_own frames s _ _ _ hNull] at hOwn
  rw [Option.some.inj hOwn]
  exact hWalk

end Dropped

def emptyTable : PagingState :=
  ⟨Memory.fill (fun _ => 0) 0x1000 0 4096, 0⟩

private theorem walk_mapThrough_emptyTable : walk
    (mapThrough framesFrom true 0x1000 emptyTable 0x400000 0x5000 PTFlag.RW).memory
    0x1000 0x400000 = .page 0x5000 := by
  have hFresh : FreshFrames framesFrom 0x1000 (emptyTable.requested + 3) :=
    freshFrames_framesFrom (by decide)
  have hMapped : Mapped framesFrom 0x1000 emptyTable := mapped_start _
  have hPage : framePage 0x5000 = 0x5000 := by
    decide
  rw [walk_mapThrough (by decide) (by decide) hMapped (by decide) hFresh, hPage]

theorem mapMemory_explicit_agrees_iff (frames : Nat → BitVec 64) (manager : PageTableManager)
    (s : PagingState) (virtualAddress physicalAddress flags P : BitVec 64) (hNull : P ≠ 0) :
    ∃ explicit own, mapMemory frames manager s virtualAddress
    physicalAddress flags P = some explicit ∧ mapMemory frames ⟨P⟩ s virtualAddress
    physicalAddress flags 0 = some own ∧
    ((topEntry s.memory P virtualAddress).getFlag PTFlag.P = true → explicit = own) ∧
    (Aligned P → Mapped frames P s → TableFlags flags →
    FreshFrames frames P (s.requested + 3) → ((∀ v, walk explicit.memory P v =
    walk own.memory P v) ↔ (topEntry s.memory P virtualAddress).getFlag PTFlag.P = true)) := by
  refine ⟨_, _, mapMemory_explicit frames s manager _ _ _ hNull, mapMemory_own frames s _ _ _ hNull,
    mapThrough_of_present frames s _ _ _, ?_⟩
  intro hRoot hMapped hFlags hFresh
  constructor
  · intro hSame
    by_contra hPresent
    have hAbsent : (topEntry s.memory P virtualAddress).getFlag PTFlag.P = false := by
      simpa using hPresent
    have hBoth := hSame virtualAddress
    rw [walk_mapThrough_of_absent hRoot hFresh hAbsent,
      walk_mapThrough hRoot hNull hMapped hFlags hFresh] at hBoth
    cases hBoth
  · intro hPresent v
    rw [mapThrough_of_present frames s _ _ _ hPresent]

theorem mapMemory_explicit_agrees_second : ∃ s, mapMemory framesFrom ⟨0x1000⟩ emptyTable
    0x400000 0x5000 PTFlag.RW 0 = some s ∧
    mapMemory framesFrom ⟨0⟩ s 0x401000 0x6000 PTFlag.RW 0x1000 =
    mapMemory framesFrom ⟨0x1000⟩ s 0x401000 0x6000 PTFlag.RW 0 := by
  have hNull : (0x1000 : BitVec 64) ≠ 0 := by decide
  refine ⟨_, mapMemory_own _ _ _ _ _ hNull, ?_⟩
  rcases mapMemory_explicit_agrees_iff framesFrom ⟨0⟩ (mapThrough framesFrom true 0x1000 emptyTable
    0x400000 0x5000 PTFlag.RW) 0x401000 0x6000 PTFlag.RW 0x1000 hNull with
    ⟨explicit, own, hExplicit, hOwn, hAgree, _⟩
  have hPresent : (topEntry (mapThrough framesFrom true 0x1000 emptyTable
    0x400000 0x5000 PTFlag.RW).memory 0x1000 0x400000).getFlag PTFlag.P = true := by
    rw [← Bool.not_eq_false]
    intro hAbsent
    have hWalk := walk_of_top_absent hAbsent
    rw [walk_mapThrough_emptyTable] at hWalk
    cases hWalk
  rw [hExplicit, hOwn, hAgree hPresent]

theorem mapMemory_explicit_lost : ∃ explicit own, mapMemory framesFrom ⟨0x1000⟩ emptyTable
    0x400000 0x5000 PTFlag.RW 0x1000 = some explicit ∧
    mapMemory framesFrom ⟨0x1000⟩ emptyTable 0x400000 0x5000 PTFlag.RW 0 = some own ∧
    walk explicit.memory 0x1000 0x400000 = .notPresent ∧
    walk own.memory 0x1000 0x400000 = .page 0x5000 := by
  have hNull : (0x1000 : BitVec 64) ≠ 0 := by decide
  have hFresh : FreshFrames framesFrom 0x1000 (emptyTable.requested + 3) :=
    freshFrames_framesFrom (by decide)
  have hAbsent : (topEntry emptyTable.memory 0x1000 0x400000).getFlag PTFlag.P = false := by
    have hEmpty := readEntry_fill_same (fun _ => 0) 0x1000 (of 0x400000).pdp
    change (readEntry (Memory.fill (fun _ => 0) (0x1000 : BitVec 64).toNat 0 4096) 0x1000
      (of 0x400000).pdp).getFlag PTFlag.P = false
    rw [hEmpty]
    decide
  exact ⟨_, _, mapMemory_explicit _ _ _ _ _ _ hNull, mapMemory_own _ _ _ _ _ hNull,
    walk_mapThrough_of_absent (by decide) hFresh hAbsent, walk_mapThrough_emptyTable⟩

def unmappedTable (manager : PageTableManager) (pageTable4 : BitVec 64) : BitVec 64 :=
  if pageTable4 = 0 then manager.pml4 else pageTable4

theorem unmapMemory_precise_iff (manager : PageTableManager) (s : PagingState)
    (virtualAddress pageTable4 : BitVec 64) :
    (walk (unmapMemory manager s virtualAddress pageTable4).2.memory
    (unmappedTable manager pageTable4) virtualAddress = .notPresent ∧
    ∀ v, ¬ SamePage virtualAddress v → walk (unmapMemory manager s virtualAddress
    pageTable4).2.memory (unmappedTable manager pageTable4) v =
    walk s.memory (unmappedTable manager pageTable4) v) ↔
    walk s.memory (unmappedTable manager pageTable4) virtualAddress = .notPresent := by
  have hSame : (unmapMemory manager s virtualAddress pageTable4).2 = s := rfl
  rw [hSame]
  constructor
  · exact fun h => h.1
  · intro hAbsent
    exact ⟨hAbsent, fun v _ => rfl⟩

theorem unmapMemory_keeps_mapping : ∃ s, mapMemory framesFrom ⟨0x1000⟩ emptyTable
    0x400000 0x5000 PTFlag.RW 0 = some s ∧ walk (unmapMemory ⟨0x1000⟩ s 0x400000 0).2.memory
    0x1000 0x400000 = .page 0x5000 :=
  ⟨_, mapMemory_own _ _ _ _ _ (by decide), walk_mapThrough_emptyTable⟩

end Fennix
