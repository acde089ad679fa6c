import Fennix.VMM.KernelPML

/-
  What a user may do with a page.

  The processor grants an access if all four entries on the way to the page grant it.
-/

------ Flags along a Path

namespace Fennix

open List BitVec PageMapIndexer PageTableManager

variable {virtualAddress : BitVec 64} {calls : List MapCall} {c : MapCall}

open PageDirectoryEntry PageFrameAllocator

def PageMapIndexer.path (indexer : PageMapIndexer) : List (Fin 512) :=
  [indexer.pdp, indexer.pd, indexer.pt, indexer.p]

theorem path_inj {v w : PageMapIndexer} : v.path = w.path ↔ v = w := by
  cases v
  cases w
  simp [path]

def flagAt (m : Memory) (pml4 : BitVec 64) (k : Nat) (stem : List (Fin 512)) (i : Fin 512) : Bool :=
  match follow (child m) pml4 stem with
  | some t => (readEntry m t i).raw.getLsbD k
  | none => false

def stamped (flags : BitVec 64) (k : Nat) (old : Bool) : Bool :=
  old || (flags.getLsbD k || decide (k = 0))

variable {m : Memory} {pml4 flags t : BitVec 64} {k : Nat} {stem q : List (Fin 512)} {i j : Fin 512}

theorem flagAt_of_follow (h : follow (child m) pml4 stem = some t) (k : Nat) (i : Fin 512) :
    flagAt m pml4 k stem i = (readEntry m t i).raw.getLsbD k := by
  rw [flagAt, h]

theorem flagAt_of_none (h : follow (child m) pml4 stem = none) (k : Nat) (i : Fin 512) :
    flagAt m pml4 k stem i = false := by
  rw [flagAt, h]

theorem flagAt_congr {m' : Memory} (hFollow : follow (child m') pml4 q = follow (child m) pml4 q)
    (hRead : ∀ t, follow (child m) pml4 q = some t → readEntry m' t j = readEntry m t j) (k : Nat) :
    flagAt m' pml4 k q j = flagAt m pml4 k q j := by
  cases hTable : follow (child m) pml4 q with
  | none => rw [flagAt_of_none (hFollow.trans hTable), flagAt_of_none hTable]
  | some t =>
    rw [flagAt_of_follow (hFollow.trans hTable), flagAt_of_follow hTable, hRead t hTable]

theorem flagAt_zero (h : follow (child m) pml4 stem = some t) (i : Fin 512) :
    flagAt m pml4 0 stem i = (readEntry m t i).getFlag PTFlag.P := by
  rw [flagAt_of_follow h, getFlag_P]

theorem getLsbD_pointTo_low (e : PageDirectoryEntry) (target flags : BitVec 64) (hk : k < 12) :
    (e.pointTo target flags).raw.getLsbD k = stamped flags k (e.raw.getLsbD k) := by
  rw [getLsbD_pointTo e target flags (by omega), if_neg (by omega), stamped, Bool.or_assoc,
    Bool.or_comm (decide (k = 0))]

section Levels

variable {frames : Nat → BitVec 64} {s s' : PagingState}

/- A level stamps the last entry of its path, above the pages only if it was not present. -/
def Stamped (flags : BitVec 64) (path : List (Fin 512))
    (F F' : Nat → List (Fin 512) → Fin 512 → Bool) : Prop :=
  ∀ k < 12, ∀ q, q.length ≤ 3 → ∀ j, F' k q j =
    if path = q ++ [j] ∧ (q.length = 3 ∨ F 0 q j = false) then stamped flags k (F k q j)
    else F k q j

theorem nextTable_flagAt {parent next : BitVec 64} (hRoot : Aligned pml4)
    (hMapped : Mapped frames pml4 s) (hFlags : TableFlags flags) (hDepth : stem.length < 3)
    (hParent : follow (child s.memory) pml4 stem = some parent)
    (hNext : nextTable frames true flags parent i s = (next, s'))
    (hFresh : FreshFrames frames pml4 s'.requested) :
    Stamped flags (stem ++ [i]) (flagAt s.memory pml4) (flagAt s'.memory pml4) := by
  intro k hk q hq j
  rcases (nextTable_spec hRoot hMapped hFlags hDepth hParent hNext hFresh).2.2.2 with
    ⟨hPresent, rfl⟩ | ⟨hAbsent, hEntry, hEmpty, hOther, hFollow⟩
  · rw [if_neg]
    rintro ⟨hPath, hLevel⟩
    rcases append_singleton_inj.mp hPath with ⟨rfl, rfl⟩
    rw [flagAt_zero hParent, hPresent] at hLevel
    simp at hLevel
    omega
  rcases hFollow q hq with ⟨hNew, hOld⟩
  by_cases hBelow : q = stem ++ [i]
  · -- the new table is empty, and was not there before
    have hBefore : follow (child s.memory) pml4 q = none := by
      rw [hBelow, follow_snoc, hParent]
      simp [child, hAbsent]
    rw [if_neg (by simp [hBelow]), flagAt_of_follow (hNew hBelow), hEmpty, flagAt_of_none hBefore]
    exact getLsbD_zero
  simp only [append_singleton_inj]
  by_cases hHere : q = stem
  · subst hHere
    rw [flagAt_zero hParent, flagAt_of_follow ((hOld hBelow).trans hParent),
      flagAt_of_follow hParent]
    by_cases hSlot : i = j
    · rw [if_pos ⟨⟨rfl, hSlot⟩, Or.inr (hSlot ▸ hAbsent)⟩, ← hSlot, hEntry,
        getLsbD_pointTo_low _ _ _ hk]
    · rw [if_neg (fun h => hSlot h.1.2),
        hOther parent j (hMapped.tree.owned hq hParent) (.inr (Ne.symm hSlot))]
  rw [if_neg (fun h => hHere h.1.1.symm)]
  apply flagAt_congr (hOld hBelow)
  intro t hTable
  apply hOther t j (hMapped.tree.owned hq hTable)
  left
  rintro rfl
  exact hHere (hMapped.tree.unique hq (by omega) hTable hParent)

theorem setLeaf_flagAt {d : Fin 512} {pt physicalAddress : BitVec 64} (hRoot : Aligned pml4)
    (hMapped : Mapped frames pml4 s) (hFresh : FreshFrames frames pml4 s.requested)
    (hDepth : stem.length = 3) (hTable : follow (child s.memory) pml4 stem = some pt)
    (hMemory : m = writeEntry s.memory pt d
    ((readEntry s.memory pt d).pointTo physicalAddress flags)) :
    Stamped flags (stem ++ [d]) (flagAt s.memory pml4) (flagAt m pml4) := by
  intro k hk q hq j
  simp only [append_singleton_inj]
  have hOwned := hMapped.tree.owned (Nat.le_of_eq hDepth) hTable
  have hOther : ∀ t j, TableOwned frames pml4 s.requested t → (t ≠ pt ∨ j ≠ d) →
    readEntry m t j = readEntry s.memory t j := by
    intro t j ht hNe
    rw [hMemory, hFresh.readEntry_other hRoot hOwned _ ht hNe]
  have hSame : follow (child m) pml4 q = follow (child s.memory) pml4 q := by
    apply (hMapped.tree.setLeaf hDepth hTable ?_).1 q hq
    · exact d
    · intro t j ht hNe
      rw [child, child, hOther t j ht hNe]
  by_cases hHere : stem = q ∧ d = j
  · rcases hHere with ⟨rfl, rfl⟩
    rw [if_pos ⟨⟨rfl, rfl⟩, Or.inl hDepth⟩, flagAt_of_follow (hSame.trans hTable),
      flagAt_of_follow hTable, hMemory, readEntry_writeEntry_same, getLsbD_pointTo_low _ _ _ hk]
  rw [if_neg (fun h => hHere h.1)]
  apply flagAt_congr hSame
  intro t hFollow
  apply hOther t j (hMapped.tree.owned hq hFollow)
  by_cases hSlot : j = d
  · left
    rintro rfl
    exact hHere ⟨hMapped.tree.unique (by omega) hq hTable hFollow, hSlot.symm⟩
  · exact .inr hSlot

section Composed

variable {F F₁ F₂ F₃ F₄ : Nat → List (Fin 512) → Fin 512 → Bool} {a b c d : Fin 512}

theorem Stamped.keep {path : List (Fin 512)} (h : Stamped flags path F F₁) (hk : k < 12)
    (hq : q.length ≤ 3) (hLevel : path.length ≠ q.length + 1) : F₁ k q j = F k q j := by
  rw [h k hk q hq j, if_neg]
  rintro ⟨rfl, _⟩
  simp at hLevel

private theorem stamps_compose (hOne : Stamped flags [a] F F₁) (hTwo : Stamped flags [a, b] F₁ F₂)
    (hThree : Stamped flags [a, b, c] F₂ F₃) (hFour : Stamped flags [a, b, c, d] F₃ F₄)
    (hk : k < 12) (hq : q.length ≤ 3) (j : Fin 512) : F₄ k q j =
    if [a, b, c, d].take (q.length + 1) = q ++ [j] ∧ (q.length = 3 ∨ F 0 q j = false) then
    stamped flags k (F k q j) else F k q j := by
  have hFirst : 0 < 12 := by decide
  match q, hq with
  | [], hq =>
    rw [hFour.keep hk hq nofun, hThree.keep hk hq nofun, hTwo.keep hk hq nofun, hOne k hk [] hq]
    rfl
  | [x], hq =>
    rw [hFour.keep hk hq nofun, hThree.keep hk hq nofun, hTwo k hk [x] hq, hOne.keep hk hq nofun,
      hOne.keep hFirst hq nofun]
    rfl
  | [x, y], hq =>
    rw [hFour.keep hk hq nofun, hThree k hk [x, y] hq, hTwo.keep hk hq nofun,
      hTwo.keep hFirst hq nofun, hOne.keep hk hq nofun, hOne.keep hFirst hq nofun]
    rfl
  | [x, y, z], hq =>
    rw [hFour k hk [x, y, z] hq, hThree.keep hk hq nofun, hThree.keep hFirst hq nofun,
      hTwo.keep hk hq nofun, hTwo.keep hFirst hq nofun, hOne.keep hk hq nofun,
      hOne.keep hFirst hq nofun]
    rfl

end Composed

theorem mapMemory_flagAt {virtualAddress physicalAddress : BitVec 64} (hRoot : Aligned pml4)
    (hNull : pml4 ≠ 0) (hMapped : Mapped frames pml4 s) (hFlags : TableFlags flags)
    (hCall : mapMemory frames ⟨pml4⟩ s virtualAddress physicalAddress flags 0 = some s')
    (hFresh : FreshFrames frames pml4 s'.requested) (hk : k < 12) (hq : q.length ≤ 3)
    (j : Fin 512) : flagAt s'.memory pml4 k q j = if (of virtualAddress).path.take
    (q.length + 1) = q ++ [j] ∧ (q.length = 3 ∨ flagAt s.memory pml4 0 q j = false) then
    stamped flags k (flagAt s.memory pml4 k q j) else flagAt s.memory pml4 k q j := by
  rcases mapMemory_levels frames s virtualAddress physicalAddress flags hNull with
    ⟨a, b, c, d, pdp, pd, pt, s₁, s₂, s₃, hIndexer, hOne, hTwo, hThree, hEq⟩
  rw [hEq] at hCall
  cases hCall
  have hTwoLe := nextTable_requested hTwo
  have hThreeLe := nextTable_requested hThree
  have hFresh₂ : FreshFrames frames pml4 s₂.requested := hFresh.mono hThreeLe.1
  have hFresh₁ : FreshFrames frames pml4 s₁.requested := hFresh₂.mono hTwoLe.1
  rcases nextTable_spec hRoot hMapped hFlags (by simp) follow_nil hOne hFresh₁ with
    ⟨hMapped₁, hPdp, _⟩
  rcases nextTable_spec hRoot hMapped₁ hFlags (by simp) hPdp hTwo hFresh₂ with ⟨hMapped₂, hPd, _⟩
  rcases nextTable_spec hRoot hMapped₂ hFlags (by simp) hPd hThree hFresh with ⟨hMapped₃, hPt, _⟩
  rw [hIndexer]
  exact stamps_compose (nextTable_flagAt hRoot hMapped hFlags (by simp) follow_nil hOne hFresh₁)
    (nextTable_flagAt hRoot hMapped₁ hFlags (by simp) hPdp hTwo hFresh₂)
    (nextTable_flagAt hRoot hMapped₂ hFlags (by simp) hPd hThree hFresh)
    (setLeaf_flagAt hRoot hMapped₃ hFresh rfl hPt rfl) hk hq j

end Levels

------ The Kernel's Calls

variable {s s' : PageFrameAllocator}

theorem Backed.flagAt_eq {frames : Nat → BitVec 64} {a : PagingState}
    (hBacked : Backed frames pml4 s a) (hMapped : Mapped frames pml4 a) (k : Nat)
    (hq : q.length ≤ 3) (j : Fin 512) :
    flagAt s.memory pml4 k q j = flagAt a.memory pml4 k q j := by
  apply flagAt_congr (hBacked.follow_eq hMapped q (by omega))
  intro t hFollow
  exact hBacked.readEntry_eq (hMapped.tree.owned hq hFollow) j

theorem KernelMapped.flagAt_take (hMapped : KernelMapped pml4 s) (hOnly : OnlyBits s s')
    (hTaken : ∀ q, s.used q = true → s'.used q = true) (k : Nat) (hq : q.length ≤ 3) (j : Fin 512) :
    flagAt s'.memory pml4 k q j = flagAt s.memory pml4 k q j := by
  rcases hMapped with ⟨frames, n, hBacked, hMapped⟩
  exact (hBacked.take hOnly hTaken).flagAt_eq hMapped k hq j

theorem KernelMapped.flagAt_mapMemory {physicalAddress : BitVec 64} (hMapped : KernelMapped pml4 s)
    (hFlags : TableFlags flags)
    (h : KernelTables.mapMemory pml4 s virtualAddress physicalAddress flags = some s') (hk : k < 12)
    (hq : q.length ≤ 3) (j : Fin 512) : flagAt s'.memory pml4 k q j =
    if (of virtualAddress).path.take (q.length + 1) = q ++ [j] ∧
    (q.length = 3 ∨ flagAt s.memory pml4 0 q j = false) then
    stamped flags k (flagAt s.memory pml4 k q j) else flagAt s.memory pml4 k q j := by
  rcases hMapped with ⟨frames, n, hBacked, hMapped⟩
  rcases hBacked.mapMemory hMapped hFlags h with
    ⟨frames', a', _, _, _, hStep, hCall, hBacked', hMapped'⟩
  rw [hBacked'.flagAt_eq hMapped' k hq j]
  exact mapMemory_flagAt hBacked.root hBacked.nonnull
    (hMapped.congr hStep.same) hFlags hCall hBacked'.fresh hk hq j

def Passes (q : List (Fin 512)) (j : Fin 512) (c : MapCall) : Bool :=
  decide ((of c.virtualAddress).path.take (q.length + 1) = q ++ [j])

/-
  The flags of every entry, told by the calls so far: a table has those of its first call, a page
  those of all.
-/
structure FlagsTold (pml4 : BitVec 64) (calls : List MapCall) (s : PageFrameAllocator) : Prop where
  mapped : KernelMapped pml4 s
  tables : ∀ k < 12, ∀ q, q.length < 3 → ∀ j, flagAt s.memory pml4 k q j =
      (calls.find? (Passes q j)).any (fun c => stamped c.flags k false)
  pages : ∀ k < 12, ∀ q, q.length = 3 → ∀ j, flagAt s.memory pml4 k q j = calls.any (fun c =>
        Passes q j c && stamped c.flags k false)

theorem stamped_zero (flags : BitVec 64) : stamped flags 0 false = true := by
  simp [stamped]

theorem stamped_eq_or (flags : BitVec 64) (k : Nat) (old : Bool) :
    stamped flags k old = (old || stamped flags k false) := by
  simp [stamped]

theorem flagsTold_start (hMapped : KernelMapped pml4 s)
    (hMemory : s.memory = m.fill pml4.toNat 0 4096) : FlagsTold pml4 [] s := by
  have hNone : ∀ k q j, flagAt s.memory pml4 k q j = false := by
    intro k q j
    cases q with
    | nil =>
      rw [flagAt_of_follow follow_nil, hMemory, readEntry_fill_same]
      exact getLsbD_zero
    | cons i q =>
      apply flagAt_of_none
      rw [hMemory]
      exact follow_cons_none (child_fill_same m pml4 i) q
  exact ⟨hMapped, fun k _ q _ j => hNone k q j, fun k _ q _ j => hNone k q j⟩

theorem FlagsTold.snoc (hTold : FlagsTold pml4 calls s) (hFlags : TableFlags c.flags)
    (h : KernelTables.mapMemory pml4 s c.virtualAddress c.physicalAddress c.flags = some s') :
    FlagsTold pml4 (calls ++ [c]) s' := by
  refine ⟨(hTold.mapped.mapMemory hFlags h).1, ?_, ?_⟩
  · intro k hk q hq j
    have hPresent := hTold.tables 0 (by omega) q hq j
    simp only [stamped_zero] at hPresent
    rw [hTold.mapped.flagAt_mapMemory hFlags h hk (by omega) j, hTold.tables k hk q hq j, hPresent,
      find?_append]
    have hShort : q.length ≠ 3 := by omega
    cases hFirst : calls.find? (Passes q j) with
    | some first => simp [hShort]
    | none =>
      by_cases hPass : (of c.virtualAddress).path.take (q.length + 1) = q ++ [j]
      · simp [hPass, Passes]
      · simp [hPass, Passes]
  intro k hk q hq j
  rw [hTold.mapped.flagAt_mapMemory hFlags h hk (by omega) j, hTold.pages k hk q hq j, any_append]
  by_cases hPass : (of c.virtualAddress).path.take (q.length + 1) = q ++ [j]
  · rw [if_pos ⟨hPass, Or.inl hq⟩, stamped_eq_or]
    simp [Passes, hPass]
  · rw [if_neg (fun hBoth => hPass hBoth.1)]
    simp [Passes, hPass]

theorem FlagsTold.backed {frames : Nat → BitVec 64} {n : Nat} (hTold : FlagsTold pml4 calls s)
    (hBacked : Backed frames pml4 s' ⟨s.memory, n⟩) (hMapped : Mapped frames pml4 ⟨s.memory, n⟩) :
    FlagsTold pml4 calls s' := by
  refine ⟨hBacked.kernelMapped hMapped, ?_, ?_⟩
  · intro k hk q hq j
    rw [hBacked.flagAt_eq hMapped k (by omega) j]
    exact hTold.tables k hk q hq j
  intro k hk q hq j
  rw [hBacked.flagAt_eq hMapped k (by omega) j]
  exact hTold.pages k hk q hq j

theorem FlagsTold.take (hTold : FlagsTold pml4 calls s) (hOnly : OnlyBits s s')
    (hTaken : ∀ q, s.used q = true → s'.used q = true) : FlagsTold pml4 calls s' := by
  rcases hTold.mapped with ⟨frames, n, hBacked, hMapped⟩
  exact hTold.backed (hBacked.take hOnly hTaken) hMapped

/-
  The calls on the kernel's root since it was created. In between the allocator hands out pages and
  takes pages back, though none that holds a table.
-/
inductive MapHistory (pml4 : BitVec 64) : List MapCall → PageFrameAllocator → Prop
| root {m : Memory} {params : GBPMemory} {s : PageFrameAllocator} :
    params.size.toNat ≤ 2 ^ 52 → KernelTables.createRoot (boot m params) = some (pml4, s) →
        MapHistory pml4 [] s
| call {calls : List MapCall} {c : MapCall} {s s' : PageFrameAllocator} :
    MapHistory pml4 calls s → TableFlags c.flags → KernelTables.mapMemory pml4 s c.virtualAddress
          c.physicalAddress c.flags = some s' →
        MapHistory pml4 (calls ++ [c]) s'
| pages {calls : List MapCall} {frames : Nat → BitVec 64} {n : Nat} {s s' : PageFrameAllocator} :
    MapHistory pml4 calls s → Backed frames pml4 s' ⟨s.memory, n⟩ →
        Mapped frames pml4 ⟨s.memory, n⟩ → MapHistory pml4 calls s'

theorem MapHistory.flagsTold (hHistory : MapHistory pml4 calls s) : FlagsTold pml4 calls s := by
  induction hHistory with
  | root hSize hCreate =>
    rcases kernelMapped_createRoot (ready_boot _ hSize) hCreate with ⟨hMapped, _, m, hMemory⟩
    exact flagsTold_start hMapped hMemory
  | call _ hFlags hCall ih => exact ih.snoc hFlags hCall
  | pages _ hBacked hMapped ih => exact ih.backed hBacked hMapped

theorem mapHistory_initKernelPML {fuel : Nat} {symbols : KernelSymbols} {early : EarlyParams}
    (m : Memory) (hSize : early.mem.size.toNat ≤ 2 ^ 52)
    (h : initKernelPML fuel symbols early (boot m early.mem) = some (pml4, s)) :
    ∃ calls, MapHistory pml4 calls s := by
  refine initKernelPML_invariant (P := fun s => ∃ calls, MapHistory pml4 calls s) ?_ ?_ ?_ h
  · rintro s s' t p flags ⟨calls, hHistory⟩ hFlags hCall
    exact ⟨calls ++ [⟨t, p, flags⟩], .call (c := ⟨t, p, flags⟩) hHistory hFlags hCall⟩
  · rintro s address ⟨calls, hHistory⟩
    rcases hHistory.flagsTold.mapped with ⟨frames, n, hBacked, hMapped⟩
    exact ⟨calls, .pages hHistory (hBacked.take (onlyBits_takePage .used s address)
        (takes_lockPage s address).used) hMapped⟩
  · intro s₀ hCreate
    exact ⟨[], .root hSize hCreate⟩

------ Effective Rights

def effective (flag : BitVec 64) (m : Memory) (pml4 virtualAddress : BitVec 64) : Bool :=
  let indexer := of virtualAddress
  let pml4e := readEntry m pml4 indexer.pdp
  let pdpe := readEntry m pml4e.page indexer.pd
  let pde := readEntry m pdpe.page indexer.pt
  let pte := readEntry m pde.page indexer.p
  [pml4e, pdpe, pde, pte].all (fun e => e.getFlag PTFlag.P && e.getFlag flag)

def userCanAccess (m : Memory) (pml4 virtualAddress : BitVec 64) : Bool :=
  effective PTFlag.US m pml4 virtualAddress

def userCanWrite (m : Memory) (pml4 virtualAddress : BitVec 64) : Bool :=
  effective PTFlag.US m pml4 virtualAddress && effective PTFlag.RW m pml4 virtualAddress

def FlagSet (m : Memory) (pml4 : BitVec 64) (k : Nat) (stem : List (Fin 512))
    (i : Fin 512) : Prop :=
  flagAt m pml4 0 stem i = true ∧ flagAt m pml4 k stem i = true

private theorem follow_present (hStem : follow (child m) pml4 stem = some t)
    (hPresent : (readEntry m t i).getFlag PTFlag.P = true) : follow (child m) pml4 (stem ++ [i]) =
    some (readEntry m t i).page := by
  rw [follow_snoc, hStem, Option.bind_some, child, if_pos hPresent]

private theorem flagSet_iff (hk : k < 64) (hStem : follow (child m) pml4 stem = some t) :
    FlagSet m pml4 k stem i ↔ (readEntry m t i).getFlag PTFlag.P = true ∧
    (readEntry m t i).getFlag (twoPow 64 k) = true := by
  unfold FlagSet
  rw [flagAt_zero hStem, flagAt_of_follow hStem, getFlag_twoPow _ k hk]

theorem effective_iff {a b c d : Fin 512} (hk : k < 64)
    (hIndexer : of virtualAddress = ⟨a, b, c, d⟩) :
    effective (twoPow 64 k) m pml4 virtualAddress = true ↔
    FlagSet m pml4 k [] a ∧ FlagSet m pml4 k [a] b ∧ FlagSet m pml4 k [a, b] c ∧
    FlagSet m pml4 k [a, b, c] d := by
  simp only [effective, hIndexer, all_cons, all_nil, Bool.and_true, Bool.and_eq_true]
  rw [flagSet_iff hk follow_nil]
  apply and_congr_right
  rintro ⟨hPresent₁, _⟩
  have hPdp : follow (child m) pml4 [a] = _ := follow_present follow_nil hPresent₁
  rw [flagSet_iff hk hPdp]
  apply and_congr_right
  rintro ⟨hPresent₂, _⟩
  have hPd : follow (child m) pml4 [a, b] = _ := follow_present hPdp hPresent₂
  rw [flagSet_iff hk hPd]
  apply and_congr_right
  rintro ⟨hPresent₃, _⟩
  have hPt : follow (child m) pml4 [a, b, c] = _ := follow_present hPd hPresent₃
  rw [flagSet_iff hk hPt]

theorem effective_congr {m' : Memory} (hk : k < 64)
    (hFlags : ∀ k q j, q.length ≤ 3 → flagAt m' pml4 k q j = flagAt m pml4 k q j)
    (v : BitVec 64) : effective (twoPow 64 k) m' pml4 v = effective (twoPow 64 k) m pml4 v := by
  rcases hIndexer : of v with ⟨a, b, c, d⟩
  have hSame : ∀ q, q.length ≤ 3 → ∀ j, FlagSet m' pml4 k q j ↔ FlagSet m pml4 k q j := by
    intro q hq j
    rw [FlagSet, FlagSet, hFlags 0 q j hq, hFlags k q j hq]
  rw [Bool.eq_iff_iff, effective_iff hk hIndexer, effective_iff hk hIndexer, hSame [] (by simp),
    hSame [a] (by simp), hSame [a, b] (by simp), hSame [a, b, c] (by simp)]

theorem US_eq_twoPow : PTFlag.US = twoPow 64 2 := by
  decide

theorem RW_eq_twoPow : PTFlag.RW = twoPow 64 1 := by
  decide

theorem userCanAccess_iff {a b c d : Fin 512} (hIndexer : of virtualAddress = ⟨a, b, c, d⟩) :
    userCanAccess m pml4 virtualAddress = true ↔ FlagSet m pml4 2 [] a ∧ FlagSet m pml4 2 [a] b ∧
    FlagSet m pml4 2 [a, b] c ∧ FlagSet m pml4 2 [a, b, c] d := by
  rw [userCanAccess, US_eq_twoPow]
  exact effective_iff (by omega) hIndexer

private theorem flagAt_zero_snoc (stem : List (Fin 512))
    (h : flagAt m pml4 0 (stem ++ [i]) j = true) : flagAt m pml4 0 stem i = true := by
  rcases hStem : follow (child m) pml4 stem with _ | t
  · rw [flagAt, follow_snoc, hStem] at h
    cases h
  rw [flagAt_zero hStem]
  by_contra hAbsent
  rw [flagAt, follow_snoc, hStem, Option.bind_some, child, if_neg hAbsent] at h
  cases h

section OneCall

variable {virtualAddress physicalAddress : BitVec 64}

variable (hMapped : KernelMapped pml4 s) (hFlags : TableFlags flags)
  (h : KernelTables.mapMemory pml4 s virtualAddress physicalAddress flags = some s') (hk : k < 12)

include hMapped hFlags h hk

theorem KernelMapped.flagSet_grows (hq : q.length ≤ 3) (hSet : FlagSet s.memory pml4 k q j) :
    FlagSet s'.memory pml4 k q j := by
  have hStays : ∀ k < 12, flagAt s.memory pml4 k q j = true →
    flagAt s'.memory pml4 k q j = true := by
    intro k hk hFlag
    rw [hMapped.flagAt_mapMemory hFlags h hk hq j]
    split
    · rw [stamped, hFlag, Bool.true_or]
    · exact hFlag
  exact ⟨hStays 0 (by omega) hSet.1, hStays k hk hSet.2⟩

theorem KernelMapped.flagSet_kept (hq : q.length < 3) (hPresent : flagAt s.memory pml4 0 q j = true)
    (hSet : FlagSet s'.memory pml4 k q j) : FlagSet s.memory pml4 k q j := by
  refine ⟨hPresent, ?_⟩
  have hFlag := hSet.2
  rw [hMapped.flagAt_mapMemory hFlags h hk (by omega) j, if_neg] at hFlag
  · exact hFlag
  rintro ⟨_, hLast | hAbsent⟩
  · omega
  · rw [hPresent] at hAbsent
    cases hAbsent

theorem KernelMapped.effective_mapMemory_other {v : BitVec 64}
    (hOther : ¬ SamePage v virtualAddress) :
    effective (twoPow 64 k) s'.memory pml4 v = effective (twoPow 64 k) s.memory pml4 v := by
  rcases hIndexer : of v with ⟨a, b, c, d⟩
  have hPath : (of virtualAddress).path ≠ [a, b, c, d] := by
    intro hEq
    rw [← of_eq_iff, hIndexer] at hOther
    exact hOther (path_inj.mp hEq).symm
  -- the entry of the page itself is not on the way
  have hLeaf : ∀ k < 12, flagAt s'.memory pml4 k [a, b, c] d =
    flagAt s.memory pml4 k [a, b, c] d := by
    intro k hk
    rw [hMapped.flagAt_mapMemory hFlags h hk (by simp) d, if_neg]
    rintro ⟨hTake, _⟩
    exact hPath hTake
  rw [Bool.eq_iff_iff, effective_iff (by omega) hIndexer, effective_iff (by omega) hIndexer]
  constructor
  · rintro ⟨h₁, h₂, h₃, h₄⟩
    have hSet : FlagSet s.memory pml4 k [a, b, c] d := by
      rw [FlagSet, ← hLeaf 0 (by omega), ← hLeaf k hk]
      exact h₄
    -- the tables on the way were there before the call
    have hThird : flagAt s.memory pml4 0 [a, b] c = true := flagAt_zero_snoc [a, b] hSet.1
    have hSecond : flagAt s.memory pml4 0 [a] b = true := flagAt_zero_snoc [a] hThird
    have hFirst : flagAt s.memory pml4 0 [] a = true := flagAt_zero_snoc [] hSecond
    have hKept {q : List (Fin 512)} {j : Fin 512} (hq : q.length < 3) :=
      hMapped.flagSet_kept (j := j) hFlags h hk hq
    exact ⟨hKept (by simp) hFirst h₁, hKept (by simp) hSecond h₂, hKept (by simp) hThird h₃, hSet⟩
  rintro ⟨h₁, h₂, h₃, h₄⟩
  have hGrows {q : List (Fin 512)} {j : Fin 512} (hq : q.length ≤ 3) :=
    hMapped.flagSet_grows (j := j) hFlags h hk hq
  exact ⟨hGrows (by simp) h₁, hGrows (by simp) h₂, hGrows (by simp) h₃, hGrows (by simp) h₄⟩

end OneCall

def creator (n : Nat) (virtualAddress : BitVec 64) (calls : List MapCall) : Option MapCall :=
  calls.find? (fun c => (of c.virtualAddress).path.take n =
      (of virtualAddress).path.take n)

def TablesGrant (k : Nat) (virtualAddress : BitVec 64) (calls : List MapCall) : Prop :=
  ∀ n, 0 < n → n ≤ 3 → ∃ c, creator n virtualAddress calls = some c ∧ c.flags.getLsbD k = true

def PageGrants (k : Nat) (virtualAddress : BitVec 64) (calls : List MapCall) : Prop :=
  ∃ c ∈ calls, SamePage c.virtualAddress virtualAddress ∧ c.flags.getLsbD k = true

theorem stamped_pos (flags : BitVec 64) (hk : 0 < k) : stamped flags k false = flags.getLsbD k := by
  simp [stamped, Nat.ne_of_gt hk]

section

variable (hTold : FlagsTold pml4 calls s) (hk : 0 < k ∧ k < 12)

include hTold hk

private theorem FlagsTold.table_iff (hq : q.length < 3)
    (hPath : (of virtualAddress).path.take (q.length + 1) = q ++ [j]) :
    FlagSet s.memory pml4 k q j ↔ ∃ c, creator (q.length + 1) virtualAddress calls = some c ∧
    c.flags.getLsbD k = true := by
  have hSame : calls.find? (Passes q j) = creator (q.length + 1) virtualAddress calls := by
    unfold creator Passes
    simp only [hPath]
  unfold FlagSet
  rw [hTold.tables 0 (by omega) q hq j, hTold.tables k hk.2 q hq j, hSame]
  cases creator (q.length + 1) virtualAddress calls with
  | none => simp
  | some c => simp [stamped_zero, stamped_pos _ hk.1]

private theorem FlagsTold.page_iff (hq : q.length = 3)
    (hPath : (of virtualAddress).path = q ++ [j]) :
    FlagSet s.memory pml4 k q j ↔ PageGrants k virtualAddress calls := by
  have hPass : ∀ c : MapCall, Passes q j c = true ↔ SamePage c.virtualAddress
    virtualAddress := by
    intro c
    have hTake : (of c.virtualAddress).path.take (q.length + 1) = (of c.virtualAddress).path := by
      rw [hq]
      rfl
    rw [Passes, decide_eq_true_iff, hTake, ← hPath, path_inj, of_eq_iff]
  unfold FlagSet PageGrants
  rw [hTold.pages 0 (by omega) q hq j, hTold.pages k hk.2 q hq j, any_eq_true, any_eq_true]
  simp only [Bool.and_eq_true, hPass, stamped_zero, stamped_pos _ hk.1, and_true]
  constructor
  · rintro ⟨_, c, hc, hBoth⟩
    exact ⟨c, hc, hBoth⟩
  · rintro ⟨c, hc, hSame, hFlag⟩
    exact ⟨⟨c, hc, hSame⟩, c, hc, hSame, hFlag⟩

theorem FlagsTold.effective_iff_granted (virtualAddress : BitVec 64) :
    effective (twoPow 64 k) s.memory pml4
    virtualAddress = true ↔ TablesGrant k virtualAddress calls ∧
    PageGrants k virtualAddress calls := by
  rcases hIndexer : of virtualAddress with ⟨a, b, c, d⟩
  have hPath : (of virtualAddress).path = [a, b, c, d] := by
    rw [hIndexer]
    rfl
  rw [effective_iff (by omega) hIndexer, hTold.table_iff hk (by simp) (by rw [hPath]; rfl),
    hTold.table_iff hk (by simp) (by rw [hPath]; rfl),
    hTold.table_iff hk (by simp) (by rw [hPath]; rfl), hTold.page_iff hk rfl hPath]
  constructor
  · rintro ⟨hOne, hTwo, hThree, hPage⟩
    refine ⟨?_, hPage⟩
    intro n hPos hLe
    have hCases : n = 1 ∨ n = 2 ∨ n = 3 := by omega
    rcases hCases with rfl | rfl | rfl
    · exact hOne
    · exact hTwo
    · exact hThree
  rintro ⟨hTables, hPage⟩
  exact ⟨hTables 1 (by omega) (by omega), hTables 2 (by omega) (by omega),
    hTables 3 (by omega) (by omega), hPage⟩

end

theorem FlagsTold.effective_first (hTold : FlagsTold pml4 (c :: calls) s) (hk : 0 < k ∧ k < 12)
    (hFlag : c.flags.getLsbD k = true) : effective (twoPow 64 k) s.memory pml4
    c.virtualAddress = true := by
  rw [hTold.effective_iff_granted hk]
  constructor
  · intro n _ _
    exact ⟨c, by simp [creator], hFlag⟩
  · exact ⟨c, mem_cons_self, rfl, hFlag⟩

------ The Latest Call

def MapCall.user (c : MapCall) : Bool :=
  c.flags.getLsbD 2

def MapCall.writes (c : MapCall) : Bool :=
  c.flags.getLsbD 1

/-
  The history agrees with the call: what it asks for is granted by the tables, and what it does not
  ask for was not granted before.
-/
structure FollowsLatest (calls : List MapCall) (c : MapCall) : Prop where
  user : c.user = true → TablesGrant 2 c.virtualAddress (calls ++ [c])
  kernel : c.user = false → TablesGrant 2 c.virtualAddress (calls ++ [c]) →
      ¬ PageGrants 2 c.virtualAddress calls
  write : c.user = true → c.writes = true → TablesGrant 1 c.virtualAddress (calls ++ [c])
  readOnly : c.user = true → c.writes = false → TablesGrant 1 c.virtualAddress (calls ++ [c]) →
      ¬ PageGrants 1 c.virtualAddress calls

theorem pageGrants_snoc : PageGrants k c.virtualAddress (calls ++ [c]) ↔
    PageGrants k c.virtualAddress calls ∨ c.flags.getLsbD k = true := by
  unfold PageGrants
  constructor
  · rintro ⟨d, hd, hSame, hFlag⟩
    rcases mem_append.mp hd with hBefore | hLast
    · exact .inl ⟨d, hBefore, hSame, hFlag⟩
    · cases mem_singleton.mp hLast
      exact .inr hFlag
  rintro (⟨d, hd, hSame, hFlag⟩ | hFlag)
  · exact ⟨d, mem_append_left _ hd, hSame, hFlag⟩
  · exact ⟨c, by simp, rfl, hFlag⟩

def LatestRights (pml4 : BitVec 64) (s : PageFrameAllocator) (c : MapCall) : Prop :=
  (userCanAccess s.memory pml4 c.virtualAddress = true ↔ c.user = true) ∧
    (userCanWrite s.memory pml4 c.virtualAddress = true ↔ c.user = true ∧ c.writes = true)

theorem permissions_follow_iff {calls : List MapCall} {c : MapCall}
    (hHistory : MapHistory pml4 calls s) (hFlags : TableFlags c.flags)
    (hCall : KernelTables.mapMemory pml4 s c.virtualAddress c.physicalAddress c.flags = some s') :
    LatestRights pml4 s' c ↔ FollowsLatest calls c := by
  have hTold := hHistory.flagsTold.snoc hFlags hCall
  have hUser : userCanAccess s'.memory pml4 c.virtualAddress = true ↔
    TablesGrant 2 c.virtualAddress (calls ++ [c]) ∧ (PageGrants 2 c.virtualAddress calls ∨
    c.user = true) := by
    rw [MapCall.user, ← pageGrants_snoc, userCanAccess, US_eq_twoPow]
    exact hTold.effective_iff_granted ⟨by omega, by omega⟩ _
  have hWrite : effective PTFlag.RW s'.memory pml4 c.virtualAddress = true ↔
    TablesGrant 1 c.virtualAddress (calls ++ [c]) ∧ (PageGrants 1 c.virtualAddress calls ∨
    c.writes = true) := by
    rw [MapCall.writes, ← pageGrants_snoc, RW_eq_twoPow]
    exact hTold.effective_iff_granted ⟨by omega, by omega⟩ _
  have hBoth : userCanWrite s'.memory pml4 c.virtualAddress = true ↔
    userCanAccess s'.memory pml4 c.virtualAddress = true ∧ effective PTFlag.RW s'.memory pml4
    c.virtualAddress = true := by
    rw [userCanWrite, Bool.and_eq_true, userCanAccess]
  unfold LatestRights
  rw [hBoth, hUser, hWrite]
  constructor
  · rintro ⟨hAccess, hWrites⟩
    constructor
    · intro hc
      exact (hAccess.mpr hc).1
    · intro hc hTables hPage
      have hOn := hAccess.mp ⟨hTables, Or.inl hPage⟩
      rw [hc] at hOn
      cases hOn
    · intro hc hw
      exact (hWrites.mpr ⟨hc, hw⟩).2.1
    · intro hc hw hTables hPage
      have hOn := (hWrites.mp ⟨hAccess.mpr hc, hTables, Or.inl hPage⟩).2
      rw [hw] at hOn
      cases hOn
  intro hFollows
  have hAccess : TablesGrant 2 c.virtualAddress (calls ++ [c]) ∧
    (PageGrants 2 c.virtualAddress calls ∨ c.user = true) ↔ c.user = true := by
    constructor
    · rintro ⟨hTables, hPage | hc⟩
      · by_contra hc
        exact hFollows.kernel (by simpa using hc) hTables hPage
      · exact hc
    · intro hc
      exact ⟨hFollows.user hc, Or.inr hc⟩
  refine ⟨hAccess, ?_⟩
  rw [hAccess]
  apply and_congr_right
  intro hc
  constructor
  · rintro ⟨hTables, hPage | hw⟩
    · by_contra hw
      exact hFollows.readOnly hc (by simpa using hw) hTables hPage
    · exact hw
  · intro hw
    exact ⟨hFollows.write hc hw, Or.inr hw⟩

theorem permissions_follow_iff_again : ∃ s s', MapHistory 0x102000 [⟨0x1000, 0x1000, PTFlag.RW⟩] s ∧
    KernelTables.mapMemory 0x102000 s 0x1000 0x3000 (PTFlag.RW ||| PTFlag.US) = some s' ∧
    (LatestRights 0x102000 s' ⟨0x1000, 0x3000, PTFlag.RW ||| PTFlag.US⟩ ↔
    FollowsLatest [⟨0x1000, 0x1000, PTFlag.RW⟩] ⟨0x1000, 0x3000, PTFlag.RW ||| PTFlag.US⟩) := by
  rcases createRoot_small (fun _ => 0) with ⟨s₀, hCreate, hRoomy, _⟩
  rcases hRoomy.mapMemory tableFlags_RW 0x1000 0x1000 with ⟨s, hFirst, hRoomy₁⟩
  rcases hRoomy₁.mapMemory tableFlags_RW_US 0x1000 0x3000 with ⟨s', hCall, _⟩
  have hHistory : MapHistory 0x102000 [⟨0x1000, 0x1000, PTFlag.RW⟩] s :=
    .call (c := ⟨0x1000, 0x1000, PTFlag.RW⟩) (.root (by decide) hCreate) tableFlags_RW hFirst
  exact ⟨s, s', hHistory, hCall, permissions_follow_iff
    (c := ⟨0x1000, 0x3000, PTFlag.RW ||| PTFlag.US⟩) hHistory tableFlags_RW_US hCall⟩

end Fennix
