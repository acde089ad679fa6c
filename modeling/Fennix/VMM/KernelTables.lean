import Fennix.PMM.Contents
import Fennix.VMM.Mapping

/-
  Page tables in the allocator's own memory.

  Here `MapMemory` takes its tables from `RequestPage` itself, and tables and bitmap lie in one
  memory.
-/

variable {physicalAddress : BitVec 64}

namespace Fennix

open PageDirectoryEntry PageFrameAllocator List Option BitVec PageMapIndexer

namespace KernelTables

def clearTable (t : BitVec 64) (s : PageFrameAllocator) : PageFrameAllocator :=
  { s with memory := s.memory.fill t.toNat 0 4096 }

/- The table below an entry, requested when the entry is not present. -/
def nextTable (flags table : BitVec 64) (i : Fin 512) (s : PageFrameAllocator) :
    Option (BitVec 64 × PageFrameAllocator) :=
  let pde := readEntry s.memory table i
  if pde.getFlag PTFlag.P then some (pde.page, s)
  else
    match s.requestPage with
    | (none, _) => none
    | (some address, s) =>
      let next := BitVec.ofNat 64 address
      let s := clearTable next s
      some (next,
        { s with memory := writeEntry s.memory table i (pde.pointTo next flags) })

def createRoot (s : PageFrameAllocator) : Option (BitVec 64 × PageFrameAllocator) :=
  match s.requestPage with
  | (none, _) => none
  | (some address, s) =>
    let pml4 := BitVec.ofNat 64 address
    some (pml4, clearTable pml4 s)

def mapMemory (pml4 : BitVec 64) (s : PageFrameAllocator)
    (virtualAddress physicalAddress flags : BitVec 64) : Option PageFrameAllocator :=
  if pml4 = 0 then none
  else do
    let indexer := of virtualAddress
    let (pdp, s) ← nextTable flags pml4 indexer.pdp s
    let (pd, s) ← nextTable flags pdp indexer.pd s
    let (pt, s) ← nextTable flags pd indexer.pt s
    let pde := readEntry s.memory pt indexer.p
    some
      { s with memory := writeEntry s.memory pt indexer.p (pde.pointTo physicalAddress flags) }

/- `UnmapMemory` clears the flags of a copy of the first entry and never writes it back. -/
def unmapMemory (pml4 : BitVec 64) (s : PageFrameAllocator) (virtualAddress : BitVec 64) :
    PageDirectoryEntry × PageFrameAllocator :=
  let indexer := of virtualAddress
  let pde := readEntry s.memory pml4 indexer.pdp
  (pde.clearFlags, s)

theorem mapMemory_cases {pml4 virtualAddress flags : BitVec 64} {s s' : PageFrameAllocator}
    (h : mapMemory pml4 s virtualAddress physicalAddress flags = some s') :
    ∃ a b c d pdp pd pt s₁ s₂ s₃, of virtualAddress = ⟨a, b, c, d⟩ ∧
    nextTable flags pml4 a s = some (pdp, s₁) ∧ nextTable flags pdp b s₁ = some (pd, s₂) ∧
    nextTable flags pd c s₂ = some (pt, s₃) ∧ s' = { s₃ with
    memory :=
                writeEntry s₃.memory pt d
                  ((readEntry s₃.memory pt d).pointTo physicalAddress flags) } := by
  rcases hIndexer : of virtualAddress with ⟨a, b, c, d⟩
  unfold mapMemory at h
  split at h
  · cases h
  simp only [hIndexer, bind_eq_bind, bind_eq_some_iff, Prod.exists, some.injEq] at h
  rcases h with ⟨pdp, s₁, hOne, pd, s₂, hTwo, pt, s₃, hThree, hLast⟩
  exact ⟨a, b, c, d, pdp, pd, pt, s₁, s₂, s₃, rfl, hOne, hTwo, hThree, hLast.symm⟩

variable {s : PageFrameAllocator}

theorem nextTable_present {table next : BitVec 64} {i : Fin 512}
    (h : child s.memory table i = some next) (flags : BitVec 64) :
    nextTable flags table i s = some (next, s) := by
  unfold child at h
  unfold nextTable
  split at h
  · rename_i hPresent
    cases h
    rw [if_pos hPresent]
  · cases h

theorem mapMemory_present {pml4 pt virtualAddress : BitVec 64} {a b c d : Fin 512}
    (hRoot : pml4 ≠ 0) (hIndexer : of virtualAddress = ⟨a, b, c, d⟩)
    (hFollow : follow (child s.memory) pml4 [a, b, c] = some pt)
    (physicalAddress flags : BitVec 64) :
    mapMemory pml4 s virtualAddress physicalAddress flags = some { s with
    memory :=
            writeEntry s.memory pt d
              ((readEntry s.memory pt d).pointTo physicalAddress flags) } := by
  change follow _ _ ([a, b] ++ [c]) = _ at hFollow
  rcases follow_snoc_some.mp hFollow with ⟨pd, hTwo, hPt⟩
  change follow _ _ ([a] ++ [b]) = _ at hTwo
  rcases follow_snoc_some.mp hTwo with ⟨pdp, hPdp, hPd⟩
  change child s.memory pml4 a = some pdp at hPdp
  simp only [mapMemory, hIndexer, if_neg hRoot, nextTable_present hPdp, nextTable_present hPd,
    nextTable_present hPt, bind_eq_bind, bind_some]

end KernelTables

end Fennix

namespace Fennix

variable {m : Memory} {x n : Nat} {next flags table : BitVec 64} {i : Fin 512}
variable {virtualAddress : BitVec 64}

open PageDirectoryEntry PageFrameAllocator KernelTables

variable {pml4 : BitVec 64} {frames frames' : Nat → BitVec 64} {s s' : PageFrameAllocator}
variable {a a' : PagingState} {t : BitVec 64}

def tablePage (t : BitVec 64) : Nat :=
  t.toNat / 4096

/-
  Every table is a used page apart from the bitmap, so is every page that is still clear, and the
  two memories agree outside the bitmap.
-/
structure Backed (frames : Nat → BitVec 64) (pml4 : BitVec 64) (s : PageFrameAllocator)
    (a : PagingState) : Prop where
  root : Aligned pml4
  nonnull : pml4 ≠ 0
  bits_le : s.bits ≤ 2 ^ 40
  agree : ∀ x, ¬ s.pageBitmap.Owns x → s.memory x = a.memory x
  fresh : FreshFrames frames pml4 a.requested
  table : ∀ t, TableOwned frames pml4 a.requested t → s.used (tablePage t) = true ∧
      PageApart s.pageBitmap (tablePage t)
  spare : ∀ index < s.bits, s.used index = false → PageApart s.pageBitmap index

variable {m' : Memory}

section

variable (hTable : Aligned t)

include hTable

theorem writeEntry_page (hPage : tablePage t ≠ x / 4096) (i : Fin 512) (e : PageDirectoryEntry) :
    writeEntry m t i e x = m x := by
  have hi := i.isLt
  apply Memory.store_outside
  by_contra hInside
  apply hPage
  unfold Aligned at hTable
  unfold tablePage
  omega

theorem fill_page (hPage : tablePage t ≠ x / 4096) : m.fill t.toNat 0 4096 x = m x := by
  apply Memory.fill_outside
  by_contra hInside
  apply hPage
  unfold Aligned at hTable
  unfold tablePage
  omega

theorem writeEntry_owns {b : Bitmap} (hApart : PageApart b (tablePage t)) (i : Fin 512)
    (e : PageDirectoryEntry) (hx : b.Owns x) : writeEntry m t i e x = m x :=
  writeEntry_page hTable (fun hPage => hApart x hPage.symm hx) i e

theorem fill_owns {b : Bitmap} (hApart : PageApart b (tablePage t)) (hx : b.Owns x) :
    m.fill t.toNat 0 4096 x = m x :=
  fill_page hTable (fun hPage => hApart x hPage.symm hx)

theorem readEntry_page (hSame : ∀ x, x / 4096 = tablePage t → m x = m' x) (i : Fin 512) :
    readEntry m t i = readEntry m' t i := by
  have hi := i.isLt
  unfold readEntry
  rw [Memory.load_congr]
  intro x hLow hHigh
  apply hSame
  unfold Aligned at hTable
  unfold tablePage
  omega

end

theorem writeEntry_agree (h : m x = m' x) (t : BitVec 64) (i : Fin 512) (e : PageDirectoryEntry) :
    writeEntry m t i e x = writeEntry m' t i e x := by
  simp only [writeEntry, Memory.store, h]

theorem fill_agree (h : m x = m' x) (low n : Nat) : m.fill low 0 n x = m'.fill low 0 n x := by
  simp only [Memory.fill, h]

section

variable (hBacked : Backed frames pml4 s a)

include hBacked

theorem Backed.agree_table (hTable : TableOwned frames pml4 a.requested t) (x : Nat)
    (hx : x / 4096 = tablePage t) : s.memory x = a.memory x :=
  hBacked.agree x ((hBacked.table t hTable).2 x hx)

theorem Backed.readEntry_eq (hTable : TableOwned frames pml4 a.requested t) (i : Fin 512) :
    readEntry s.memory t i = readEntry a.memory t i :=
  readEntry_page (hBacked.fresh.aligned hBacked.root hTable) (hBacked.agree_table hTable) i

theorem Backed.release (hOnly : OnlyBits s s')
    (hKept : ∀ q, s.used q = true → s'.used q = true ∨ (∀ t, TableOwned frames pml4 a.requested t →
    tablePage t ≠ q) ∧ (q < s.bits → PageApart s.pageBitmap q)) : Backed frames pml4 s' a := by
  refine ⟨hBacked.root, hBacked.nonnull, ?_, ?_, hBacked.fresh, ?_, ?_⟩
  · rw [hOnly.bits]
    exact hBacked.bits_le
  · intro x hx
    rw [hOnly.pageBitmap] at hx
    rw [hOnly.outside x hx, hBacked.agree x hx]
  · intro t hOwned
    rcases hBacked.table t hOwned with ⟨hUsed, hApart⟩
    rw [hOnly.pageBitmap]
    rcases hKept _ hUsed with hStill | ⟨hOther, _⟩
    · exact ⟨hStill, hApart⟩
    · exact absurd rfl (hOther t hOwned)
  · intro index hIndex hClear
    rw [hOnly.bits] at hIndex
    rw [hOnly.pageBitmap]
    cases hBefore : s.used index with
    | false => exact hBacked.spare index hIndex hBefore
    | true =>
      rcases hKept index hBefore with hStill | ⟨_, hApart⟩
      · rw [hStill] at hClear
        cases hClear
      · exact hApart hIndex

theorem Backed.take (hOnly : OnlyBits s s') (hTaken : ∀ q, s.used q = true → s'.used q = true) :
    Backed frames pml4 s' a :=
  hBacked.release hOnly (fun q hq => Or.inl (hTaken q hq))

end

theorem tableOwned_congr (hSame : ∀ k < n, frames' k = frames k) :
    TableOwned frames' pml4 n t ↔ TableOwned frames pml4 n t := by
  unfold TableOwned
  apply or_congr_right
  apply exists_congr
  intro k
  apply and_congr_right
  intro hk
  rw [hSame k hk]

theorem FreshFrames.congr (hFresh : FreshFrames frames pml4 n)
    (hSame : ∀ k < n, frames' k = frames k) : FreshFrames frames' pml4 n := by
  intro k hk
  rw [hSame k hk]
  rcases hFresh k hk with ⟨hPage, hRoot, hBefore⟩
  refine ⟨hPage, hRoot, ?_⟩
  intro j hj
  rw [hSame j (by omega)]
  exact hBefore j hj

theorem Mapped.congr (hMapped : Mapped frames pml4 a)
    (hSame : ∀ k < a.requested, frames' k = frames k) : Mapped frames' pml4 a := by
  refine ⟨⟨hMapped.tree.unique, ?_⟩, ?_⟩
  · intro p t hLength hTable
    rw [tableOwned_congr hSame]
    exact hMapped.tree.owned hLength hTable
  · intro t hOwned
    exact hMapped.plain t ((tableOwned_congr hSame).mp hOwned)

def framesWith (frames : Nat → BitVec 64) (n : Nat) (t : BitVec 64) : Nat → BitVec 64 :=
  Function.update frames n t

theorem framesWith_before {k : Nat} (hk : k < n) : framesWith frames n t k = frames k :=
  Function.update_of_ne (Nat.ne_of_lt hk) _ _

theorem framesWith_last (frames : Nat → BitVec 64) (n : Nat) (t : BitVec 64) :
    framesWith frames n t n = t := by
  rw [framesWith, Function.update_self]

theorem tableOwned_framesWith : TableOwned (framesWith frames n next) pml4 (n + 1) t ↔
    TableOwned frames pml4 n t ∨ t = next := by
  rw [tableOwned_succ_iff, framesWith_last, tableOwned_congr (fun k hk => framesWith_before hk)]

theorem FreshFrames.add (hFresh : FreshFrames frames pml4 n) (hPage : IsPage next)
    (hNew : ¬ TableOwned frames pml4 n next) :
    FreshFrames (framesWith frames n next) pml4 (n + 1) := by
  intro k hk
  by_cases hLast : k = n
  · subst hLast
    rw [framesWith_last]
    refine ⟨hPage, fun hEq => hNew (.inl hEq), ?_⟩
    intro j hj hEq
    rw [framesWith_before hj] at hEq
    exact hNew (.inr ⟨j, hj, hEq.symm⟩)
  · exact hFresh.congr (fun j hj => framesWith_before hj) k (by omega)

variable {index : Nat}

theorem tablePage_of_toNat (hNext : t.toNat = index * 4096) : tablePage t = index ∧ Aligned t := by
  unfold tablePage Aligned
  omega

theorem toNat_pageAddress (index : Nat) (hIndex : index < 2 ^ 40) :
    (BitVec.ofNat 64 (index * 4096)).toNat = index * 4096 :=
  toNat_ofNat_of_lt (by omega)

/-
  What a call may do: of the tables it went through some are new and were clear pages, and outside
  the bitmap only tables are written.
-/
structure TableStep (pml4 : BitVec 64) (frames : Nat → BitVec 64) (n : Nat) (s : PageFrameAllocator)
    (frames' : Nat → BitVec 64) (n' : Nat) (s' : PageFrameAllocator)
    (through : List (BitVec 64)) : Prop where
  same : ∀ k < n, frames' k = frames k
  kept : ∀ t, TableOwned frames pml4 n t → TableOwned frames' pml4 n' t
  grown : ∀ t, TableOwned frames' pml4 n' t → TableOwned frames pml4 n t ∨
      t ∈ through ∧ tablePage t < s.bits ∧ s.used (tablePage t) = false
  takes : Takes through.length s s'
  outside : ∀ x, ¬ s.pageBitmap.Owns x → (∀ t, TableOwned frames' pml4 n' t →
      tablePage t ≠ x / 4096) → s'.memory x = s.memory x

theorem TableStep.refl (pml4 : BitVec 64) (frames : Nat → BitVec 64) (n : Nat)
    (s : PageFrameAllocator) (through : List (BitVec 64)) :
    TableStep pml4 frames n s frames n s through where
  same := fun _ _ => rfl
  kept := fun _ hOwned => hOwned
  grown := fun _ hOwned => Or.inl hOwned
  takes := (Takes.refl s).mono (Nat.zero_le _)
  outside := fun _ _ _ => rfl

theorem TableStep.trans {n' n'' : Nat} {frames'' : Nat → BitVec 64} {s'' : PageFrameAllocator}
    {through through' : List (BitVec 64)} (h : TableStep pml4 frames n s frames' n' s' through)
    (h' : TableStep pml4 frames' n' s' frames'' n'' s'' through') (hLe : n ≤ n') :
    TableStep pml4 frames n s frames'' n'' s'' (through ++ through') where
  same := fun k hk =>
    (h'.same k (by omega)).trans (h.same k hk)
  kept := fun t hOwned => h'.kept t (h.kept t hOwned)
  grown := by
    intro t hOwned
    rcases h'.grown t hOwned with hOld | ⟨hNew, hLt, hClear⟩
    · rcases h.grown t hOld with hOlder | ⟨hNew, hRest⟩
      · exact .inl hOlder
      · exact .inr ⟨List.mem_append_left _ hNew, hRest⟩
    right
    rw [h.takes.bits] at hLt
    refine ⟨List.mem_append_right _ hNew, hLt, ?_⟩
    rw [← Bool.not_eq_true] at hClear ⊢
    exact fun hUsed => hClear (h.takes.used _ hUsed)
  takes := by
    rw [List.length_append]
    exact h.takes.trans h'.takes
  outside := by
    intro x hx hTables
    have hx' : ¬ s'.pageBitmap.Owns x := by
      rw [h.takes.pageBitmap]
      exact hx
    rw [h'.outside x hx' hTables]
    exact h.outside x hx (fun t hOwned => hTables t (h'.kept t hOwned))

theorem Backed.setEntry (hBacked : Backed frames pml4 s a)
    (hTable : TableOwned frames pml4 a.requested t) (i : Fin 512) (e : PageDirectoryEntry) :
    Backed frames pml4 { s with memory := writeEntry s.memory t i e }
      ⟨writeEntry a.memory t i e, a.requested⟩ ∧ TableStep pml4 frames a.requested s
      frames a.requested { s with memory := writeEntry s.memory t i e } [] := by
  have hAligned := hBacked.fresh.aligned hBacked.root hTable
  have hOwns := fun x hx => writeEntry_owns (m := s.memory) (x := x) hAligned
        (hBacked.table t hTable).2 i e hx
  constructor
  · refine ⟨hBacked.root, hBacked.nonnull, hBacked.bits_le, ?_, hBacked.fresh, ?_, ?_⟩
    · intro x hx
      exact writeEntry_agree (hBacked.agree x hx) t i e
    · intro t' hOwned
      rw [used_setMemory hOwns]
      exact hBacked.table t' hOwned
    · intro index hIndex hClear
      rw [used_setMemory hOwns] at hClear
      exact hBacked.spare index hIndex hClear
  refine ⟨fun _ _ => rfl, fun _ hOwned => hOwned, fun _ hOwned => Or.inl hOwned,
    takes_setMemory hOwns, ?_⟩
  intro x _ hTables
  exact writeEntry_page hAligned (hTables t hTable) i e

theorem Backed.grow (hBacked : Backed frames pml4 s a) (hIndex : index < s.bits)
    (hClear : s.used index = false) (hOnly : OnlyBits s s') (hTakes : Takes 1 s s')
    (hUsed : ∀ q, s'.used q = true ↔ s.used q = true ∨ q = index) (hNext : t.toNat = index * 4096) :
    Backed (framesWith frames a.requested t) pml4
    { s' with memory := s'.memory.fill t.toNat 0 4096 }
    ⟨a.memory.fill t.toNat 0 4096, a.requested + 1⟩ ∧
    TableStep pml4 frames a.requested s (framesWith frames a.requested t) (a.requested + 1)
      { s' with memory := s'.memory.fill t.toNat 0 4096 } [t] := by
  have hTaken := hBacked.take hOnly hTakes.used
  rcases tablePage_of_toNat hNext with ⟨hTablePage, hAligned⟩
  have hPage : IsPage t := by
    have hLe := hBacked.bits_le
    exact ⟨hAligned, by omega⟩
  have hApart : PageApart s'.pageBitmap (tablePage t) := by
    rw [hOnly.pageBitmap, hTablePage]
    exact hBacked.spare index hIndex hClear
  have hNew : ¬ TableOwned frames pml4 a.requested t := by
    intro hOwned
    have hBusy := (hBacked.table t hOwned).1
    rw [hTablePage, hClear] at hBusy
    cases hBusy
  have hOwns := fun x hx => fill_owns (m := s'.memory) (x := x) hAligned hApart hx
  constructor
  · refine ⟨hBacked.root, hBacked.nonnull, hTaken.bits_le, ?_, hBacked.fresh.add hPage hNew, ?_, ?_⟩
    · intro x hx
      exact fill_agree (hTaken.agree x hx) _ _
    · intro t' hOwned
      rw [used_setMemory hOwns]
      rcases tableOwned_framesWith.mp hOwned with hOld | hEq
      · exact hTaken.table t' hOld
      · rw [hEq, hUsed, hTablePage]
        exact ⟨Or.inr rfl, hTablePage ▸ hApart⟩
    · intro q hq hFree
      rw [used_setMemory hOwns] at hFree
      exact hTaken.spare q hq hFree
  refine ⟨fun k hk => framesWith_before hk, ?_, ?_, hTakes.trans (takes_setMemory hOwns), ?_⟩
  · intro t' hOwned
    exact tableOwned_framesWith.mpr (.inl hOwned)
  · intro t' hOwned
    rcases tableOwned_framesWith.mp hOwned with hOld | rfl
    · exact .inl hOld
    right
    rw [hTablePage]
    exact ⟨List.mem_singleton_self _, hIndex, hClear⟩
  · intro x hx hTables
    have hNew := hTables t (tableOwned_framesWith.mpr (.inr rfl))
    exact (fill_page hAligned hNew).trans (hOnly.outside x hx)

open PageTableManager in
theorem Backed.nextTable (hBacked : Backed frames pml4 s a)
    (hTable : TableOwned frames pml4 a.requested table)
    (h : nextTable flags table i s = some (next, s')) : ∃ frames' a',
    TableStep pml4 frames a.requested s frames' a'.requested s' [next] ∧
    nextTable frames' true flags table i a = (next, a') ∧ Backed frames' pml4 s' a' := by
  unfold KernelTables.nextTable at h
  unfold PageTableManager.nextTable
  dsimp only at h ⊢
  rw [hBacked.readEntry_eq hTable i] at h
  cases hPresent : (readEntry a.memory table i).getFlag PTFlag.P with
  | true =>
    rw [hPresent, if_pos rfl] at h
    cases h
    exact ⟨frames, a, TableStep.refl pml4 frames _ s _, rfl, hBacked⟩
  | false =>
    rw [hPresent, if_neg Bool.false_ne_true] at h
    rcases hRequest : s.requestPage with ⟨_ | address, s₁⟩
    · rw [hRequest] at h
      cases h
    rw [hRequest] at h
    cases h
    have hBits := hBacked.bits_le
    rcases requestPage_spec (by omega) hRequest with ⟨index, hIndex, hClear, rfl, hUsed⟩
    have hNext := toNat_pageAddress index (by omega)
    rcases hBacked.grow hIndex hClear (onlyBits_requestPage hRequest)
      (takes_requestPage (by omega) hRequest) hUsed hNext with ⟨hGrown, hStep⟩
    have hOwned : TableOwned (framesWith frames a.requested (BitVec.ofNat 64 (index * 4096)))
      pml4 (a.requested + 1) table :=
      tableOwned_framesWith.mpr (.inl hTable)
    rcases hGrown.setEntry hOwned i ((readEntry a.memory table i).pointTo
      (BitVec.ofNat 64 (index * 4096)) flags) with ⟨hWritten, hWrites⟩
    refine ⟨_, _, ?_, ?_, hWritten⟩
    · exact hStep.trans hWrites (Nat.le_succ _)
    · rw [if_neg Bool.false_ne_true, framesWith_last]
      rfl

theorem Backed.level {stem : List (Fin 512)} (hBacked : Backed frames pml4 s a)
    (hMapped : Mapped frames pml4 a) (hFlags : TableFlags flags) (hDepth : stem.length < 3)
    (hParent : follow (child a.memory) pml4 stem = some table)
    (h : KernelTables.nextTable flags table i s = some (next, s')) : ∃ frames' a',
    TableStep pml4 frames a.requested s frames' a'.requested s' [next] ∧
    PageTableManager.nextTable frames' true flags table i a = (next, a') ∧
    Backed frames' pml4 s' a' ∧ Mapped frames' pml4 a' ∧
    follow (child a'.memory) pml4 (stem ++ [i]) = some next := by
  have hOwned := hMapped.tree.owned (by omega) hParent
  rcases hBacked.nextTable hOwned h with ⟨frames', a', hStep, hNext, hBacked'⟩
  rcases nextTable_spec hBacked.root (hMapped.congr hStep.same) hFlags hDepth hParent hNext
    hBacked'.fresh with ⟨hMapped', hFollow, _⟩
  exact ⟨frames', a', hStep, hNext, hBacked', hMapped', hFollow⟩

theorem nextTable_congr (h : PageTableManager.nextTable frames true flags table i a = (next, a'))
    (hSame : ∀ k < a'.requested, frames' k = frames k) :
    PageTableManager.nextTable frames' true flags table i a = (next, a') := by
  unfold PageTableManager.nextTable at h ⊢
  dsimp only at h ⊢
  split at h
  · rename_i hPresent
    rw [if_pos hPresent]
    exact h
  rename_i hAbsent
  cases h
  rw [if_neg hAbsent, hSame a.requested (by simp)]

theorem Backed.mapMemory (hBacked : Backed frames pml4 s a) (hMapped : Mapped frames pml4 a)
    (hFlags : TableFlags flags)
    (h : mapMemory pml4 s virtualAddress physicalAddress flags = some s') :
    ∃ frames' a' pdp pd pt, TableStep pml4 frames a.requested s frames'
    a'.requested s' [pdp, pd, pt] ∧ PageTableManager.mapMemory frames' ⟨pml4⟩ a
    virtualAddress physicalAddress flags 0 = some a' ∧
    Backed frames' pml4 s' a' ∧ Mapped frames' pml4 a' := by
  rcases mapMemory_cases h with
    ⟨i, j, k, l, pdp, pd, pt, s₁, s₂, s₃, hIndexer, hOne, hTwo, hThree, rfl⟩
  rcases hBacked.level hMapped hFlags (by simp) follow_nil hOne with
    ⟨frames₁, a₁, hStep₁, hNext₁, hBacked₁, hMapped₁, hPdp⟩
  rcases hBacked₁.level hMapped₁ hFlags (by simp) hPdp hTwo with
    ⟨frames₂, a₂, hStep₂, hNext₂, hBacked₂, hMapped₂, hPd⟩
  rcases hBacked₂.level hMapped₂ hFlags (by simp) hPd hThree with
    ⟨frames₃, a₃, hStep₃, hNext₃, hBacked₃, hMapped₃, hPt⟩
  have hOwned := hMapped₃.tree.owned (by simp) hPt
  rcases hBacked₃.setEntry hOwned l ((readEntry s₃.memory pt l).pointTo physicalAddress flags) with
    ⟨hLast, hStep₄⟩
  rw [hBacked₃.readEntry_eq hOwned l] at hLast
  -- the pages of the last level serve all three
  have hLe₁ := (nextTable_requested hNext₁).1
  have hLe₂ := (nextTable_requested hNext₂).1
  have hLe₃ := (nextTable_requested hNext₃).1
  have hStep := ((hStep₁.trans hStep₂ hLe₁).trans hStep₃ (by omega)).trans hStep₄ (by omega)
  have hAgain₂ := nextTable_congr hNext₂ hStep₃.same
  have hAgain₁ := nextTable_congr hNext₁ (hStep₂.trans hStep₃ hLe₂).same
  have hCall : PageTableManager.mapMemory frames₃ ⟨pml4⟩ a virtualAddress physicalAddress flags 0 =
    some ⟨writeEntry a₃.memory pt l ((readEntry a₃.memory pt l).pointTo
    physicalAddress flags), a₃.requested⟩ := by
    simpa [PageTableManager.mapMemory, hIndexer, hAgain₁, hAgain₂, hNext₃] using hBacked.nonnull
  refine ⟨frames₃, _, pdp, pd, pt, ?_, hCall, ?_, ?_⟩
  · exact hStep
  · rw [hBacked₃.readEntry_eq hOwned l]
    exact hLast
  · exact (mapMemory_spec hBacked.root hBacked.nonnull (hMapped.congr hStep.same) hFlags hCall
      hLast.fresh).1

------ The Kernel's Tables

/-
  The tables below `pml4` form a tree of pages that were requested, in the memory they share with
  the bitmap.
-/
def KernelMapped (pml4 : BitVec 64) (s : PageFrameAllocator) : Prop :=
  ∃ frames requested, Backed frames pml4 s ⟨s.memory, requested⟩ ∧
      Mapped frames pml4 ⟨s.memory, requested⟩

theorem KernelMapped.bits_le (hMapped : KernelMapped pml4 s) : s.bits ≤ 2 ^ 40 := by
  rcases hMapped with ⟨_, _, hBacked, _⟩
  exact hBacked.bits_le

theorem KernelMapped.used_root (hMapped : KernelMapped pml4 s) :
    s.used (tablePage pml4) = true := by
  rcases hMapped with ⟨_, _, hBacked, _⟩
  exact (hBacked.table pml4 (.inl rfl)).1

section

variable (hBacked : Backed frames pml4 s a) (hMapped : Mapped frames pml4 a)

include hBacked hMapped

theorem Backed.alike (hUsed : ∀ q, s'.used q = s.used q) (hBitmap : s'.pageBitmap = s.pageBitmap)
    (hTables : ∀ t, TableOwned frames pml4 a.requested t →
    ∀ x, x / 4096 = tablePage t → s'.memory x = a.memory x) :
    Backed frames pml4 s' ⟨s'.memory, a.requested⟩ ∧
    Mapped frames pml4 ⟨s'.memory, a.requested⟩ ∧ ∀ path, path.length ≤ 4 →
    follow (child s'.memory) pml4 path = follow (child a.memory) pml4 path := by
  have hRead : ∀ t, TableOwned frames pml4 a.requested t →
    ∀ i, readEntry s'.memory t i = readEntry a.memory t i :=
    fun t hOwned => readEntry_page (hBacked.fresh.aligned hBacked.root hOwned) (hTables t hOwned)
  have hEdges : ∀ p t, p.length < 4 → follow (child a.memory) pml4 p = some t →
    ∀ i, child s'.memory t i = child a.memory t i := by
    intro p t hp hTable i
    rw [child, child, hRead t (hMapped.tree.owned (by omega) hTable)]
  have hBits : s'.bits = s.bits := congrArg Bitmap.bits hBitmap
  refine ⟨?_, ⟨?_, ?_⟩, fun path hLength => follow_congr hEdges hLength⟩
  · refine ⟨hBacked.root, hBacked.nonnull, ?_, fun _ _ => rfl, hBacked.fresh, ?_, ?_⟩
    · rw [hBits]
      exact hBacked.bits_le
    · intro t hOwned
      rw [hUsed, hBitmap]
      exact hBacked.table t hOwned
    · intro index hIndex hClear
      rw [hBits] at hIndex
      rw [hUsed] at hClear
      rw [hBitmap]
      exact hBacked.spare index hIndex hClear
  · exact hMapped.tree.congr (fun p t hp hTable => hEdges p t (by omega) hTable)
  · intro t hOwned i
    rw [hRead t hOwned]
    exact hMapped.plain t hOwned i

theorem Backed.follow_eq (path : List (Fin 512)) (hLength : path.length ≤ 4) :
    follow (child s.memory) pml4 path = follow (child a.memory) pml4 path :=
  (hBacked.alike hMapped (fun _ => rfl) rfl (fun _ => hBacked.agree_table)).2.2 path hLength

theorem Backed.self :
    Backed frames pml4 s ⟨s.memory, a.requested⟩ ∧ Mapped frames pml4 ⟨s.memory, a.requested⟩ := by
  rcases hBacked.alike hMapped (fun _ => rfl) rfl (fun _ => hBacked.agree_table) with
    ⟨hSelf, hTree, _⟩
  exact ⟨hSelf, hTree⟩

theorem Backed.kernelMapped : KernelMapped pml4 s :=
  ⟨frames, a.requested, hBacked.self hMapped⟩

end

section

variable (hMapped : KernelMapped pml4 s)

include hMapped

theorem KernelMapped.mapMemory (hFlags : TableFlags flags)
    (h : mapMemory pml4 s virtualAddress physicalAddress flags = some s') :
    KernelMapped pml4 s' ∧ Takes 3 s s' ∧ ∀ other, lookup s'.memory pml4 other =
    if other = .of virtualAddress then some (framePage physicalAddress)
    else lookup s.memory pml4 other := by
  rcases hMapped with ⟨frames, n, hBacked, hMapped⟩
  rcases hBacked.mapMemory hMapped hFlags h with
    ⟨frames', a', _, _, _, hStep, hCall, hBacked', hMapped'⟩
  refine ⟨hBacked'.kernelMapped hMapped', hStep.takes, ?_⟩
  intro other
  rw [lookup, hBacked'.follow_eq hMapped' _ (by simp)]
  exact (mapMemory_spec hBacked.root hBacked.nonnull (hMapped.congr hStep.same) hFlags hCall
    hBacked'.fresh).2 other

theorem KernelMapped.walk_eq_page_iff (v p : BitVec 64) :
    walk s.memory pml4 v = .page p ↔ lookup s.memory pml4 (.of v) = some p := by
  rcases hMapped with ⟨frames, n, _, hMapped⟩
  rw [walk_eq_lookup hMapped v]
  cases lookup s.memory pml4 (.of v) with
  | none => simp
  | some page => simp

theorem KernelMapped.take (hOnly : OnlyBits s s')
    (hTaken : ∀ q, s.used q = true → s'.used q = true) : KernelMapped pml4 s' ∧
    ∀ other, lookup s'.memory pml4 other = lookup s.memory pml4 other := by
  rcases hMapped with ⟨frames, n, hBacked, hMapped⟩
  have hTaken := hBacked.take hOnly hTaken
  refine ⟨hTaken.kernelMapped hMapped, ?_⟩
  intro other
  exact hTaken.follow_eq hMapped _ (by simp)

theorem KernelMapped.lockPage (address : Nat) : KernelMapped pml4 (s.lockPage address) ∧
    ∀ other, lookup (s.lockPage address).memory pml4 other = lookup s.memory pml4 other :=
  hMapped.take (onlyBits_takePage .used s address) (takes_lockPage s address).used

theorem KernelMapped.follow_onlyBits (hOnly : OnlyBits s s') (path : List (Fin 512))
    (hLength : path.length ≤ 4) : follow (child s'.memory) pml4 path =
    follow (child s.memory) pml4 path := by
  rcases hMapped with ⟨frames, n, hBacked, hMapped⟩
  refine follow_congr (n := 4) ?_ hLength
  intro p t hp hTable i
  have hOwned := hMapped.tree.owned (by omega) hTable
  rw [child, child, readEntry_page (hBacked.fresh.aligned hBacked.root hOwned)
    (fun x hx => hOnly.outside x ((hBacked.table t hOwned).2 x hx))]

theorem KernelMapped.remap {page : BitVec 64} (hOnly : OnlyBits s s')
    (hLookup : lookup s.memory pml4 (.of virtualAddress) = some page)
    (physicalAddress flags : BitVec 64) : ∃ s'', KernelTables.mapMemory pml4 s' virtualAddress
    physicalAddress flags = some s'' ∧ ∀ q, s''.used q = s'.used q := by
  rcases hIndexer : PageMapIndexer.of virtualAddress with ⟨i, j, k, l⟩
  rw [hIndexer] at hLookup
  change follow (child s.memory) pml4 ([i, j, k] ++ [l]) = some page at hLookup
  rcases follow_snoc_some.mp hLookup with ⟨pt, hPt, _⟩
  have hFollow := (hMapped.follow_onlyBits hOnly [i, j, k] (by simp)).trans hPt
  rcases hMapped with ⟨frames, n, hBacked, hMapped⟩
  have hOwned := hMapped.tree.owned (by simp) hPt
  refine ⟨_, mapMemory_present hBacked.nonnull
    hIndexer hFollow physicalAddress flags, ?_⟩
  intro q
  apply used_setMemory
  intro x hx
  rw [hOnly.pageBitmap] at hx
  exact writeEntry_owns (hBacked.fresh.aligned hBacked.root hOwned)
    (hBacked.table pt hOwned).2 l _ hx

end

private theorem kernelMapped_clearTable {address : Nat} (hReady : Ready s)
    (hRequest : s.requestPage = (some address, s')) (hRoot : pml4 = BitVec.ofNat 64 address) :
    KernelMapped pml4 (clearTable pml4 s') ∧ Takes 1 s (clearTable pml4 s') := by
  have hBits := hReady.bits_le
  rcases requestPage_spec (by omega) hRequest with ⟨index, hIndex, hClear, hAddress, hUsed⟩
  have hOnly := onlyBits_requestPage hRequest
  have hNat : pml4.toNat = index * 4096 := by
    rw [hRoot, hAddress]
    exact toNat_pageAddress index (by omega)
  have hPositive : index ≠ 0 := by
    rintro rfl
    rw [hReady.zero hIndex] at hClear
    cases hClear
  rcases tablePage_of_toNat hNat with ⟨hTablePage, hAligned⟩
  have hApart : PageApart s'.pageBitmap (tablePage pml4) := by
    rw [hOnly.pageBitmap, hTablePage]
    exact hReady.spare index hIndex hClear
  have hOwns : ∀ x, s'.pageBitmap.Owns x → s'.memory.fill pml4.toNat 0 4096 x = s'.memory x :=
    fun x hx => fill_owns hAligned hApart hx
  have hKeep : ∀ q, (clearTable pml4 s').used q = s'.used q := used_setMemory hOwns
  have hBacked : Backed (fun _ => 0) pml4 (clearTable pml4 s')
      ⟨s'.memory.fill pml4.toNat 0 4096, 0⟩ := by
    refine ⟨hAligned, ?_, ?_, fun _ _ => rfl, ?_, ?_, ?_⟩
    · rintro rfl
      have hNull : (0 : BitVec 64).toNat = 0 := rfl
      omega
    · exact hOnly.bits ▸ hBits
    · intro k hk
      cases hk
    · rintro t (rfl | ⟨k, hk, _⟩)
      · rw [hKeep, hUsed]
        exact ⟨Or.inr hTablePage, hApart⟩
      · cases hk
    · intro q hq hFree
      rw [hKeep, ← Bool.not_eq_true, hUsed, not_or] at hFree
      show PageApart s'.pageBitmap q
      rw [hOnly.pageBitmap]
      exact hReady.spare q (hOnly.bits ▸ hq) (Bool.eq_false_of_not_eq_true hFree.1)
  refine ⟨hBacked.kernelMapped (mapped_start s'.memory), ?_⟩
  exact (takes_requestPage (by omega) hRequest).trans (takes_setMemory hOwns)

theorem kernelMapped_createRoot (hReady : Ready s) (h : createRoot s = some (pml4, s')) :
    KernelMapped pml4 s' ∧ Takes 1 s s' ∧ ∃ m : Memory, s'.memory = m.fill pml4.toNat 0 4096 := by
  unfold createRoot at h
  rcases hRequest : s.requestPage with ⟨_ | address, s₀⟩
  · rw [hRequest] at h
    cases h
  rw [hRequest] at h
  cases h
  rcases kernelMapped_clearTable hReady hRequest rfl with ⟨hMapped, hTakes⟩
  exact ⟨hMapped, hTakes, s₀.memory, rfl⟩

theorem createRoot_returns (hHinted : Hinted s) (hRoom : 0 < s.freeBits) :
    ∃ pml4 s', createRoot s = some (pml4, s') := by
  rcases requestPage_returns hHinted hRoom with ⟨address, s₀, hRequest⟩
  unfold createRoot
  rw [hRequest]
  exact ⟨_, _, rfl⟩

------ Calls Return

theorem KernelTables.nextTable_returns (hHinted : Hinted s) (hRoom : 0 < s.freeBits)
    (flags table : BitVec 64) (i : Fin 512) :
    ∃ next s', nextTable flags table i s = some (next, s') := by
  unfold nextTable
  dsimp only
  split
  · exact ⟨_, _, rfl⟩
  rcases requestPage_returns hHinted hRoom with ⟨address, s₁, hRequest⟩
  rw [hRequest]
  exact ⟨_, _, rfl⟩

theorem KernelMapped.mapMemory_returns (hMapped : KernelMapped pml4 s) (hHinted : Hinted s)
    (hRoom : 3 ≤ s.freeBits) (hFlags : TableFlags flags)
    (virtualAddress physicalAddress : BitVec 64) : ∃ s',
    KernelTables.mapMemory pml4 s virtualAddress physicalAddress flags = some s' := by
  rcases hMapped with ⟨frames, n, hBacked, hMapped⟩
  rcases hIndexer : PageMapIndexer.of virtualAddress with ⟨i, j, k, l⟩
  rcases nextTable_returns hHinted (by omega) flags pml4 i with ⟨pdp, s₁, hOne⟩
  rcases hBacked.level hMapped hFlags (by simp) follow_nil hOne with
    ⟨frames₁, a₁, hStep₁, _, hBacked₁, hMapped₁, hPdp⟩
  have hHinted₁ := hStep₁.takes.hinted hHinted
  have hRoom₁ : s.freeBits ≤ s₁.freeBits + 1 := hStep₁.takes.room
  rcases nextTable_returns hHinted₁ (by omega) flags pdp j with ⟨pd, s₂, hTwo⟩
  rcases hBacked₁.level hMapped₁ hFlags (by simp) hPdp hTwo with
    ⟨frames₂, a₂, hStep₂, _, hBacked₂, hMapped₂, hPd⟩
  have hRoom₂ : s₁.freeBits ≤ s₂.freeBits + 1 := hStep₂.takes.room
  rcases nextTable_returns (hStep₂.takes.hinted hHinted₁) (by omega) flags pd k with
    ⟨pt, s₃, hThree⟩
  simp only [KernelTables.mapMemory, hIndexer, hOne, hTwo, hThree, hBacked.nonnull, if_false,
    Option.bind_eq_bind, Option.bind_some]
  exact ⟨_, rfl⟩

end Fennix
