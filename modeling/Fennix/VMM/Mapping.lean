import Fennix.Library.Follow
import Fennix.VMM.PageTableManager

/-
  Mapping refines a finite map.

  The tables below a zeroed root form a tree: every table is the root or a page that was requested,
  and has one path.
-/

------ Reading and Writing Entries

namespace Fennix

open List Option BitVec PageMapIndexer Memory

variable {i : Fin 512} {n : Nat} {parent : BitVec 64} {stem : List (Fin 512)} {next : BitVec 64}
variable {calls : List MapCall}

open PageDirectoryEntry PageTableManager

variable {m : Memory} {t table : BitVec 64}

def Aligned (t : BitVec 64) : Prop :=
  t.toNat % 4096 = 0

instance (t : BitVec 64) : Decidable (Aligned t) :=
  inferInstanceAs (Decidable (_ = _))

private theorem Aligned.apart (ht : Aligned t) (hTable : Aligned table) (hNe : t ≠ table) :
    t.toNat + 4096 ≤ table.toNat ∨ table.toNat + 4096 ≤ t.toNat := by
  have hNat : t.toNat ≠ table.toNat := fun hEq => hNe (eq_of_toNat_eq hEq)
  simp only [Aligned] at ht hTable
  omega

theorem readEntry_writeEntry_same (m : Memory) (t : BitVec 64) (i : Fin 512)
    (e : PageDirectoryEntry) : readEntry (writeEntry m t i e) t i = e := by
  have hWord : e.raw.toNat % 256 ^ 8 = e.raw.toNat := Nat.mod_eq_of_lt e.raw.isLt
  rw [readEntry, writeEntry, load_store_same, hWord, ofNat_toNat, setWidth_eq]

theorem readEntry_writeEntry_other {j : Fin 512} (e : PageDirectoryEntry) (ht : Aligned t)
    (hTable : Aligned table) (hNe : t ≠ table ∨ j ≠ i) :
    readEntry (writeEntry m table i e) t j = readEntry m t j := by
  unfold readEntry writeEntry
  rw [load_store_other]
  have hi := i.isLt
  have hj := j.isLt
  by_cases hTables : t = table
  · subst hTables
    have hSlots : j.val ≠ i.val := by
      intro hEq
      rcases hNe with hNe | hNe
      · exact hNe rfl
      · exact hNe (Fin.ext hEq)
    omega
  · have hApart := ht.apart hTable hTables
    omega

theorem readEntry_fill_other (i : Fin 512) (ht : Aligned t) (hTable : Aligned table)
    (hNe : t ≠ table) : readEntry (m.fill table.toNat 0 4096) t i = readEntry m t i := by
  unfold readEntry
  rw [load_fill_other]
  have hi := i.isLt
  have hApart := ht.apart hTable hNe
  omega

theorem readEntry_fill_same (m : Memory) (t : BitVec 64) (i : Fin 512) :
    readEntry (m.fill t.toNat 0 4096) t i = ⟨0⟩ := by
  have hi := i.isLt
  unfold readEntry
  rw [load_fill_zero m (by omega) (by omega)]
  rfl

------ The Tree of Tables

def child (m : Memory) (t : BitVec 64) (i : Fin 512) : Option (BitVec 64) :=
  if (readEntry m t i).getFlag PTFlag.P then
    some (readEntry m t i).page
  else none

theorem child_fill_same (m : Memory) (t : BitVec 64) (i : Fin 512) :
    child (m.fill t.toNat 0 4096) t i = none := by
  rw [child, readEntry_fill_same, getFlag_null]
  rfl

def lookup (m : Memory) (pml4 : BitVec 64) (indexer : PageMapIndexer) : Option (BitVec 64) :=
  follow (child m) pml4 ([indexer.pdp, indexer.pd, indexer.pt] ++ [indexer.p])

section Tables

variable (frames : Nat → BitVec 64) (pml4 : BitVec 64)

def TableOwned (requested : Nat) (t : BitVec 64) : Prop :=
  t = pml4 ∨ ∃ k < requested, t = frames k

def FreshFrames (requested : Nat) : Prop :=
  ∀ k < requested, IsPage (frames k) ∧ frames k ≠ pml4 ∧ ∀ j < k, frames j ≠ frames k

structure Mapped (s : PagingState) : Prop where
  tree : PathTree (child s.memory) pml4 3 (TableOwned frames pml4 s.requested)
  plain : ∀ t, TableOwned frames pml4 s.requested t →
    ∀ i, (readEntry s.memory t i).getFlag PTFlag.PS = false

end Tables

variable {frames : Nat → BitVec 64} {pml4 : BitVec 64} {s s' : PagingState}

theorem FreshFrames.mono {k : Nat} (hFresh : FreshFrames frames pml4 n) (hLe : k ≤ n) :
    FreshFrames frames pml4 k :=
  fun j hj => hFresh j (by omega)

theorem FreshFrames.aligned (hFresh : FreshFrames frames pml4 n) (hRoot : Aligned pml4)
    (hOwned : TableOwned frames pml4 n t) : Aligned t := by
  rcases hOwned with hEq | ⟨k, hk, hEq⟩
  · rw [hEq]
    exact hRoot
  · rw [hEq]
    exact (hFresh k hk).1.1

theorem FreshFrames.readEntry_other {m : Memory} {pt : BitVec 64} {i j : Fin 512}
    (hFresh : FreshFrames frames pml4 n) (hRoot : Aligned pml4)
    (hTable : TableOwned frames pml4 n pt) (e : PageDirectoryEntry)
    (hOwned : TableOwned frames pml4 n t) (hNe : t ≠ pt ∨ j ≠ i) :
    readEntry (writeEntry m pt i e) t j = readEntry m t j :=
  readEntry_writeEntry_other _ (hFresh.aligned hRoot hOwned) (hFresh.aligned hRoot hTable) hNe

theorem FreshFrames.not_owned (hFresh : FreshFrames frames pml4 (n + 1)) :
    ¬ TableOwned frames pml4 n (frames n) := by
  rcases hFresh n (by omega) with ⟨_, hRoot, hBefore⟩
  rintro (hEq | ⟨k, hk, hEq⟩)
  · exact hRoot hEq
  · exact hBefore k hk hEq.symm

theorem tableOwned_succ_iff : TableOwned frames pml4 (n + 1) t ↔
    TableOwned frames pml4 n t ∨ t = frames n := by
  constructor
  · rintro (hEq | ⟨k, hk, hEq⟩)
    · exact .inl (.inl hEq)
    by_cases hLast : k = n
    · exact .inr (hLast ▸ hEq)
    · exact .inl (.inr ⟨k, by omega, hEq⟩)
  rintro ((hEq | ⟨k, hk, hEq⟩) | hEq)
  · exact .inl hEq
  · exact .inr ⟨k, by omega, hEq⟩
  · exact .inr ⟨n, by omega, hEq⟩

theorem mapped_start (m : Memory) : Mapped frames pml4 ⟨m.fill pml4.toNat 0 4096, 0⟩ := by
  constructor
  · apply PathTree.bare
    · exact child_fill_same m pml4
    · exact .inl rfl
  intro t hOwned i
  rcases hOwned with hEq | ⟨k, hk, _⟩
  · rw [hEq, readEntry_fill_same, getFlag_null]
  · exact absurd hk (by simp)

theorem lookup_start (m : Memory) (pml4 : BitVec 64) (indexer : PageMapIndexer) :
    lookup (m.fill pml4.toNat 0 4096) pml4 indexer = none := by
  have hNone := child_fill_same m pml4 indexer.pdp
  simp only [lookup, follow, List.cons_append, List.nil_append, List.foldl_cons, List.foldl_nil,
    bind_some, hNone, bind_none]

variable {flags : BitVec 64}

def PlainFlags (flags : BitVec 64) : Prop :=
  flags.toNat < 4096 ∧ flags.getLsbD 7 = false

instance (flags : BitVec 64) : Decidable (PlainFlags flags) :=
  inferInstanceAs (Decidable (_ ∧ _))

theorem PlainFlags.tableFlags (hFlags : PlainFlags flags) : TableFlags flags :=
  tableFlags_of_lt hFlags.1 hFlags.2

theorem child_create (hRoot : Aligned pml4) (hFresh : FreshFrames frames pml4 (s.requested + 1))
    (hParent : TableOwned frames pml4 s.requested parent)
    (hMemory : m = writeEntry (s.memory.fill (frames s.requested).toNat 0 4096) parent i
    ((readEntry s.memory parent i).pointTo (frames s.requested) flags)) : readEntry m parent i =
    (readEntry s.memory parent i).pointTo (frames s.requested) flags ∧
    (∀ j, readEntry m (frames s.requested) j = ⟨0⟩) ∧
    ∀ t j, TableOwned frames pml4 s.requested t → (t ≠ parent ∨ j ≠ i) →
    readEntry m t j = readEntry s.memory t j := by
  have hBefore := hFresh.mono (Nat.le_succ s.requested)
  have hNew : Aligned (frames s.requested) := (hFresh s.requested (by omega)).1.1
  have hParentAligned := hBefore.aligned hRoot hParent
  have hApart : ∀ t, TableOwned frames pml4 s.requested t → t ≠ frames s.requested := by
    intro t hOwned hEq
    exact hFresh.not_owned (hEq ▸ hOwned)
  refine ⟨?_, ?_, ?_⟩
  · rw [hMemory, readEntry_writeEntry_same]
  · intro j
    rw [hMemory,
      readEntry_writeEntry_other _ hNew hParentAligned (.inl (hApart parent hParent).symm),
      readEntry_fill_same]
  · intro t j hOwned hNe
    have hAligned := hBefore.aligned hRoot hOwned
    rw [hMemory, readEntry_writeEntry_other _ hAligned hParentAligned hNe,
      readEntry_fill_other j hAligned hNew (hApart t hOwned)]

theorem child_pointTo {target : BitVec 64} {e : PageDirectoryEntry} (hFlags : TableFlags flags)
    (hPage : IsPage target) (hEntry : readEntry m t i = e.pointTo target flags) :
    child m t i = some target := by
  rw [child, hEntry, getFlag_P_pointTo, page_pointTo _ _ hFlags, framePage_of_isPage hPage,
    if_pos rfl]

theorem nextTable_spec (hRoot : Aligned pml4) (hMapped : Mapped frames pml4 s)
    (hFlags : TableFlags flags) (hDepth : stem.length < 3)
    (hParent : follow (child s.memory) pml4 stem = some parent)
    (hNext : nextTable frames true flags parent i s = (next, s'))
    (hFresh : FreshFrames frames pml4 s'.requested) : Mapped frames pml4 s' ∧
    follow (child s'.memory) pml4 (stem ++ [i]) = some next ∧
    (∀ indexer, lookup s'.memory pml4 indexer = lookup s.memory pml4 indexer) ∧
    ((readEntry s.memory parent i).getFlag PTFlag.P = true ∧ s' = s ∨
    (readEntry s.memory parent i).getFlag PTFlag.P = false ∧
    readEntry s'.memory parent i = (readEntry s.memory parent i).pointTo next flags ∧
    (∀ j, readEntry s'.memory next j = ⟨0⟩) ∧
    (∀ t j, TableOwned frames pml4 s.requested t → (t ≠ parent ∨ j ≠ i) →
    readEntry s'.memory t j = readEntry s.memory t j) ∧ ∀ q, q.length ≤ 3 →
    (q = stem ++ [i] → follow (child s'.memory) pml4 q = some next) ∧
    (q ≠ stem ++ [i] → follow (child s'.memory) pml4 q = follow (child s.memory) pml4 q)) := by
  unfold nextTable at hNext
  cases hPresent : (readEntry s.memory parent i).getFlag PTFlag.P with
  | true =>
    simp only [hPresent, if_true] at hNext
    cases hNext
    refine ⟨hMapped, ?_, fun _ => rfl, Or.inl ⟨rfl, rfl⟩⟩
    simp [follow_snoc, hParent, child, hPresent]
  | false =>
    simp only [hPresent, Bool.false_eq_true, if_false, if_true] at hNext
    cases hNext
    rcases hMapped with ⟨hTree, hPlain⟩
    rcases child_create hRoot hFresh (hTree.owned (by omega) hParent) rfl with
      ⟨hEntry, hEmpty, hOther⟩
    generalize writeEntry _ parent i _ = m at hEntry hEmpty hOther
    dsimp only at hFresh ⊢
    have hNone : child s.memory parent i = none := by
      simp [child, hPresent]
    have hEdge : child m parent i = some (frames s.requested) :=
      child_pointTo hFlags (hFresh s.requested (by omega)).1 hEntry
    have hBare : ∀ j, child m (frames s.requested) j = none := by
      intro j
      rw [child, hEmpty, getFlag_null]
      rfl
    have hSame : ∀ a j, TableOwned frames pml4 s.requested a → (a ≠ parent ∨ j ≠ i) →
      child m a j = child s.memory a j := by
      intro a j ha hNe
      rw [child, child, hOther a j ha hNe]
    have hFollow := hTree.follow_graft hDepth hParent hNone hEdge hBare hSame
    refine ⟨⟨?_, ?_⟩, (hFollow _ (by simp; omega)).1 rfl, fun indexer => ?_,
      Or.inr ⟨rfl, hEntry, hEmpty, hOther, hFollow⟩⟩
    · have hGraft := hTree.graft hDepth hParent hNone hEdge hBare hSame hFresh.not_owned
      simpa only [← tableOwned_succ_iff] using hGraft
    · intro t ht j
      rcases tableOwned_succ_iff.mp ht with hOld | hEq
      · by_cases hHere : t = parent ∧ j = i
        · rcases hHere with ⟨rfl, rfl⟩
          rw [hEntry, getFlag_PS_pointTo, hPlain t hOld, hFlags.2]
          rfl
        · rw [hOther t j hOld (by tauto)]
          exact hPlain t hOld j
      · rw [hEq, hEmpty, getFlag_null]
    · exact hTree.follow_graft_leaf hDepth hParent hNone hEdge hBare hSame rfl indexer.p

theorem nextTable_requested {writeBack : Bool}
    (hNext : nextTable frames writeBack flags parent i s = (next, s')) :
    s.requested ≤ s'.requested ∧ s'.requested ≤ s.requested + 1 := by
  unfold nextTable at hNext
  dsimp only at hNext
  split at hNext
  · cases hNext
    omega
  · cases hNext
    simp

variable {virtualAddress physicalAddress : BitVec 64}

theorem Mapped.setLeaf {a b c d : Fin 512} {pt : BitVec 64} (hRoot : Aligned pml4)
    (hMapped : Mapped frames pml4 s) (hFresh : FreshFrames frames pml4 s.requested)
    (hFlags : TableFlags flags) (hTable : follow (child s.memory) pml4 [a, b, c] = some pt)
    (hMemory : m = writeEntry s.memory pt d ((readEntry s.memory pt d).pointTo
    physicalAddress flags)) : Mapped frames pml4 ⟨m, s.requested⟩ ∧
    ∀ other, lookup m pml4 other = if other = ⟨a, b, c, d⟩ then some (framePage physicalAddress)
    else lookup s.memory pml4 other := by
  rcases hMapped with ⟨hTree, hPlain⟩
  have hDepth : [a, b, c].length = 3 := rfl
  have hOwned := hTree.owned (Nat.le_of_eq hDepth) hTable
  have hEntry : readEntry m pt d = (readEntry s.memory pt d).pointTo physicalAddress flags := by
    rw [hMemory, readEntry_writeEntry_same]
  have hOther : ∀ t j, TableOwned frames pml4 s.requested t → (t ≠ pt ∨ j ≠ d) →
    readEntry m t j = readEntry s.memory t j := by
    intro t j ht hNe
    rw [hMemory, hFresh.readEntry_other hRoot hOwned _ ht hNe]
  have hSame : ∀ t j, TableOwned frames pml4 s.requested t →
    (t ≠ pt ∨ j ≠ d) → child m t j = child s.memory t j := by
    intro t j ht hNe
    rw [child, child, hOther t j ht hNe]
  have hLeaf : child m pt d = some (framePage physicalAddress) := by
    rw [child, hEntry, getFlag_P_pointTo, page_pointTo _ _ hFlags, if_pos rfl]
  refine ⟨⟨?_, ?_⟩, ?_⟩
  · exact (hTree.setLeaf hDepth hTable hSame).2
  · intro t ht j
    by_cases hHere : t = pt ∧ j = d
    · rcases hHere with ⟨rfl, rfl⟩
      rw [hEntry, getFlag_PS_pointTo, hPlain t ht, hFlags.2]
      rfl
    · rw [hOther t j ht (by tauto)]
      exact hPlain t ht j
  · intro other
    have hLength : [other.pdp, other.pd, other.pt].length = 3 := rfl
    have hPath : [other.pdp, other.pd, other.pt] ++ [other.p] = [a, b, c] ++ [d] ↔
      other = ⟨a, b, c, d⟩ := by
      cases other
      simp
    unfold lookup
    rw [hTree.follow_setLeaf hDepth hTable hSame hLength, hLeaf]
    simp only [hPath]

section

variable (frames : Nat → BitVec 64) (s : PagingState)
variable (virtualAddress physicalAddress flags : BitVec 64) (hNull : pml4 ≠ 0)

include hNull

theorem mapMemory_levels : ∃ a b c d pdp pd pt s₁ s₂ s₃, of virtualAddress = ⟨a, b, c, d⟩ ∧
    nextTable frames true flags pml4 a s = (pdp, s₁) ∧
    nextTable frames true flags pdp b s₁ = (pd, s₂) ∧
    nextTable frames true flags pd c s₂ = (pt, s₃) ∧ mapMemory frames ⟨pml4⟩ s virtualAddress
    physicalAddress flags 0 = some ⟨writeEntry s₃.memory pt d ((readEntry s₃.memory pt d).pointTo
    physicalAddress flags), s₃.requested⟩ := by
  rcases hIndexer : of virtualAddress with ⟨a, b, c, d⟩
  rcases hOne : nextTable frames true flags pml4 a s with ⟨pdp, s₁⟩
  rcases hTwo : nextTable frames true flags pdp b s₁ with ⟨pd, s₂⟩
  rcases hThree : nextTable frames true flags pd c s₂ with ⟨pt, s₃⟩
  refine ⟨a, b, c, d, pdp, pd, pt, s₁, s₂, s₃, rfl, hOne, hTwo, hThree, ?_⟩
  simpa [mapMemory, hIndexer, hOne, hTwo, hThree] using hNull

theorem mapMemory_returns : ∃ s',
    mapMemory frames ⟨pml4⟩ s virtualAddress physicalAddress flags 0 = some s' ∧
    s.requested ≤ s'.requested ∧ s'.requested ≤ s.requested + 3 := by
  rcases mapMemory_levels frames s virtualAddress physicalAddress flags hNull with
    ⟨a, b, c, d, pdp, pd, pt, s₁, s₂, s₃, _, hOne, hTwo, hThree, hCall⟩
  have hOneLe := nextTable_requested hOne
  have hTwoLe := nextTable_requested hTwo
  have hThreeLe := nextTable_requested hThree
  refine ⟨_, hCall, ?_, ?_⟩
  · dsimp only
    omega
  · dsimp only
    omega

end

theorem mapMemory_spec (hRoot : Aligned pml4) (hNull : pml4 ≠ 0) (hMapped : Mapped frames pml4 s)
    (hFlags : TableFlags flags)
    (hCall : mapMemory frames ⟨pml4⟩ s virtualAddress physicalAddress flags 0 = some s')
    (hFresh : FreshFrames frames pml4 s'.requested) : Mapped frames pml4 s' ∧
    ∀ other, lookup s'.memory pml4 other = if other = .of virtualAddress then
    some (framePage physicalAddress) else lookup s.memory pml4 other := by
  rcases mapMemory_levels frames s virtualAddress physicalAddress flags hNull with
    ⟨a, b, c, d, pdp, pd, pt, s₁, s₂, s₃, hIndexer, hOne, hTwo, hThree, hEq⟩
  rw [hEq] at hCall
  cases hCall
  have hTwoLe := nextTable_requested hTwo
  have hThreeLe := nextTable_requested hThree
  have hTop : follow (child s.memory) pml4 [] = some pml4 := rfl
  have hFresh₂ : FreshFrames frames pml4 s₂.requested := hFresh.mono hThreeLe.1
  have hFresh₁ : FreshFrames frames pml4 s₁.requested := hFresh₂.mono hTwoLe.1
  rcases nextTable_spec hRoot hMapped hFlags (by simp) hTop hOne hFresh₁
    with ⟨hMapped₁, hPdp, hSame₁, _⟩
  rcases nextTable_spec hRoot hMapped₁ hFlags (by simp) hPdp hTwo hFresh₂
    with ⟨hMapped₂, hPd, hSame₂, _⟩
  rcases nextTable_spec hRoot hMapped₂ hFlags (by simp) hPd hThree hFresh
    with ⟨hMapped₃, hPt, hSame₃, _⟩
  rcases hMapped₃.setLeaf hRoot hFresh hFlags hPt rfl with ⟨hMapped₄, hLookup⟩
  refine ⟨hMapped₄, ?_⟩
  intro other
  rw [hIndexer, hLookup, hSame₃, hSame₂, hSame₁]

------ Runs of Calls

structure MapCall where
  virtualAddress : BitVec 64
  physicalAddress : BitVec 64
  flags : BitVec 64
deriving DecidableEq, Repr

def MapCall.Ok (c : MapCall) : Prop :=
  IsPage c.physicalAddress ∧ PlainFlags c.flags

instance (c : MapCall) : Decidable c.Ok :=
  inferInstanceAs (Decidable (_ ∧ _))

def mapAll (frames : Nat → BitVec 64) (manager : PageTableManager) :
    PagingState → List MapCall → Option PagingState
| s, [] => some s
| s, c :: calls =>
  (mapMemory frames manager s c.virtualAddress c.physicalAddress c.flags 0).bind
      (fun s' => mapAll frames manager s' calls)

def lastCall (selects : MapCall → Bool) (calls : List MapCall) : Option MapCall :=
  calls.reverse.find? selects

private theorem lastCall_congr {p q : MapCall → Bool} (hSame : ∀ c ∈ calls, p c = q c) :
    lastCall p calls = lastCall q calls := by
  unfold lastCall
  have hReverse : ∀ c ∈ calls.reverse, p c = q c := by
    intro c hc
    exact hSame c (mem_reverse.mp hc)
  generalize calls.reverse = rev at hReverse
  induction rev with
  | nil => rfl
  | cons c rev ih =>
    have hRest := ih (fun d hd => hReverse d (mem_cons_of_mem c hd))
    rw [find?_cons, find?_cons, hRest, hReverse c mem_cons_self]

theorem lastCall_cons (selects : MapCall → Bool) (c : MapCall) (calls : List MapCall) :
    lastCall selects (c :: calls) = (lastCall selects calls).or
    (if selects c then some c else none) := by
  rw [lastCall, reverse_cons, find?_append, lastCall]
  cases hSelects : selects c <;> simp [hSelects]

theorem mapAll_returns (frames : Nat → BitVec 64) (s : PagingState) (calls : List MapCall)
    (hNull : pml4 ≠ 0) : ∃ s', mapAll frames ⟨pml4⟩ s calls = some s' ∧ s.requested ≤ s'.requested ∧
    s'.requested ≤ s.requested + 3 * calls.length := by
  induction calls generalizing s with
  | nil => exact ⟨s, rfl, Nat.le_refl _, by simp⟩
  | cons c calls ih =>
    rcases mapMemory_returns frames s c.virtualAddress c.physicalAddress c.flags hNull with
      ⟨s₁, hCall, hLow₁, hHigh₁⟩
    rcases ih s₁ with ⟨s₂, hRest, hLow₂, hHigh₂⟩
    refine ⟨s₂, ?_, by omega, ?_⟩
    · rw [mapAll, hCall]
      exact hRest
    · rw [length_cons]
      omega

theorem mapAll_spec (hRoot : Aligned pml4) (hNull : pml4 ≠ 0) (hMapped : Mapped frames pml4 s)
    (hCalls : ∀ c ∈ calls, c.Ok) (hRun : mapAll frames ⟨pml4⟩ s calls = some s')
    (hFresh : FreshFrames frames pml4 s'.requested) : Mapped frames pml4 s' ∧
    ∀ indexer, lookup s'.memory pml4 indexer =
    ((lastCall (fun c => .of c.virtualAddress = indexer) calls).map MapCall.physicalAddress).or
    (lookup s.memory pml4 indexer) := by
  induction calls generalizing s with
  | nil =>
    cases hRun
    exact ⟨hMapped, fun _ => rfl⟩
  | cons c calls ih =>
    rcases hCalls c mem_cons_self with ⟨hPage, hFlags⟩
    rcases mapMemory_returns frames s c.virtualAddress c.physicalAddress c.flags hNull with
      ⟨s₁, hCall, _, _⟩
    rw [mapAll, hCall] at hRun
    rcases mapAll_returns frames s₁ calls hNull with ⟨s₂, hRest, hLe, _⟩
    have hSame : s₂ = s' := some.inj (hRest.symm.trans hRun)
    subst hSame
    rcases mapMemory_spec hRoot hNull hMapped hFlags.tableFlags hCall (hFresh.mono hLe) with
      ⟨hMapped₁, hLookup₁⟩
    rw [framePage_of_isPage hPage] at hLookup₁
    rcases ih hMapped₁ (fun d hd => hCalls d (mem_cons_of_mem c hd)) hRun with ⟨hMapped₂, hLookup₂⟩
    refine ⟨hMapped₂, ?_⟩
    intro indexer
    rw [hLookup₂, hLookup₁, lastCall_cons]
    cases lastCall (fun c => .of c.virtualAddress = indexer) calls with
    | some last => rfl
    | none =>
      by_cases hHere : .of c.virtualAddress = indexer
      · simp [hHere]
      · simp [hHere, Ne.symm hHere]

private theorem Mapped.plain_of_follow (hMapped : Mapped frames pml4 s) (hDepth : stem.length ≤ 3)
    (hTable : follow (child s.memory) pml4 stem = some t) (i : Fin 512) :
    (readEntry s.memory t i).getFlag PTFlag.PS = false :=
  hMapped.plain t (hMapped.tree.owned hDepth hTable) i

theorem walk_eq_lookup (hMapped : Mapped frames pml4 s) (v : BitVec 64) : walk s.memory pml4 v =
    match lookup s.memory pml4 (.of v) with
    | some page => .page page
    | none => .notPresent := by
  rcases hIndexer : of v with ⟨a, b, c, d⟩
  have hLookup : lookup s.memory pml4 ⟨a, b, c, d⟩ = (((child s.memory pml4 a).bind
      (fun t => child s.memory t b)).bind (fun t => child s.memory t c)).bind
      (fun t => child s.memory t d) := rfl
  rw [hLookup]
  unfold walk
  rw [hIndexer]
  -- level by level, an absent entry ends both
  have hTop : follow (child s.memory) pml4 [] = some pml4 :=
    rfl
  have hPlain₁ := hMapped.plain_of_follow (by simp) hTop a
  cases hPresent₁ : (readEntry s.memory pml4 a).getFlag PTFlag.P with
  | false => simp [child, hPresent₁]
  | true =>
    have hPdp : follow (child s.memory) pml4 [a] = some (readEntry s.memory pml4 a).page := by
      simp [follow, child, hPresent₁]
    have hPlain₂ := hMapped.plain_of_follow (by simp) hPdp b
    simp only [child, hPresent₁, hPlain₁, if_true, if_false, Bool.true_eq_false, Bool.false_eq_true,
      bind_some]
    generalize (readEntry s.memory pml4 a).page = pdp at *
    cases hPresent₂ : (readEntry s.memory pdp b).getFlag PTFlag.P with
    | false => simp
    | true =>
      have hPd : follow (child s.memory) pml4 ([a] ++ [b]) =
        some (readEntry s.memory pdp b).page := by
        rw [follow_snoc, hPdp]
        simp [child, hPresent₂]
      have hPlain₃ := hMapped.plain_of_follow (by simp) hPd c
      simp only [hPlain₂, if_true, if_false, Bool.true_eq_false, Bool.false_eq_true, bind_some]
      generalize (readEntry s.memory pdp b).page = pd at *
      cases hPresent₃ : (readEntry s.memory pd c).getFlag PTFlag.P with
      | false => simp
      | true =>
        simp only [hPlain₃, if_true, if_false, Bool.true_eq_false, Bool.false_eq_true, bind_some]
        generalize (readEntry s.memory pd c).page = pt
        cases (readEntry s.memory pt d).getFlag PTFlag.P <;> simp

def lastPage (selects : MapCall → Bool) (calls : List MapCall) : Translation :=
  match lastCall selects calls with
  | some c => .page c.physicalAddress
  | none => .notPresent

private theorem walk_mapAll (hRoot : Aligned pml4) (hNull : pml4 ≠ 0) (hCalls : ∀ c ∈ calls, c.Ok)
    (hRun : mapAll frames ⟨pml4⟩ ⟨m.fill pml4.toNat 0 4096, 0⟩ calls = some s)
    (hFresh : FreshFrames frames pml4 s.requested) (v : BitVec 64) : walk s.memory pml4 v = lastPage
    (fun c => SamePage c.virtualAddress v) calls := by
  rcases mapAll_spec hRoot hNull (mapped_start m) hCalls hRun hFresh with ⟨hMapped, hLookup⟩
  rw [walk_eq_lookup hMapped, hLookup, lookup_start, lastPage]
  simp only [of_eq_iff, or_none]
  cases lastCall (fun c => SamePage c.virtualAddress v) calls <;> rfl

theorem walk_last_mapMemory (frames : Nat → BitVec 64) (pml4 : BitVec 64) (m : Memory)
    (calls : List MapCall) (hRoot : Aligned pml4) (hNull : pml4 ≠ 0) (hCalls : ∀ c ∈ calls, c.Ok) :
    ∃ s, mapAll frames ⟨pml4⟩ ⟨m.fill pml4.toNat 0 4096, 0⟩ calls = some s ∧
    (FreshFrames frames pml4 s.requested → ∀ v, walk s.memory pml4 v = lastPage (fun c =>
    SamePage c.virtualAddress v) calls ∧ (Canonical v →
    (∀ c ∈ calls, Canonical c.virtualAddress) → walk s.memory pml4 v =
    lastPage (fun c => c.virtualAddress.toNat / 4096 = v.toNat / 4096) calls)) := by
  rcases mapAll_returns frames ⟨m.fill pml4.toNat 0 4096, 0⟩ calls hNull with ⟨s, hRun, _, _⟩
  refine ⟨s, hRun, ?_⟩
  intro hFresh v
  have hWalk := walk_mapAll hRoot hNull hCalls hRun hFresh v
  refine ⟨hWalk, ?_⟩
  intro hv hCanonical
  have hSelect : ∀ c ∈ calls,
      decide (SamePage c.virtualAddress v) =
        decide (c.virtualAddress.toNat / 4096 = v.toNat / 4096) := by
    intro c hc
    rw [decide_eq_decide]
    exact samePage_iff_of_canonical (hCanonical c hc) hv
  rw [hWalk, lastPage, lastPage, lastCall_congr hSelect]

------ Addresses Outside the Canonical Range

def framesFrom (k : Nat) : BitVec 64 :=
  BitVec.ofNat 64 ((k + 2) * 4096)

theorem freshFrames_framesFrom (hn : n ≤ 2 ^ 32) : FreshFrames framesFrom 0x1000 n := by
  have hNat : ∀ k < n, (framesFrom k).toNat = (k + 2) * 4096 := by
    intro k hk
    rw [framesFrom, toNat_ofNat]
    exact Nat.mod_eq_of_lt (by omega)
  have hRoot : (0x1000 : BitVec 64).toNat = 4096 := rfl
  intro k hk
  have hk' := hNat k hk
  refine ⟨⟨by omega, by omega⟩, ?_, ?_⟩
  · intro hEq
    have hBad := congrArg BitVec.toNat hEq
    omega
  intro j hj hEq
  have hj' := hNat j (by omega)
  have hBad := congrArg BitVec.toNat hEq
  omega

theorem mapMemory_noncanonical : ∃ s, mapAll framesFrom ⟨0x1000⟩
    ⟨fill (fun _ => 0) 0x1000 0 4096, 0⟩ [⟨0x1000000000000, 0x5000, PTFlag.RW⟩] = some s ∧
    FreshFrames framesFrom 0x1000 s.requested ∧ Canonical 0 ∧
    walk s.memory 0x1000 0 = .page 0x5000 ∧
    lastPage (fun c => c.virtualAddress.toNat / 4096 = (0 : BitVec 64).toNat / 4096)
    [⟨0x1000000000000, 0x5000, PTFlag.RW⟩] = .notPresent := by
  have hNull : (0x1000 : BitVec 64) ≠ 0 := by decide
  rcases mapAll_returns framesFrom ⟨fill (fun _ => 0) 0x1000 0 4096, 0⟩
      [⟨0x1000000000000, 0x5000, PTFlag.RW⟩] hNull with ⟨s, hRun, _, hLe⟩
  have hFresh : FreshFrames framesFrom 0x1000 s.requested :=
    freshFrames_framesFrom (Nat.le_trans hLe (by decide))
  refine ⟨s, hRun, hFresh, by decide, ?_, by decide⟩
  rw [walk_mapAll (by decide) hNull (by decide) hRun hFresh]
  decide

theorem walk_last_mapMemory_twice : ∃ s, mapAll framesFrom ⟨0x1000⟩
    ⟨fill (fun _ => 0) 0x1000 0 4096, 0⟩
    [⟨0x400000, 0x5000, PTFlag.RW⟩, ⟨0x400123, 0x6000, PTFlag.RW⟩] = some s ∧
    walk s.memory 0x1000 0x400000 = .page 0x6000 := by
  have hNull : (0x1000 : BitVec 64) ≠ 0 := by decide
  rcases walk_last_mapMemory framesFrom 0x1000 (fun _ => 0)
      [⟨0x400000, 0x5000, PTFlag.RW⟩, ⟨0x400123, 0x6000, PTFlag.RW⟩]
      (by decide) hNull (by decide) with ⟨s, hRun, hWalk⟩
  rcases mapAll_returns framesFrom ⟨fill (fun _ => 0) 0x1000 0 4096, 0⟩
      [⟨0x400000, 0x5000, PTFlag.RW⟩, ⟨0x400123, 0x6000, PTFlag.RW⟩] hNull with ⟨s', hRun', _, hLe⟩
  have hSame : s' = s := some.inj (hRun'.symm.trans hRun)
  subst hSame
  have hFresh : FreshFrames framesFrom 0x1000 s'.requested :=
    freshFrames_framesFrom (Nat.le_trans hLe (by decide))
  refine ⟨s', hRun, ?_⟩
  rw [(hWalk hFresh 0x400000).2 (by decide) (by decide)]
  decide

end Fennix
