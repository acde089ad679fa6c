import Fennix.Syscalls.Pages

/-
  Two machines in lockstep.

  The machines have the same allocator and the same memory, except for some pages whose contents
  differ.
-/

namespace Fennix

open PageDirectoryEntry PageFrameAllocator KernelTables List

structure Twins (secret : Set Nat) (x y : PageFrameAllocator) : Prop where
  same : y = { x with memory := y.memory }
  agree : ∀ z, z / 4096 ∉ secret → y.memory z = x.memory z
  apart : ∀ q ∈ secret, PageApart x.pageBitmap q

namespace Twins

variable {secret : Set Nat} {x x' y : PageFrameAllocator}

section

variable (h : Twins secret x y)

include h

theorem pageBitmap : y.pageBitmap = x.pageBitmap := by
  rw [h.same]

theorem pageBitmapIndex : y.pageBitmapIndex = x.pageBitmapIndex := by
  rw [h.same]

theorem bits : y.bits = x.bits :=
  congrArg Bitmap.bits h.pageBitmap

theorem used (q : Nat) : y.used q = x.used q := by
  unfold PageFrameAllocator.used
  rw [h.pageBitmap]
  apply Bitmap.get_congr
  intro z hz
  exact h.agree z (fun hSecret => h.apart _ hSecret z rfl hz)

theorem update (change : Memory → Memory) (hChange : ∀ m m' : Memory, ∀ z, m z = m' z →
    change m z = change m' z) :
    Twins secret { x with memory := change x.memory } { y with memory := change y.memory } where
  same := by
    have hSame := h.same
    generalize y.memory = m at hSame ⊢
    subst hSame
    rfl
  agree := fun z hz => hChange _ _ z (h.agree z hz)
  apart := h.apart

theorem setHint (hint : Nat) :
    Twins secret { x with pageBitmapIndex := hint } { y with pageBitmapIndex := hint } where
  same := by
    have hSame := h.same
    generalize y.memory = m at hSame ⊢
    subst hSame
    rfl
  agree := h.agree
  apart := h.apart

theorem charge (account : Account) : Twins secret (x.charge account) (y.charge account) where
  same := by
    have hSame := h.same
    rw [charge_memory]
    generalize y.memory = m at hSame ⊢
    subst hSame
    rfl
  agree := h.agree
  apart := h.apart

theorem takePage (account : Account) (address : Nat) :
    Twins secret (x.takePage account address) (y.takePage account address) := by
  unfold PageFrameAllocator.takePage
  dsimp only
  rw [h.used]
  split
  · exact h
  have hMarked : Twins secret
      { x with memory := (x.pageBitmap.set x.memory (address / 4096) true).2 }
        { y with memory := (x.pageBitmap.set y.memory (address / 4096) true).2 } := by
    apply h.update (fun m => (x.pageBitmap.set m (address / 4096) true).2)
    exact fun _ _ _ hz => Bitmap.set_agree hz _ _
  have hAnswer : (x.pageBitmap.set y.memory (address / 4096) true).1 =
    (x.pageBitmap.set x.memory (address / 4096) true).1 := by
    unfold Bitmap.set
    split <;> rfl
  have hSet : y.pageBitmap.set = x.pageBitmap.set := by
    rw [h.pageBitmap]
  rw [hSet, hAnswer]
  split
  · exact hMarked.charge account
  · exact hMarked

theorem lockPages (address pageCount : Nat) :
    Twins secret (x.lockPages address pageCount) (y.lockPages address pageCount) := by
  unfold PageFrameAllocator.lockPages
  induction pageCount with
  | zero => simpa using h
  | succ pageCount ih =>
    rw [forPages_succ, forPages_succ]
    exact ih.takePage .used _

theorem requestPage {address : Nat} (hRequest : x.requestPage = (some address, x')) :
    ∃ y', y.requestPage = (some address, y') ∧ Twins secret x' y' := by
  have hFirst : y.firstFree = x.firstFree := by
    unfold firstFree
    simp only [h.pageBitmapIndex, h.bits, h.used]
  unfold PageFrameAllocator.requestPage at hRequest ⊢
  rw [hFirst]
  cases hFound : x.firstFree with
  | none =>
    rw [hFound] at hRequest
    cases hRequest
  | some index =>
    rw [hFound] at hRequest
    cases hRequest
    exact ⟨_, rfl, (h.setHint index).takePage .used _⟩

theorem scanFrom (pageCount fuel index : Nat) :
    y.scanFrom pageCount fuel index = x.scanFrom pageCount fuel index := by
  have hBlocked : ∀ index, y.blocked pageCount index = x.blocked pageCount index := by
    intro index
    unfold blocked
    simp only [h.used]
  induction fuel generalizing index with
  | zero => rfl
  | succ fuel ih =>
    unfold PageFrameAllocator.scanFrom
    rw [h.bits, h.used, hBlocked, ih, ih]

theorem searchFrom (pageCount fuel left hint : Nat) :
    y.searchFrom pageCount fuel left hint = x.searchFrom pageCount fuel left hint := by
  induction left generalizing hint with
  | zero => rfl
  | succ left ih =>
    unfold PageFrameAllocator.searchFrom
    rw [h.used, h.scanFrom, ih]

theorem requestPages {fuel pageCount address : Nat}
    (hRequest : x.requestPages fuel pageCount = some (address, x')) :
    ∃ y', y.requestPages fuel pageCount = some (address, y') ∧ Twins secret x' y' := by
  unfold PageFrameAllocator.requestPages at hRequest ⊢
  rw [h.searchFrom, h.bits, h.pageBitmapIndex]
  cases hFound : x.searchFrom pageCount fuel (x.bits - x.pageBitmapIndex) x.pageBitmapIndex with
  | none =>
    rw [hFound] at hRequest
    cases hRequest
  | some answer =>
    rcases answer with ⟨_ | index, hint⟩
    · rw [hFound] at hRequest
      cases hRequest
      exact ⟨_, rfl, h.setHint hint⟩
    rw [hFound] at hRequest
    cases hRequest
    exact ⟨_, rfl, (h.setHint hint).lockPages _ _⟩

end

variable {table next : BitVec 64} {i : Fin 512}

section

variable (h : Twins secret x y)

include h

theorem drop {q : Nat} (hq : q ∉ secret) : Twins (secret \ {q}) x y := by
  rwa [Set.sdiff_singleton_eq_self hq]

theorem clearTable (hAligned : Aligned next) :
    Twins (secret \ {tablePage next}) (clearTable next x)
    (clearTable next y) := by
  have hFilled := h.update (fun m => m.fill next.toNat 0 4096) (fun _ _ _ hz => fill_agree hz _ _)
  refine ⟨hFilled.same, ?_, fun q hq => h.apart q hq.1⟩
  intro z hz
  by_cases hPage : z / 4096 = tablePage next
  · have hInside : next.toNat ≤ z ∧ z < next.toNat + 4096 := by
      unfold Aligned at hAligned
      unfold tablePage at hPage
      omega
    exact (Memory.fill_inside _ 0 hInside.1 hInside.2).trans
      (Memory.fill_inside _ 0 hInside.1 hInside.2).symm
  · exact hFilled.agree z (fun hSecret => hz ⟨hSecret, hPage⟩)

theorem writeEntry (table : BitVec 64) (i : Fin 512) (e : PageDirectoryEntry) :
    Twins secret { x with memory := Fennix.writeEntry x.memory table i e }
      { y with memory := Fennix.writeEntry y.memory table i e } :=
  h.update (fun m => Fennix.writeEntry m table i e) (fun _ _ _ hz => writeEntry_agree hz table i e)

theorem readEntry (hAligned : Aligned table) (hTable : tablePage table ∉ secret) (i : Fin 512) :
    Fennix.readEntry y.memory table i = Fennix.readEntry x.memory table i :=
  readEntry_page hAligned (fun z hz => h.agree z (hz ▸ hTable)) i

theorem nextTable {flags : BitVec 64} (hBits : x.bits ≤ 2 ^ 40) (hAligned : Aligned table)
    (hTable : tablePage table ∉ secret)
    (hChild : ∀ next, child x.memory table i = some next → tablePage next ∉ secret)
    (hNext : nextTable flags table i x = some (next, x')) :
    ∃ y', nextTable flags table i y = some (next, y') ∧
    Twins (secret \ {tablePage next}) x' y' := by
  unfold KernelTables.nextTable at hNext ⊢
  dsimp only at hNext ⊢
  rw [h.readEntry hAligned hTable]
  split at hNext
  · rename_i hPresent
    rw [if_pos hPresent]
    cases hNext
    refine ⟨y, rfl, h.drop (hChild _ ?_)⟩
    rw [child, if_pos hPresent]
  rename_i hAbsent
  rw [if_neg hAbsent]
  rcases hRequest : x.requestPage with ⟨_ | address, x₁⟩
  · rw [hRequest] at hNext
    cases hNext
  rw [hRequest] at hNext
  cases hNext
  rcases h.requestPage hRequest with ⟨y₁, hAlike, hTwins⟩
  rcases requestPage_spec (by omega) hRequest with ⟨index, hIndex, _, rfl, _⟩
  have hPage := tablePage_of_toNat (toNat_pageAddress index (by omega))
  rw [hAlike]
  exact ⟨_, rfl, (hTwins.clearTable hPage.2).writeEntry table i _⟩

end

end Twins

section Calls

variable {pml4 : BitVec 64} {secret : Set Nat} {x x' y : PageFrameAllocator}

def Hidden (pml4 : BitVec 64) (secret : Set Nat) (x y : PageFrameAllocator) : Prop :=
  ∃ frames n, Backed frames pml4 x ⟨x.memory, n⟩ ∧ Mapped frames pml4 ⟨x.memory, n⟩ ∧
        (∀ t, TableOwned frames pml4 n t → tablePage t ∉ secret) ∧ Twins secret x y

section

variable (hHidden : Hidden pml4 secret x y)

include hHidden

theorem Hidden.twins : Twins secret x y := by
  rcases hHidden with ⟨_, _, _, _, _, hTwins⟩
  exact hTwins

theorem Hidden.tables : KernelMapped pml4 y ∧
    (∀ path, path.length ≤ 4 → follow (child y.memory) pml4 path =
    follow (child x.memory) pml4 path) ∧ ∀ k q j, q.length ≤ 3 → flagAt y.memory pml4 k q j =
    flagAt x.memory pml4 k q j := by
  rcases hHidden with ⟨frames, n, hBacked, hMapped, hClean, hTwins⟩
  have hAlike : ∀ t, TableOwned frames pml4 n t →
    ∀ z, z / 4096 = tablePage t → y.memory z = x.memory z :=
    fun t hOwned z hz => hTwins.agree z (fun hSecret => hClean t hOwned (hz ▸ hSecret))
  rcases hBacked.alike hMapped hTwins.used hTwins.pageBitmap hAlike with ⟨hSelf, hTree, hFollow⟩
  refine ⟨⟨frames, n, hSelf, hTree⟩, hFollow, ?_⟩
  intro k q j hq
  apply flagAt_congr (hFollow q (by omega))
  intro t hTable
  have hOwned := hMapped.tree.owned hq hTable
  exact readEntry_page (hBacked.fresh.aligned hBacked.root hOwned) (hAlike t hOwned) j

theorem Hidden.take {y' : PageFrameAllocator} (hOnly : OnlyBits x x')
    (hTaken : ∀ q, x.used q = true → x'.used q = true) (hTwins : Twins secret x' y') :
    Hidden pml4 secret x' y' := by
  rcases hHidden with ⟨frames, n, hBacked, hMapped, hClean, _⟩
  rcases (hBacked.take hOnly hTaken).self hMapped with ⟨hSelf, hTree⟩
  exact ⟨frames, n, hSelf, hTree, hClean, hTwins⟩

theorem Hidden.level {flags table next : BitVec 64} {stem : List (Fin 512)} {i : Fin 512}
    (hFlags : TableFlags flags) (hDepth : stem.length < 3)
    (hParent : follow (child x.memory) pml4 stem = some table)
    (h : nextTable flags table i x = some (next, x')) :
    ∃ y', nextTable flags table i y = some (next, y') ∧
    Hidden pml4 (secret \ {tablePage next}) x' y' ∧
    follow (child x'.memory) pml4 (stem ++ [i]) = some next := by
  rcases hHidden with ⟨frames, n, hBacked, hMapped, hClean, hTwins⟩
  have hOwned := hMapped.tree.owned (by omega) hParent
  have hBelow : (stem ++ [i]).length ≤ 3 := by
    rw [length_append, length_singleton]
    omega
  have hChild : ∀ next, child x.memory table i = some next → tablePage next ∉ secret := by
    intro next hNext
    apply hClean
    exact hMapped.tree.owned hBelow (follow_snoc_some.mpr ⟨table, hParent, hNext⟩)
  rcases hTwins.nextTable hBacked.bits_le (hBacked.fresh.aligned hBacked.root hOwned)
    (hClean table hOwned) hChild h with ⟨y', hAlike, hTwins'⟩
  rcases hBacked.level hMapped hFlags hDepth hParent h with
    ⟨frames', a', hStep, _, hBacked', hMapped', hFollow⟩
  rcases hBacked'.self hMapped' with ⟨hSelf, hTree⟩
  refine ⟨y', hAlike, ⟨frames', a'.requested, hSelf, hTree, ?_, hTwins'⟩, ?_⟩
  · rintro t hTable ⟨hSecret, hOther⟩
    rcases hStep.grown t hTable with hOld | ⟨hNew, _⟩
    · exact hClean t hOld hSecret
    · cases mem_singleton.mp hNew
      exact hOther rfl
  · rw [hBacked'.follow_eq hMapped' _ (by omega)]
    exact hFollow

theorem Hidden.mapMemory {virtualAddress physicalAddress flags : BitVec 64}
    (hFlags : TableFlags flags)
    (h : mapMemory pml4 x virtualAddress physicalAddress flags = some x') :
    ∃ secret' y', secret' ⊆ secret ∧ mapMemory pml4 y virtualAddress
    physicalAddress flags = some y' ∧ Hidden pml4 secret' x' y' := by
  rcases mapMemory_cases h with
    ⟨i, j, k, l, pdp, pd, pt, x₁, x₂, x₃, hIndexer, hOne, hTwo, hThree, rfl⟩
  rcases hHidden.level hFlags (by simp) follow_nil hOne with ⟨y₁, hOne', hHidden₁, hPdp⟩
  rcases hHidden₁.level hFlags (by simp) hPdp hTwo with ⟨y₂, hTwo', hHidden₂, hPd⟩
  rcases hHidden₂.level hFlags (by simp) hPd hThree with ⟨y₃, hThree', hHidden₃, hPt⟩
  rcases hHidden₃ with ⟨frames, n, hBacked, hMapped, hClean, hTwins⟩
  have hOwned := hMapped.tree.owned (by simp) hPt
  have hAligned := hBacked.fresh.aligned hBacked.root hOwned
  have hEntry := hTwins.readEntry hAligned (hClean pt hOwned) l
  have hWritten := (hBacked.setEntry hOwned l
    ((readEntry x₃.memory pt l).pointTo physicalAddress flags)).1
  rcases hMapped.setLeaf hBacked.root hBacked.fresh hFlags hPt rfl with ⟨hLeaf, _⟩
  refine ⟨_, _, ?_, ?_, frames, n, hWritten, hLeaf, hClean, hTwins.writeEntry pt l _⟩
  · intro q hq
    exact hq.1.1.1
  · simp only [mapMemory, hIndexer, if_neg hBacked.nonnull, hOne', hTwo', hThree',
      hEntry, Option.bind_eq_bind, Option.bind_some]

end

theorem Hidden.loop {body : BitVec 64 → PageFrameAllocator → Option PageFrameAllocator} {fuel : Nat}
    {start stop : BitVec 64}
    (hBody : ∀ t secret x y x', Hidden pml4 secret x y → body t x = some x' →
    ∃ secret' y', secret' ⊆ secret ∧ body t y = some y' ∧ Hidden pml4 secret' x' y')
    (hHidden : Hidden pml4 secret x y) (h : loopUp 4096 stop body fuel start x = some x') :
    ∃ secret' y', secret' ⊆ secret ∧ loopUp 4096 stop body fuel start y = some y' ∧
    Hidden pml4 secret' x' y' := by
  rcases loopUp_lockstep (R := fun x y => ∃ secret' ⊆ secret, Hidden pml4 secret' x y)
      (fun t x y x' hR hRound => by
        rcases hR with ⟨secret₁, hSubset, hHidden₁⟩
        rcases hBody t secret₁ x y x' hHidden₁ hRound with ⟨secret₂, y', hSmaller, hAlike, hHidden₂⟩
        exact ⟨y', hAlike, secret₂, hSmaller.trans hSubset, hHidden₂⟩)
      ⟨secret, subset_rfl, hHidden⟩ h with
    ⟨y', hLoop, secret', hSubset, hHidden'⟩
  exact ⟨secret', y', hSubset, hLoop, hHidden'⟩

end Calls

end Fennix
