import Fennix.Library.Loop
import Fennix.PMM.Limine
import Fennix.VMM.KernelTables

/-
  The kernel's page table.

  `init_kernelpml` maps every page below the memory size to itself and, a second time, to the higher
  half.
-/

------ Building the Table

namespace Fennix

open Option BitVec

variable (m : Memory)

open PageDirectoryEntry PageFrameAllocator

structure GBPFramebuffer where
  baseAddress : BitVec 64
  bufferSize : BitVec 64
deriving DecidableEq, Repr

structure EarlyParams where
  mem : GBPMemory
  kernelBasePhysical : BitVec 64
  framebuffer : GBPFramebuffer

structure KernelSymbols where
  kernelStart : BitVec 64
  kernelTextEnd : BitVec 64
  kernelRoDataEnd : BitVec 64
  kernelEnd : BitVec 64

def normalVMAOffset : BitVec 64 := 0xFFFF800000000000

namespace KernelTables

variable (pml4 : BitVec 64)

def mapNormal (t : BitVec 64) : BitVec 64 × PageFrameAllocator →
      Option (BitVec 64 × PageFrameAllocator)
| (virtualOffsetNormalVMA, s) => do
    let flags := PTFlag.RW ||| PTFlag.US
    let s ← mapMemory pml4 s t t flags
    let s ← mapMemory pml4 s virtualOffsetNormalVMA t flags
    some (virtualOffsetNormalVMA + 4096, s)

def mapFramebuffer (fbBase : BitVec 64) (s : PageFrameAllocator) : Option PageFrameAllocator :=
  mapMemory pml4 s fbBase (fbBase - normalVMAOffset) (PTFlag.RW ||| PTFlag.US)

def mapKernel (flags k : BitVec 64) : BitVec 64 × PageFrameAllocator →
      Option (BitVec 64 × PageFrameAllocator)
| (baseKernelMapAddress, s) => do
    let s ← mapMemory pml4 s k baseKernelMapAddress flags
    some (baseKernelMapAddress + 4096, s.lockPage baseKernelMapAddress.toNat)

end KernelTables

open KernelTables

/- `init_kernelpml`: the kernel's table and the state it leaves. Each loop has the given fuel. -/
def initKernelPML (fuel : Nat) (symbols : KernelSymbols) (early : EarlyParams)
    (s : PageFrameAllocator) : Option (BitVec 64 × PageFrameAllocator) := do
  let (pml4, s) ← createRoot s
  let (_, s) ← loopUp 4096 early.mem.size.toBitVec (mapNormal pml4) fuel 0 (normalVMAOffset, s)
  let fb := early.framebuffer
  let s ← loopUp 4096 (fb.baseAddress + (fb.bufferSize + 4096))
      (mapFramebuffer pml4) fuel fb.baseAddress s
  let (base, s) ← loopUp 4096 symbols.kernelTextEnd (mapKernel pml4 PTFlag.RW) fuel
      symbols.kernelStart (early.kernelBasePhysical, s)
  let (base, s) ← loopUp 4096 symbols.kernelRoDataEnd (mapKernel pml4 PTFlag.P) fuel
      symbols.kernelTextEnd (base, s)
  let (_, s) ← loopUp 4096 symbols.kernelEnd (mapKernel pml4 PTFlag.RW) fuel
      symbols.kernelRoDataEnd (base, s)
  some (pml4, s)

------ Pages Mapped to Themselves

def pageVA (index : Nat) : BitVec 64 :=
  BitVec.ofNat 64 (index * 4096)

def SelfMapped (pml4 : BitVec 64) (s : PageFrameAllocator) (index : Nat) : Prop :=
  PageMapIndexer.Canonical (pageVA index) ∧ walk s.memory pml4 (pageVA index) = .page (pageVA index)

/-
  The page lies below the memory size and in the lower half, and no page of the memory has its
  second mapping there.
-/
def IdentityMapped (size index : Nat) : Prop :=
  index * 4096 < size ∧ index * 4096 < 2 ^ 47 ∧ size ≤ index * 4096 + 2 ^ 47

instance (size index : Nat) : Decidable (IdentityMapped size index) :=
  inferInstanceAs (Decidable (_ ∧ _))

structure HigherHalf (symbols : KernelSymbols) (early : EarlyParams) : Prop where
  framebuffer : normalVMAOffset.toNat ≤ early.framebuffer.baseAddress.toNat ∧
      early.framebuffer.baseAddress.toNat + early.framebuffer.bufferSize.toNat + 8192 ≤ 2 ^ 64
  kernelStart : normalVMAOffset.toNat ≤ symbols.kernelStart.toNat
  kernelTextEnd : normalVMAOffset.toNat ≤ symbols.kernelTextEnd.toNat ∧
      symbols.kernelTextEnd.toNat + 4096 ≤ 2 ^ 64
  kernelRoDataEnd : normalVMAOffset.toNat ≤ symbols.kernelRoDataEnd.toNat ∧
      symbols.kernelRoDataEnd.toNat + 4096 ≤ 2 ^ 64
  kernelEnd : symbols.kernelEnd.toNat + 4096 ≤ 2 ^ 64

variable {index : Nat}

section Mapping

variable {pml4 : BitVec 64} {s s' : PageFrameAllocator} {v : BitVec 64} {entry : Option (BitVec 64)}
variable {t flags stop : BitVec 64} {x : BitVec 64 × PageFrameAllocator} {n k r : Nat}

theorem tableFlags_RW_US : TableFlags (PTFlag.RW ||| PTFlag.US) := by
  decide

theorem tableFlags_RW : TableFlags PTFlag.RW := by
  decide

theorem tableFlags_P : TableFlags PTFlag.P := by
  decide

structure LeadsTo (pml4 v : BitVec 64) (entry : Option (BitVec 64))
    (s : PageFrameAllocator) : Prop where
  mapped : KernelMapped pml4 s
  lookup : lookup s.memory pml4 (.of v) = entry

variable {p : BitVec 64}

theorem LeadsTo.mapMemory (hLeads : LeadsTo pml4 v entry s) (hFlags : TableFlags flags)
    (h : mapMemory pml4 s t p flags = some s') :
    LeadsTo pml4 v (if PageMapIndexer.SamePage v t then some (framePage p) else entry) s' := by
  rcases hLeads.mapped.mapMemory hFlags h with ⟨hMapped, _, hLookup⟩
  refine ⟨hMapped, ?_⟩
  rw [hLookup, hLeads.lookup]
  simp only [PageMapIndexer.of_eq_iff]

theorem LeadsTo.mapMemory_high (hLeads : LeadsTo pml4 v entry s) (hv : v.toNat < 2 ^ 47)
    (ht : normalVMAOffset.toNat ≤ t.toNat) (hFlags : TableFlags flags)
    (h : KernelTables.mapMemory pml4 s t p flags = some s') : LeadsTo pml4 v entry s' := by
  have hOther : ¬ PageMapIndexer.SamePage v t := by
    have hOffset : normalVMAOffset.toNat = 2 ^ 64 - 2 ^ 47 :=
      rfl
    have hLt := t.isLt
    unfold PageMapIndexer.SamePage
    omega
  have hAfter := hLeads.mapMemory hFlags h
  rw [if_neg hOther] at hAfter
  exact hAfter

theorem LeadsTo.lockPage (hLeads : LeadsTo pml4 v entry s) (address : Nat) :
    LeadsTo pml4 v entry (s.lockPage address) := by
  rcases hLeads.mapped.lockPage address with ⟨hMapped, hLookup⟩
  exact ⟨hMapped, (hLookup _).trans hLeads.lookup⟩

theorem toNat_add_page (hBelow : t < stop) (hFit : stop.toNat + 4096 ≤ 2 ^ 64) :
    (t + 4096).toNat = t.toNat + 4096 := by
  have hLess : t.toNat < stop.toNat := hBelow
  have hPage : (4096 : BitVec 64).toNat = 4096 := rfl
  rw [toNat_add, hPage]
  exact Nat.mod_eq_of_lt (by omega)

------ The Loop over Memory

structure IdentityAt (v t : Nat) (entry : Option (BitVec 64)) : Prop where
  before : t ≤ v → entry = none
  mapped : v < t → t ≤ v + 2 ^ 47 → entry = some (BitVec.ofNat 64 v)
  replaced : v + 2 ^ 47 < t → ∃ p, entry = some p ∧ v < p.toNat

theorem IdentityAt.round {v : Nat} (hv : v % 4096 = 0) (hLow : v < 2 ^ 47) (ht : t.toNat % 4096 = 0)
    (hPage : t.toNat < 2 ^ 52) (hAt : IdentityAt v t.toNat entry) : IdentityAt v (t.toNat + 4096)
    (if PageMapIndexer.SamePage (BitVec.ofNat 64 v) (normalVMAOffset + t) then some t
    else if PageMapIndexer.SamePage (BitVec.ofNat 64 v) t then some t else entry) := by
  have hNat : (BitVec.ofNat 64 v).toNat = v := toNat_ofNat_of_lt (by omega)
  have hOffset : normalVMAOffset.toNat = 2 ^ 64 - 2 ^ 47 :=
    rfl
  have hSum : (normalVMAOffset + t).toNat = (2 ^ 64 - 2 ^ 47 + t.toNat) % 2 ^ 64 := by
    rw [toNat_add, hOffset]
  have hFirst : PageMapIndexer.SamePage (BitVec.ofNat 64 v) t ↔
    (t.toNat - v) % 2 ^ 48 = 0 ∧ v ≤ t.toNat := by
    unfold PageMapIndexer.SamePage
    rw [hNat]
    omega
  have hSecond : PageMapIndexer.SamePage (BitVec.ofNat 64 v) (normalVMAOffset + t) ↔
    (t.toNat - v) % 2 ^ 48 = 2 ^ 47 ∧ v ≤ t.toNat := by
    unfold PageMapIndexer.SamePage
    rw [hNat, hSum]
    omega
  simp only [hFirst, hSecond]
  have hNew : (t.toNat - v) % 2 ^ 47 = 0 → v ≤ t.toNat →
    IdentityAt v (t.toNat + 4096) (some t) := by
    intro hMeets hFrom
    refine ⟨by omega, ?_, fun _ => ⟨t, rfl, by omega⟩⟩
    intro _ hNear
    have hHere : t.toNat = v := by omega
    rw [eq_of_toNat_eq (hHere.trans hNat.symm)]
  split_ifs with hOver hHere
  · exact hNew (by omega) hOver.2
  · exact hNew (by omega) hHere.2
  · exact ⟨fun h => hAt.before (by omega), fun h h' => hAt.mapped (by omega) (by omega),
      fun h => hAt.replaced (by omega)⟩

structure NormalMapped (pml4 : BitVec 64) (v size : Nat) (t : BitVec 64)
    (x : BitVec 64 × PageFrameAllocator) : Prop where
  aligned : t.toNat % 4096 = 0
  bound : t.toNat < size + 4096
  offset : x.1 = normalVMAOffset + t
  leads : ∃ entry, IdentityAt v t.toNat entry ∧ LeadsTo pml4 (BitVec.ofNat 64 v) entry x.2

theorem NormalMapped.round {v : Nat} {x' : BitVec 64 × PageFrameAllocator} (hv : v % 4096 = 0)
    (hLow : v < 2 ^ 47) (hSize : stop.toNat ≤ 2 ^ 52) (hMapped : NormalMapped pml4 v stop.toNat t x)
    (hBelow : t < stop) (h : mapNormal pml4 t x = some x') :
    NormalMapped pml4 v stop.toNat (t + 4096) x' := by
  rcases x with ⟨offset, s⟩
  rcases hMapped with ⟨hAligned, hBound, hOffset, entry, hAt, hLeads⟩
  dsimp only at hOffset hLeads
  have hLess : t.toNat < stop.toNat := hBelow
  have hNext := toNat_add_page hBelow (by omega)
  have hPage : framePage t = t := framePage_of_isPage ⟨hAligned, by omega⟩
  rcases bind_eq_some_iff.mp h with ⟨s₁, hOne, hRest⟩
  rcases bind_eq_some_iff.mp hRest with ⟨s₂, hTwo, hEq⟩
  have hLeads₁ := hLeads.mapMemory tableFlags_RW_US hOne
  have hLeads₂ := hLeads₁.mapMemory tableFlags_RW_US hTwo
  rw [hPage, hOffset] at hLeads₂
  rw [← some.inj hEq]
  refine ⟨by omega, by omega, ?_, _, ?_, hLeads₂⟩
  · dsimp only
    rw [hOffset, add_assoc]
  · rw [hNext]
    exact hAt.round hv hLow hAligned (by omega)

theorem normalMapped_loop {v fuel : Nat} (hv : v % 4096 = 0) (hLow : v < 2 ^ 47)
    (hSize : stop.toNat ≤ 2 ^ 52) (hLeads : LeadsTo pml4 (BitVec.ofNat 64 v) none s)
    (h : loopUp 4096 stop (mapNormal pml4) fuel 0 (normalVMAOffset, s) = some x) : ∃ entry,
    (entry = some (BitVec.ofNat 64 v) ↔ v < stop.toNat ∧ stop.toNat ≤ v + 2 ^ 47) ∧
    LeadsTo pml4 (BitVec.ofNat 64 v) entry x.2 := by
  have hZero : (0 : BitVec 64).toNat = 0 := rfl
  have hStart : NormalMapped pml4 v stop.toNat 0 (normalVMAOffset, s) := by
    exact ⟨rfl, by omega, rfl, none, ⟨fun _ => rfl, by omega, by omega⟩, hLeads⟩
  rcases loopUp_invariant (fun t x x' hMapped hBelow hRound =>
        NormalMapped.round hv hLow hSize hMapped hBelow hRound) hStart h with
    ⟨last, hEnd, hAligned, hBound, _, entry, hAt, hAfter⟩
  have hReached : stop.toNat ≤ last.toNat := Nat.not_lt.mp hEnd
  refine ⟨entry, ?_, hAfter⟩
  have hNat : (BitVec.ofNat 64 v).toNat = v := toNat_ofNat_of_lt (by omega)
  constructor
  · intro hEntry
    by_cases hBefore : last.toNat ≤ v
    · rw [hAt.before hBefore] at hEntry
      cases hEntry
    refine ⟨by omega, ?_⟩
    by_contra hBeyond
    rcases hAt.replaced (by omega) with ⟨p, hp, hAbove⟩
    rw [hp] at hEntry
    rw [some.inj hEntry, hNat] at hAbove
    omega
  · rintro ⟨hBelow, hNear⟩
    exact hAt.mapped (by omega) (by omega)

------ The Whole Table

variable {symbols : KernelSymbols} {early : EarlyParams} {fuel : Nat}

theorem initKernelPML_cases (h : initKernelPML fuel symbols early s = some (pml4, s')) :
    ∃ s₀ x₁ s₂ x₃ x₄ x₅, createRoot s = some (pml4, s₀) ∧ loopUp 4096 early.mem.size.toBitVec
    (mapNormal pml4) fuel 0 (normalVMAOffset, s₀) = some x₁ ∧ loopUp 4096
    (early.framebuffer.baseAddress + (early.framebuffer.bufferSize + 4096))
    (mapFramebuffer pml4) fuel early.framebuffer.baseAddress x₁.2 = some s₂ ∧
    loopUp 4096 symbols.kernelTextEnd (mapKernel pml4 PTFlag.RW) fuel symbols.kernelStart
    (early.kernelBasePhysical, s₂) = some x₃ ∧ loopUp 4096 symbols.kernelRoDataEnd
    (mapKernel pml4 PTFlag.P) fuel symbols.kernelTextEnd x₃ = some x₄ ∧
    loopUp 4096 symbols.kernelEnd (mapKernel pml4 PTFlag.RW) fuel
    symbols.kernelRoDataEnd x₄ = some x₅ ∧ s' = x₅.2 := by
  simp only [initKernelPML, bind_eq_bind, bind_eq_some_iff, Prod.exists,
    some.injEq, Prod.mk.injEq] at h
  rcases h with
    ⟨_, s₀, hRoot, _, s₁, hOne, s₂, hTwo, b₃, s₃, hThree, b₄, s₄, hFour, b₅, s₅, hFive, rfl, rfl⟩
  exact ⟨s₀, (_, s₁), s₂, (b₃, s₃), (b₄, s₄), (b₅, s₅),
    hRoot, hOne, hTwo, hThree, hFour, hFive, rfl⟩

theorem HigherHalf.framebuffer_end (hHigh : HigherHalf symbols early) :
    (early.framebuffer.baseAddress + (early.framebuffer.bufferSize + 4096)).toNat + 4096 ≤
    2 ^ 64 := by
  rcases hHigh.framebuffer with ⟨_, hEnd⟩
  have hPage : (4096 : BitVec 64).toNat = 4096 := rfl
  rw [toNat_add, toNat_add, hPage]
  omega

variable {P : PageFrameAllocator → Prop}

theorem initKernelPML_later
    (hMap : ∀ s s' t p flags, (HigherHalf symbols early → normalVMAOffset.toNat ≤ t.toNat) → P s →
    TableFlags flags → mapMemory pml4 s t p flags = some s' → P s')
    (hLock : ∀ s address, P s → P (s.lockPage address))
    (hNormal : ∀ s₀ x, createRoot s = some (pml4, s₀) →
    loopUp 4096 early.mem.size.toBitVec (mapNormal pml4) fuel 0 (normalVMAOffset, s₀) = some x →
    P x.2) (h : initKernelPML fuel symbols early s = some (pml4, s')) : P s' := by
  rcases initKernelPML_cases h with
    ⟨s₀, x₁, s₂, x₃, x₄, x₅, hCreate, hOne, hTwo, hThree, hFour, hFive, rfl⟩
  have hs₂ : P s₂ := by
    refine loopUp_keeps (by decide) ?_ (hNormal s₀ x₁ hCreate hOne) hTwo
    intro t s s' hLow _ hs hRound
    exact hMap _ _ _ _ _ (fun hHigh => Nat.le_trans hHigh.framebuffer.1 hLow) hs
      tableFlags_RW_US hRound
  have hKernel : ∀ {flags start stop : BitVec 64} {x x' : BitVec 64 × PageFrameAllocator},
      TableFlags flags → (HigherHalf symbols early → normalVMAOffset.toNat ≤ start.toNat) →
      P x.2 → loopUp 4096 stop (mapKernel pml4 flags) fuel start x = some x' → P x'.2 := by
    intro flags start stop x x' hFlags hStart hx hLoop
    refine loopUp_keeps (P := fun x => P x.2) (by decide) ?_ hx hLoop
    intro t x x' hLow _ hx hRound
    rcases bind_eq_some_iff.mp hRound with ⟨s₁, hCall, hEq⟩
    rw [← some.inj hEq]
    exact hLock _ _ (hMap _ _ _ _ _ (fun hHigh => Nat.le_trans (hStart hHigh) hLow) hx hFlags hCall)
  have hx₃ := hKernel tableFlags_RW (fun hHigh => hHigh.kernelStart) hs₂ hThree
  have hx₄ := hKernel tableFlags_P (fun hHigh => hHigh.kernelTextEnd.1) hx₃ hFour
  exact hKernel tableFlags_RW (fun hHigh => hHigh.kernelRoDataEnd.1) hx₄ hFive

theorem leadsTo_initKernelPML {v : Nat} (hv : v % 4096 = 0) (hLow : v < 2 ^ 47) (hReady : Ready s)
    (hSize : early.mem.size.toNat ≤ 2 ^ 52) (hHigh : HigherHalf symbols early)
    (h : initKernelPML fuel symbols early s = some (pml4, s')) : ∃ entry,
    (entry = some (BitVec.ofNat 64 v) ↔ v < early.mem.size.toNat ∧
    early.mem.size.toNat ≤ v + 2 ^ 47) ∧ LeadsTo pml4 (BitVec.ofNat 64 v) entry s' := by
  have hNat : (BitVec.ofNat 64 v).toNat < 2 ^ 47 := by
    rw [toNat_ofNat]
    exact Nat.lt_of_le_of_lt (Nat.mod_le _ _) hLow
  refine initKernelPML_later (P := fun s => ∃ entry, (entry = some (BitVec.ofNat 64 v) ↔
      v < early.mem.size.toNat ∧ early.mem.size.toNat ≤ v + 2 ^ 47) ∧
      LeadsTo pml4 (BitVec.ofNat 64 v) entry s) ?_ ?_ ?_ h
  · rintro s s' t p flags ht ⟨entry, hEntry, hLeads⟩ hFlags hCall
    exact ⟨entry, hEntry, hLeads.mapMemory_high hNat (ht hHigh) hFlags hCall⟩
  · rintro s address ⟨entry, hEntry, hLeads⟩
    exact ⟨entry, hEntry, hLeads.lockPage address⟩
  · intro s₀ x hRoot hLoop
    rcases kernelMapped_createRoot hReady hRoot with ⟨hMapped, _, m, hMemory⟩
    refine normalMapped_loop hv hLow hSize ⟨hMapped, ?_⟩ hLoop
    rw [hMemory]
    exact lookup_start m pml4 _

theorem initKernelPML_invariant
    (hMap : ∀ s s' t p flags, P s → TableFlags flags →
    mapMemory pml4 s t p flags = some s' → P s')
    (hLock : ∀ s address, P s → P (s.lockPage address))
    (hRoot : ∀ s₀, createRoot s = some (pml4, s₀) → P s₀)
    (h : initKernelPML fuel symbols early s = some (pml4, s')) : P s' := by
  refine initKernelPML_later (fun s s' t p flags _ => hMap s s' t p flags) hLock ?_ h
  intro s₀ x hCreate hLoop
  refine loopUp_keeps (P := fun x => P x.2) (by decide) ?_ (hRoot s₀ hCreate) hLoop
  intro t x x' _ _ hx hRound
  rcases bind_eq_some_iff.mp hRound with ⟨s₁, hFirst, hRest⟩
  rcases bind_eq_some_iff.mp hRest with ⟨s₂, hSecond, hEq⟩
  rw [← some.inj hEq]
  exact hMap _ _ _ _ _ (hMap _ _ _ _ _ hx tableFlags_RW_US hFirst) tableFlags_RW_US hSecond

theorem kernelMapped_initKernelPML (hReady : Ready s)
    (h : initKernelPML fuel symbols early s = some (pml4, s')) : KernelMapped pml4 s' :=
  initKernelPML_invariant (fun _ _ _ _ _ hMapped hFlags hCall => (hMapped.mapMemory hFlags hCall).1)
    (fun _ address hMapped => (hMapped.lockPage address).1)
    (fun _ hCreate => (kernelMapped_createRoot hReady hCreate).1) h

theorem selfMapped_iff_initKernelPML (hReady : Ready s) (hSize : early.mem.size.toNat ≤ 2 ^ 52)
    (hHigh : HigherHalf symbols early) (h : initKernelPML fuel symbols early s = some (pml4, s'))
    (hIndex : index < s'.bits) : SelfMapped pml4 s' index ↔
    IdentityMapped early.mem.size.toNat index := by
  have hMapped := kernelMapped_initKernelPML hReady h
  have hBits := hMapped.bits_le
  have hNat : (pageVA index).toNat = index * 4096 := toNat_pageAddress index (by omega)
  unfold SelfMapped IdentityMapped
  by_cases hLow : index * 4096 < 2 ^ 47
  · rcases leadsTo_initKernelPML (v := index * 4096) (by omega) hLow hReady hSize hHigh h with
      ⟨entry, hEntry, hLeads⟩
    have hCanonical : PageMapIndexer.Canonical (pageVA index) := Or.inl (by omega)
    have hLookup : lookup s'.memory pml4 (.of (pageVA index)) = entry := hLeads.lookup
    rw [hMapped.walk_eq_page_iff, hLookup]
    constructor
    · rintro ⟨_, hSelf⟩
      rcases hEntry.mp hSelf with ⟨hBelow, hNear⟩
      exact ⟨hBelow, hLow, hNear⟩
    · rintro ⟨hBelow, _, hNear⟩
      exact ⟨hCanonical, hEntry.mpr ⟨hBelow, hNear⟩⟩
  constructor
  · rintro ⟨hCanonical, _⟩
    unfold PageMapIndexer.Canonical at hCanonical
    omega
  · rintro ⟨_, hBelow, _⟩
    exact absurd hBelow hLow

------ Room for the Tables

structure Roomy (pml4 : BitVec 64) (n : Nat) (s : PageFrameAllocator) : Prop where
  mapped : KernelMapped pml4 s
  hinted : Hinted s
  room : n ≤ s.freeBits

theorem Roomy.mapMemory (hRoomy : Roomy pml4 (n + 3) s) (hFlags : TableFlags flags)
    (t p : BitVec 64) : ∃ s', mapMemory pml4 s t p flags = some s' ∧
    Roomy pml4 n s' := by
  have hRoom := hRoomy.room
  rcases hRoomy.mapped.mapMemory_returns hRoomy.hinted (by omega) hFlags t p with ⟨s', hCall⟩
  rcases hRoomy.mapped.mapMemory hFlags hCall with ⟨hMapped, hTakes, _⟩
  have hLeft := hTakes.room
  exact ⟨s', hCall, hMapped, hTakes.hinted hRoomy.hinted, by omega⟩

theorem Roomy.lockPage (hRoomy : Roomy pml4 (n + 1) s) (address : Nat) :
    Roomy pml4 n (s.lockPage address) := by
  have hRoom := hRoomy.room
  have hTakes := takes_lockPage s address
  have hLeft := hTakes.room
  exact ⟨(hRoomy.mapped.lockPage address).1, hTakes.hinted hRoomy.hinted, by omega⟩

theorem Roomy.mapNormal (hRoomy : Roomy pml4 (n + 6) x.2) (t : BitVec 64) :
    ∃ x', mapNormal pml4 t x = some x' ∧ Roomy pml4 n x'.2 := by
  rcases x with ⟨offset, s⟩
  rcases hRoomy.mapMemory tableFlags_RW_US t t with ⟨s₁, hOne, hRoomy₁⟩
  rcases hRoomy₁.mapMemory tableFlags_RW_US offset t with ⟨s₂, hTwo, hRoomy₂⟩
  refine ⟨(offset + 4096, s₂), ?_, hRoomy₂⟩
  simp only [mapNormal, hOne, hTwo, bind_eq_bind, bind_some]

theorem Roomy.mapKernel (hFlags : TableFlags flags) (hRoomy : Roomy pml4 (n + 4) x.2)
    (t : BitVec 64) : ∃ x', mapKernel pml4 flags t x = some x' ∧
    Roomy pml4 n x'.2 := by
  rcases x with ⟨base, s⟩
  have hMore : Roomy pml4 (n + 1 + 3) s := hRoomy
  rcases hMore.mapMemory hFlags t base with ⟨s₁, hCall, hRoomy₁⟩
  refine ⟨(base + 4096, s₁.lockPage base.toNat), ?_, hRoomy₁.lockPage base.toNat⟩
  simp only [mapKernel, hCall, bind_eq_bind, bind_some]

theorem Roomy.loop {σ : Type} {body : BitVec 64 → σ → Option σ} (allocator : σ → PageFrameAllocator)
    {c : Nat} (hBody : ∀ n t x, Roomy pml4 (n + c) (allocator x) →
    ∃ x', body t x = some x' ∧ Roomy pml4 n (allocator x')) (start stop : BitVec 64) {x : σ}
    (hFuel : k < fuel) (hRounds : stop.toNat ≤ start.toNat + k * 4096)
    (hFit : stop.toNat + 4096 ≤ 2 ^ 64) (hRoomy : Roomy pml4 (r + k * c) (allocator x)) :
    ∃ x', loopUp 4096 stop body fuel start x = some x' ∧ Roomy pml4 r (allocator x') := by
  have hRound : ∀ k t x, Roomy pml4 (r + (k + 1) * c) (allocator x) → ∃ x', body t x = some x' ∧
    Roomy pml4 (r + k * c) (allocator x') := by
    intro k t x hx
    rw [Nat.succ_mul, ← Nat.add_assoc] at hx
    exact hBody (r + k * c) t x hx
  rcases loopUp_returns 4096 (P := fun k x => Roomy pml4 (r + k * c) (allocator x))
      hRound hFuel hRounds hFit hRoomy with ⟨left, x', hLoop, hLast⟩
  exact ⟨x', hLoop, hLast.mapped, hLast.hinted, Nat.le_trans (Nat.le_add_right r _) hLast.room⟩

structure Rounds (k : Nat) (symbols : KernelSymbols) (early : EarlyParams) : Prop where
  normal : early.mem.size.toNat ≤ k * 4096
  framebuffer : (early.framebuffer.baseAddress + (early.framebuffer.bufferSize + 4096)).toNat ≤
      early.framebuffer.baseAddress.toNat + k * 4096
  text : symbols.kernelTextEnd.toNat ≤ symbols.kernelStart.toNat + k * 4096
  rodata : symbols.kernelRoDataEnd.toNat ≤ symbols.kernelTextEnd.toNat + k * 4096
  data : symbols.kernelEnd.toNat ≤ symbols.kernelRoDataEnd.toNat + k * 4096

structure NoWrap (symbols : KernelSymbols) (early : EarlyParams) : Prop where
  framebuffer : (early.framebuffer.baseAddress +
        (early.framebuffer.bufferSize + 4096)).toNat + 4096 ≤
      2 ^ 64
  kernelTextEnd : symbols.kernelTextEnd.toNat + 4096 ≤ 2 ^ 64
  kernelRoDataEnd : symbols.kernelRoDataEnd.toNat + 4096 ≤ 2 ^ 64
  kernelEnd : symbols.kernelEnd.toNat + 4096 ≤ 2 ^ 64

theorem HigherHalf.noWrap (hHigh : HigherHalf symbols early) : NoWrap symbols early :=
  ⟨hHigh.framebuffer_end, hHigh.kernelTextEnd.2, hHigh.kernelRoDataEnd.2, hHigh.kernelEnd⟩

theorem initKernelPML_returns_of_noWrap (hReady : Ready s) (hSize : early.mem.size.toNat ≤ 2 ^ 52)
    (hNoWrap : NoWrap symbols early) (hRounds : Rounds k symbols early) (hFuel : k < fuel)
    (hRoom : r + k * 21 + 1 ≤ s.freeBits) : ∃ pml4 s',
    initKernelPML fuel symbols early s = some (pml4, s') ∧ Roomy pml4 r s' := by
  rcases createRoot_returns hReady.hinted (by omega) with ⟨pml4, s₀, hRoot⟩
  rcases kernelMapped_createRoot hReady hRoot with ⟨hMapped, hTakes, _⟩
  have hLeft := hTakes.room
  have hRoomy₀ : Roomy pml4 (r + k * 4 + k * 4 + k * 4 + k * 3 + k * 6) s₀ :=
    ⟨hMapped, hTakes.hinted hReady.hinted, by omega⟩
  have hStop : early.mem.size.toBitVec.toNat = early.mem.size.toNat := rfl
  have hNormal := hRounds.normal
  rcases Roomy.loop Prod.snd (fun n t x hx => Roomy.mapNormal hx t) 0 early.mem.size.toBitVec
      (x := (normalVMAOffset, s₀)) hFuel (by omega) (by omega) hRoomy₀ with ⟨x₁, hOne, hRoomy₁⟩
  rcases Roomy.loop id (fun n t x hx => Roomy.mapMemory hx tableFlags_RW_US t
        (t - normalVMAOffset)) _ _ hFuel hRounds.framebuffer hNoWrap.framebuffer hRoomy₁ with
    ⟨s₂, hTwo, hRoomy₂⟩
  rcases Roomy.loop Prod.snd (fun n t x hx => Roomy.mapKernel tableFlags_RW hx t)
      _ _ (x := (early.kernelBasePhysical, s₂)) hFuel
      hRounds.text hNoWrap.kernelTextEnd hRoomy₂ with ⟨x₃, hThree, hRoomy₃⟩
  rcases Roomy.loop Prod.snd (fun n t x hx => Roomy.mapKernel tableFlags_P hx t)
      _ _ hFuel hRounds.rodata hNoWrap.kernelRoDataEnd hRoomy₃ with ⟨x₄, hFour, hRoomy₄⟩
  rcases Roomy.loop Prod.snd (fun n t x hx => Roomy.mapKernel tableFlags_RW hx t)
      _ _ hFuel hRounds.data hNoWrap.kernelEnd hRoomy₄ with ⟨x₅, hFive, hRoomy₅⟩
  have hTwo' : loopUp 4096 (early.framebuffer.baseAddress + (early.framebuffer.bufferSize + 4096))
    (mapFramebuffer pml4) fuel early.framebuffer.baseAddress x₁.2 = some s₂ := hTwo
  refine ⟨pml4, x₅.2, ?_, hRoomy₅⟩
  simp only [initKernelPML, hRoot, hOne, hTwo', hThree, hFour, hFive, bind_eq_bind, bind_some]

theorem initKernelPML_returns (hReady : Ready s) (hSize : early.mem.size.toNat ≤ 2 ^ 52)
    (hHigh : HigherHalf symbols early) (hRounds : Rounds k symbols early) (hFuel : k < fuel)
    (hRoom : r + k * 21 + 1 ≤ s.freeBits) : ∃ pml4 s',
    initKernelPML fuel symbols early s = some (pml4, s') ∧ Roomy pml4 r s' :=
  initKernelPML_returns_of_noWrap hReady hSize hHigh.noWrap hRounds hFuel hRoom

end Mapping

theorem selfMapped_after_boot_iff (m : Memory) {fuel : Nat} {symbols : KernelSymbols}
    {early : EarlyParams} {pml4 : BitVec 64} {s : PageFrameAllocator}
    (hSize : early.mem.size.toNat ≤ 2 ^ 52) (hHigh : HigherHalf symbols early)
    (h : initKernelPML fuel symbols early (boot m early.mem) = some (pml4, s)) :
    ∀ index < s.bits, s.used index = false →
    (SelfMapped pml4 s index ↔ IdentityMapped early.mem.size.toNat index) := by
  intro index hIndex _
  exact selfMapped_iff_initKernelPML (ready_boot m hSize) hSize hHigh h hIndex

------ A Map of 2 MiB

def smallMap : List LimineMemmapEntry :=
  [⟨0, 0x100000, .reserved⟩, ⟨0x100000, 0x100000, .usable⟩]

def smallEarly : EarlyParams where
  mem :=
    { size := 0x200000, entry := [⟨0, 257, 0x101000, .reserved⟩, ⟨0x100000, 257, 0x101000, .free⟩] }
  kernelBasePhysical := 0x180000
  framebuffer := ⟨0xFFFF8000FD000000, 0x3000⟩

def smallSymbols : KernelSymbols where
  kernelStart := 0xFFFFFFFF80000000
  kernelTextEnd := 0xFFFFFFFF80001000
  kernelRoDataEnd := 0xFFFFFFFF80002000
  kernelEnd := 0xFFFFFFFF80003000

theorem initLimine_smallMap : initLimine smallMap = some smallEarly.mem := by
  decide

theorem higherHalf_small : HigherHalf smallSymbols smallEarly := by
  constructor <;> decide

theorem rounds_small : Rounds 512 smallSymbols smallEarly := by
  constructor <;> decide

theorem bootBitmap_small : bootBitmap smallEarly.mem = ⟨4096, 0x100000⟩ := by
  decide

theorem clear_boot_small (hIndex : index < 32768) :
    (boot m smallEarly.mem).used index = false ↔ 258 ≤ index ∧ index < 32768 := by
  have hBits : (bootBitmap smallEarly.mem).bits = 32768 := by
    decide
  have hSize : smallEarly.mem.size.toNat = 0x200000 := rfl
  have hEntry : InFreeEntry smallEarly.mem index ↔ 256 ≤ index ∧ index < 513 := by
    simp only [InFreeEntry, smallEarly, List.mem_cons, List.not_mem_nil, or_false, exists_eq_or_imp,
      exists_eq_left, reduceCtorEq, false_and, false_or, true_and]
    exact touches_iff index (by decide)
  rw [clear_boot_iff m (by omega), hEntry, hSize, bootBitmap_small, touches_iff index (by decide)]
  dsimp only
  omega

theorem freeBits_small : (boot m smallEarly.mem).freeBits = 32510 := by
  have hBits : (boot m smallEarly.mem).bits = 32768 := by
    rw [boot_bits]
    decide
  unfold freeBits
  rw [hBits, count_eq_of_interval (fun k hk => clear_boot_small m hk) (by omega) (by omega)]

theorem createRoot_small : ∃ s, createRoot (boot m smallEarly.mem) = some (0x102000, s) ∧
    Roomy 0x102000 32509 s ∧ s.used 0 = true := by
  have hBits : (boot m smallEarly.mem).bits = 32768 := by
    rw [boot_bits]
    decide
  have hReady : Ready (boot m smallEarly.mem) := ready_boot m (by decide)
  rcases requestPage_first 258 (by omega) (by rw [boot_pageBitmapIndex]; omega) (by omega)
      ((clear_boot_small m (by omega)).mpr (by omega)) (fun q _ hq => by
        rw [← Bool.not_eq_false, clear_boot_small m (by omega)]
        omega) with
    ⟨s₀, hRequest, _⟩
  have hRoot : BitVec.ofNat 64 (258 * 4096) = (0x102000 : BitVec 64) :=
    by decide
  have hCreate : createRoot (boot m smallEarly.mem) = some (0x102000, clearTable 0x102000 s₀) := by
    rw [createRoot, hRequest, ← hRoot]
  rcases kernelMapped_createRoot hReady hCreate with ⟨hMapped, hTakes, _⟩
  have hRoom := hTakes.room
  rw [freeBits_small] at hRoom
  refine ⟨_, hCreate, ⟨hMapped, hTakes.hinted hReady.hinted, by omega⟩, ?_⟩
  exact hTakes.used 0 (hReady.zero (by omega))

theorem initKernelPML_small : ∃ pml4 s, initKernelPML 513 smallSymbols smallEarly
    (boot (fun _ => 0) smallEarly.mem) = some (pml4, s) ∧ Roomy pml4 513 s := by
  apply initKernelPML_returns (k := 512) (ready_boot _ (by decide)) (by decide) higherHalf_small
    rounds_small (by omega)
  rw [freeBits_small]
  decide

theorem clear_page_unmapped : initLimine smallMap = some smallEarly.mem ∧
    HigherHalf smallSymbols smallEarly ∧ ∃ pml4 s, initKernelPML 513 smallSymbols smallEarly
    (boot (fun _ => 0) smallEarly.mem) = some (pml4, s) ∧ ∃ index < s.bits,
    s.used index = false ∧ ¬ SelfMapped pml4 s index := by
  refine ⟨initLimine_smallMap, higherHalf_small, ?_⟩
  rcases initKernelPML_small with ⟨pml4, s, hInit, hRoomy⟩
  refine ⟨pml4, s, hInit, ?_⟩
  have hFew : Nat.count (fun index => s.used index = false) 512 <
      Nat.count (fun index => s.used index = false) s.bits := by
    have hLe : Nat.count (fun index => s.used index = false) 512 ≤ 512 := Nat.count_le _
    have hRoom : 513 ≤ s.freeBits := hRoomy.room
    unfold freeBits at hRoom
    omega
  rcases Nat.exists_of_count_lt_count hFew with ⟨index, ⟨hAbove, hIndex⟩, hClear⟩
  refine ⟨index, hIndex, hClear, ?_⟩
  rw [selfMapped_iff_initKernelPML (ready_boot _ (by decide)) (by decide) higherHalf_small
    hInit hIndex]
  have hSize : smallEarly.mem.size.toNat = 0x200000 := rfl
  unfold IdentityMapped
  omega

theorem selfMapped_after_boot_iff_small : ∃ pml4 s, initKernelPML 513 smallSymbols smallEarly
    (boot (fun _ => 0) smallEarly.mem) = some (pml4, s) ∧ ∀ index < s.bits, s.used index = false →
    (SelfMapped pml4 s index ↔ IdentityMapped 0x200000 index) := by
  rcases initKernelPML_small with ⟨pml4, s, hInit, _⟩
  exact ⟨pml4, s, hInit, selfMapped_after_boot_iff (fun _ => 0) (by decide) higherHalf_small hInit⟩

end Fennix
