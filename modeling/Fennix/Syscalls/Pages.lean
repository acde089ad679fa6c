import Fennix.VMM.Permissions

/-
  The system calls that hand out and take back pages.

  `requestpage` and `requestpages` take pages from the kernel's allocator and map them for user
  mode; `freepage` and `freepages` give any page they are told back to the allocator and map it for
  the kernel.
-/

namespace Fennix

open PageDirectoryEntry PageFrameAllocator KernelTables Option BitVec

variable {ret : BitVec 64} {fuel : Nat}

namespace Syscalls

def deniedcall : BitVec 64 := -0xde61edca11

/- `CanSyscall` returns before it looks at a token. -/
def canSyscall : Bool := true

def mapUser (pml4 i : BitVec 64) (s : PageFrameAllocator) : Option PageFrameAllocator :=
  mapMemory pml4 s i i (PTFlag.US ||| PTFlag.RW)

def mapReleased (pml4 i : BitVec 64) (s : PageFrameAllocator) : Option PageFrameAllocator :=
  let (_, s) := unmapMemory pml4 s i
  mapMemory pml4 s i i PTFlag.RW

def requestpage (pml4 : BitVec 64) (s : PageFrameAllocator) :
    Option (BitVec 64 × PageFrameAllocator) :=
  if canSyscall = false then some (deniedcall, s)
  else
    match s.requestPage with
    | (none, _) => none
    | (some address, s) =>
      let ret := BitVec.ofNat 64 address
      (mapUser pml4 ret s).map (fun s => (ret, s))

def freepage (pml4 : BitVec 64) (s : PageFrameAllocator)
    (page : BitVec 64) : Option PageFrameAllocator :=
  if canSyscall = false then some s
  else mapReleased pml4 page (s.freePage page.toNat)

def requestpages (fuel : Nat) (pml4 : BitVec 64) (s : PageFrameAllocator) (pages : BitVec 64) :
    Option (BitVec 64 × PageFrameAllocator) :=
  if canSyscall = false then some (deniedcall, s)
  else
    match s.requestPages fuel pages.toNat with
    | none => none
    | some (address, s) =>
      let ret := BitVec.ofNat 64 address
      (loopUp 4096 (ret + pages * 4096) (mapUser pml4) fuel ret s).map (fun s => (ret, s))

def freepages (fuel : Nat) (pml4 : BitVec 64) (s : PageFrameAllocator)
    (page pages : BitVec 64) : Option PageFrameAllocator :=
  if canSyscall = false then some s
  else
    loopUp 4096 (page + pages * 4096) (mapReleased pml4)
      fuel page (s.freePages page.toNat pages.toNat)

theorem tableFlags_US_RW : TableFlags (PTFlag.US ||| PTFlag.RW) := by
  rw [BitVec.or_comm]
  exact tableFlags_RW_US

theorem requestpage_cases {pml4 : BitVec 64} {s s' : PageFrameAllocator}
    (h : requestpage pml4 s = some (ret, s')) : ∃ address s₁, s.requestPage = (some address, s₁) ∧
    ret = BitVec.ofNat 64 address ∧ mapUser pml4 ret s₁ = some s' := by
  unfold requestpage at h
  rcases hRequest : s.requestPage with ⟨_ | address, s₁⟩
  · rw [hRequest] at h
    cases h
  rw [hRequest] at h
  rcases map_eq_some_iff.mp h with ⟨s₂, hMap, hEq⟩
  cases hEq
  exact ⟨address, s₁, rfl, rfl, hMap⟩

theorem requestpages_cases {pml4 pages : BitVec 64} {s s' : PageFrameAllocator}
    (h : requestpages fuel pml4 s pages = some (ret, s')) : ∃ address s₁,
    s.requestPages fuel pages.toNat = some (address, s₁) ∧ ret = BitVec.ofNat 64 address ∧
    loopUp 4096 (ret + pages * 4096) (mapUser pml4) fuel ret s₁ = some s' := by
  unfold requestpages at h
  rcases hRequest : s.requestPages fuel pages.toNat with _ | ⟨address, s₁⟩
  · rw [hRequest] at h
    cases h
  rw [hRequest] at h
  rcases map_eq_some_iff.mp h with ⟨s₂, hMap, hEq⟩
  cases hEq
  exact ⟨address, s₁, rfl, rfl, hMap⟩

end Syscalls

------ The Machine

inductive PageSyscall where
| requestpage
| requestpages (pages : BitVec 64)
| freepage (page : BitVec 64)
| freepages (page pages : BitVec 64)
deriving DecidableEq, Repr

structure UserPages where
  allocator : PageFrameAllocator
  handedOut : Set Nat

def grantedPages (ret : BitVec 64) (pageCount : Nat) : Set Nat :=
  { q | ret ≠ 0 ∧ PageRange.Covers ⟨ret.toNat, pageCount⟩ q }

def PageSyscall.names : PageSyscall → Set Nat
| .requestpage => ∅
| .requestpages _ => ∅
| .freepage page => {page.toNat / 4096}
| .freepages page pages =>
  { q | Touches page.toNat pages.toNat q }

def SyscallStep (pml4 : BitVec 64) (u : UserPages) : PageSyscall → UserPages → Prop
| .requestpage, u' =>
  ∃ ret, Syscalls.requestpage pml4 u.allocator = some (ret, u'.allocator) ∧
      u'.handedOut = u.handedOut ∪ grantedPages ret 1
| .requestpages pages, u' =>
  ∃ fuel ret, Syscalls.requestpages fuel pml4 u.allocator pages = some (ret, u'.allocator) ∧
      u'.handedOut = u.handedOut ∪ grantedPages ret pages.toNat
| .freepage page, u' =>
  Syscalls.freepage pml4 u.allocator page = some u'.allocator ∧ u'.handedOut =
      u.handedOut \ (PageSyscall.freepage page).names
| .freepages page pages, u' =>
  ∃ fuel, Syscalls.freepages fuel pml4 u.allocator page pages = some u'.allocator ∧ u'.handedOut =
        u.handedOut \ (PageSyscall.freepages page pages).names

def OwnStep (pml4 : BitVec 64) (u : UserPages) (e : PageSyscall) (u' : UserPages) : Prop :=
  SyscallStep pml4 u e u' ∧ ∀ q ∈ e.names, u.allocator.used q = true → q ∈ u.handedOut

variable {pml4 : BitVec 64} {held given : Set Nat} {s s' : PageFrameAllocator}

structure HeldApart (frames : Nat → BitVec 64) (pml4 : BitVec 64) (n : Nat) (held : Set Nat)
    (s : PageFrameAllocator) : Prop where
  table : ∀ t, TableOwned frames pml4 n t → tablePage t ∉ held
  used : ∀ q ∈ held, q < s.bits → s.used q = true
  apart : ∀ q ∈ held, q < s.bits → PageApart s.pageBitmap q

def Separated (pml4 : BitVec 64) (held : Set Nat) (s : PageFrameAllocator) : Prop :=
  ∃ frames n, Backed frames pml4 s ⟨s.memory, n⟩ ∧ Mapped frames pml4 ⟨s.memory, n⟩ ∧
        HeldApart frames pml4 n held s

theorem Separated.kernelMapped (hSeparated : Separated pml4 held s) : KernelMapped pml4 s := by
  rcases hSeparated with ⟨frames, n, hBacked, hMapped, _⟩
  exact ⟨frames, n, hBacked, hMapped⟩

theorem KernelMapped.separated (hMapped : KernelMapped pml4 s) : Separated pml4 ∅ s := by
  rcases hMapped with ⟨frames, n, hBacked, hMapped⟩
  exact ⟨frames, n, hBacked, hMapped, fun _ _ hq => hq, fun _ hq => hq.elim, fun _ hq => hq.elim⟩

structure HeldKept (held : Set Nat) (s s' : PageFrameAllocator) : Prop where
  bits : s'.bits = s.bits
  used : ∀ q, s.used q = true → s'.used q = true
  contents : ∀ z, z / 4096 ∈ held → z / 4096 < s.bits → s'.memory z = s.memory z

theorem HeldKept.refl (held : Set Nat) (s : PageFrameAllocator) : HeldKept held s s :=
  ⟨rfl, fun _ hq => hq, fun _ _ _ => rfl⟩

theorem HeldKept.trans {s'' : PageFrameAllocator} (h : HeldKept held s s')
    (h' : HeldKept held s' s'') : HeldKept held s s'' where
  bits := h'.bits.trans h.bits
  used := fun q hq => h'.used q (h.used q hq)
  contents := by
    intro z hz hLt
    rw [h'.contents z hz (by rw [h.bits]; exact hLt)]
    exact h.contents z hz hLt

theorem Separated.mapMemory {virtualAddress physicalAddress flags : BitVec 64}
    (hSeparated : Separated pml4 held s) (hFlags : TableFlags flags)
    (h : mapMemory pml4 s virtualAddress physicalAddress flags = some s') :
    Separated pml4 held s' ∧ HeldKept held s s' := by
  rcases hSeparated with ⟨frames, n, hBacked, hMapped, hHeld⟩
  rcases hBacked.mapMemory hMapped hFlags h with
    ⟨frames', a', _, _, _, hStep, _, hBacked', hMapped'⟩
  rcases hBacked'.self hMapped' with ⟨hSelf, hTree⟩
  have hTakes := hStep.takes
  have hTable : ∀ t, TableOwned frames' pml4 a'.requested t → tablePage t ∉ held := by
    intro t hOwned hq
    -- a page that was handed out was not clear
    rcases hStep.grown t hOwned with hOld | ⟨_, hLt, hClear⟩
    · exact hHeld.table t hOld hq
    · rw [hHeld.used _ hq hLt] at hClear
      cases hClear
  refine ⟨⟨frames', a'.requested, hSelf, hTree, hTable, ?_, ?_⟩, hTakes.bits, hTakes.used, ?_⟩
  · intro q hq hLt
    rw [hTakes.bits] at hLt
    exact hTakes.used q (hHeld.used q hq hLt)
  · intro q hq hLt
    rw [hTakes.bits] at hLt
    rw [hTakes.pageBitmap]
    exact hHeld.apart q hq hLt
  · intro z hz hLt
    apply hStep.outside z (hHeld.apart _ hz hLt z rfl)
    intro t hOwned hPage
    exact hTable t hOwned (hPage ▸ hz)

theorem Separated.hand (hSeparated : Separated pml4 held s) (hOnly : OnlyBits s s')
    (hTaken : ∀ q, s.used q = true → s'.used q = true) (hClear : ∀ q ∈ given, s.used q = false)
    (hLocked : ∀ q ∈ given, q < s.bits → s'.used q = true) : Separated pml4 (held ∪ given) s' := by
  rcases hSeparated with ⟨frames, n, hBacked, hMapped, hHeld⟩
  rcases (hBacked.take hOnly hTaken).self hMapped with ⟨hSelf, hTree⟩
  refine ⟨frames, n, hSelf, hTree, ?_⟩
  constructor
  · rintro t hOwned (hOld | hNew)
    · exact hHeld.table t hOwned hOld
    have hUsed := (hBacked.table t hOwned).1
    rw [hClear _ hNew] at hUsed
    cases hUsed
  · rintro q (hOld | hNew) hLt
    · rw [hOnly.bits] at hLt
      exact hTaken q (hHeld.used q hOld hLt)
    · rw [hOnly.bits] at hLt
      exact hLocked q hNew hLt
  · rintro q (hOld | hNew) hLt
    · rw [hOnly.bits] at hLt
      rw [hOnly.pageBitmap]
      exact hHeld.apart q hOld hLt
    rw [hOnly.bits] at hLt
    rw [hOnly.pageBitmap]
    exact hBacked.spare q hLt (hClear q hNew)

variable {n : Nat}

theorem HeldApart.release {frames : Nat → BitVec 64} (hHeld : HeldApart frames pml4 n held s)
    (hBacked : Backed frames pml4 s ⟨s.memory, n⟩) (hOnly : OnlyBits s s')
    (hKept : ∀ q, s.used q = true → q ∉ held → s'.used q = true) :
    Backed frames pml4 s' ⟨s.memory, n⟩ := by
  refine hBacked.release hOnly ?_
  intro q hq
  by_cases hOld : q ∈ held
  · right
    refine ⟨?_, hHeld.apart q hOld⟩
    rintro t hOwned rfl
    exact hHeld.table t hOwned hOld
  · exact .inl (hKept q hq hOld)

theorem Separated.giveBack (given : Set Nat) (hSeparated : Separated pml4 held s)
    (hOnly : OnlyBits s s') (hUsed : ∀ q, s'.used q = true ↔ s.used q = true ∧ q ∉ given)
    (hOwn : ∀ q ∈ given, s.used q = true → q ∈ held) : Separated pml4 (held \ given) s' := by
  rcases hSeparated with ⟨frames, n, hBacked, hMapped, hHeld⟩
  have hReleased := hHeld.release hBacked hOnly (fun q hq hNot =>
      (hUsed q).mpr ⟨hq, fun hGiven => hNot (hOwn q hGiven hq)⟩)
  rcases hReleased.self hMapped with ⟨hSelf, hTree⟩
  refine ⟨frames, n, hSelf, hTree, ?_⟩
  constructor
  · intro t hOwned hq
    exact hHeld.table t hOwned hq.1
  · rintro q ⟨hOld, hNot⟩ hLt
    rw [hOnly.bits] at hLt
    exact (hUsed q).mpr ⟨hHeld.used q hOld hLt, hNot⟩
  · rintro q ⟨hOld, _⟩ hLt
    rw [hOnly.bits] at hLt
    rw [hOnly.pageBitmap]
    exact hHeld.apart q hOld hLt

theorem Separated.write {m : Memory} (hSeparated : Separated pml4 held s)
    (hWrite : ∀ x, m x ≠ s.memory x → x / 4096 < s.bits ∧
    (x / 4096 ∈ held ∨ s.used (x / 4096) = false)) : Separated pml4 held { s with memory := m } ∧
    (∀ q, used { s with memory := m } q = s.used q) ∧
    ∀ other, lookup m pml4 other = lookup s.memory pml4 other := by
  rcases hSeparated with ⟨frames, n, hBacked, hMapped, hHeld⟩
  have hTable : ∀ t, TableOwned frames pml4 n t →
    ∀ x, x / 4096 = tablePage t → m x = s.memory x := by
    intro t hOwned x hx
    by_contra hChanged
    rcases (hWrite x hChanged).2 with hOld | hClear
    · exact hHeld.table t hOwned (hx ▸ hOld)
    · rw [hx, (hBacked.table t hOwned).1] at hClear
      cases hClear
  have hOwns : ∀ x, s.pageBitmap.Owns x → m x = s.memory x := by
    intro x hx
    by_contra hChanged
    rcases hWrite x hChanged with ⟨hLt, hOld | hClear⟩
    · exact hHeld.apart _ hOld hLt x rfl hx
    · exact hBacked.spare _ hLt hClear x rfl hx
  have hUsed : ∀ q, used { s with memory := m } q = s.used q :=
    used_setMemory hOwns
  rcases hBacked.alike hMapped hUsed rfl hTable with ⟨hSelf, hTree, hFollow⟩
  refine ⟨⟨frames, n, hSelf, hTree, hHeld.table, ?_, hHeld.apart⟩, hUsed, ?_⟩
  · intro q hq hLt
    rw [hUsed]
    exact hHeld.used q hq hLt
  · intro other
    exact hFollow _ (by simp)

theorem Separated.loop {body : BitVec 64 → PageFrameAllocator → Option PageFrameAllocator}
    {start stop : BitVec 64}
    (hBody : ∀ t s s', Separated pml4 held s → body t s = some s' →
    Separated pml4 held s' ∧ HeldKept held s s')
    (hSeparated : Separated pml4 held s) (h : loopUp 4096 stop body fuel start s = some s') :
    Separated pml4 held s' ∧ HeldKept held s s' := by
  rcases loopUp_invariant (P := fun _ x => Separated pml4 held x ∧ HeldKept held s x)
      (fun t x x' hx _ hRound => by
        rcases hBody t x x' hx.1 hRound with ⟨hNext, hKept⟩
        exact ⟨hNext, hx.2.trans hKept⟩)
      ⟨hSeparated, HeldKept.refl held s⟩ h with
    ⟨_, _, hLast⟩
  exact hLast

variable {i : BitVec 64}

theorem Separated.mapUser (hSeparated : Separated pml4 held s)
    (h : Syscalls.mapUser pml4 i s = some s') : Separated pml4 held s' ∧ HeldKept held s s' :=
  hSeparated.mapMemory Syscalls.tableFlags_US_RW h

theorem Separated.mapReleased (hSeparated : Separated pml4 held s)
    (h : Syscalls.mapReleased pml4 i s = some s') : Separated pml4 held s' ∧ HeldKept held s s' :=
  hSeparated.mapMemory tableFlags_RW h

variable {address : Nat}

theorem requestPage_grants (hBits : s.bits ≤ 2 ^ 40) (h : s.requestPage = (some address, s')) :
    OnlyBits s s' ∧
    (∀ q, s.used q = true → s'.used q = true) ∧ ∀ q ∈ grantedPages (BitVec.ofNat 64 address) 1,
    s.used q = false ∧ s'.used q = true := by
  rcases requestPage_spec (by omega) h with ⟨index, hIndex, hClear, rfl, hUsed⟩
  refine ⟨onlyBits_requestPage h, fun q hq => (hUsed q).mpr (.inl hq), ?_⟩
  rintro q ⟨_, hCovers⟩
  have hNat := toNat_pageAddress index (by omega)
  have hq : q = index := by
    unfold PageRange.Covers at hCovers
    dsimp only at hCovers
    omega
  subst hq
  exact ⟨hClear, (hUsed q).mpr (.inr rfl)⟩

theorem requestPages_grants {pageCount : Nat} (hBits : s.bits ≤ 2 ^ 40)
    (h : s.requestPages fuel pageCount = some (address, s')) : OnlyBits s s' ∧
    (∀ q, s.used q = true → s'.used q = true) ∧
    ∀ q ∈ grantedPages (BitVec.ofNat 64 address) pageCount, s.used q = false ∧
    (q < s.bits → s'.used q = true) := by
  refine ⟨onlyBits_requestPages h, ?_⟩
  rcases requestPages_cases h with ⟨start, index, _, hFinds, hAddress, hLock⟩ | ⟨_, rfl, rfl⟩
  · rcases hFinds.2 with ⟨hIndex, _, hFree⟩
    have hPage : pageAddress index = index * 4096 := by
      unfold pageAddress u64
      omega
    have hUsed : ∀ q, s'.used q = true ↔ s.used q = true ∨
      Touches (index * 4096) pageCount q ∧ q ≤ s.bits := by
      intro q
      rw [hLock, hPage]
      exact used_forPages_take .used _ _ _ q
    refine ⟨fun q hq => (hUsed q).mpr (.inl hq), ?_⟩
    rintro q ⟨_, hCovers⟩
    have hNat := toNat_pageAddress index (by omega)
    have hRange : index ≤ q ∧ q < index + pageCount := by
      unfold PageRange.Covers at hCovers
      dsimp only at hCovers
      rw [hAddress, hPage, hNat] at hCovers
      omega
    constructor
    · by_cases hq : s.bits < q
      · exact used_of_bits_lt hq
      have hAt := blocked_eq_false_iff.mp hFree (q - index) (by omega)
      have hSum : u64 (index + (q - index)) = q := by
        unfold u64
        omega
      rwa [hSum] at hAt
    intro hq
    refine (hUsed q).mpr (.inr ⟨⟨q - index, ?_, ?_⟩, ?_⟩)
    · omega
    · unfold u64
      omega
    · omega
  refine ⟨fun q hq => hq, ?_⟩
  rintro q ⟨hNonnull, _⟩
  exact absurd rfl hNonnull

variable {s₁ : PageFrameAllocator} {p : Nat}

theorem HeldKept.others_granted (hKept : HeldKept (held ∪ given) s₁ s')
    (hTaken : ∀ q, s.used q = true → s₁.used q = true) (hClear : ∀ q ∈ given, s.used q = false)
    (hp : s.used p = true) (hNot : p ∉ held) : s'.used p = true ∧ p ∉ held ∪ given := by
  refine ⟨hKept.used p (hTaken p hp), ?_⟩
  rintro (hOld | hNew)
  · exact hNot hOld
  · rw [hClear p hNew] at hp
    cases hp

theorem HeldKept.others_released (hKept : HeldKept (held \ given) s₁ s')
    (hUsed : ∀ q, s₁.used q = true ↔ s.used q = true ∧ q ∉ given)
    (hOwn : ∀ q ∈ given, s.used q = true → q ∈ held) (hp : s.used p = true) (hNot : p ∉ held) :
    s'.used p = true ∧ p ∉ held \ given := by
  have hStays : p ∉ given := fun hq => hNot (hOwn p hq hp)
  exact ⟨hKept.used p ((hUsed p).mpr ⟨hp, hStays⟩), fun hq => hNot hq.1⟩

variable {u : UserPages}

theorem Separated.step {u' : UserPages} {e : PageSyscall}
    (hSeparated : Separated pml4 u.handedOut u.allocator) (hStep : OwnStep pml4 u e u') :
    Separated pml4 u'.handedOut u'.allocator ∧ ∀ p, u.allocator.used p = true → p ∉ u.handedOut →
    u'.allocator.used p = true ∧ p ∉ u'.handedOut := by
  rcases hStep with ⟨hStep, hOwn⟩
  have hBits := hSeparated.kernelMapped.bits_le
  cases e with
  | requestpage =>
    rcases hStep with ⟨ret, hCall, hHanded⟩
    rcases Syscalls.requestpage_cases hCall with ⟨address, s₁, hRequest, rfl, hMap⟩
    rcases requestPage_grants hBits hRequest with ⟨hOnly, hTaken, hGiven⟩
    rcases (hSeparated.hand hOnly hTaken (fun q hq => (hGiven q hq).1)
        (fun q hq _ => (hGiven q hq).2)).mapUser hMap with ⟨hNext, hKept⟩
    rw [hHanded]
    exact ⟨hNext, fun p hp hNot => hKept.others_granted
      hTaken (fun q hq => (hGiven q hq).1) hp hNot⟩
  | requestpages pages =>
    rcases hStep with ⟨fuel, ret, hCall, hHanded⟩
    rcases Syscalls.requestpages_cases hCall with ⟨address, s₁, hRequest, rfl, hLoop⟩
    rcases requestPages_grants hBits hRequest with ⟨hOnly, hTaken, hGiven⟩
    rcases (hSeparated.hand hOnly hTaken (fun q hq => (hGiven q hq).1)
        (fun q hq => (hGiven q hq).2)).loop (fun _ _ _ hx => hx.mapUser) hLoop with ⟨hNext, hKept⟩
    rw [hHanded]
    exact ⟨hNext, fun p hp hNot => hKept.others_granted
      hTaken (fun q hq => (hGiven q hq).1) hp hNot⟩
  | freepage page =>
    rcases hStep with ⟨hCall, hHanded⟩
    have hUsed := used_freePage u.allocator page.toNat
    rcases (hSeparated.giveBack _ (onlyBits_freePage u.allocator page.toNat)
      hUsed hOwn).mapReleased hCall with ⟨hNext, hKept⟩
    rw [hHanded]
    exact ⟨hNext, fun p hp hNot => hKept.others_released hUsed hOwn hp hNot⟩
  | freepages page pages =>
    rcases hStep with ⟨fuel, hCall, hHanded⟩
    have hUsed := used_freePages u.allocator page.toNat pages.toNat
    rcases (hSeparated.giveBack _ (onlyBits_forPages onlyBits_freePage u.allocator
          page.toNat pages.toNat) hUsed hOwn).loop (fun _ _ _ hx => hx.mapReleased) hCall with
      ⟨hNext, hKept⟩
    rw [hHanded]
    exact ⟨hNext, fun p hp hNot => hKept.others_released hUsed hOwn hp hNot⟩

theorem separated_run {events : List PageSyscall} (hMapped : KernelMapped pml4 s)
    (hRun : Run (OwnStep pml4) ⟨s, ∅⟩ events u) : Separated pml4 u.handedOut u.allocator :=
  hRun.invariant (P := fun u => Separated pml4 u.handedOut u.allocator) hMapped.separated
    (fun _ _ _ hu hStep => (hu.step hStep).1)

theorem kernel_pages_kept {before after : List PageSyscall} {u u' : UserPages}
    (hMapped : KernelMapped pml4 s) (hRun : Run (OwnStep pml4) ⟨s, ∅⟩ before u)
    (hMore : Run (OwnStep pml4) u after u') (p : Nat) (hUsed : u.allocator.used p = true)
    (hNot : p ∉ u.handedOut) : u'.allocator.used p = true := by
  have hKept := hMore.invariant (P := fun u => Separated pml4 u.handedOut u.allocator ∧
          u.allocator.used p = true ∧ p ∉ u.handedOut) ⟨separated_run hMapped hRun, hUsed, hNot⟩
      (fun x _ _ hx hStep => by
        rcases hx with ⟨hSeparated, hp, hOut⟩
        rcases hSeparated.step hStep with ⟨hNext, hPages⟩
        exact ⟨hNext, hPages p hp hOut⟩)
  exact hKept.2.1

------ Runs of the Small Machine

theorem Roomy.requestpage (hRoomy : Roomy pml4 (n + 4) s) (hZero : s.used 0 = true) :
    ∃ address s₁ s', s.requestPage = (some address, s₁) ∧
    Syscalls.mapUser pml4 (BitVec.ofNat 64 address) s₁ = some s' ∧ Syscalls.requestpage pml4 s =
    some (BitVec.ofNat 64 address, s') ∧ BitVec.ofNat 64 address ≠ 0 ∧ Roomy pml4 n s' := by
  have hRoom := hRoomy.room
  have hBits := hRoomy.mapped.bits_le
  rcases requestPage_returns hRoomy.hinted (by omega) with ⟨address, s₁, hRequest⟩
  have hTakes := takes_requestPage (by omega) hRequest
  have hLeft := hTakes.room
  have hRoomy₁ : Roomy pml4 (n + 3) s₁ := ⟨(hRoomy.mapped.take (onlyBits_requestPage hRequest)
    hTakes.used).1, hTakes.hinted hRoomy.hinted, by omega⟩
  rcases hRoomy₁.mapMemory Syscalls.tableFlags_US_RW
    (BitVec.ofNat 64 address) (BitVec.ofNat 64 address) with ⟨s', hMap, hRoomy'⟩
  refine ⟨address, s₁, s', hRequest, hMap, ?_, ?_, hRoomy'⟩
  · rw [Syscalls.requestpage, if_neg (by simp [Syscalls.canSyscall]), hRequest]
    exact map_eq_some_iff.mpr ⟨s', hMap, rfl⟩
  rcases requestPage_spec (by omega) hRequest with ⟨index, hIndex, hClear, rfl, _⟩
  intro hNull
  have hNat := toNat_pageAddress index (by omega)
  rw [hNull] at hNat
  have hFirst : index = 0 := by
    have hToNat : (0 : BitVec 64).toNat = 0 := rfl
    omega
  rw [hFirst, hZero] at hClear
  cases hClear

variable {page : BitVec 64}

theorem KernelMapped.freepage {frame : BitVec 64} (hMapped : KernelMapped pml4 s)
    (hLookup : lookup s.memory pml4 (.of page) = some frame) : ∃ s', Syscalls.mapReleased pml4 page
    (s.freePage page.toNat) = some s' ∧ Syscalls.freepage pml4 s page = some s' ∧
    ∀ q, s'.used q = (s.freePage page.toNat).used q := by
  rcases hMapped.remap (onlyBits_freePage s page.toNat) hLookup page PTFlag.RW with
    ⟨s', hCall, hUsed⟩
  refine ⟨s', hCall, ?_, hUsed⟩
  rw [Syscalls.freepage, if_neg (by simp [Syscalls.canSyscall])]
  exact hCall

theorem kernel_page_released : ∃ s s', initKernelPML 513 smallSymbols smallEarly
    (boot (fun _ => 0) smallEarly.mem) = some (0x102000, s) ∧ s.used 258 = true ∧
    Run (SyscallStep 0x102000) ⟨s, ∅⟩ [.freepage 0x102000] ⟨s', ∅⟩ ∧ s'.used 258 = false := by
  rcases initKernelPML_small with ⟨pml4, s, hInit, hRoomy⟩
  have hRoot : pml4 = 0x102000 := by
    rcases initKernelPML_cases hInit with ⟨s₀, _, _, _, _, _, hCreate, _⟩
    rcases createRoot_small (fun _ => 0) with ⟨s₁, hSmall, _⟩
    rw [hCreate] at hSmall
    exact congrArg Prod.fst (some.inj hSmall)
  subst hRoot
  rcases leadsTo_initKernelPML (v := 0x102000) (by decide)
    (by omega) (ready_boot _ (by decide)) (by decide) higherHalf_small hInit with
    ⟨entry, hEntry, hLeads⟩
  have hLookup : lookup s.memory 0x102000 (.of 0x102000) = some 0x102000 :=
    hLeads.lookup.trans (hEntry.mpr ⟨by decide, by decide⟩)
  rcases hRoomy.mapped.freepage hLookup with ⟨s', _, hCall, hSame⟩
  refine ⟨s, s', hInit, hRoomy.mapped.used_root, ?_, ?_⟩
  · exact Run.nil.snoc ⟨hCall, (Set.empty_sdiff _).symm⟩
  rw [hSame, ← Bool.not_eq_true, used_freePage]
  rintro ⟨_, hOther⟩
  exact hOther (by decide)

theorem requested_small : ∃ s page s₁ s₂, createRoot (boot (fun _ => 0) smallEarly.mem) =
    some (0x102000, s) ∧ Syscalls.requestpage 0x102000 s = some (page, s₁) ∧
    Syscalls.freepage 0x102000 s₁ page = some s₂ ∧ page ≠ 0 := by
  rcases createRoot_small (fun _ => 0) with ⟨s, hCreate, hRoomy, hZero⟩
  rcases Roomy.requestpage (n := 32505) hRoomy hZero with
    ⟨address, s₀, s₁, hRequest, hMap, hCall, hNonnull, _⟩
  have hMapped₀ := (hRoomy.mapped.take (onlyBits_requestPage hRequest)
    (requestPage_grants hRoomy.mapped.bits_le hRequest).2.1).1
  rcases hMapped₀.mapMemory Syscalls.tableFlags_US_RW hMap with ⟨hMapped₁, _, hLookup⟩
  have hSelf := hLookup (.of (BitVec.ofNat 64 address))
  rw [if_pos rfl] at hSelf
  rcases hMapped₁.freepage hSelf with ⟨s₂, _, hFree, _⟩
  exact ⟨s, _, s₁, s₂, hCreate, hCall, hFree, hNonnull⟩

theorem kernel_pages_kept_small : ∃ s page u, createRoot (boot (fun _ => 0) smallEarly.mem) =
    some (0x102000, s) ∧ Run (OwnStep 0x102000) ⟨s, ∅⟩ [.requestpage, .freepage page] u ∧
    u.allocator.used 258 = true := by
  rcases requested_small with ⟨s, page, s₁, s₂, hCreate, hCall, hFree, hNonnull⟩
  have hMapped : KernelMapped 0x102000 s := (kernelMapped_createRoot (ready_boot _ (by decide))
    hCreate).1
  have hFirst : OwnStep 0x102000 ⟨s, ∅⟩ .requestpage ⟨s₁, ∅ ∪ grantedPages page 1⟩ :=
    ⟨⟨_, hCall, rfl⟩, fun _ hq => hq.elim⟩
  have hSecond : OwnStep 0x102000 ⟨s₁, ∅ ∪ grantedPages page 1⟩ (.freepage page)
    ⟨s₂, (∅ ∪ grantedPages page 1) \ (PageSyscall.freepage page).names⟩ := by
    refine ⟨⟨hFree, rfl⟩, ?_⟩
    rintro q rfl _
    exact .inr ⟨hNonnull, Nat.le_refl _, Nat.lt_succ_self _⟩
  have hRun := (Run.nil.snoc hFirst).snoc hSecond
  exact ⟨s, page, _, hCreate, hRun, kernel_pages_kept hMapped Run.nil hRun 258
      hMapped.used_root (fun hq => hq)⟩

variable {calls : List MapCall}

theorem FlagsTold.requestpage (hTold : FlagsTold pml4 calls s)
    (h : Syscalls.requestpage pml4 s = some (ret, s')) :
    FlagsTold pml4 (calls ++ [⟨ret, ret, PTFlag.US ||| PTFlag.RW⟩]) s' := by
  rcases Syscalls.requestpage_cases h with ⟨address, s₁, hRequest, _, hMap⟩
  rcases requestPage_grants hTold.mapped.bits_le hRequest with ⟨hOnly, hTaken, _⟩
  exact (hTold.take hOnly hTaken).snoc Syscalls.tableFlags_US_RW hMap

theorem FlagsTold.freepage (hTold : FlagsTold pml4 calls s) (hSeparated : Separated pml4 held s)
    (hPage : page.toNat / 4096 ∈ held) (h : Syscalls.freepage pml4 s page = some s') :
    FlagsTold pml4 (calls ++ [⟨page, page, PTFlag.RW⟩]) s' := by
  rcases hSeparated with ⟨frames, n, hBacked, hMapped, hHeld⟩
  have hReleased := hHeld.release hBacked (onlyBits_freePage s page.toNat) (fun q hq hNot =>
        (used_freePage s page.toNat q).mpr ⟨hq, fun hEq => hNot (hEq ▸ hPage)⟩)
  exact (hTold.backed hReleased hMapped).snoc tableFlags_RW h

theorem freed_page_accessible : ∃ s page s₁ s₂, createRoot (boot (fun _ => 0) smallEarly.mem) =
    some (0x102000, s) ∧ Syscalls.requestpage 0x102000 s = some (page, s₁) ∧
    Syscalls.freepage 0x102000 s₁ page = some s₂ ∧
    userCanAccess s₂.memory 0x102000 page = true ∧ userCanWrite s₂.memory 0x102000 page = true := by
  rcases requested_small with ⟨s, page, s₁, s₂, hCreate, hCall, hFree, hNonnull⟩
  have hHistory : MapHistory 0x102000 [] s := .root (by decide) hCreate
  have hTold := hHistory.flagsTold
  have hStep : OwnStep 0x102000 ⟨s, ∅⟩ .requestpage ⟨s₁, ∅ ∪ grantedPages page 1⟩ :=
    ⟨⟨_, hCall, rfl⟩, fun _ hq => hq.elim⟩
  have hSeparated := hTold.mapped.separated.step hStep
  have hTold₂ := (hTold.requestpage hCall).freepage hSeparated.1
    (.inr ⟨hNonnull, Nat.le_refl _, Nat.lt_succ_self _⟩) hFree
  have hUser : effective PTFlag.US s₂.memory 0x102000 page = true := by
    rw [US_eq_twoPow]
    exact hTold₂.effective_first ⟨by omega, by omega⟩
      (show (PTFlag.US ||| PTFlag.RW).getLsbD 2 = true by
        decide)
  have hWrite : effective PTFlag.RW s₂.memory 0x102000 page = true := by
    rw [RW_eq_twoPow]
    exact hTold₂.effective_first ⟨by omega, by omega⟩
      (show (PTFlag.US ||| PTFlag.RW).getLsbD 1 = true by
        decide)
  refine ⟨s, page, s₁, s₂, hCreate, hCall, hFree, hUser, ?_⟩
  rw [userCanWrite, hUser, hWrite]
  rfl

end Fennix
