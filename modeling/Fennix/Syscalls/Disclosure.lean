import Fennix.Syscalls.Twins

/-
  What a page that is handed out again discloses.
-/

------ Reading through the Tables

namespace Fennix

open PageDirectoryEntry PageFrameAllocator KernelTables Option BitVec PageMapIndexer Syscalls

def Reads (m : Memory) (pml4 v frame : BitVec 64) : Prop :=
  userCanAccess m pml4 v = true ∧ lookup m pml4 (.of v) = some frame

def OpenEntry (m : Memory) (pml4 : BitVec 64) (stem : List (Fin 512)) (i : Fin 512) : Prop :=
  flagAt m pml4 0 stem i = true → flagAt m pml4 2 stem i = true

def OpenWay (m : Memory) (pml4 v : BitVec 64) : Prop :=
  let indexer := of v
  OpenEntry m pml4 [] indexer.pdp ∧ OpenEntry m pml4 [indexer.pdp] indexer.pd ∧
      OpenEntry m pml4 [indexer.pdp, indexer.pd] indexer.pt

section OneCall

variable {m m' : Memory} {pml4 t v frame : BitVec 64} {x x' : PageFrameAllocator} {k : Nat}
variable {stem q : List (Fin 512)} {i j : Fin 512}

theorem openWay_iff {a b c d : Fin 512} (hIndexer : of v = ⟨a, b, c, d⟩) :
    OpenWay m pml4 v ↔ OpenEntry m pml4 [] a ∧ OpenEntry m pml4 [a] b ∧
    OpenEntry m pml4 [a, b] c := by
  unfold OpenWay
  rw [hIndexer]

theorem reads_congr (hFlags : ∀ k q j, q.length ≤ 3 → flagAt m' pml4 k q j = flagAt m pml4 k q j)
    (hLookup : lookup m' pml4 (.of v) = lookup m pml4 (.of v)) :
    (OpenWay m' pml4 v ↔ OpenWay m pml4 v) ∧ (Reads m' pml4 v frame ↔ Reads m pml4 v frame) := by
  constructor
  · unfold OpenWay OpenEntry
    dsimp only
    rw [hFlags 0 _ _ (by simp), hFlags 2 _ _ (by simp), hFlags 0 _ _ (by simp),
      hFlags 2 _ _ (by simp), hFlags 0 _ _ (by simp), hFlags 2 _ _ (by simp)]
  · unfold Reads userCanAccess
    rw [hLookup, US_eq_twoPow, effective_congr (by omega) hFlags]

def Stamps (m : Memory) (pml4 t : BitVec 64) (q : List (Fin 512)) (j : Fin 512) : Prop :=
  (of t).path.take (q.length + 1) = q ++ [j] ∧
    (q.length = 3 ∨ flagAt m pml4 0 q j = false)

variable (hMapped : KernelMapped pml4 x) (h : mapUser pml4 t x = some x')

include hMapped h

private theorem flagAt_mapUser (hk : k = 0 ∨ k = 2) (hq : q.length ≤ 3) (j : Fin 512) :
    flagAt x'.memory pml4 k q j = true ↔ Stamps x.memory pml4 t q j ∨
    flagAt x.memory pml4 k q j = true := by
  have hBit : stamped (PTFlag.US ||| PTFlag.RW) k (flagAt x.memory pml4 k q j) = true := by
    rw [stamped_eq_or, Bool.or_eq_true]
    right
    rcases hk with rfl | rfl
    · decide
    · decide
  rw [hMapped.flagAt_mapMemory tableFlags_US_RW h (by omega) hq j]
  unfold Stamps
  split
  · rename_i hStamps
    exact ⟨fun _ => Or.inl hStamps, fun _ => hBit⟩
  · rename_i hNot
    exact ⟨Or.inr, fun hEither => hEither.resolve_left hNot⟩

private theorem flagSet_mapUser (hq : q.length ≤ 3) (j : Fin 512) :
    FlagSet x'.memory pml4 2 q j ↔ Stamps x.memory pml4 t q j ∨ FlagSet x.memory pml4 2 q j := by
  unfold FlagSet
  rw [flagAt_mapUser hMapped h (.inl rfl) hq j, flagAt_mapUser hMapped h (.inr rfl) hq j,
    or_and_left]

private theorem openEntry_mapUser (hq : q.length < 3) (j : Fin 512) :
    OpenEntry x'.memory pml4 q j ↔ OpenEntry x.memory pml4 q j := by
  unfold OpenEntry
  rw [flagAt_mapUser hMapped h (.inl rfl) (by omega) j,
    flagAt_mapUser hMapped h (.inr rfl) (by omega) j]
  constructor
  · intro hOpen hPresent
    rcases hOpen (.inr hPresent) with hStamps | hUser
    · rcases hStamps.2 with hLeaf | hAbsent
      · omega
      · rw [hPresent] at hAbsent
        cases hAbsent
    · exact hUser
  rintro hOpen (hStamps | hPresent)
  · exact .inl hStamps
  · exact .inr (hOpen hPresent)

private theorem flagSet_own (hq : q.length < 3)
    (hPath : (of t).path.take (q.length + 1) = q ++ [j]) :
    FlagSet x'.memory pml4 2 q j ↔ OpenEntry x.memory pml4 q j := by
  rw [flagSet_mapUser hMapped h (by omega) j]
  unfold Stamps FlagSet OpenEntry
  cases flagAt x.memory pml4 0 q j with
  | false => simp [hPath]
  | true =>
    have hShort : q.length ≠ 3 := by omega
    simp [hShort]

theorem userCanAccess_mapUser (v : BitVec 64) :
    (of v = .of t → (userCanAccess x'.memory pml4 v = true ↔ OpenWay x.memory pml4 v)) ∧
    (of v ≠ .of t → (userCanAccess x'.memory pml4 v = true ↔
    userCanAccess x.memory pml4 v = true)) := by
  constructor
  · intro hSame
    rcases hIndexer : of v with ⟨a, b, c, d⟩
    rw [hIndexer] at hSame
    rw [userCanAccess_iff hIndexer, openWay_iff hIndexer]
    have hLeaf : FlagSet x'.memory pml4 2 [a, b, c] d := by
      rw [flagSet_mapUser hMapped h (by simp) d]
      left
      rw [Stamps, ← hSame]
      exact ⟨rfl, Or.inl rfl⟩
    rw [flagSet_own hMapped h (by simp) (by rw [← hSame]; rfl),
      flagSet_own hMapped h (by simp) (by rw [← hSame]; rfl),
      flagSet_own hMapped h (by simp) (by rw [← hSame]; rfl)]
    simp only [hLeaf, and_true]
  intro hOther
  rw [Ne, of_eq_iff] at hOther
  rw [userCanAccess, userCanAccess, US_eq_twoPow,
    hMapped.effective_mapMemory_other tableFlags_US_RW h (by omega) hOther]

theorem reads_mapUser (v frame : BitVec 64) : (OpenWay x'.memory pml4 v ↔ OpenWay x.memory pml4 v) ∧
    (of v = .of t → (Reads x'.memory pml4 v frame ↔
    OpenWay x.memory pml4 v ∧ framePage t = frame)) ∧ (of v ≠ .of t →
    (Reads x'.memory pml4 v frame ↔ Reads x.memory pml4 v frame)) := by
  rcases hMapped.mapMemory tableFlags_US_RW h with ⟨_, _, hLookup⟩
  rcases userCanAccess_mapUser hMapped h v with ⟨hOwn, hRest⟩
  refine ⟨?_, ?_, ?_⟩
  · unfold OpenWay
    dsimp only
    rw [openEntry_mapUser hMapped h (by simp), openEntry_mapUser hMapped h (by simp),
      openEntry_mapUser hMapped h (by simp)]
  · intro hSame
    unfold Reads
    rw [hOwn hSame, hLookup, if_pos hSame, some_inj]
  · intro hOther
    unfold Reads
    rw [hRest hOther, hLookup, if_neg hOther]

end OneCall

def Visited (ret stop i : BitVec 64) : Prop :=
  ret.toNat ≤ i.toNat ∧ i.toNat < stop.toNat ∧ i.toNat % 4096 = ret.toNat % 4096

def Latest (ret stop v i : BitVec 64) : Prop :=
  Visited ret stop i ∧ of v = .of i ∧
    ∀ j, Visited ret stop j → of v = .of j → j.toNat ≤ i.toNat

/-
  User mode will read the frame at `v`: the loop maps the frame there and no table on the way keeps
  user mode out, or it could read it before and the loop passes by.
-/
def WillRead (m : Memory) (pml4 ret stop v frame : BitVec 64) : Prop :=
  (∃ i, Latest ret stop v i ∧ OpenWay m pml4 v ∧ framePage i = frame) ∨
    (∀ i, Visited ret stop i → of v ≠ .of i) ∧ Reads m pml4 v frame

section Loop

variable {m : Memory} {pml4 ret stop t v frame : BitVec 64} {x x' : PageFrameAllocator}

theorem not_visited_self (i : BitVec 64) : ¬ Visited ret ret i := by
  rintro ⟨hLow, hHigh, _⟩
  omega

theorem willRead_self : WillRead m pml4 ret ret v frame ↔ Reads m pml4 v frame := by
  constructor
  · rintro (⟨i, hLatest, _⟩ | ⟨_, hReads⟩)
    · exact absurd hLatest.1 (not_visited_self i)
    · exact hReads
  · intro hReads
    exact .inr ⟨fun i hi => absurd hi (not_visited_self i), hReads⟩

structure Stands (ret stop t : BitVec 64) : Prop where
  low : ret.toNat ≤ t.toNat
  step : t.toNat % 4096 = ret.toNat % 4096
  last : t = ret ∨ t.toNat ≤ stop.toNat

theorem Stands.next (hStands : Stands ret stop t) (hStop : stop.toNat % 4096 = ret.toNat % 4096)
    (hBelow : t < stop) : (t + 4096).toNat = t.toNat + 4096 ∧ Stands ret stop (t + 4096) := by
  have hLess : t.toNat < stop.toNat := hBelow
  have hFit := stop.isLt
  have hStep := hStands.step
  have hLow := hStands.low
  have hNext : (t + 4096).toNat = t.toNat + 4096 := by
    rw [toNat_add]
    have hPage : (4096 : BitVec 64).toNat = 4096 := rfl
    omega
  exact ⟨hNext, ⟨by omega, by omega, Or.inr (by omega)⟩⟩

theorem visited_next (hStands : Stands ret stop t) (hNext : (t + 4096).toNat = t.toNat + 4096)
    (i : BitVec 64) : Visited ret (t + 4096) i ↔ Visited ret t i ∨ i = t := by
  have hStep := hStands.step
  have hLow := hStands.low
  unfold Visited
  rw [hNext]
  constructor
  · rintro ⟨hFrom, hTo, hSame⟩
    by_cases hBefore : i.toNat < t.toNat
    · exact .inl ⟨hFrom, hBefore, hSame⟩
    right
    apply eq_of_toNat_eq
    omega
  rintro (⟨hFrom, hTo, hSame⟩ | rfl)
  · exact ⟨hFrom, by omega, hSame⟩
  · exact ⟨hLow, by omega, hStep⟩

theorem willRead_next (hStands : Stands ret stop t) (hNext : (t + 4096).toNat = t.toNat + 4096) :
    (of v = .of t → (WillRead m pml4 ret (t + 4096) v frame ↔
    OpenWay m pml4 v ∧ framePage t = frame)) ∧
    (of v ≠ .of t → (WillRead m pml4 ret (t + 4096) v frame ↔ WillRead m pml4 ret t v frame)) := by
  have hVisited := visited_next hStands hNext
  constructor
  · intro hSame
    have hLatest : Latest ret (t + 4096) v t := by
      refine ⟨(hVisited t).mpr (.inr rfl), hSame, ?_⟩
      intro j hj _
      rcases (hVisited j).mp hj with hBefore | rfl
      · exact Nat.le_of_lt hBefore.2.1
      · exact Nat.le_refl _
    constructor
    · rintro (⟨i, hLast, hOpen, hFrame⟩ | ⟨hNone, _⟩)
      · have hEq : i = t := by
          apply eq_of_toNat_eq
          apply Nat.le_antisymm
          · exact hLatest.2.2 i hLast.1 hLast.2.1
          · exact hLast.2.2 t hLatest.1 hSame
        rw [hEq] at hFrame
        exact ⟨hOpen, hFrame⟩
      · exact absurd hSame (hNone t hLatest.1)
    · rintro ⟨hOpen, hFrame⟩
      exact .inl ⟨t, hLatest, hOpen, hFrame⟩
  intro hOther
  have hSame : ∀ i, of v = .of i → (Visited ret (t + 4096) i ↔ Visited ret t i) := by
    intro i hi
    rw [hVisited]
    refine or_iff_left ?_
    rintro rfl
    exact hOther hi
  have hLatest : ∀ i, Latest ret (t + 4096) v i ↔ Latest ret t v i := by
    intro i
    unfold Latest
    constructor
    · rintro ⟨hi, hIndices, hLast⟩
      exact ⟨(hSame i hIndices).mp hi, hIndices,
        fun j hj hjv => hLast j ((hSame j hjv).mpr hj) hjv⟩
    rintro ⟨hi, hIndices, hLast⟩
    exact ⟨(hSame i hIndices).mpr hi, hIndices,
      fun j hj hjv => hLast j ((hSame j hjv).mp hj) hjv⟩
  have hNone : (∀ i, Visited ret (t + 4096) i → of v ≠ .of i) ↔
    ∀ i, Visited ret t i → of v ≠ .of i := by
    constructor
    · intro hAll i hi hIndices
      exact hAll i ((hSame i hIndices).mpr hi) hIndices
    · intro hAll i hi hIndices
      exact hAll i ((hSame i hIndices).mp hi) hIndices
  unfold WillRead
  simp only [hLatest, hNone]

structure Reading (m : Memory) (pml4 ret stop t : BitVec 64) (x : PageFrameAllocator) : Prop where
  stands : Stands ret stop t
  mapped : KernelMapped pml4 x
  way : ∀ v, OpenWay x.memory pml4 v ↔ OpenWay m pml4 v
  reads : ∀ v frame, Reads x.memory pml4 v frame ↔ WillRead m pml4 ret t v frame

theorem Reading.round (hReading : Reading m pml4 ret stop t x)
    (hStop : stop.toNat % 4096 = ret.toNat % 4096) (hBelow : t < stop)
    (h : mapUser pml4 t x = some x') : Reading m pml4 ret stop (t + 4096) x' := by
  rcases hReading.stands.next hStop hBelow with ⟨hNext, hStands⟩
  have hMapped := hReading.mapped
  refine ⟨hStands, (hMapped.mapMemory tableFlags_US_RW h).1, ?_, ?_⟩
  · intro v
    rw [(reads_mapUser hMapped h v 0).1]
    exact hReading.way v
  intro v frame
  rcases reads_mapUser hMapped h v frame with ⟨_, hOwn, hRest⟩
  rcases willRead_next (m := m) (v := v) hReading.stands hNext with ⟨hOwn', hRest'⟩
  by_cases hSame : of v = .of t
  · rw [hOwn hSame, hOwn' hSame, hReading.way]
  · rw [hRest hSame, hRest' hSame]
    exact hReading.reads v frame

theorem reads_loop {fuel : Nat} (hReading : Reading m pml4 ret stop ret x)
    (hStop : stop.toNat % 4096 = ret.toNat % 4096)
    (h : loopUp 4096 stop (mapUser pml4) fuel ret x = some x') (v frame : BitVec 64) :
    Reads x'.memory pml4 v frame ↔ WillRead m pml4 ret stop v frame := by
  rcases loopUp_invariant (P := fun t x => Reading m pml4 ret stop t x)
      (fun t x x' hx hBelow hRound => hx.round hStop hBelow hRound) hReading h with ⟨t, hEnd, hLast⟩
  have hVisited : ∀ i, Visited ret t i ↔ Visited ret stop i := by
    intro i
    have hLe : ¬ t.toNat < stop.toNat := hEnd
    unfold Visited
    rcases hLast.stands.last with hStart | hUntil
    · rw [hStart] at hLe ⊢
      omega
    · omega
  rw [hLast.reads v frame]
  unfold WillRead Latest
  simp only [hVisited]

end Loop

inductive PageRequest where
| page
| pages (count : BitVec 64)
deriving DecidableEq, Repr

namespace PageRequest

def answer (fuel : Nat) (pml4 : BitVec 64) (s : PageFrameAllocator) :
    PageRequest → Option (BitVec 64 × PageFrameAllocator)
| .page => requestpage pml4 s
| .pages count => requestpages fuel pml4 s count

def stop (ret : BitVec 64) : PageRequest → BitVec 64
| .page => ret + 4096
| .pages count => ret + count * 4096

def Returned (ret : BitVec 64) (e : PageRequest) (frame : BitVec 64) : Prop :=
  ret ≠ 0 ∧ Visited ret (e.stop ret) frame

def Chosen (s : PageFrameAllocator) : PageRequest → Nat → Prop
| .page, index =>
  s.pageBitmapIndex ≤ index ∧ index < s.bits ∧ s.used index = false ∧
      ∀ q, s.pageBitmapIndex ≤ q → q < index → s.used q = true
| .pages count, index =>
  ∃ start, Tried s count.toNat start ∧ ScanFinds s count.toNat start index

end PageRequest

structure SameButFree (s t : PageFrameAllocator) : Prop where
  same : t = { s with memory := t.memory }
  memory : ∀ z, t.memory z ≠ s.memory z → z / 4096 < s.bits ∧ s.used (z / 4096) = false

def SamePageBytes (m m' : Memory) (frame : BitVec 64) : Prop :=
  ∀ z, z / 4096 = tablePage frame → m z = m' z

def SameReads (pml4 ret : BitVec 64) (e : PageRequest) (m m' : Memory) : Prop :=
  ∀ frame, e.Returned ret frame → ∀ v, (Reads m pml4 v frame ↔ Reads m' pml4 v frame) ∧
      (Reads m pml4 v frame → SamePageBytes m m' frame)

/-
  The pages the search stops at are the same in both states, as far as user code will be able to
  read them.
-/
def AlikeBefore (pml4 : BitVec 64) (e : PageRequest) (s t : PageFrameAllocator) : Prop :=
  ∀ index, e.Chosen s index → ∀ frame, e.Returned (pageVA index) frame → ∀ v,
      WillRead s.memory pml4 (pageVA index) (e.stop (pageVA index)) v frame →
        SamePageBytes s.memory t.memory frame

section TwoRuns

variable {pml4 ret : BitVec 64} {s s' s₁ t : PageFrameAllocator} {secret : Set Nat} {fuel : Nat}

namespace PageRequest

variable {e : PageRequest}

def count : PageRequest → BitVec 64
| .page => 1
| .pages count => count

def Allocates (fuel : Nat) (s : PageFrameAllocator) (ret : BitVec 64) (s₁ : PageFrameAllocator) :
    PageRequest → Prop
| .page =>
  ∃ address, s.requestPage = (some address, s₁) ∧ ret = BitVec.ofNat 64 address
| .pages count =>
  ∃ address, s.requestPages fuel count.toNat = some (address, s₁) ∧ ret = BitVec.ofNat 64 address

def Maps (fuel : Nat) (pml4 ret : BitVec 64) (s₁ s' : PageFrameAllocator) : PageRequest → Prop
| .page => mapUser pml4 ret s₁ = some s'
| .pages count =>
  loopUp 4096 (ret + count * 4096) (mapUser pml4) fuel ret s₁ = some s'

theorem answer_iff : e.answer fuel pml4 s = some (ret, s') ↔ ∃ s₁, e.Allocates fuel s ret s₁ ∧
    e.Maps fuel pml4 ret s₁ s' := by
  cases e with
  | page =>
    constructor
    · intro h
      rcases requestpage_cases h with ⟨address, s₁, hRequest, hRet, hMap⟩
      exact ⟨s₁, ⟨address, hRequest, hRet⟩, hMap⟩
    rintro ⟨s₁, ⟨address, hRequest, rfl⟩, hMap⟩
    rw [answer, requestpage, if_neg (by simp [canSyscall]), hRequest]
    exact map_eq_some_iff.mpr ⟨s', hMap, rfl⟩
  | pages count =>
    constructor
    · intro h
      rcases requestpages_cases h with ⟨address, s₁, hRequest, hRet, hMap⟩
      exact ⟨s₁, ⟨address, hRequest, hRet⟩, hMap⟩
    rintro ⟨s₁, ⟨address, hRequest, rfl⟩, hMap⟩
    rw [answer, requestpages, if_neg (by simp [canSyscall]), hRequest]
    exact map_eq_some_iff.mpr ⟨s', hMap, rfl⟩

theorem chosen_unique {i j : Nat} (hi : e.Chosen s i) (hj : e.Chosen s j) : i = j := by
  cases e with
  | page =>
    rcases hi with ⟨hiLow, _, hiClear, hiBefore⟩
    rcases hj with ⟨hjLow, _, hjClear, hjBefore⟩
    rcases Nat.lt_trichotomy i j with hLt | hEq | hGt
    · rw [hjBefore i hiLow hLt] at hiClear
      cases hiClear
    · exact hEq
    · rw [hiBefore j hjLow hGt] at hjClear
      cases hjClear
  | pages count =>
    rcases hi with ⟨start, hTried, hFinds⟩
    rcases hj with ⟨other, hOther, hFound⟩
    have hSame := tried_unique hTried hFinds hOther hFound
    rw [hSame] at hFinds
    exact scanFinds_unique hFinds hFound

theorem Chosen.lt_bits {index : Nat} (h : e.Chosen s index) : index < s.bits := by
  cases e with
  | page => exact h.2.1
  | pages count =>
    rcases h with ⟨start, _, hFinds⟩
    exact hFinds.2.1

theorem Allocates.chosen (hBits : s.bits ≤ 2 ^ 40) (h : e.Allocates fuel s ret s₁) :
    (∃ index, e.Chosen s index ∧ ret = pageVA index) ∨ ret = 0 ∧ ∀ index, ¬ e.Chosen s index := by
  have hPage : ∀ index < s.bits, pageAddress index = index * 4096 := by
    intro index hIndex
    unfold pageAddress u64
    omega
  cases e with
  | page =>
    rcases h with ⟨address, hRequest, rfl⟩
    rcases requestPage_cases hRequest with ⟨index, hLow, hIndex, hClear, hBefore, hAnswer, _⟩ |
      ⟨_, hNone, _⟩
    · left
      rw [some.inj hAnswer, hPage index hIndex]
      exact ⟨index, ⟨hLow, hIndex, hClear, hBefore⟩, rfl⟩
    · cases hNone
  | pages count =>
    rcases h with ⟨address, hRequest, rfl⟩
    rcases requestPages_cases hRequest with
      ⟨start, index, hTried, hFinds, rfl, _⟩ | ⟨hGiven, rfl, _⟩
    · left
      rw [hPage index hFinds.2.1]
      exact ⟨index, ⟨start, hTried, hFinds⟩, rfl⟩
    right
    refine ⟨rfl, ?_⟩
    rintro index ⟨start, hTried, hFinds⟩
    rcases hTried with ⟨hLow, hHigh, hClear, _⟩
    exact Nat.not_lt.mpr (hGiven.le hLow hClear hFinds) hHigh

theorem Allocates.grants (hBits : s.bits ≤ 2 ^ 40) (h : e.Allocates fuel s ret s₁) : OnlyBits s s₁ ∧
    (∀ q, s.used q = true → s₁.used q = true) ∧ ∀ q ∈ grantedPages ret e.count.toNat,
    s.used q = false ∧ (q < s.bits → s₁.used q = true) := by
  cases e with
  | page =>
    rcases h with ⟨address, hRequest, rfl⟩
    rcases requestPage_grants hBits hRequest with ⟨hOnly, hTaken, hGiven⟩
    exact ⟨hOnly, hTaken, fun q hq => ⟨(hGiven q hq).1, fun _ => (hGiven q hq).2⟩⟩
  | pages count =>
    rcases h with ⟨address, hRequest, rfl⟩
    exact requestPages_grants hBits hRequest

theorem toNat_stop (ret : BitVec 64) (e : PageRequest) :
    (e.stop ret).toNat = (ret.toNat + e.count.toNat * 4096) % 2 ^ 64 := by
  have hPage : (4096 : BitVec 64).toNat = 4096 := rfl
  cases e with
  | page => rw [stop, toNat_add, hPage, count]; rfl
  | pages count =>
    rw [stop, toNat_add, toNat_mul, hPage, Nat.add_mod_mod, PageRequest.count]

theorem Returned.granted {frame : BitVec 64} (hRet : ret.toNat % 4096 = 0)
    (h : e.Returned ret frame) : tablePage frame ∈ grantedPages ret e.count.toNat := by
  rcases h with ⟨hNonnull, hLow, hHigh, _⟩
  rw [toNat_stop] at hHigh
  refine ⟨hNonnull, ?_, ?_⟩
  · unfold tablePage
    dsimp only
    omega
  unfold tablePage
  dsimp only
  omega

theorem Allocates.twins (hTwins : Twins secret s t) (h : e.Allocates fuel s ret s₁) :
    ∃ t₁, e.Allocates fuel t ret t₁ ∧ Twins secret s₁ t₁ := by
  cases e with
  | page =>
    rcases h with ⟨address, hRequest, hRet⟩
    rcases hTwins.requestPage hRequest with ⟨t₁, hAlike, hTwins₁⟩
    exact ⟨t₁, ⟨address, hAlike, hRet⟩, hTwins₁⟩
  | pages count =>
    rcases h with ⟨address, hRequest, hRet⟩
    rcases hTwins.requestPages hRequest with ⟨t₁, hAlike, hTwins₁⟩
    exact ⟨t₁, ⟨address, hAlike, hRet⟩, hTwins₁⟩

theorem Maps.hidden {t₁ : PageFrameAllocator} (hHidden : Hidden pml4 secret s₁ t₁)
    (h : e.Maps fuel pml4 ret s₁ s') : ∃ secret' t', secret' ⊆ secret ∧ e.Maps fuel pml4 ret t₁ t' ∧
    Hidden pml4 secret' s' t' := by
  cases e with
  | page =>
    exact hHidden.mapMemory tableFlags_US_RW h
  | pages count =>
    exact hHidden.loop (fun _ _ _ _ _ hx hRound => hx.mapMemory tableFlags_US_RW hRound) h

theorem Maps.kept {held : Set Nat} (hSeparated : Separated pml4 held s₁)
    (h : e.Maps fuel pml4 ret s₁ s') : HeldKept held s₁ s' := by
  cases e with
  | page => exact (hSeparated.mapUser h).2
  | pages count =>
    exact (hSeparated.loop (fun _ _ _ hx => hx.mapUser) h).2

theorem stop_mod (ret : BitVec 64) (e : PageRequest) :
    (e.stop ret).toNat % 4096 = ret.toNat % 4096 := by
  rw [toNat_stop]
  omega

theorem Maps.reads {m : Memory} (hFit : ret.toNat + 4096 < 2 ^ 64)
    (hReading : Reading m pml4 ret (e.stop ret) ret s₁) (h : e.Maps fuel pml4 ret s₁ s')
    (v frame : BitVec 64) : Reads s'.memory pml4 v frame ↔
    WillRead m pml4 ret (e.stop ret) v frame := by
  have hStop := stop_mod ret e
  cases e with
  | page =>
    have hBelow : ret < ret + 4096 := by
      rw [lt_def, toNat_add]
      have hPage : (4096 : BitVec 64).toNat = 4096 := rfl
      omega
    exact (hReading.round hStop hBelow h).reads v frame
  | pages count =>
    exact reads_loop hReading hStop h v frame

end PageRequest

theorem SameButFree.hidden (hMapped : KernelMapped pml4 s) (hSame : SameButFree s t) : Hidden pml4
    { q | q < s.bits ∧ s.used q = false } s t := by
  rcases hMapped with ⟨frames, n, hBacked, hMapped⟩
  refine ⟨frames, n, hBacked, hMapped, ?_, hSame.same, ?_, ?_⟩
  · rintro u hOwned ⟨_, hClear⟩
    rw [(hBacked.table u hOwned).1] at hClear
    cases hClear
  · intro z hz
    by_contra hDiffer
    exact hz (hSame.memory z hDiffer)
  · rintro q ⟨hq, hClear⟩
    exact hBacked.spare q hq hClear

theorem reading_start (hMapped : KernelMapped pml4 s) (hOnly : OnlyBits s s₁)
    (hTaken : ∀ q, s.used q = true → s₁.used q = true) (ret stop : BitVec 64) :
    Reading s.memory pml4 ret stop ret s₁ := by
  rcases hMapped.take hOnly hTaken with ⟨hMapped₁, hLookup⟩
  have hAlike : ∀ v frame, (OpenWay s₁.memory pml4 v ↔ OpenWay s.memory pml4 v) ∧
    (Reads s₁.memory pml4 v frame ↔ Reads s.memory pml4 v frame) := by
    intro v frame
    exact reads_congr (fun k q j hq => hMapped.flagAt_take hOnly hTaken k hq j) (hLookup (.of v))
  refine ⟨⟨Nat.le_refl _, rfl, Or.inl rfl⟩, hMapped₁, ?_, ?_⟩
  · exact fun v => (hAlike v 0).1
  intro v frame
  rw [willRead_self]
  exact (hAlike v frame).2

theorem twin_answers {e : PageRequest} (hMapped : KernelMapped pml4 s) (hSame : SameButFree s t)
    (h : e.answer fuel pml4 s = some (ret, s')) : ∃ t', e.answer fuel pml4 t = some (ret, t') ∧
    (∀ v frame, Reads s'.memory pml4 v frame ↔ Reads t'.memory pml4 v frame) ∧
    (ret.toNat % 4096 = 0 → ∀ frame, e.Returned ret frame →
    (SamePageBytes s'.memory t'.memory frame ↔ SamePageBytes s.memory t.memory frame)) := by
  have hHidden := hSame.hidden hMapped
  have hBits := hMapped.bits_le
  rcases PageRequest.answer_iff.mp h with ⟨s₁, hAllocates, hMaps⟩
  rcases hAllocates.twins hHidden.twins with ⟨t₁, hAllocates', hTwins₁⟩
  rcases hAllocates.grants hBits with ⟨hOnly, hTaken, hGiven⟩
  have hHidden₁ := hHidden.take hOnly hTaken hTwins₁
  rcases hMaps.hidden hHidden₁ with ⟨secret', t', hSubset, hMaps', hHidden'⟩
  rcases hHidden.tables with ⟨hMappedT, _⟩
  rcases hAllocates'.grants hMappedT.bits_le with ⟨hOnlyT, hTakenT, hGivenT⟩
  rcases hHidden'.tables with ⟨_, hFollow, hFlags⟩
  refine ⟨t', PageRequest.answer_iff.mpr ⟨t₁, hAllocates', hMaps'⟩, ?_, ?_⟩
  · intro v frame
    exact (reads_congr hFlags (hFollow _ (by simp))).2.symm
  intro hRet frame hReturned
  have hGranted := hReturned.granted hRet
  have hKept := hMaps.kept (hMapped.separated.hand hOnly hTaken (fun q hq => (hGiven q hq).1)
      (fun q hq => (hGiven q hq).2))
  have hKeptT := hMaps'.kept (hMappedT.separated.hand hOnlyT hTakenT
      (fun q hq => (hGivenT q hq).1) (fun q hq => (hGivenT q hq).2))
  have hClear := (hGiven _ hGranted).1
  apply forall₂_congr
  intro z hz
  by_cases hInside : tablePage frame < s.bits
  · -- the page was clear and was handed out
    have hApart : ¬ s.pageBitmap.Owns z := by
      rcases hMapped with ⟨_, _, hBacked, _⟩
      exact hBacked.spare _ hInside hClear z hz
    have hApartT : ¬ t.pageBitmap.Owns z := by
      rw [hHidden.twins.pageBitmap]
      exact hApart
    rw [hKept.contents z (hz ▸ Or.inr hGranted) (by rw [hz, hOnly.bits]; exact hInside),
      hKeptT.contents z (hz ▸ Or.inr hGranted)
      (by rw [hz, hOnlyT.bits, hHidden.twins.bits]; exact hInside),
      hOnly.outside z hApart, hOnlyT.outside z hApartT]
  -- no page of the bitmap: both sides agree on it
  have hOutside : z / 4096 ∉ { q | q < s.bits ∧ s.used q = false } := by
    rintro ⟨hLt, _⟩
    rw [hz] at hLt
    exact hInside hLt
  rw [hHidden'.twins.agree z (fun hSecret => hOutside (hSubset hSecret)),
    hHidden.twins.agree z hOutside]
  exact ⟨fun _ => rfl, fun _ => rfl⟩

end TwoRuns

theorem recycled_pages_alike_iff {fuel : Nat} {pml4 ret : BitVec 64} {s s' t : PageFrameAllocator}
    {e : PageRequest} (hMapped : KernelMapped pml4 s) (hSame : SameButFree s t)
    (h : e.answer fuel pml4 s = some (ret, s')) : ∃ t', e.answer fuel pml4 t = some (ret, t') ∧
    (SameReads pml4 ret e s'.memory t'.memory ↔ AlikeBefore pml4 e s t) := by
  rcases twin_answers hMapped hSame h with ⟨t', hAnswer, hReads, hBytes⟩
  have hBits := hMapped.bits_le
  refine ⟨t', hAnswer, ?_⟩
  rcases PageRequest.answer_iff.mp h with ⟨s₁, hAllocates, hMaps⟩
  rcases hAllocates.chosen hBits with ⟨index, hChosen, rfl⟩ | ⟨rfl, hNone⟩
  · have hIndex := hChosen.lt_bits
    have hNat : (pageVA index).toNat = index * 4096 := toNat_pageAddress index (by omega)
    have hRet : (pageVA index).toNat % 4096 = 0 := by omega
    rcases hAllocates.grants hBits with ⟨hOnly, hTaken, _⟩
    have hWill := hMaps.reads (by omega) (reading_start hMapped hOnly hTaken _ _)
    constructor
    · intro hAlike other hOther frame hReturned v hv
      have hEq := PageRequest.chosen_unique hOther hChosen
      subst hEq
      exact (hBytes hRet frame hReturned).mp ((hAlike frame hReturned v).2 ((hWill v frame).mpr hv))
    intro hAlike frame hReturned v
    refine ⟨hReads v frame, ?_⟩
    intro hv
    exact (hBytes hRet frame hReturned).mpr (hAlike index hChosen frame hReturned v
      ((hWill v frame).mp hv))
  constructor
  · intro _ index hChosen
    exact absurd hChosen (hNone index)
  · rintro _ frame ⟨hNonnull, _⟩
    exact absurd rfl hNonnull

------ A Page of the Small Machine

theorem differing_small : ∃ s t page s', createRoot (boot (fun _ => 0) smallEarly.mem) =
    some (0x102000, s) ∧ SameButFree s t ∧ PageRequest.answer 0 0x102000 s .page =
    some (page, s') ∧ page ≠ 0 ∧ IsPage page ∧ ¬ SamePageBytes s.memory t.memory page := by
  rcases requested_small with ⟨s, page, s', _, hCreate, hCall, _, hNonnull⟩
  have hBits := (kernelMapped_createRoot (ready_boot _ (by decide)) hCreate).1.bits_le
  have hAnswer : PageRequest.answer 0 0x102000 s .page = some (page, s') := hCall
  rcases PageRequest.answer_iff.mp hAnswer with ⟨s₁, hAllocates, _⟩
  rcases hAllocates.chosen hBits with ⟨index, hChosen, rfl⟩ | ⟨hNull, _⟩
  · have hIndex := hChosen.lt_bits
    have hNat : (pageVA index).toNat = index * 4096 := toNat_pageAddress index (by omega)
    have hPage : (pageVA index).toNat / 4096 = index := by
      omega
    refine ⟨s,
      { s with memory := s.memory.write (pageVA index).toNat (~~~ s.memory (pageVA index).toNat) },
      _, s', hCreate, ⟨rfl, ?_⟩, hAnswer, hNonnull, ⟨by omega, by omega⟩, ?_⟩
    · intro z hz
      have hAt : z = (pageVA index).toNat := by
        by_contra hOther
        exact hz (Memory.write_other _ _ hOther)
      rw [hAt, hPage]
      exact ⟨hIndex, hChosen.2.2.1⟩
    intro hSame
    have hByte := hSame (pageVA index).toNat rfl
    dsimp only at hByte
    rw [Memory.write_same] at hByte
    generalize s.memory (pageVA index).toNat = b at hByte
    revert b
    decide
  · exact absurd hNull hNonnull

theorem recycled_page_disclosed : ∃ s t page s' t', createRoot (boot (fun _ => 0) smallEarly.mem) =
    some (0x102000, s) ∧ SameButFree s t ∧ requestpage 0x102000 s = some (page, s') ∧
    requestpage 0x102000 t = some (page, t') ∧ Reads s'.memory 0x102000 page page ∧
    Reads t'.memory 0x102000 page page ∧ ¬ SamePageBytes s'.memory t'.memory page := by
  rcases differing_small with ⟨s, t, page, s', hCreate, hSame, hAnswer, hNonnull, hPage, hDiffer⟩
  have hHistory : MapHistory 0x102000 [] s := .root (by decide) hCreate
  have hTold := hHistory.flagsTold
  rcases twin_answers hTold.mapped hSame hAnswer with ⟨t', hAnswer', hReads, hBytes⟩
  have hUser : userCanAccess s'.memory 0x102000 page = true := by
    rw [userCanAccess, US_eq_twoPow]
    exact (hTold.requestpage hAnswer).effective_first ⟨by omega, by omega⟩
      (show (PTFlag.US ||| PTFlag.RW).getLsbD 2 = true by
        decide)
  have hLookup : lookup s'.memory 0x102000 (.of page) = some page := by
    rcases PageRequest.answer_iff.mp hAnswer with ⟨s₁, hAllocates, hMaps⟩
    rcases hAllocates.grants hTold.mapped.bits_le with ⟨hOnly, hTaken, _⟩
    rcases (hTold.mapped.take hOnly hTaken).1.mapMemory tableFlags_US_RW hMaps with ⟨_, _, hAll⟩
    rw [hAll, if_pos rfl, framePage_of_isPage hPage]
  have hFirst : Reads s'.memory 0x102000 page page := ⟨hUser, hLookup⟩
  have hReturned : PageRequest.Returned page .page page := by
    have hLow := hPage.2
    refine ⟨hNonnull, Nat.le_refl _, ?_, rfl⟩
    rw [PageRequest.stop, toNat_add]
    have hSize : (4096 : BitVec 64).toNat = 4096 := rfl
    omega
  exact ⟨s, t, page, s', t', hCreate, hSame, hAnswer,
    hAnswer', hFirst, (hReads page page).mp hFirst,
    fun hAlike => hDiffer ((hBytes hPage.1 page hReturned).mp hAlike)⟩

theorem recycled_pages_alike_iff_small : ∃ s t page s' t',
    KernelMapped 0x102000 s ∧ SameButFree s t ∧
    PageRequest.answer 0 0x102000 s .page = some (page, s') ∧
    PageRequest.answer 0 0x102000 t .page = some (page, t') ∧
    (SameReads 0x102000 page .page s'.memory t'.memory ↔ AlikeBefore 0x102000 .page s t) := by
  rcases differing_small with ⟨s, t, page, s', hCreate, hSame, hAnswer, _⟩
  have hMapped : KernelMapped 0x102000 s := (kernelMapped_createRoot (ready_boot _ (by decide))
    hCreate).1
  rcases recycled_pages_alike_iff hMapped hSame hAnswer with ⟨t', hAnswer', hIff⟩
  exact ⟨s, t, page, s', t', hMapped, hSame, hAnswer, hAnswer', hIff⟩

end Fennix
