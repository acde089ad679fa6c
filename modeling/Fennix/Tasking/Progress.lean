import Fennix.Tasking.Frames
import Mathlib.Data.List.Basic

/-
  Progress and bounds of the scheduler.
-/

------ The Retry Loops

namespace Fennix

open List Option

def AllInBounds (reads : List Read) : Prop :=
  ∀ r ∈ reads, r.InBounds

theorem allInBounds_append {xs ys : List Read} :
    AllInBounds (xs ++ ys) ↔ AllInBounds xs ∧ AllInBounds ys :=
  forall_mem_append

theorem allInBounds_cons {r : Read} {rs : List Read} :
    AllInBounds (r :: rs) ↔ r.InBounds ∧ AllInBounds rs :=
  forall_mem_cons

theorem allInBounds_readsBelow {n size : Nat} (hLe : n ≤ size) :
    AllInBounds (readsBelow n size) := by
  intro r hr
  rcases mem_map.mp hr with ⟨i, hi, hEq⟩
  rw [← hEq]
  exact Nat.lt_of_lt_of_le (mem_range.mp hi) hLe

def NextReady (invalid ready : Nat → Bool) (rest : List Nat) : Prop :=
  ∃ x, rest.find? (fun x => !invalid x) = some x ∧ ready x = true

section Retry

variable {beyond : Nat → Nat} {invalid ready : Nat → Bool} {xs pre rest : List Nat}
variable {tmpidx fuel x : Nat} {r : Search Nat}

private theorem getD_split {y d : Nat} (hSplit : xs = pre ++ y :: rest)
    (hIndex : pre.length = tmpidx + 1) : xs.getD (tmpidx + 1) d = y := by
  rw [hSplit, ← hIndex]
  simp

theorem split_advance {n y : Nat} (hSplit : xs = pre ++ y :: rest) (hIndex : pre.length = n) :
    xs = (pre ++ [y]) ++ rest ∧ (pre ++ [y]).length = n + 1 := by
  constructor
  · rw [hSplit]
    simp
  · rw [length_append, hIndex]
    rfl

private theorem retry_skip {y : Nat} (hSplit : xs = pre ++ y :: rest)
    (hIndex : pre.length = tmpidx + 1) (hInvalid : invalid y = true) :
    retry xs beyond invalid ready (fuel + 1) tmpidx =
    (retry xs beyond invalid ready fuel (tmpidx + 1)).map
    (Search.after [⟨tmpidx + 1, xs.length⟩]) := by
  have hLength : ¬ tmpidx > xs.length := by
    rw [hSplit, length_append]
    omega
  rw [retry, getD_split hSplit hIndex, if_pos hInvalid, if_neg hLength]

variable (beyond) in
theorem retry_ready (hSplit : xs = pre ++ rest) (hIndex : pre.length = tmpidx + 1)
    (hFind : rest.find? (fun x => !invalid x) = some x) (hReady : ready x = true) :
    ∃ reads, AllInBounds reads ∧ ∃ n < rest.length, ∀ fuel, retry xs beyond invalid ready
    fuel tmpidx = if n < fuel then some ⟨some x, reads⟩ else none := by
  induction rest generalizing pre tmpidx with
  | nil => cases hFind
  | cons y ys ih =>
    have hIn : (⟨tmpidx + 1, xs.length⟩ : Read).InBounds := by
      show tmpidx + 1 < xs.length
      rw [hSplit, length_append, length_cons]
      omega
    rw [find?_cons] at hFind
    cases hInvalid : invalid y with
    | true =>
      rw [hInvalid] at hFind
      rcases split_advance hSplit hIndex with ⟨hNext, hStep⟩
      rcases ih hNext hStep hFind with ⟨reads, hReads, n, hn, hRetry⟩
      refine ⟨_, allInBounds_cons.mpr ⟨hIn, hReads⟩, n + 1, Nat.succ_lt_succ hn, ?_⟩
      intro fuel
      cases fuel with
      | zero => rfl
      | succ fuel =>
        rw [retry_skip hSplit hIndex hInvalid, hRetry]
        simp only [Nat.add_lt_add_iff_right]
        split <;> rfl
    | false =>
      rw [hInvalid] at hFind
      cases hFind
      refine ⟨[⟨tmpidx + 1, xs.length⟩], ?_, 0, Nat.succ_pos _, ?_⟩
      · intro r hr
        rw [mem_singleton.mp hr]
        exact hIn
      intro fuel
      cases fuel with
      | zero => rfl
      | succ fuel =>
        rw [retry, getD_split hSplit hIndex, if_neg (by simp [hInvalid]),
          if_neg (by simp [hReady]), if_pos (Nat.succ_pos _)]

section

variable (hSplit : xs = pre ++ rest) (hIndex : pre.length = tmpidx + 1)

include hSplit hIndex

theorem retry_stuck (hFind : rest.find? (fun x => !invalid x) = some x) (hReady : ready x = false) :
    retry xs beyond invalid ready fuel tmpidx = none := by
  induction fuel generalizing pre rest tmpidx with
  | zero => rfl
  | succ fuel ih =>
    cases rest with
    | nil => cases hFind
    | cons y ys =>
      have hSame := hFind
      rw [find?_cons] at hFind
      cases hInvalid : invalid y with
      | true =>
        rw [hInvalid] at hFind
        rcases split_advance hSplit hIndex with ⟨hNext, hStep⟩
        rw [retry_skip hSplit hIndex hInvalid, ih hNext hStep hFind]
        rfl
      | false =>
        rw [hInvalid] at hFind
        cases hFind
        rw [retry, getD_split hSplit hIndex, if_neg (by simp [hInvalid]), if_pos hReady,
          ih hSplit hIndex hSame]
        rfl

theorem retry_some (hFind : rest.find? (fun x => !invalid x) = some x)
    (hRetry : retry xs beyond invalid ready fuel tmpidx = some r) :
    ready x = true ∧ r.found = some x := by
  cases hReady : ready x with
  | true =>
    rcases retry_ready beyond hSplit hIndex hFind hReady with ⟨reads, _, n, _, hEq⟩
    rw [hEq] at hRetry
    split at hRetry
    · cases hRetry
      exact ⟨rfl, rfl⟩
    · cases hRetry
  | false =>
    rw [retry_stuck hSplit hIndex hFind hReady] at hRetry
    cases hRetry

theorem retry_past (hFind : rest.find? (fun x => !invalid x) = none)
    (hRetry : retry xs beyond invalid ready fuel tmpidx = some r) : ¬ AllInBounds r.reads := by
  induction rest generalizing pre tmpidx fuel r with
  | nil =>
    have hOut : ¬ (⟨tmpidx + 1, xs.length⟩ : Read).InBounds := by
      show ¬ tmpidx + 1 < xs.length
      rw [hSplit, append_nil, hIndex]
      exact Nat.lt_irrefl _
    -- the read comes first, whatever the entry is
    have hFirst : (⟨tmpidx + 1, xs.length⟩ : Read) ∈ r.reads := by
      cases fuel with
      | zero => cases hRetry
      | succ fuel =>
        rw [retry] at hRetry
        split at hRetry
        · split at hRetry
          · cases hRetry
            exact mem_cons_self
          rcases map_eq_some_iff.mp hRetry with ⟨r', _, hEq⟩
          rw [← hEq]
          exact mem_cons_self
        split at hRetry
        · rcases map_eq_some_iff.mp hRetry with ⟨r', _, hEq⟩
          rw [← hEq]
          exact mem_cons_self
        · cases hRetry
          exact mem_cons_self
    exact fun hAll => hOut (hAll _ hFirst)
  | cons y ys ih =>
    cases fuel with
    | zero => cases hRetry
    | succ fuel =>
      rw [find?_cons] at hFind
      cases hInvalid : invalid y with
      | false =>
        rw [hInvalid] at hFind
        cases hFind
      | true =>
        rw [hInvalid] at hFind
        rw [retry_skip hSplit hIndex hInvalid] at hRetry
        rcases map_eq_some_iff.mp hRetry with ⟨r', hAgain, hEq⟩
        rcases split_advance hSplit hIndex with ⟨hNext, hStep⟩
        have hOut := ih hNext hStep hFind hAgain
        rw [← hEq]
        exact fun hAll => hOut (allInBounds_cons.mp hAll).2

theorem retry_inBounds (hRetry : retry xs beyond invalid ready fuel tmpidx = some r)
    (hReads : AllInBounds r.reads) :
    ∃ x, rest.find? (fun x => !invalid x) = some x ∧ ready x = true ∧ r.found = some x := by
  cases hFind : rest.find? (fun x => !invalid x) with
  | none =>
    exact (retry_past hSplit hIndex hFind hRetry hReads).elim
  | some x => exact ⟨x, rfl, retry_some hSplit hIndex hFind hRetry⟩

end

end Retry

namespace Multitasking

variable {s : Multitasking} {beyond : Beyond} {fuel : Nat}

------ The Searches

def threadsBehind (s : Multitasking) : List Nat :=
  (s.pcb s.currentProcess).threads.drop ((s.pcb s.currentProcess).threads.idxOf s.currentThread + 1)

/-
  Each time the loop meets the current process, the first valid process behind it exists and is
  ready; if it has no ready thread, the loop goes on.
-/
def ProcessesReady (s : Multitasking) : List Nat → Prop
| [] => True
| p :: rest =>
  if p = s.currentProcess then
    ∃ q, rest.find? (fun q => !s.invalidPCB q) = some q ∧ s.readyProcess q = true ∧
        ((∃ t, s.findThread q = some t) ∨ ProcessesReady s rest)
  else ProcessesReady s rest

theorem threadsBehind_preempt (s : Multitasking) (regs : ThreadRegisters) :
    (s.preempt regs).threadsBehind = s.threadsBehind := by
  unfold threadsBehind
  rw [preempt_currentProcess, preempt_currentThread, preempt_threads]

section

variable (hIn : s.currentThread ∈ (s.pcb s.currentProcess).threads)

include hIn

theorem threads_split :
    ∃ pre, (s.pcb s.currentProcess).threads = pre ++ s.threadsBehind ∧ pre.length =
    (s.pcb s.currentProcess).threads.idxOf s.currentThread + 1 := by
  refine ⟨_, (take_append_drop _ _).symm, ?_⟩
  rw [length_take]
  have hLt := idxOf_lt_length_of_mem hIn
  omega

theorem nextThread_settles (hReady : NextReady s.invalidTCB s.readyThread s.threadsBehind)
    (hFuel : (s.pcb s.currentProcess).threads.length ≤ fuel) : ∃ t reads, AllInBounds reads ∧
    s.nextThread beyond fuel = some ⟨some t, reads⟩ := by
  rcases threads_split hIn with ⟨pre, hSplit, hIndex⟩
  rcases hReady with ⟨t, hFind, hReady⟩
  have hEnough : s.threadsBehind.length ≤ fuel := by
    rw [hSplit, length_append] at hFuel
    omega
  rcases retry_ready beyond.threads hSplit hIndex hFind hReady with ⟨reads, hReads, n, hn, hRetry⟩
  have hLt := idxOf_lt_length_of_mem hIn
  rw [nextThread, if_pos hIn]
  dsimp only
  rw [hRetry, if_pos (by omega)]
  refine ⟨t, _, ?_, rfl⟩
  exact allInBounds_append.mpr ⟨allInBounds_readsBelow hLt, hReads⟩

theorem nextThread_inBounds {r : Search Nat} (hNext : s.nextThread beyond fuel = some r)
    (hReads : AllInBounds r.reads) : NextReady s.invalidTCB s.readyThread s.threadsBehind := by
  rcases threads_split hIn with ⟨pre, hSplit, hIndex⟩
  rw [nextThread, if_pos hIn] at hNext
  rcases map_eq_some_iff.mp hNext with ⟨r', hRetry, hEq⟩
  rw [← hEq] at hReads
  rcases retry_inBounds hSplit hIndex hRetry (allInBounds_append.mp hReads).2 with
    ⟨t, hFind, hReady, _⟩
  exact ⟨t, hFind, hReady⟩

end

theorem nextProcessFrom_settles (beyond : Beyond) {pre rest : List Nat} {i : Nat}
    (hSplit : s.listProcess = pre ++ rest) (hIndex : pre.length = i)
    (hReady : s.ProcessesReady rest) (hFuel : s.listProcess.length ≤ fuel) :
    ∃ r, AllInBounds r.reads ∧ s.nextProcessFrom beyond fuel rest i = some r := by
  induction rest generalizing pre i with
  | nil =>
    refine ⟨_, ?_, rfl⟩
    intro r hr
    cases hr
  | cons p rest ih =>
    rcases split_advance hSplit hIndex with ⟨hNext, hStep⟩
    have hRead : (⟨i, s.listProcess.length⟩ : Read).InBounds := by
      show i < s.listProcess.length
      rw [hSplit, length_append, length_cons]
      omega
    rw [ProcessesReady] at hReady
    rw [nextProcessFrom]
    by_cases hCurrent : p = s.currentProcess
    · rw [if_pos hCurrent] at hReady ⊢
      rcases hReady with ⟨q, hFind, hReadyQ, hAfter⟩
      have hEnough : rest.length ≤ fuel := by
        rw [hSplit, length_append, length_cons] at hFuel
        omega
      rcases retry_ready beyond.processes hNext hStep hFind hReadyQ with
        ⟨reads, hReads, n, hn, hRetry⟩
      rw [hRetry, if_pos (by omega)]
      dsimp only
      cases hThread : s.findThread q with
      | some t =>
        refine ⟨_, ?_, rfl⟩
        apply allInBounds_append.mpr
        refine ⟨allInBounds_cons.mpr ⟨hRead, hReads⟩, allInBounds_readsBelow ?_⟩
        exact idxOf_lt_length_of_mem (mem_of_find?_eq_some hThread)
      | none =>
        have hRest : s.ProcessesReady rest := by
          rcases hAfter with ⟨t, hSome⟩ | hRest
          · rw [hThread] at hSome
            cases hSome
          · exact hRest
        rcases ih hNext hStep hRest with ⟨r, hIn, hFrom⟩
        rw [hFrom]
        refine ⟨_, ?_, rfl⟩
        apply allInBounds_append.mpr
        refine ⟨?_, hIn⟩
        apply allInBounds_append.mpr
        exact ⟨allInBounds_cons.mpr ⟨hRead, hReads⟩, allInBounds_readsBelow (Nat.le_refl _)⟩
    rw [if_neg hCurrent] at hReady ⊢
    rcases ih hNext hStep hReady with ⟨r, hIn, hFrom⟩
    rw [hFrom]
    refine ⟨_, ?_, rfl⟩
    exact allInBounds_cons.mpr ⟨hRead, hIn⟩

theorem nextProcessFrom_cons {p i : Nat} {rest : List Nat} {r : Search (Nat × Nat)}
    (hFrom : s.nextProcessFrom beyond fuel (p :: rest) i = some r) :
    (p ≠ s.currentProcess ∧ ∃ r' first, s.nextProcessFrom beyond fuel rest (i + 1) = some r' ∧
    r = r'.after first) ∨
    p = s.currentProcess ∧ ∃ found reads more, retry s.listProcess beyond.processes
    s.invalidPCB s.readyProcess fuel i = some ⟨found, reads⟩ ∧
    r.reads = ⟨i, s.listProcess.length⟩ :: reads ++ more ∧ (found = none ∧ r.found = none ∨
    (∃ q t, found = some q ∧ s.findThread q = some t ∧ r.found = some (q, t)) ∨
    ∃ q r' first, found = some q ∧ s.findThread q = none ∧
    s.nextProcessFrom beyond fuel rest (i + 1) = some r' ∧ r = r'.after first) := by
  rw [nextProcessFrom] at hFrom
  by_cases hCurrent : p = s.currentProcess
  · rw [if_pos hCurrent] at hFrom
    refine Or.inr ⟨hCurrent, ?_⟩
    cases hRetry : retry s.listProcess beyond.processes s.invalidPCB s.readyProcess fuel i with
    | none =>
      rw [hRetry] at hFrom
      cases hFrom
    | some found =>
      rcases found with ⟨found, reads⟩
      rw [hRetry] at hFrom
      cases found with
      | none =>
        cases hFrom
        exact ⟨none, reads, [], rfl, by rw [append_nil], Or.inl ⟨rfl, rfl⟩⟩
      | some q =>
        dsimp only at hFrom
        cases hThread : s.findThread q with
        | some t =>
          rw [hThread] at hFrom
          cases hFrom
          exact ⟨some q, reads, _, rfl, rfl, Or.inr (.inl ⟨q, t, rfl, hThread, rfl⟩)⟩
        | none =>
          rw [hThread] at hFrom
          rcases map_eq_some_iff.mp hFrom with ⟨r', hRest, rfl⟩
          exact ⟨some q, reads, _, rfl, append_assoc _ _ _,
            Or.inr (.inr ⟨q, r', _, rfl, hThread, hRest, rfl⟩)⟩
  rw [if_neg hCurrent] at hFrom
  rcases map_eq_some_iff.mp hFrom with ⟨r', hRest, rfl⟩
  exact .inl ⟨hCurrent, r', _, hRest, rfl⟩

theorem nextProcessFrom_inBounds {pre rest : List Nat} {i : Nat} {r : Search (Nat × Nat)}
    (hSplit : s.listProcess = pre ++ rest) (hIndex : pre.length = i)
    (hFrom : s.nextProcessFrom beyond fuel rest i = some r) (hReads : AllInBounds r.reads) :
    s.ProcessesReady rest := by
  induction rest generalizing pre i r with
  | nil => trivial
  | cons p rest ih =>
    rcases split_advance hSplit hIndex with ⟨hNext, hStep⟩
    rw [ProcessesReady]
    rcases nextProcessFrom_cons hFrom with ⟨hCurrent, r', first, hRest, hEq⟩ |
      ⟨hCurrent, found, reads, more, hRetry, hAll, hCases⟩
    · rw [if_neg hCurrent]
      rw [hEq] at hReads
      exact ih hNext hStep hRest (allInBounds_append.mp hReads).2
    rw [if_pos hCurrent]
    -- the reads of the retry are among the reads
    have hRetryReads : AllInBounds reads := by
      rw [hAll] at hReads
      exact (allInBounds_cons.mp (allInBounds_append.mp hReads).1).2
    rcases retry_inBounds hNext hStep hRetry hRetryReads with ⟨q, hFind, hReadyQ, hFound⟩
    have hFoundEq : found = some q := hFound
    refine ⟨q, hFind, hReadyQ, ?_⟩
    rcases hCases with ⟨hNone, _⟩ | ⟨k, t, hk, hThread, _⟩ | ⟨_, r', first, _, _, hRest, hEq⟩
    · rw [hNone] at hFoundEq
      cases hFoundEq
    · rw [hk] at hFoundEq
      cases hFoundEq
      exact .inl ⟨t, hThread⟩
    · rw [hEq] at hReads
      exact .inr (ih hNext hStep hRest (allInBounds_append.mp hReads).2)

------ The Handler

/-
  The searches end inside the vectors: the first valid thread behind the current one is ready, or
  the current thread is not in its process and the processes are ready.
-/
def SearchesSettle (s : Multitasking) : Prop :=
  if s.currentThread ∈ (s.pcb s.currentProcess).threads then
    NextReady s.invalidTCB s.readyThread s.threadsBehind
  else s.ProcessesReady s.listProcess

def Settles (s : Multitasking) (regs : ThreadRegisters) : Prop :=
  s.schedulerEnabled = true → s.currentValid = true → (s.preempt regs).SearchesSettle

theorem searchOrIdle_reads (s : Multitasking) (i : Interrupt) (reads : List Read) :
    (s.searchOrIdle i reads).reads = reads := by
  unfold searchOrIdle
  split <;> rfl

theorem searches_settle (beyond : Beyond) (hSettle : s.SearchesSettle) : ∃ fuel,
    (∃ t reads, AllInBounds reads ∧ s.nextThread beyond fuel = some ⟨some t, reads⟩) ∨
    ∃ reads r, AllInBounds reads ∧ AllInBounds r.reads ∧
    s.nextThread beyond fuel = some ⟨none, reads⟩ ∧ s.nextProcess beyond fuel = some r := by
  unfold SearchesSettle at hSettle
  by_cases hIn : s.currentThread ∈ (s.pcb s.currentProcess).threads
  · rw [if_pos hIn] at hSettle
    exact ⟨_, Or.inl (nextThread_settles hIn hSettle (Nat.le_refl _))⟩
  rw [if_neg hIn] at hSettle
  have hSplit : s.listProcess = [] ++ s.listProcess := rfl
  rcases nextProcessFrom_settles beyond hSplit rfl hSettle (Nat.le_refl _) with ⟨r, hReads, hNext⟩
  have hThread : s.nextThread beyond s.listProcess.length = some ⟨none, readsBelow
    (s.pcb s.currentProcess).threads.length (s.pcb s.currentProcess).threads.length⟩ := by
    rw [nextThread, if_neg hIn]
  exact ⟨_, Or.inr ⟨_, r, allInBounds_readsBelow (Nat.le_refl _), hReads, hThread, hNext⟩⟩

theorem searchesSettle_of_inBounds {found : Option Nat} {reads : List Read}
    (hThread : s.nextThread beyond fuel = some ⟨found, reads⟩) (hReads : AllInBounds reads)
    (hProcess : found = none → ∃ r, s.nextProcess beyond fuel = some r ∧ AllInBounds r.reads) :
    s.SearchesSettle := by
  unfold SearchesSettle
  by_cases hIn : s.currentThread ∈ (s.pcb s.currentProcess).threads
  · rw [if_pos hIn]
    exact nextThread_inBounds hIn hThread hReads
  rw [if_neg hIn]
  rw [nextThread, if_neg hIn] at hThread
  cases hThread
  rcases hProcess rfl with ⟨r, hNext, hIn'⟩
  have hSplit : s.listProcess = [] ++ s.listProcess := rfl
  exact nextProcessFrom_inBounds hSplit rfl hNext hIn'

theorem handler_settles_iff (s : Multitasking) (beyond : Beyond) (i : Interrupt) :
    (∃ fuel r, s.multiTaskingSchedulerHandler beyond fuel i = some r ∧ AllInBounds r.reads) ↔
    s.Settles i.regs := by
  constructor
  · rintro ⟨fuel, r, hHandler, hReads⟩ hEnabled hValid
    rcases handler_cases hHandler with ⟨hOff, _⟩ | ⟨_, ⟨hInvalid, _⟩ |
      ⟨_, found, reads, hThread, hFound⟩⟩
    · rw [hEnabled] at hOff
      cases hOff
    · rw [hValid] at hInvalid
      cases hInvalid
    · rcases hFound with ⟨t, hSome, hEq⟩ | ⟨hNone, next, more, hProcess, hNext⟩
      · rw [hEq] at hReads
        apply searchesSettle_of_inBounds hThread hReads
        intro hNone
        rw [hSome] at hNone
        cases hNone
      have hBoth : AllInBounds (reads ++ more) := by
        rcases hNext with ⟨p, t, _, hEq⟩ | ⟨_, hEq⟩
        · rw [hEq] at hReads
          exact hReads
        · rw [hEq, searchOrIdle_reads] at hReads
          exact hReads
      rcases allInBounds_append.mp hBoth with ⟨hFirst, hMore⟩
      exact searchesSettle_of_inBounds hThread hFirst (fun _ => ⟨_, hProcess, hMore⟩)
  intro hSettles
  cases hEnabled : s.schedulerEnabled with
  | false =>
    refine ⟨0, _, by
      rw [multiTaskingSchedulerHandler, if_pos hEnabled], ?_⟩
    intro r hr
    cases hr
  | true =>
    cases hValid : s.currentValid with
    | false =>
      refine ⟨0, _, by
        rw [multiTaskingSchedulerHandler, if_neg (by simp [hEnabled]), if_pos hValid], ?_⟩
      rw [searchOrIdle_reads]
      intro r hr
      cases hr
    | true =>
      rcases searches_settle beyond (hSettles hEnabled hValid) with
        ⟨fuel, ⟨t, reads, hReads, hThread⟩ |
        ⟨reads, ⟨found, more⟩, hReads, hMore, hThread, hProcess⟩⟩
      · refine ⟨fuel, _, by
          rw [handler_eq beyond fuel i hEnabled hValid, hThread], ?_⟩
        exact hReads
      have hBoth : AllInBounds (reads ++ more) := allInBounds_append.mpr ⟨hReads, hMore⟩
      cases found with
      | none =>
        refine ⟨fuel, _, by
          rw [handler_eq beyond fuel i hEnabled hValid, hThread, hProcess], ?_⟩
        rw [searchOrIdle_reads]
        exact hBoth
      | some next =>
        refine ⟨fuel, _, by
          rw [handler_eq beyond fuel i hEnabled hValid, hThread, hProcess], ?_⟩
        exact hBoth

------ States that Do Not Settle

def samplePCB (status : CBStatus) (threads : List Nat) : PCB :=
  { id := 0
    status := status
    elevation := .kernel
    offset := 0
    parent := 0
    pageTable := 0x5000
    info := setInfo 0
    threads := threads
    children := []
    checksum := processChecksum }

def sampleTCB (status : CBStatus) (parent : Nat) : TCB :=
  { id := 0
    status := status
    exitCode := 0
    parent := parent
    stack := 0x7000
    fxRegion := 0
    registers := ThreadRegisters.zero
    fs := 0
    gs := 0
    info := setInfo 0
    checksum := threadChecksum }

def sampleTasks (listProcess : List Nat) (pcb : Nat → PCB) (tcb : Nat → TCB) : Multitasking :=
  { listProcess := listProcess
    nextPID := 1
    nextTID := 2
    idleProcess := 0
    idleThread := 0
    schedulerEnabled := true
    pcb := pcb
    tcb := tcb
    currentProcess := 0x1000
    currentThread := 0x2000
    fsBase := 0
    gsBase := 0
    shadowGsBase := 0
    cr3 := 0x5000
    fpu := 0
    kernelPML4 := 0x4000
    idleProcessLoop := 0x8000 }

def sampleInterrupt : Interrupt where
  regs := ThreadRegisters.zero
  idleProcess := 0x8000
  idleThread := 0x9000
  idlePageTable := 0x5000
  idleStack := 0xA000
  idleFxRegion := 0
  idleProcessTime := 3
  idleThreadTime := 4
  processTime := 5
  threadTime := 6

def loneThread : Multitasking :=
  sampleTasks [0x1000] (fun _ => samplePCB .running [0x2000]) (fun _ => sampleTCB .running 0x1000)

def waitingThread : Multitasking :=
  sampleTasks [0x1000] (fun _ => samplePCB .running [0x2000, 0x3000])
    (fun t => if t = 0x2000 then sampleTCB .running 0x1000
      else sampleTCB .waiting 0x1000)

theorem handler_unsettled_examples :
    (∀ beyond fuel i r, loneThread.multiTaskingSchedulerHandler beyond fuel i = some r →
    ¬ AllInBounds r.reads) ∧ ∀ beyond fuel i,
    waitingThread.multiTaskingSchedulerHandler beyond fuel i = none := by
  constructor
  · intro beyond fuel i r hHandler hReads
    have hIn : (loneThread.preempt i.regs).currentThread ∈ ((loneThread.preempt i.regs).pcb
      (loneThread.preempt i.regs).currentProcess ).threads := by
      rw [preempt_threads]
      exact mem_singleton.mpr rfl
    have hBehind : (loneThread.preempt i.regs).threadsBehind = [] := by
      rw [threadsBehind_preempt]
      decide
    rcases handler_cases hHandler with ⟨hOff, _⟩ | ⟨_, ⟨hInvalid, _⟩ |
      ⟨_, found, reads, hThread, hFound⟩⟩
    · cases hOff
    · revert hInvalid
      decide
    · have hFirst : AllInBounds reads := by
        rcases hFound with ⟨t, _, hEq⟩ | ⟨_, _, _, _, ⟨_, _, _, hEq⟩ | ⟨_, hEq⟩⟩
        · rw [hEq] at hReads
          exact hReads
        · rw [hEq] at hReads
          exact (allInBounds_append.mp hReads).1
        · rw [hEq, searchOrIdle_reads] at hReads
          exact (allInBounds_append.mp hReads).1
      rcases nextThread_inBounds hIn hThread hFirst with ⟨t, hFind, _⟩
      rw [hBehind] at hFind
      cases hFind
  intro beyond fuel i
  have hIn : (waitingThread.preempt i.regs).currentThread ∈ ((waitingThread.preempt i.regs).pcb
    (waitingThread.preempt i.regs).currentProcess ).threads := by
    rw [preempt_threads]
    exact mem_cons_self
  have hBehind : (waitingThread.preempt i.regs).threadsBehind = [0x3000] := by
    rw [threadsBehind_preempt]
    decide
  rcases threads_split hIn with ⟨pre, hSplit, hIndex⟩
  rw [hBehind] at hSplit
  have hFind : [0x3000].find? (fun x => !(waitingThread.preempt i.regs).invalidTCB x) =
      some 0x3000 := by
    simp only [(sameShape_preempt _ _).invalidTCB_eq]
    decide
  have hReady : (waitingThread.preempt i.regs).readyThread 0x3000 = false := by
    rw [readyThread, tcb_status_preempt]
    decide
  have hStuck : (waitingThread.preempt i.regs).nextThread beyond fuel = none := by
    rw [nextThread, if_pos hIn]
    dsimp only
    rw [retry_stuck hSplit hIndex hFind hReady]
    rfl
  rw [handler_eq beyond fuel i rfl (by decide), hStuck]

end Multitasking

end Fennix
