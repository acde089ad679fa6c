import Fennix.Tasking.Runs

/-
  The order in which threads are dispatched.

  The threads of the listed processes, one process after the other, form a cycle. The thread that a
  round robin starts is the first in that cycle behind the current one that is eligible.
-/

namespace Fennix

open List

namespace Multitasking

def eligible (s : Multitasking) (x : Nat × Nat) : Bool :=
  (!s.invalidPCB x.1 && s.readyProcess x.1) && (!s.invalidTCB x.2 && s.readyThread x.2)

def threadsOf (s : Multitasking) (p : Nat) : List (Nat × Nat) :=
  (s.pcb p).threads.map (Prod.mk p)

def flattened (s : Multitasking) : List (Nat × Nat) :=
  s.listProcess.flatMap s.threadsOf

def following (s : Multitasking) : List (Nat × Nat) :=
  let k := s.flattened.idxOf (s.currentProcess, s.currentThread)
  s.flattened.drop (k + 1) ++ s.flattened.take (k + 1)

def cyclicNext (s : Multitasking) : Option (Nat × Nat) :=
  s.following.find? s.eligible

def processesBehind (s : Multitasking) : List Nat :=
  s.listProcess.drop (s.listProcess.idxOf s.currentProcess + 1)

def processesUpTo (s : Multitasking) : List Nat :=
  s.listProcess.take (s.listProcess.idxOf s.currentProcess + 1)

def Outcome.ofNext : Option (Nat × Nat) → Outcome
| some (p, t) => .thread p t
| none => .idle

theorem Outcome.ofNext_inj {a b : Option (Nat × Nat)} :
    Outcome.ofNext a = Outcome.ofNext b ↔ a = b := by
  constructor
  · intro h
    cases a with
    | none =>
      cases b with
      | none => rfl
      | some y => cases h
    | some x =>
      cases b with
      | none => cases h
      | some y =>
        rcases x with ⟨p, t⟩
        cases h
        rfl
  · exact congrArg Outcome.ofNext

end Multitasking

structure Positioned (s : Multitasking) : Prop where
  process : s.currentProcess ∈ s.listProcess
  once : s.listProcess.Nodup
  thread : s.currentThread ∈ (s.pcb s.currentProcess).threads

def HasReady (s : Multitasking) (p : Nat) : Prop :=
  s.invalidPCB p = false ∧ (s.pcb p).status = .ready ∧ ∃ t ∈ (s.pcb p).threads,
      s.invalidTCB t = false ∧ (s.tcb t).status = .ready

/- The search does not leave the turn. -/
structure InTurn (s : Multitasking) : Prop where
  process : ∀ t ∈ s.threadsBehind, s.invalidTCB t = false → (s.pcb s.currentProcess).status = .ready
  exhausted : (∀ t ∈ s.threadsBehind, s.invalidTCB t = true) → ∀ q, s.processesBehind.find?
            (fun p => !s.invalidPCB p) = some q →
        HasReady s q ∨ (∀ p ∈ s.processesBehind, ¬ HasReady s p) ∨
            ∀ p ∈ s.processesUpTo, ¬ HasReady s p

namespace Multitasking

variable {s : Multitasking} {fuel : Nat} {ps : List Nat} {p t : Nat} {r : Search (Nat × Nat)}

theorem list_split (s : Multitasking) : s.processesUpTo ++ s.processesBehind = s.listProcess :=
  take_append_drop _ _

private theorem around_idxOf {α : Type} [BEq α] [LawfulBEq α] {x : α} {xs before behind : List α}
    (hSplit : xs = before ++ x :: behind) (hFirst : x ∉ before) :
    xs.drop (xs.idxOf x + 1) = behind ∧ xs.take (xs.idxOf x + 1) = before ++ [x] := by
  have hIndex : xs.idxOf x = before.length := by
    rw [hSplit, idxOf_append_of_notMem hFirst, idxOf_cons_self, Nat.add_zero]
  have hParts : xs = (before ++ [x]) ++ behind := by
    rw [hSplit, append_assoc, singleton_append]
  have hLength : before.length + 1 = (before ++ [x]).length := by
    rw [length_append, length_singleton]
  rw [hIndex, hLength, hParts]
  exact ⟨drop_left, take_left⟩

------ Searches As Parts of the Cycle

theorem find?_threadsOf (p : Nat) : (s.threadsOf p).find? s.eligible =
    if s.invalidPCB p = false ∧ s.readyProcess p = true then (s.findThread p).map (Prod.mk p)
    else none := by
  rw [threadsOf, find?_map]
  split
  · rename_i h
    have hTest : s.eligible ∘ Prod.mk p = fun t => !s.invalidTCB t && s.readyThread t := by
      funext t
      simp [eligible, h.1, h.2]
    rw [hTest]
    rfl
  rename_i h
  have hTest : s.eligible ∘ Prod.mk p = fun _ => false := by
    funext t
    cases hValid : s.invalidPCB p with
    | true => simp [eligible, hValid]
    | false =>
      have hReady : s.readyProcess p = false := by
        simpa [hValid] using h
      simp [eligible, hReady]
  rw [hTest]
  simp

theorem searchAll_eq_find? (ps : List Nat) : s.searchAll ps =
    (ps.flatMap s.threadsOf).find? s.eligible := by
  induction ps with
  | nil => rfl
  | cons p ps ih =>
    rw [flatMap_cons, find?_append, find?_threadsOf, searchAll, ih]
    cases hValid : s.invalidPCB p with
    | true => simp
    | false =>
      cases hReady : s.readyProcess p with
      | false => simp
      | true =>
        cases hThread : s.findThread p with
        | none => simp
        | some t => simp

theorem searchAll_append (ps qs : List Nat) : s.searchAll (ps ++ qs) =
    (s.searchAll ps).or (s.searchAll qs) := by
  simp only [searchAll_eq_find?, flatMap_append, find?_append]

theorem searchAll_eq_none_iff_hasReady : s.searchAll ps = none ↔ ∀ p ∈ ps, ¬ HasReady s p := by
  rw [searchAll_eq_none_iff]
  constructor
  · intro h p hp hReady
    rcases hReady with ⟨hValid, hStatus, t, ht, hTCB, hOk⟩
    exact h p hp hValid hStatus t ht hTCB hOk
  · intro h p hp hValid hStatus t ht hTCB hOk
    exact h p hp ⟨hValid, hStatus, t, ht, hTCB, hOk⟩

theorem mem_of_searchAll (hSearch : s.searchAll ps = some (p, t)) : p ∈ ps := by
  rw [searchAll_eq_find?] at hSearch
  rcases mem_flatMap.mp (mem_of_find?_eq_some hSearch) with ⟨q, hq, hIn⟩
  rcases mem_map.mp hIn with ⟨u, _, hEq⟩
  cases hEq
  exact hq

theorem searchAll_of_find?_none (hFind : ps.find? (fun p => !s.invalidPCB p) = none) :
    s.searchAll ps = none := by
  apply searchAll_eq_none_iff_hasReady.mpr
  intro p hp hReady
  have hNot := find?_eq_none.mp hFind p hp
  apply hNot
  simp [hReady.1]

theorem searchAll_of_find?_some {q : Nat} (hFind : ps.find? (fun p => !s.invalidPCB p) = some q)
    (hReady : s.readyProcess q = true) (hThread : s.findThread q = some t) :
    s.searchAll ps = some (q, t) := by
  rcases find?_eq_some_iff_append.mp hFind with ⟨hValid, before, behind, hSplit, hBefore⟩
  have hNone : s.searchAll before = none := by
    apply searchAll_of_find?_none
    apply find?_eq_none.mpr
    intro p hp
    simpa using hBefore p hp
  have hPCB : s.invalidPCB q = false := by
    simpa using hValid
  rw [hSplit, searchAll_append, hNone, Option.none_or, searchAll, if_neg (by simp [hPCB]),
    if_neg (by simp [hReady]), hThread]

theorem hasReady_iff_findThread {q : Nat} (hValid : s.invalidPCB q = false)
    (hReady : s.readyProcess q = true) : HasReady s q ↔ s.findThread q ≠ none := by
  constructor
  · intro h hNone
    rcases h with ⟨_, _, t, ht, hTCB, hOk⟩
    apply find?_eq_none.mp hNone t ht
    simp [hTCB, readyThread, hOk]
  intro h
  rcases Option.ne_none_iff_exists'.mp h with ⟨t, hThread⟩
  rcases findThread_some hThread with ⟨ht, hTCB, hOk⟩
  refine ⟨hValid, ?_, t, ht, hTCB, hOk⟩
  simpa [readyProcess] using hReady

------ The Next Process

theorem nextProcessFrom_absent {beyond : Beyond} {rest : List Nat} {i : Nat}
    (hAbsent : s.currentProcess ∉ rest) (hFrom : s.nextProcessFrom beyond fuel rest i = some r) :
    r.found = none := by
  induction rest generalizing i r with
  | nil =>
    cases hFrom
    rfl
  | cons p rest ih =>
    have hNe := ne_of_not_mem_cons hAbsent
    have hRest := not_mem_of_not_mem_cons hAbsent
    rw [nextProcessFrom, if_neg (Ne.symm hNe)] at hFrom
    rcases Option.map_eq_some_iff.mp hFrom with ⟨r', hNext, hEq⟩
    have hNone := ih hRest hNext
    rw [← hEq]
    exact hNone

theorem nextProcessFrom_null {pre before behind : List Nat} {i : Nat}
    (hSplit : s.listProcess = pre ++ (before ++ s.currentProcess :: behind))
    (hIndex : pre.length = i) (hBefore : s.currentProcess ∉ before)
    (hBehind : s.currentProcess ∉ behind)
    (hFrom : s.nextProcessFrom Beyond.null fuel (before ++ s.currentProcess :: behind) i = some r) :
    (∀ q, behind.find? (fun p => !s.invalidPCB p) = some q → s.readyProcess q = true) ∧ r.found =
    (behind.find? (fun p => !s.invalidPCB p)).bind
    (fun q => (s.findThread q).map (Prod.mk q)) := by
  induction before generalizing pre i r with
  | cons p before ih =>
    have hNe := ne_of_not_mem_cons hBefore
    have hRest := not_mem_of_not_mem_cons hBefore
    rw [cons_append] at hSplit hFrom
    rcases split_advance hSplit hIndex with ⟨hNext, hStep⟩
    rw [nextProcessFrom, if_neg (Ne.symm hNe)] at hFrom
    rcases Option.map_eq_some_iff.mp hFrom with ⟨r', hAgain, hEq⟩
    have hFound := ih hNext hStep hRest hAgain
    rw [← hEq]
    exact hFound
  | nil =>
    rw [nil_append] at hSplit hFrom
    rcases split_advance hSplit hIndex with ⟨hNext, hStep⟩
    rcases nextProcessFrom_cons hFrom with ⟨hNe, _⟩ | ⟨_, found, reads, _, hRetry, _, hCases⟩
    · exact absurd rfl hNe
    rcases retry_null (fun _ => s.invalidPCB_null) hNext hStep hRetry with ⟨hFound, hReady⟩
    rw [← hFound]
    refine ⟨hReady, ?_⟩
    rcases hCases with ⟨rfl, hNone⟩ | ⟨q, t, rfl, hThread, hEq⟩ |
      ⟨q, r', first, rfl, hThread, hAgain, rfl⟩
    · exact hNone
    · rw [hEq, Option.bind_some, hThread, Option.map_some]
    · have hNone := nextProcessFrom_absent hBehind hAgain
      rw [Option.bind_some, hThread]
      exact hNone

theorem nextProcess_null (hPos : Positioned s) (hNext : s.nextProcess Beyond.null fuel = some r) :
    (∀ q, s.processesBehind.find? (fun p => !s.invalidPCB p) = some q → s.readyProcess q = true) ∧
    r.found = (s.processesBehind.find? (fun p => !s.invalidPCB p)).bind
    (fun q => (s.findThread q).map (Prod.mk q)) := by
  rcases eq_append_cons_of_mem hPos.process with ⟨before, behind, hSplit, hBefore⟩
  have hBehind : s.currentProcess ∉ behind := by
    have hOnce := hPos.once
    rw [hSplit, nodup_append] at hOnce
    exact (nodup_cons.mp hOnce.2.1).1
  rw [processesBehind, (around_idxOf hSplit hBefore).1]
  rw [nextProcess, hSplit] at hNext
  exact nextProcessFrom_null (hSplit.trans (nil_append _).symm) rfl hBefore hBehind hNext

theorem following_eq (hPos : Positioned s) : ∃ before first,
    s.processesUpTo = before ++ [s.currentProcess] ∧ (s.pcb s.currentProcess).threads =
    first ++ s.threadsBehind ∧ s.following =
    s.threadsBehind.map (Prod.mk s.currentProcess) ++
    s.processesBehind.flatMap s.threadsOf ++
    (before.flatMap s.threadsOf ++ first.map (Prod.mk s.currentProcess)) := by
  rcases eq_append_cons_of_mem hPos.process with ⟨before, behind, hList, hBefore⟩
  rcases eq_append_cons_of_mem hPos.thread with ⟨init, rest, hThreads, hInit⟩
  rcases around_idxOf hList hBefore with ⟨hDrop, hTake⟩
  have hRest : s.threadsBehind = rest := (around_idxOf hThreads hInit).1
  -- the place of the current thread in the flattened list
  have hFlat : s.flattened = (before.flatMap s.threadsOf ++ init.map (Prod.mk s.currentProcess)) ++
    (s.currentProcess, s.currentThread) :: (rest.map (Prod.mk s.currentProcess) ++
    behind.flatMap s.threadsOf) := by
    rw [flattened, hList, flatMap_append, flatMap_cons, threadsOf, hThreads]
    simp
  have hFirst : (s.currentProcess, s.currentThread) ∉ before.flatMap s.threadsOf ++
    init.map (Prod.mk s.currentProcess) := by
    intro hIn
    rcases mem_append.mp hIn with hIn | hIn
    · rcases mem_flatMap.mp hIn with ⟨p, hp, hOf⟩
      rcases mem_map.mp hOf with ⟨t, _, hEq⟩
      cases hEq
      exact hBefore hp
    rcases mem_map.mp hIn with ⟨t, ht, hEq⟩
    cases hEq
    exact hInit ht
  rcases around_idxOf hFlat hFirst with ⟨hFlatDrop, hFlatTake⟩
  refine ⟨before, init ++ [s.currentThread], hTake, ?_, ?_⟩
  · rw [hRest, hThreads, append_assoc, singleton_append]
  · rw [following, hFlatDrop, hFlatTake, hRest, processesBehind, hDrop]
    simp

private theorem find?_eligible_invalid {ts : List Nat}
    (hInvalid : ∀ t ∈ ts, s.invalidTCB t = true) :
    (ts.map (Prod.mk p)).find? s.eligible = none := by
  apply find?_eq_none.mpr
  intro x hx
  rcases mem_map.mp hx with ⟨t, ht, hEq⟩
  rw [← hEq]
  simp [eligible, hInvalid t ht]

theorem cyclicNext_exhausted (hPos : Positioned s)
    (hInvalid : ∀ t ∈ s.threadsBehind, s.invalidTCB t = true) : s.cyclicNext =
    (s.searchAll s.processesBehind).or (s.searchAll s.processesUpTo) := by
  rcases following_eq hPos with ⟨before, first, hUpTo, hThreads, hFollowing⟩
  have hNone := find?_eligible_invalid (p := s.currentProcess) hInvalid
  -- the threads up to the current one are all that count
  have hOf : (s.threadsOf s.currentProcess).find? s.eligible =
    (first.map (Prod.mk s.currentProcess)).find? s.eligible := by
    rw [threadsOf, hThreads, map_append, find?_append, hNone, Option.or_none]
  rw [cyclicNext, hFollowing, hUpTo, searchAll_eq_find?, searchAll_eq_find?, flatMap_append,
    flatMap_singleton]
  simp only [find?_append, hNone, hOf, Option.none_or]

theorem cyclicNext_thread (hPos : Positioned s) (hValid : s.invalidPCB s.currentProcess = false)
    (hReady : s.readyProcess s.currentProcess = true)
    (hFind : s.threadsBehind.find? (fun t => !s.invalidTCB t) = some t)
    (hThread : s.readyThread t = true) : s.cyclicNext = some (s.currentProcess, t) := by
  rcases following_eq hPos with ⟨before, first, _, _, hFollowing⟩
  rcases find?_eq_some_iff_append.mp hFind with ⟨hTCB, between, rest, hSplit, hBetween⟩
  have hNone : (between.map (Prod.mk s.currentProcess)).find? s.eligible = none := by
    apply find?_eligible_invalid
    intro u hu
    simpa using hBetween u hu
  have hEligible : s.eligible (s.currentProcess, t) = true := by
    simpa [eligible, hValid, hReady, hThread] using hTCB
  rw [cyclicNext, hFollowing, hSplit]
  simp only [map_append, map_cons, find?_append, find?_cons, hNone, hEligible,
    Option.none_or, Option.some_or]

theorem ready_of_cyclicNext (hNext : s.cyclicNext = some (p, t)) : (s.pcb p).status = .ready := by
  have hTest := find?_some hNext
  simp only [eligible, Bool.and_eq_true] at hTest
  simpa [readyProcess] using hTest.1.2

theorem searchAll_inTurn_iff (hPos : Positioned s) : s.searchAll s.listProcess =
    (s.searchAll s.processesBehind).or (s.searchAll s.processesUpTo) ↔
    (∀ p ∈ s.processesBehind, ¬ HasReady s p) ∨ ∀ p ∈ s.processesUpTo, ¬ HasReady s p := by
  rw [← searchAll_eq_none_iff_hasReady, ← searchAll_eq_none_iff_hasReady, ← list_split,
    searchAll_append]
  cases hBehind : s.searchAll s.processesBehind with
  | none => simp
  | some x =>
    cases hUpTo : s.searchAll s.processesUpTo with
    | none => simp
    | some y =>
      -- a process listed once cannot be in both parts
      have hOnce := hPos.once
      rw [← list_split, nodup_append] at hOnce
      have hNe := hOnce.2.2 _ (mem_of_searchAll hUpTo) _ (mem_of_searchAll hBehind)
      simp only [Option.some_or, reduceCtorEq, or_self, iff_false]
      intro hEq
      cases hEq
      exact hNe rfl

------ The Handler

theorem positioned_preempt (regs : ThreadRegisters) (hPos : Positioned s) :
    Positioned (s.preempt regs) := by
  rcases hPos with ⟨hProcess, hOnce, hThread⟩
  refine ⟨?_, ?_, ?_⟩
  · rw [preempt_currentProcess, (sameShape_preempt s regs).list]
    exact hProcess
  · rw [(sameShape_preempt s regs).list]
    exact hOnce
  · rw [preempt_currentThread, preempt_currentProcess, preempt_threads]
    exact hThread

theorem searchOrIdle_outcome (s : Multitasking) (i : Interrupt) (reads : List Read) :
    (s.searchOrIdle i reads).outcome = Outcome.ofNext (s.searchAll s.listProcess) := by
  unfold searchOrIdle
  cases s.searchAll s.listProcess with
  | none => rfl
  | some x => rfl

def dispatched (s : Multitasking) : Option (Nat × Nat) :=
  ((s.threadsBehind.find? (fun t => !s.invalidTCB t)).map (Prod.mk s.currentProcess)).or
    (((s.processesBehind.find? (fun p => !s.invalidPCB p)).bind
      (fun q => (s.findThread q).map (Prod.mk q))).or (s.searchAll s.listProcess))

theorem dispatch_outcome {i : Interrupt} {r : Scheduled} {s₁ : Multitasking}
    (hState : s.preempt i.regs = s₁) (hPos : Positioned s₁) (hEnabled : s.schedulerEnabled = true)
    (hValid : s.currentValid = true)
    (h : s.multiTaskingSchedulerHandler Beyond.null fuel i = some r) :
    (∀ t, s₁.threadsBehind.find? (fun t => !s₁.invalidTCB t) = some t → s₁.readyThread t = true) ∧
    (s₁.threadsBehind.find? (fun t => !s₁.invalidTCB t) = none → ∀ q,
    s₁.processesBehind.find? (fun p => !s₁.invalidPCB p) = some q → s₁.readyProcess q = true) ∧
    r.outcome = Outcome.ofNext s₁.dispatched := by
  rcases handler_cases h with ⟨hOff, _⟩ | ⟨_, ⟨hInvalid, _⟩ | ⟨_, found, reads, hThread, hFound⟩⟩
  · rw [hEnabled] at hOff
    cases hOff
  · rw [hValid] at hInvalid
    cases hInvalid
  rw [hState] at hThread hFound
  rcases nextThread_null hThread with ⟨hReady, hEq⟩
  rw [if_pos hPos.thread] at hEq
  dsimp only at hEq hReady
  rw [dispatched, ← hEq]
  refine ⟨hReady, ?_⟩
  rcases hFound with ⟨t, rfl, rfl⟩ | ⟨rfl, next, more, hNext, hr⟩
  · exact ⟨nofun, rfl⟩
  rcases nextProcess_null hPos hNext with ⟨hProcess, hChoice⟩
  refine ⟨fun _ => hProcess, ?_⟩
  rw [Option.map_none, Option.none_or, ← hChoice]
  rcases hr with ⟨p, t, rfl, rfl⟩ | ⟨rfl, rfl⟩
  · rfl
  · rw [Option.none_or, searchOrIdle_outcome]

theorem cyclicNext_thread_iff (hPos : Positioned s) (hValid : s.invalidPCB s.currentProcess = false)
    (hFind : s.threadsBehind.find? (fun t => !s.invalidTCB t) = some t)
    (hReady : s.readyThread t = true) : some (s.currentProcess, t) = s.cyclicNext ↔ InTurn s := by
  have hMem := mem_of_find?_eq_some hFind
  have hTCB : s.invalidTCB t = false := by
    simpa using find?_some hFind
  constructor
  · intro hNext
    have hStatus := ready_of_cyclicNext hNext.symm
    refine ⟨fun _ _ _ => hStatus, ?_⟩
    intro hAll
    have hNot := hAll t hMem
    rw [hTCB] at hNot
    cases hNot
  intro hTurn
  have hStatus := hTurn.process t hMem hTCB
  have hProcess : s.readyProcess s.currentProcess = true := by
    simpa [readyProcess] using hStatus
  exact (cyclicNext_thread hPos hValid hProcess hFind hReady).symm

theorem inTurn_exhausted_iff (hInvalid : ∀ t ∈ s.threadsBehind, s.invalidTCB t = true) : InTurn s ↔
    ∀ q, s.processesBehind.find? (fun p => !s.invalidPCB p) = some q → HasReady s q ∨
    (∀ p ∈ s.processesBehind, ¬ HasReady s p) ∨ ∀ p ∈ s.processesUpTo, ¬ HasReady s p := by
  constructor
  · intro hTurn
    exact hTurn.exhausted hInvalid
  intro hBehind
  refine ⟨?_, fun _ => hBehind⟩
  intro t ht hTCB
  rw [hInvalid t ht] at hTCB
  cases hTCB

theorem round_robin_iff {i : Interrupt} {r : Scheduled} (hPos : Positioned s)
    (hEnabled : s.schedulerEnabled = true) (hValid : s.currentValid = true)
    (h : s.multiTaskingSchedulerHandler Beyond.null fuel i = some r) :
    r.outcome = Outcome.ofNext (s.preempt i.regs).cyclicNext ↔ InTurn (s.preempt i.regs) := by
  have hPCB := invalidPCB_preempt i.regs hValid
  have hPlace := positioned_preempt i.regs hPos
  generalize hState : s.preempt i.regs = s₁ at hPCB hPlace ⊢
  rcases dispatch_outcome hState hPlace hEnabled hValid h with ⟨hThread, hProcess, hOutcome⟩
  rw [hOutcome, Outcome.ofNext_inj, dispatched]
  cases hFind : s₁.threadsBehind.find? (fun t => !s₁.invalidTCB t) with
  | some t =>
    rw [Option.map_some, Option.some_or]
    exact cyclicNext_thread_iff hPlace hPCB hFind (hThread t hFind)
  | none =>
    have hInvalid : ∀ t ∈ s₁.threadsBehind, s₁.invalidTCB t = true := by
      simpa using hFind
    rw [Option.map_none, Option.none_or, cyclicNext_exhausted hPlace hInvalid,
      inTurn_exhausted_iff hInvalid]
    cases hFirst : s₁.processesBehind.find? (fun p => !s₁.invalidPCB p) with
    | none =>
      have hLast := searchAll_of_find?_none hFirst
      rw [Option.bind_none, Option.none_or, hLast, ← list_split, searchAll_append, hLast,
        Option.or_none, Option.none_or]
      simp
    | some q =>
      have hReady := hProcess hFind q hFirst
      have hHas := hasReady_iff_findThread (by simpa using find?_some hFirst) hReady
      rw [Option.bind_some]
      cases hq : s₁.findThread q with
      | some t =>
        rw [searchAll_of_find?_some hFirst hReady hq, Option.map_some, Option.some_or,
          Option.some_or]
        simp only [true_iff]
        rintro k ⟨⟩
        refine Or.inl (hHas.mpr ?_)
        rw [hq]
        exact Option.some_ne_none t
      | none =>
        -- the list is searched from the start
        rw [Option.map_none, Option.none_or, searchAll_inTurn_iff hPlace]
        constructor
        · exact fun hParts k hk => Or.inr hParts
        · intro hTurn
          exact (hTurn q rfl).resolve_left (fun hSome => hHas.mp hSome hq)

def exitedBetween : Multitasking :=
  sampleTasks [0x1000, 0x1100, 0x1200] (fun p =>
      if p = 0x1000 then samplePCB .running [0x2000]
      else if p = 0x1100 then samplePCB .ready [0x2100]
      else samplePCB .ready [0x2200])
    (fun t =>
      if t = 0x2000 then sampleTCB .running 0x1000
      else if t = 0x2100 then sampleTCB .terminated 0x1100
      else sampleTCB .ready 0x1200)

theorem round_robin_skips_process : Positioned exitedBetween ∧ exitedBetween.currentValid = true ∧
    (exitedBetween.preempt sampleInterrupt.regs).cyclicNext = some (0x1200, 0x2200) ∧
    (exitedBetween.multiTaskingSchedulerHandler Beyond.null 8 sampleInterrupt).map
    Scheduled.outcome = some (.thread 0x1000 0x2000) := by
  refine ⟨⟨?_, ?_, ?_⟩, ?_, ?_, ?_⟩
  all_goals decide +kernel

def readyBetween : Multitasking :=
  sampleTasks [0x1000, 0x1100] (fun p =>
      if p = 0x1000 then samplePCB .running [0x2000]
      else samplePCB .ready [0x2100])
    (fun t =>
      if t = 0x2000 then sampleTCB .running 0x1000
      else sampleTCB .ready 0x1100)

theorem round_robin_iff_readyBetween : ∃ r, readyBetween.multiTaskingSchedulerHandler
    Beyond.null 8 sampleInterrupt = some r ∧ r.outcome = .thread 0x1100 0x2100 ∧
    InTurn (readyBetween.preempt sampleInterrupt.regs) := by
  have hOutcome : (readyBetween.multiTaskingSchedulerHandler Beyond.null
    8 sampleInterrupt).map Scheduled.outcome = some (.thread 0x1100 0x2100) := by
    decide +kernel
  have hNext : (readyBetween.preempt sampleInterrupt.regs).cyclicNext = some (0x1100, 0x2100) := by
    decide +kernel
  have hPos : Positioned readyBetween := ⟨by decide, by decide, by decide⟩
  rcases Option.map_eq_some_iff.mp hOutcome with ⟨r, hHandler, hThread⟩
  refine ⟨r, hHandler, hThread, ?_⟩
  apply (round_robin_iff hPos rfl (by decide) hHandler).mp
  rw [hThread, hNext]
  rfl

end Multitasking

------ Places in Runs

open Multitasking

structure Roster (s : Multitasking) : Prop where
  process : ∀ p, (s.pcb p).checksum = processChecksum ↔ p ∈ s.listProcess
  once : s.listProcess.Nodup
  thread : ∀ t, IsThread s t → (s.pcb (s.tcb t).parent).checksum = processChecksum ∧
      t ∈ (s.pcb (s.tcb t).parent).threads

namespace Roster

variable {s s' : Multitasking}

section

variable (hRoster : Roster s)

include hRoster

theorem sameShape (h : SameShape s s') : Roster s' where
  process p := by
    rw [h.process, h.list]
    exact hRoster.process p
  once := by
    rw [h.list]
    exact hRoster.once
  thread t ht := by
    rw [h.isThread_iff] at ht
    rw [h.parent, h.process, h.threads]
    exact hRoster.thread t ht

theorem processCreated {r : ProcessRequest} (hFresh : FreshProcess s r.address)
    (h : ProcessCreated s r s') : Roster s' := by
  refine ⟨?_, ?_, ?_⟩
  · intro p
    rw [h.list, mem_append, mem_singleton]
    by_cases hNew : p = r.address
    · rw [hNew]
      exact iff_of_true h.new.2.2.2 (.inr rfl)
    · rw [(h.old p hNew).2.2.2.1, hRoster.process p]
      simp [hNew]
  · rw [h.list, nodup_append]
    refine ⟨hRoster.once, pairwise_singleton _ _, ?_⟩
    intro p hp q hq hEq
    rw [hEq, mem_singleton.mp hq] at hp
    exact hFresh.2 ((hRoster.process _).mpr hp)
  · intro t ht
    unfold IsThread at ht
    rw [h.tcb] at ht ⊢
    rcases hRoster.thread t ht with ⟨hSum, hIn⟩
    have hOld : (s.tcb t).parent ≠ r.address := by
      intro hEq
      rw [hEq] at hSum
      exact hFresh.2 hSum
    rw [(h.old _ hOld).2.2.1, (h.old _ hOld).2.2.2.1]
    exact ⟨hSum, hIn⟩

theorem threadCreated {r : ThreadRequest} {c : Context} (h : ThreadCreated s r c s') :
    Roster s' := by
  refine ⟨?_, ?_, ?_⟩
  · intro p
    rw [(h.blocks p).2.2, h.list]
    exact hRoster.process p
  · rw [h.list]
    exact hRoster.once
  · intro t ht
    rw [(h.blocks _).2.2, h.threads]
    by_cases hNew : t = r.address
    · rw [hNew, h.new.2.1, if_pos rfl]
      exact ⟨h.parent.2, mem_append_right _ (mem_singleton.mpr rfl)⟩
    unfold IsThread at ht
    rw [h.old t hNew] at ht ⊢
    rcases hRoster.thread t ht with ⟨hSum, hIn⟩
    refine ⟨hSum, ?_⟩
    split
    · exact mem_append_left _ hIn
    · exact hIn

theorem withIdle {i : Interrupt} (hFresh : FreshIdle s i) : Roster (s.withIdle i) := by
  unfold Multitasking.withIdle
  by_cases hMade : s.idleProcess = 0
  · rw [if_pos hMade]
    have hFreshP := (hFresh hMade).1
    rcases s.idleCreated hFreshP.1 with ⟨s₁, r, c, s₂, hProcess, _, _, hThread, hEq⟩
    have hRoster₁ : Roster { s₁ with idleProcess := i.idleProcess } :=
      (hRoster.processCreated hFreshP hProcess).sameShape (SameShape.of_blocks rfl rfl rfl)
    rw [hEq]
    exact (hRoster₁.threadCreated hThread).sameShape (SameShape.of_blocks rfl rfl rfl)
  · rw [if_neg hMade]
    exact hRoster

theorem step {e : TaskEvent} (hStep : TaskStep s e s') : Roster s' := by
  cases e with
  | createProcess r =>
    rcases hStep with ⟨hFresh, hEq⟩
    rw [hEq]
    exact hRoster.processCreated hFresh (s.processCreated r)
  | createThread r =>
    rcases hStep with ⟨_, hEq⟩
    rw [hEq]
    rcases s.createThread_cases r with ⟨_, _, n, hSame⟩ | ⟨c, _, _, hCreated⟩
    · rw [hSame]
      exact hRoster.sameShape (SameShape.of_blocks rfl rfl rfl)
    · exact hRoster.threadCreated hCreated
  | exit code =>
    rcases hStep with ⟨_, _, hEq⟩
    rw [hEq]
    exact hRoster.sameShape (SameShape.updateTCB s s.currentThread (fun _ => ⟨rfl, rfl⟩))
  | registers fsBase gsBase shadowGsBase fpu =>
    cases hStep
    exact hRoster.sameShape (SameShape.of_blocks rfl rfl rfl)
  | enable enabled =>
    cases hStep
    exact hRoster.sameShape (SameShape.of_blocks rfl rfl rfl)
  | schedule i =>
    rcases hStep with ⟨hFresh, fuel, r, hHandler, hEq⟩
    rw [hEq]
    have hSelection := hRoster.sameShape (atSelection_shape s i.regs).1
    rcases handler_null_cases hHandler with ⟨_, hOff⟩ | ⟨_, reads, ⟨p, t, _, hSuccess⟩ | ⟨_, hIdle⟩⟩
    · rw [hOff]
      exact hRoster
    · rw [hSuccess]
      exact hSelection.sameShape (sameShape_success _ i p t reads)
    · rw [hIdle]
      exact (hSelection.withIdle (hFresh.atSelection i.regs)).sameShape (sameShape_idle _ i reads)

end

end Roster

theorem positioned_run {s₀ s : Multitasking} {es : List TaskEvent} (hStart : NoTasks s₀)
    (hEmpty : s₀.listProcess = []) (hRun : Run TaskStep s₀ es s) (hValid : s.currentValid = true) :
    Positioned s := by
  have hRoster₀ : Roster s₀ := by
    refine ⟨?_, ?_, ?_⟩
    · intro p
      rw [hEmpty]
      exact iff_of_false (hStart.processes p) (not_mem_nil)
    · rw [hEmpty]
      exact nodup_nil
    · intro t ht
      exact (hStart.threads t ht).elim
  have hRoster : Roster s := Run.invariant hRoster₀ (fun _ _ _ h hStep => h.step hStep) hRun
  have hInv : TaskInvariant s := Run.invariant hStart.invariant
      (fun _ _ _ h hStep => h.step hStep) hRun
  rcases currentValid_iff.mp hValid with ⟨hPCB, hTCB⟩
  have hThread := (invalidTCB_eq_false hTCB).1
  -- the parent of a valid current thread is current too
  have hParent : (s.tcb s.currentThread).parent = s.currentProcess := by
    rcases hInv.current with hNull | ⟨hMade, hIdle⟩ | ⟨_, h⟩
    · rw [hNull] at hThread
      exact (hInv.null hThread).elim
    · exact (hInv.idle.ne_of_valid hMade hTCB hIdle).elim
    · exact h
  rcases hRoster.thread _ hThread with ⟨_, hIn⟩
  rw [hParent] at hIn
  exact ⟨(hRoster.process _).mp (invalidPCB_eq_false hPCB).1, hRoster.once, hIn⟩

theorem positioned_run_switched : switched.currentValid = true ∧ Positioned switched := by
  have hValid : switched.currentValid = true := by
    decide +kernel
  exact ⟨hValid, positioned_run noTasks_emptyTasks rfl run_switched hValid⟩

end Fennix
