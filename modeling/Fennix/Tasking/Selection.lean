import Fennix.Tasking.Progress

/-
  What the scheduler selects.
-/

namespace Fennix

open List Option

section Retry

variable {beyond : Nat → Nat} {invalid ready : Nat → Bool} {xs pre rest : List Nat}
variable {tmpidx fuel : Nat} {r : Search Nat}

theorem retry_null_none (hNull : ∀ k, invalid (beyond k) = true) (hSplit : xs = pre ++ rest)
    (hIndex : pre.length ≤ tmpidx + 1) (hFind : rest.find? (fun x => !invalid x) = none)
    (hRetry : retry xs beyond invalid ready fuel tmpidx = some r) : r.found = none := by
  induction fuel generalizing tmpidx r with
  | zero => cases hRetry
  | succ fuel ih =>
    -- inside the vector and behind it all is invalid
    have hInvalid : invalid (xs.getD (tmpidx + 1) (beyond (tmpidx + 1))) = true := by
      rw [getD_eq_getElem?_getD]
      cases hEntry : xs[tmpidx + 1]? with
      | none => exact hNull _
      | some x =>
        rw [hSplit, getElem?_append_right hIndex] at hEntry
        have hMem := mem_of_getElem? hEntry
        have hNot := find?_eq_none.mp hFind x hMem
        simpa using hNot
    rw [retry, if_pos hInvalid] at hRetry
    split at hRetry
    · cases hRetry
      rfl
    rcases map_eq_some_iff.mp hRetry with ⟨r', hAgain, hEq⟩
    have hNone := ih (Nat.le_succ_of_le hIndex) hAgain
    rw [← hEq]
    exact hNone

theorem retry_null (hNull : ∀ k, invalid (beyond k) = true) (hSplit : xs = pre ++ rest)
    (hIndex : pre.length = tmpidx + 1)
    (hRetry : retry xs beyond invalid ready fuel tmpidx = some r) :
    r.found = rest.find? (fun x => !invalid x) ∧ ∀ x, r.found = some x → ready x = true := by
  cases hFind : rest.find? (fun x => !invalid x) with
  | none =>
    have hNone := retry_null_none hNull hSplit (Nat.le_of_eq hIndex) hFind hRetry
    refine ⟨hNone, ?_⟩
    intro x hx
    rw [hNone] at hx
    cases hx
  | some x =>
    rcases retry_some hSplit hIndex hFind hRetry with ⟨hReady, hFound⟩
    refine ⟨hFound, ?_⟩
    intro y hy
    rw [hFound] at hy
    cases hy
    exact hReady

end Retry

structure Selected (s : Multitasking) (p t : Nat) : Prop where
  process : s.invalidPCB p = false
  thread : s.invalidTCB t = false
  mem : t ∈ (s.pcb p).threads
  ready : (s.tcb t).status = .ready

namespace Multitasking

variable {s : Multitasking} {fuel : Nat}

theorem invalidPCB_null (s : Multitasking) : s.invalidPCB 0 = true := rfl

theorem invalidTCB_null (s : Multitasking) : s.invalidTCB 0 = true := rfl

theorem nextThread_null {r : Search Nat} (hNext : s.nextThread Beyond.null fuel = some r) :
    (∀ t, r.found = some t → s.readyThread t = true) ∧ r.found =
    if s.currentThread ∈ (s.pcb s.currentProcess).threads then
    s.threadsBehind.find? (fun t => !s.invalidTCB t) else none := by
  rw [nextThread] at hNext
  by_cases hIn : s.currentThread ∈ (s.pcb s.currentProcess).threads
  · rw [if_pos hIn] at hNext
    rcases map_eq_some_iff.mp hNext with ⟨r', hRetry, hEq⟩
    rcases threads_split hIn with ⟨pre, hSplit, hIndex⟩
    rcases retry_null (fun _ => s.invalidTCB_null) hSplit hIndex hRetry with ⟨hFound, hReady⟩
    rw [if_pos hIn, ← hEq]
    exact ⟨hReady, hFound⟩
  rw [if_neg hIn] at hNext
  cases hNext
  rw [if_neg hIn]
  refine ⟨?_, rfl⟩
  intro t ht
  cases ht

variable {t : Nat} {reads : List Read}

theorem selected_of_nextThread (hValid : s.invalidPCB s.currentProcess = false)
    (hNext : s.nextThread Beyond.null fuel = some ⟨some t, reads⟩) :
    Selected s s.currentProcess t := by
  rcases nextThread_null hNext with ⟨hReady, hFound⟩
  have hReadyT := hReady t rfl
  split at hFound
  · have hMem := mem_of_find?_eq_some hFound.symm
    have hTest := find?_some hFound.symm
    exact ⟨hValid, by simpa using hTest, mem_of_mem_drop hMem, by
        simpa [readyThread] using hReadyT⟩
  · cases hFound
variable {p : Nat}

theorem findThread_some (hFind : s.findThread p = some t) :
    t ∈ (s.pcb p).threads ∧ s.invalidTCB t = false ∧ (s.tcb t).status = .ready := by
  have hTest := find?_some hFind
  rw [Bool.and_eq_true] at hTest
  refine ⟨mem_of_find?_eq_some hFind, ?_, ?_⟩
  · simpa using hTest.1
  · simpa [readyThread] using hTest.2

theorem selected_of_nextProcessFrom {pre rest : List Nat} {i : Nat}
    (hSplit : s.listProcess = pre ++ rest) (hIndex : pre.length = i)
    (hFrom : s.nextProcessFrom Beyond.null fuel rest i = some ⟨some (p, t), reads⟩) :
    Selected s p t := by
  induction rest generalizing pre i reads with
  | nil => cases hFrom
  | cons q rest ih =>
    rcases split_advance hSplit hIndex with ⟨hNext, hStep⟩
    rcases nextProcessFrom_cons hFrom with ⟨_, ⟨found, more⟩, first, hRest, hEq⟩ |
      ⟨_, found, more, _, hRetry, _, ⟨_, hNone⟩ | ⟨k, u, hFound, hThread, hEq⟩ |
      ⟨_, ⟨found, more⟩, first, _, _, hRest, hEq⟩⟩
    · cases hEq
      exact ih hNext hStep hRest
    · cases hNone
    · cases hFound
      cases hEq
      have hFirst := (retry_null (fun _ => s.invalidPCB_null) hNext hStep hRetry).1
      have hTest := find?_some hFirst.symm
      rcases findThread_some hThread with ⟨hMem, hValid, hReady⟩
      exact ⟨by simpa using hTest, hValid, hMem, hReady⟩
    · cases hEq
      exact ih hNext hStep hRest

variable {ps : List Nat}

theorem selected_of_searchAll (hSearch : s.searchAll ps = some (p, t)) : Selected s p t := by
  induction ps with
  | nil => cases hSearch
  | cons q ps ih =>
    rw [searchAll] at hSearch
    split at hSearch
    · exact ih hSearch
    rename_i hValid
    split at hSearch
    · exact ih hSearch
    cases hThread : s.findThread q with
    | none =>
      rw [hThread] at hSearch
      exact ih hSearch
    | some u =>
      rw [hThread] at hSearch
      cases hSearch
      rcases findThread_some hThread with ⟨hMem, hTCB, hReady⟩
      exact ⟨by simpa using hValid, hTCB, hMem, hReady⟩

theorem searchAll_eq_none_iff : s.searchAll ps = none ↔
    ∀ p ∈ ps, s.invalidPCB p = false → (s.pcb p).status = .ready →
    ∀ t ∈ (s.pcb p).threads, s.invalidTCB t = false → (s.tcb t).status ≠ .ready := by
  induction ps with
  | nil => simp [searchAll]
  | cons q ps ih =>
    rw [forall_mem_cons, ← ih, searchAll]
    cases hValid : s.invalidPCB q with
    | true => simp
    | false =>
      by_cases hReady : (s.pcb q).status = .ready
      · cases hThread : s.findThread q with
        | some u =>
          rcases findThread_some hThread with ⟨hMem, hTCB, hReadyU⟩
          simp only [readyProcess, hReady, decide_true, Bool.false_eq_true, if_false, reduceCtorEq,
            false_iff, Bool.true_eq_false, not_and]
          intro hAll
          exact (hAll trivial trivial u hMem hTCB hReadyU).elim
        | none =>
          have hNone := find?_eq_none.mp hThread
          simp only [readyProcess, hReady, decide_true, Bool.false_eq_true, if_false,
            Bool.true_eq_false]
          constructor
          · intro hRest
            refine ⟨?_, hRest⟩
            intro _ _ t ht hTCB hReadyT
            apply hNone t ht
            simp [hTCB, readyThread, hReadyT]
          · exact fun h => h.2
      · simp [readyProcess, hReady]

def atSelection (s : Multitasking) (regs : ThreadRegisters) : Multitasking :=
  if s.currentValid then s.preempt regs else s

theorem invalidPCB_preempt (regs : ThreadRegisters) (hValid : s.currentValid = true) :
    (s.preempt regs).invalidPCB (s.preempt regs).currentProcess = false := by
  rw [(s.sameShape_preempt regs).invalidPCB_eq]
  rw [currentValid, Bool.and_eq_true] at hValid
  simpa using hValid.1

theorem handler_null_cases {i : Interrupt} {r : Scheduled}
    (h : s.multiTaskingSchedulerHandler Beyond.null fuel i = some r) :
    (s.schedulerEnabled = false ∧ r = ⟨s, i.regs, .disabled, []⟩) ∨ s.schedulerEnabled = true ∧
    ∃ reads, (∃ p t, Selected (s.atSelection i.regs) p t ∧
    r = (s.atSelection i.regs).success i p t reads) ∨ (s.atSelection i.regs).searchAll
    (s.atSelection i.regs).listProcess = none ∧ r = (s.atSelection i.regs).idle i reads := by
  have hSearch : ∀ (s₁ : Multitasking) reads, r = s₁.searchOrIdle i reads →
    (∃ p t, Selected s₁ p t ∧ r = s₁.success i p t reads) ∨
    s₁.searchAll s₁.listProcess = none ∧ r = s₁.idle i reads := by
    intro s₁ reads hEq
    unfold searchOrIdle at hEq
    cases hAll : s₁.searchAll s₁.listProcess with
    | none =>
      rw [hAll] at hEq
      exact .inr ⟨rfl, hEq⟩
    | some pair =>
      rw [hAll] at hEq
      exact .inl ⟨pair.1, pair.2, selected_of_searchAll hAll, hEq⟩
  rcases handler_cases h with hOff | ⟨hEnabled, ⟨hInvalid, hEq⟩ |
    ⟨hValid, found, reads, hThread, hFound⟩⟩
  · exact .inl hOff
  · refine Or.inr ⟨hEnabled, [], ?_⟩
    rw [atSelection, if_neg (by simp [hInvalid])]
    exact hSearch s [] hEq
  · rw [atSelection, if_pos hValid]
    have hProcess := invalidPCB_preempt i.regs hValid
    refine Or.inr ⟨hEnabled, ?_⟩
    rcases hFound with ⟨t, hSome, hEq⟩ | ⟨_, next, more, hNext, ⟨p, t, hSome, hEq⟩ | ⟨_, hEq⟩⟩
    · rw [hSome] at hThread
      exact ⟨reads, Or.inl ⟨_, t, selected_of_nextThread hProcess hThread, hEq⟩⟩
    · rw [hSome] at hNext
      have hSplit : (s.preempt i.regs).listProcess = [] ++ (s.preempt i.regs).listProcess := rfl
      exact ⟨_, Or.inl ⟨p, t, selected_of_nextProcessFrom hSplit rfl hNext, hEq⟩⟩
    · exact ⟨_, hSearch _ _ hEq⟩

theorem idle_only_if_nothing_ready {i : Interrupt} {r : Scheduled}
    (h : s.multiTaskingSchedulerHandler Beyond.null fuel i = some r) (hIdle : r.outcome = .idle) :
    ∀ p ∈ (s.atSelection i.regs).listProcess, (s.atSelection i.regs).invalidPCB p = false →
    ((s.atSelection i.regs).pcb p).status = .ready → ∀ t ∈ ((s.atSelection i.regs).pcb p).threads,
    (s.atSelection i.regs).invalidTCB t = false →
    ((s.atSelection i.regs).tcb t).status ≠ .ready := by
  rcases handler_null_cases h with ⟨_, hEq⟩ | ⟨_, reads, ⟨p, t, _, hEq⟩ | ⟨hNone, _⟩⟩
  · rw [hEq] at hIdle
    cases hIdle
  · rw [hEq] at hIdle
    cases hIdle
  · exact searchAll_eq_none_iff.mp hNone

def exitedThread : Multitasking :=
  sampleTasks [0x1000] (fun _ => samplePCB .running [0x2000])
    (fun _ => sampleTCB .terminated 0x1000)

theorem idle_only_if_nothing_ready_exitedThread : ∃ r, exitedThread.multiTaskingSchedulerHandler
    Beyond.null 8 sampleInterrupt = some r ∧ r.outcome = .idle ∧
    ((exitedThread.atSelection sampleInterrupt.regs).tcb 0x2000).status ≠ .ready := by
  have hOutcome : (exitedThread.multiTaskingSchedulerHandler Beyond.null
    8 sampleInterrupt).map Scheduled.outcome = some .idle := by
    decide +kernel
  rcases map_eq_some_iff.mp hOutcome with ⟨r, hHandler, hIdle⟩
  refine ⟨r, hHandler, hIdle, ?_⟩
  exact idle_only_if_nothing_ready hHandler hIdle 0x1000
    (by decide) (by decide) (by decide) 0x2000 (by decide) (by decide)

end Multitasking

end Fennix
