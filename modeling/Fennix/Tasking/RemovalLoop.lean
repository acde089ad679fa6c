import Fennix.Tasking.Removal
import Mathlib.Data.List.GetD

/-
  The loop that removes the threads of a process.
-/

namespace Fennix

open List Function

def visitedThreads : List Nat → List Nat
| x :: _ :: z :: ts => x :: visitedThreads (z :: ts)
| ts => ts

def skippedThreads : List Nat → List Nat
| _ :: y :: z :: ts => y :: skippedThreads (z :: ts)
| _ => []

theorem visited_append_skipped_perm (ts : List Nat) :
    (visitedThreads ts ++ skippedThreads ts).Perm ts := by
  fun_induction visitedThreads ts with
  | case1 x y z ts ih =>
    rw [skippedThreads, cons_append]
    apply List.Perm.cons x
    exact perm_middle.trans (List.Perm.cons y ih)
  | case2 ts hShort =>
    have hNone : skippedThreads ts = [] := by
      unfold skippedThreads
      split
      · rename_i hLong
        exact (hShort _ _ _ _ rfl).elim
      · rfl
    rw [hNone, append_nil]

theorem visitedThreads_sublist (ts : List Nat) : (visitedThreads ts).Sublist ts := by
  fun_induction visitedThreads ts with
  | case1 x y z ts ih => exact (ih.cons y).cons_cons x
  | case2 ts => exact List.Sublist.refl ts

theorem skippedThreads_eq_nil_iff {ts : List Nat} : skippedThreads ts = [] ↔ ts.length ≤ 2 := by
  match ts with
  | [] => simp [skippedThreads]
  | [x] => simp [skippedThreads]
  | [x, y] => simp [skippedThreads]
  | x :: y :: z :: ts => simp [skippedThreads]

def Padded (v : Vector Nat) (n j : Nat) (post : List Nat) (last : Nat) : Prop :=
  ∀ d, j + d < n → v.vectorBuffer.read (j + d) = some (post.getD d last)

def EndsIn (post : List Nat) (last : Nat) : Prop :=
  ∀ d, post.length ≤ d + 1 → post.getD d last = last

theorem EndsIn.tail {x last : Nat} {post : List Nat} (h : EndsIn (x :: post) last) :
    EndsIn post last := by
  intro d hd
  have hNext := h (d + 1) (Nat.succ_le_succ hd)
  rwa [getD_cons_succ] at hNext

theorem EndsIn.head {x last : Nat} (h : EndsIn [x] last) : x = last :=
  h 0 (Nat.le_refl 1)

theorem endsIn_getLast {ts : List Nat} (hSome : ts ≠ []) : EndsIn ts (ts.getLast hSome) := by
  intro d hd
  by_cases hEnd : d < ts.length
  · rw [getLast_eq_getElem, getD_eq_getElem _ _ hEnd]
    congr 1
    omega
  · exact getD_eq_default _ _ (by omega)

section Cells

variable {v v' : Vector Nat} {pre post scratch : List Nat} {n x last : Nat}

theorem Padded.removed_here (h : Padded v n pre.length (x :: post) last)
    (hHolds : v.Holds (pre ++ x :: post)) (hEnds : EndsIn (x :: post) last)
    (hLength : 2 * pre.length + (post.length + 1) = n) (hRoom : n ≤ v.vectorCapacity.toNat)
    (hIndex : (UInt64.ofNat pre.length).toNat = pre.length)
    (hRemove : (SequenceCall.remove (UInt64.ofNat pre.length)).performWith v scratch = some v') :
    Padded v' n (pre.length + 1) post.tail last := by
  intro d hd
  have hSize : (pre ++ x :: post).length = pre.length + (post.length + 1) := by
    simp
  rw [hHolds.read_removed (by omega) (by omega) hRemove (by omega) (by omega), hIndex, hSize]
  have hTail : post.tail.getD d last = post.getD (d + 1) last := by
    rw [getD_eq_getElem?_getD, getElem?_tail, getD_eq_getElem?_getD]
  rw [hTail]
  by_cases hMoved : pre.length + 1 + d + 1 < n
  · rw [if_pos (by omega), show pre.length + 1 + d + 1 = pre.length + (d + 2) by omega,
      h (d + 2) (by omega)]
    rfl
  -- the last cell stays, and it holds `last`
  rw [if_neg (by omega), show pre.length + 1 + d = pre.length + (d + 1) by omega,
    h (d + 1) (by omega)]
  rw [getD_cons_succ, hEnds.tail d (by omega), hEnds.tail (d + 1) (by omega)]

theorem Padded.removed_last (h : Padded v n (pre.length + 1) [] last)
    (hHolds : v.Holds (pre ++ [last])) (hLength : 2 * (pre.length + 1) = n)
    (hRoom : n ≤ v.vectorCapacity.toNat) (hIndex : (UInt64.ofNat pre.length).toNat = pre.length)
    (hRemove : (SequenceCall.remove (UInt64.ofNat pre.length)).performWith v scratch = some v') :
    Padded v' n (pre.length + 1 + 1) [] last := by
  intro d hd
  have hSize : (pre ++ [last]).length = pre.length + 1 := by
    simp
  rw [hHolds.read_removed (by omega) (by omega) hRemove (by omega) (by omega), hIndex, hSize]
  split
  · rw [show pre.length + 1 + 1 + d + 1 = pre.length + 1 + (d + 2) by omega, h _ (by omega)]
    rfl
  · rw [show pre.length + 1 + 1 + d = pre.length + 1 + (d + 1) by omega, h _ (by omega)]
    rfl

end Cells

/-
  After `j` rounds: the threads that are in the vector, those that were freed and those ahead of the
  loop.
-/
inductive LoopPhase (ts : List Nat) (last : Nat) : Nat → List Nat → List Nat → List Nat → Prop
| inside {pre done post : List Nat} {x : Nat} :
    2 * pre.length + (post.length + 1) = ts.length →
    visitedThreads ts = done ++ visitedThreads (x :: post) →
    skippedThreads ts = pre ++ skippedThreads (x :: post) →
    LoopPhase ts last pre.length (pre ++ x :: post) done (x :: post)
| atLast {pre done : List Nat} :
    2 * (pre.length + 1) = ts.length →
    visitedThreads ts = done ++ [last] →
    skippedThreads ts = pre →
    LoopPhase ts last (pre.length + 1) (pre ++ [last]) done []
| ended {j : Nat} :
    last ∈ visitedThreads ts →
    LoopPhase ts last j (skippedThreads ts) (visitedThreads ts) []

theorem LoopPhase.next {ts pre done post : List Nat} {last x : Nat}
    (hLength : 2 * pre.length + (post.length + 1) = ts.length)
    (hVisited : visitedThreads ts = done ++ visitedThreads (x :: post))
    (hSkipped : skippedThreads ts = pre ++ skippedThreads (x :: post))
    (hEnds : EndsIn (x :: post) last) : LoopPhase ts last (pre.length + 1) (pre ++ post)
    (done ++ [x]) post.tail := by
  match post with
  | [] =>
    have hLast := hEnds.head
    simp only [skippedThreads, append_nil] at hSkipped
    simp only [visitedThreads] at hVisited
    rw [append_nil, ← hSkipped, ← hVisited]
    apply LoopPhase.ended
    rw [hVisited, hLast]
    simp
  | [y] =>
    have hLast := hEnds.tail.head
    simp only [skippedThreads, append_nil] at hSkipped
    rw [hLast]
    refine LoopPhase.atLast ?_ ?_ hSkipped
    · simp only [length_singleton] at hLength
      omega
    · rw [hVisited, hLast]
      simp [visitedThreads]
  | y :: z :: rest =>
    have hInside : LoopPhase ts last (pre ++ [y]).length ((pre ++ [y]) ++ z :: rest) (done ++ [x])
      (z :: rest) := by
      apply LoopPhase.inside
      · simp only [length_append, length_cons, length_nil] at hLength ⊢
        omega
      · rw [hVisited]
        simp [visitedThreads]
      · rw [hSkipped]
        simp [skippedThreads]
    simpa using hInside

namespace Stage

variable {m₀ m : TaskMemory} {family freed gone ts live done post : List Nat}
variable {left : Nat → List Nat} {misuses p last j : Nat}

structure Untouched (m₀ : TaskMemory) (family freed gone : List Nat) (p : Nat)
    (ts : List Nat) : Prop where
  family : p ∈ family
  alive : p ∉ gone
  nodup : ts.Nodup
  parent : ∀ t ∈ ts, (m₀.threads t).parent = p
  fresh : ∀ t ∈ ts, t ∉ freed

structure Looping (m₀ : TaskMemory) (family : List Nat) (left : Nat → List Nat) (freed : List Nat)
    (misuses : Nat) (gone : List Nat) (p : Nat) (ts : List Nat) (last j : Nat) (m : TaskMemory)
    (live done post : List Nat) : Prop where
  untouched : Untouched m₀ family freed gone p ts
  phase : LoopPhase ts last j live done post
  stage : Stage m₀ family m (update left p live) (freed ++ done) (misuses + j) gone
  perm : (done ++ live).Perm ts
  padded : Padded (m.processes p).threads ts.length j post last
  ends : EndsIn post last
  room : ts.length ≤ (m.processes p).threads.vectorCapacity.toNat

theorem Looping.removes {pre rest ahead : List Nat} {x : Nat}
    (h : Looping m₀ family left freed misuses gone p ts last j m (pre ++ x :: rest) done post)
    (behind : Behind) (hPhase : LoopPhase ts last (j + 1) (pre ++ rest) (done ++ [x]) ahead)
    (hEnds : EndsIn ahead last)
    (hPadded : ∀ v' scratch, (UInt64.ofNat pre.length).toNat = pre.length → (SequenceCall.remove
    (UInt64.ofNat pre.length)).performWith (m.processes p).threads scratch = some v' →
    Padded v' ts.length (j + 1) ahead last) : ∃ m', m.removeThread behind x = some m' ∧
    Looping m₀ family left freed misuses gone p ts last
    (j + 1) m' (pre ++ rest) (done ++ [x]) ahead := by
  have hp := h.untouched
  have hAll := (h.perm.nodup_iff).mpr hp.nodup
  have hMem : x ∈ ts := h.perm.subset (by simp)
  have hNotPre : x ∉ pre := by
    have hLive := (nodup_append.mp hAll).2.1
    intro hIn
    exact (nodup_append.mp hLive).2.2 x hIn x mem_cons_self rfl
  have hNotDone : x ∉ done := by
    intro hIn
    exact (nodup_append.mp hAll).2.2 x hIn x (by simp) rfl
  rcases h.stage.removeThread_found behind hp.family hp.alive (hp.parent x hMem)
    (update_self p _ left) hNotPre (by
        rw [mem_append]
        exact not_or_intro (hp.fresh x hMem) hNotDone) with
    ⟨m', scratch, hRemove, hStage, hVector⟩
  rw [update_idem, append_assoc, Nat.add_assoc] at hStage
  have hIndex : (UInt64.ofNat pre.length).toNat = pre.length := by
    have hHolds := h.stage.threads p hp.family
    rw [update_self] at hHolds
    exact (hHolds.remove_middle (behind.long m _ _)).1
  refine ⟨m', hRemove, hp, hPhase, hStage, ?_, hPadded _ _ hIndex hVector, hEnds, ?_⟩
  · refine List.Perm.trans ?_ h.perm
    rw [append_assoc]
    apply List.Perm.append_left
    rw [singleton_append]
    exact perm_middle.symm
  · rw [Vector.Holds.capacity_removed hVector]
    exact h.room

theorem Looping.round (h : Looping m₀ family left freed misuses gone p ts last j m live done post)
    (behind : Behind) (hj : j < ts.length) : ∃ m' live done post,
    ((m.processes p).threads.vectorBuffer.read j).bind
    (fun t => m.removeThread behind t) = some m' ∧
    Looping m₀ family left freed misuses gone p ts last (j + 1) m' live done post := by
  have hp := h.untouched
  have hCell := h.padded 0 hj
  rw [Nat.add_zero] at hCell
  have hHolds := h.stage.threads p hp.family
  rw [update_self] at hHolds
  rw [hCell, Option.bind_some]
  have hPhase := h.phase
  cases hPhase with
  | @inside pre done post x hLength hVisited hSkipped =>
    rcases h.removes behind (LoopPhase.next hLength hVisited hSkipped h.ends)
      (show EndsIn post.tail last by
          cases post with
          | nil => exact h.ends.tail
          | cons y post => exact h.ends.tail.tail)
        (fun v' scratch hIndex hRemove => h.padded.removed_here hHolds h.ends hLength
            h.room hIndex hRemove) with
      ⟨m', hRemove, hNext⟩
    exact ⟨m', _, _, _, hRemove, hNext⟩
  | @atLast pre done hLength hVisited hSkipped =>
    rcases h.removes behind (by
          rw [append_nil, ← hSkipped, ← hVisited]
          apply LoopPhase.ended
          rw [hVisited]
          simp)
        h.ends
        (fun v' scratch hIndex hRemove => h.padded.removed_last hHolds hLength h.room
            hIndex hRemove) with
      ⟨m', hRemove, hNext⟩
    exact ⟨m', _, _, _, hRemove, hNext⟩
  | ended hLast =>
    have hMem : last ∈ ts := h.perm.subset (mem_append_left _ hLast)
    have hNotLeft : last ∉ skippedThreads ts := by
      have hAll := (h.perm.nodup_iff).mpr hp.nodup
      intro hIn
      exact (nodup_append.mp hAll).2.2 last hLast last hIn rfl
    rcases h.stage.removeThread_freed behind hp.family hp.alive (hp.parent last hMem)
      (by rw [update_self]; exact hNotLeft) (mem_append_right _ hLast) with
      ⟨m', hRemove, hStage, hSame⟩
    refine ⟨m', _, _, _, hRemove, hp, .ended hLast, hStage, h.perm, ?_, h.ends, ?_⟩
    · intro d hd
      rw [hSame, show j + 1 + d = j + (d + 1) by omega]
      exact h.padded (d + 1) (by omega)
    · rw [hSame]
      exact h.room

theorem removeThreads (h : Stage m₀ family m left freed misuses gone)
    (hp : Untouched m₀ family freed gone p ts) (behind : Behind) (hLeft : left p = ts) :
    ∃ m', TaskMemory.removeThreads behind true p ts.length m = some m' ∧
    Stage m₀ family m' (update left p (skippedThreads ts)) (freed ++ visitedThreads ts)
    (misuses + ts.length) gone := by
  by_cases hSome : ts = []
  · refine ⟨m, by rw [hSome]; rfl, ?_⟩
    rw [hSome] at hLeft ⊢
    have hSame : update left p [] = left := by
      rw [← hLeft, update_eq_self]
    simpa [skippedThreads, visitedThreads, hSame] using h
  let last := ts.getLast hSome
  have hHolds := h.threads p hp.family
  rw [hLeft] at hHolds
  have hStart : Looping m₀ family left freed misuses gone p ts last 0 m ts [] ts := by
    refine ⟨hp, ?_, ?_, List.Perm.refl _, ?_, endsIn_getLast hSome, ?_⟩
    · obtain ⟨x, post, rfl⟩ := exists_cons_of_ne_nil hSome
      show LoopPhase _ last ([] : List Nat).length ([] ++ x :: post) [] (x :: post)
      exact LoopPhase.inside (by simp) rfl rfl
    · rw [← hLeft, update_eq_self, append_nil]
      exact h
    · intro d hd
      rw [Nat.zero_add] at hd ⊢
      rw [hHolds.elements d hd, getD_eq_getElem _ _ hd]
      exact getElem?_eq_getElem hd
    · have hCapacity := UInt64.le_iff_toNat_le.mp hHolds.fits.size
      rwa [hHolds.size] at hCapacity
  have hRounds : ∀ k ≤ ts.length, ∃ m' live done post,
      TaskMemory.removeThreads behind true p k m = some m' ∧
      Looping m₀ family left freed misuses gone p ts last k m' live done post := by
    intro k hk
    induction k with
    | zero => exact ⟨m, ts, [], ts, rfl, hStart⟩
    | succ k ih =>
      rcases ih (by omega) with ⟨t, live, done, post, hRun, hLoop⟩
      rcases hLoop.round behind (by omega) with ⟨m', live', done', post', hRound, hNext⟩
      refine ⟨m', live', done', post', ?_, hNext⟩
      exact Option.bind_eq_some_iff.mpr ⟨t, hRun, hRound⟩
  rcases hRounds ts.length (Nat.le_refl _) with ⟨m', live, done, post, hRun, hLoop⟩
  refine ⟨m', hRun, ?_⟩
  have hStage := hLoop.stage
  -- after so many rounds nothing is ahead of the loop
  generalize hn : ts.length = n at hLoop hStage
  have hPhase := hLoop.phase
  cases hPhase with
  | inside hLength => omega
  | atLast hLength => omega
  | ended => exact hStage

end Stage

end Fennix
