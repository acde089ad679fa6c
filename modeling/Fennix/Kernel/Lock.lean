import Mathlib.Data.List.Count
import Mathlib.Data.List.Nodup
import Mathlib.Logic.Nontrivial.Defs
import Fennix.Library.Run

/-
  Spin locks over any number of CPUs and any number of locks.

  A step is one access to shared memory: the bit test of `spinlock_lock`, the test in its `spin`
  loop, an access of `deadlock_handler` to the counter `timeout`, or the bit reset of
  `spinlock_unlock`. The counter is shared by all locks and is raised without a lock of its own. A
  forced unlock takes the lock from under its holder, so a lock is exclusive just as long as the
  twentieth time-out has not been counted. A CPU unlocks only what it is inside of.
-/

------ The Machine

namespace Fennix

namespace Spinlock

/- Where a CPU stands; `running` is all code outside the lock's own functions. -/
inductive Position (ι : Type) where
| running
| locking (l : ι)
| spinning (l : ι) (rax : BitVec 64)
| counting (l : ι)
| storing (l : ι) (timeout : BitVec 32)
| comparing (l : ι)
| resetting (l : ι)
| forcing (l : ι)
| returning (l : ι)

/-
  The last three are history: who is inside which lock, how many time-outs were counted, and which
  locks the handler has opened.
-/
structure State (ι κ : Type) where
  lockData : ι → Bool
  timeout : BitVec 32
  position : κ → Position ι
  inside : List (κ × ι)
  timeouts : Nat
  forced : List ι

inductive Event (ι : Type) where
| lock (l : ι)
| unlock (l : ι)
| next (rax : BitVec 64)

variable {ι κ : Type} [DecidableEq ι] [DecidableEq κ]

namespace State

def start : State ι κ :=
  ⟨fun _ => false, 0, fun _ => .running, [], 0, []⟩

def goto (s : State ι κ) (c : κ) (p : Position ι) : State ι κ :=
  { s with position := Function.update s.position c p }

def setBit (s : State ι κ) (l : ι) (b : Bool) : State ι κ :=
  { s with lockData := Function.update s.lockData l b }

/- The access that comes next where `c` stands. The handler leaves any value behind in `rax`. -/
def next (s : State ι κ) (c : κ) (rax : BitVec 64) : Position ι → State ι κ
| .running => s
| .locking l =>
  if s.lockData l then s.goto c (.spinning l 0)
  else { s.setBit l true with inside := (c, l) :: s.inside }.goto c .running
| .spinning l count =>
  if count + 1 = 0x10000000 then s.goto c (.counting l)
  else s.goto c (if s.lockData l then .spinning l (count + 1) else .locking l)
-- `timeout++` reads the counter and stores it again, and the comparison reads it once more.
| .counting l => s.goto c (.storing l s.timeout)
| .storing l t =>
  { s with timeout := t + 1, timeouts := s.timeouts + 1 }.goto c (.comparing l)
| .comparing l => s.goto c (if s.timeout = 20 then .resetting l else .returning l)
| .resetting l => { s with timeout := 0 }.goto c (.forcing l)
| .forcing l => { s.setBit l false with forced := l :: s.forced }.goto c (.returning l)
| .returning l => s.goto c (.spinning l rax)

def step (s : State ι κ) (c : κ) : Event ι → State ι κ
| .lock l =>
  match s.position c with
  | .running => s.goto c (.locking l)
  | _ => s
| .unlock l =>
  match s.position c with
  | .running =>
    if (c, l) ∈ s.inside then { s.setBit l false with inside := s.inside.erase (c, l) }
    else s
  | _ => s
| .next rax => s.next c rax (s.position c)

end State

def Step (s : State ι κ) (e : κ × Event ι) (s' : State ι κ) : Prop :=
  s' = s.step e.1 e.2

def Reachable (s : State ι κ) : Prop :=
  ∃ es, Run Step State.start es s

theorem Reachable.step {s : State ι κ} (hReach : Reachable s) (c : κ) (e : Event ι) :
    Reachable (s.step c e) := by
  rcases hReach with ⟨es, hRun⟩
  exact ⟨es ++ [(c, e)], hRun.snoc rfl⟩

------ What Every Step Keeps

section Holders

omit [DecidableEq κ]

def State.holders (s : State ι κ) (l : ι) : Nat :=
  s.inside.countP (·.2 = l)

def Position.Within (n : Nat) : Position ι → Prop
| .storing _ t => t.toNat ≤ n
| .resetting _ => 20 ≤ n
| .forcing _ => 20 ≤ n
| _ => True

omit [DecidableEq ι] in
theorem Position.Within.mono {n m : Nat} {p : Position ι} (h : p.Within n) (hLe : n ≤ m) :
    p.Within m := by
  cases p with
  | storing l t => exact Nat.le_trans h hLe
  | resetting l => exact Nat.le_trans h hLe
  | forcing l => exact Nat.le_trans h hLe
  | _ => trivial

/-
  No CPU is inside a lock without its bit or an earlier forced unlock to account for it. The value
  of `timeout`, also as a CPU has read it, is at most the number of time-outs counted, for an
  increment that another one overwrites is lost but none is made up.
-/
structure Guarded (s : State ι κ) : Prop where
  holders_le : ∀ l, s.holders l ≤ (s.lockData l).toNat + s.forced.count l
  timeout_le : s.timeout.toNat ≤ s.timeouts
  position : ∀ c, (s.position c).Within s.timeouts
  forced : s.forced ≠ [] → 20 ≤ s.timeouts

theorem Guarded.exclusive {s : State ι κ} (h : Guarded s) (hFew : s.timeouts < 20) (l : ι) :
    s.holders l ≤ 1 := by
  have hForced : s.forced = [] := by
    by_contra hNe
    exact absurd (h.forced hNe) (Nat.not_le.mpr hFew)
  have hLe := h.holders_le l
  have hBit := Bool.toNat_le (s.lockData l)
  rw [hForced, List.count_nil] at hLe
  omega

theorem Guarded.store {s : State ι κ} (h : Guarded s) {t : BitVec 32}
    (hRead : t.toNat ≤ s.timeouts) :
    Guarded { s with timeout := t + 1, timeouts := s.timeouts + 1 } where
  holders_le := h.holders_le
  position := fun c => (h.position c).mono (Nat.le_succ _)
  forced := fun hNe => Nat.le_succ_of_le (h.forced hNe)
  timeout_le := by
    have hLe : (t + 1).toNat ≤ t.toNat + 1 := by
      rw [BitVec.toNat_add]
      exact Nat.mod_le _ _
    exact Nat.le_trans hLe (Nat.succ_le_succ hRead)

/- Only the lock whose bit is written needs a look. -/
theorem Guarded.write {s : State ι κ} (h : Guarded s) (l : ι) (b : Bool)
    {inside : List (κ × ι)} {forced : List ι} (hForced : forced ≠ [] → 20 ≤ s.timeouts)
    (hHere : inside.countP (·.2 = l) ≤ b.toNat + forced.count l)
    (hOther : ∀ k ≠ l, inside.countP (·.2 = k) ≤ s.holders k ∧
    s.forced.count k ≤ forced.count k) :
    Guarded { s.setBit l b with inside := inside, forced := forced } where
  timeout_le := h.timeout_le
  position := h.position
  forced := hForced
  holders_le := by
    intro k
    by_cases hSame : k = l
    · subst hSame
      simpa [State.holders, State.setBit] using hHere
    · have hLe := h.holders_le k
      have hKeep := hOther k hSame
      simp only [State.holders, State.setBit, Function.update_of_ne hSame] at *
      omega

end Holders

section Steps

variable {s : State ι κ} (h : Guarded s) (c : κ)

include h

theorem Guarded.goto {p : Position ι} (hWithin : p.Within s.timeouts) :
    Guarded (s.goto c p) where
  holders_le := h.holders_le
  timeout_le := h.timeout_le
  forced := h.forced
  position := by
    intro d
    by_cases hSame : d = c
    · subst hSame
      simpa [State.goto] using hWithin
    · simpa [State.goto, hSame] using h.position d

theorem Guarded.next (rax : BitVec 64) : Guarded (s.next c rax (s.position c)) := by
  have hHere := h.position c
  cases hAt : s.position c with
  | running => exact h
  | locking l =>
    rw [State.next]
    split
    case isTrue => exact h.goto c trivial
    case isFalse hFree =>
      have hLe := h.holders_le l
      simp only [State.holders, Bool.eq_false_iff.mpr hFree, Bool.toNat_false] at hLe
      refine (h.write l true h.forced ?_ ?_).goto c trivial
      · simp
        omega
      · intro k hNe
        simp [State.holders, hNe.symm]
  | spinning l count =>
    rw [State.next]
    split
    case isTrue => exact h.goto c trivial
    case isFalse =>
      apply h.goto c
      split <;> trivial
  | counting l => exact h.goto c h.timeout_le
  | storing l t =>
    rw [hAt] at hHere
    exact (h.store hHere).goto c trivial
  | comparing l =>
    rw [State.next]
    split
    case isTrue hTwenty =>
      have hLe := h.timeout_le
      rw [hTwenty] at hLe
      exact h.goto c hLe
    case isFalse => exact h.goto c trivial
  | resetting l =>
    rw [hAt] at hHere
    have hReset : Guarded { s with timeout := 0 } :=
      ⟨h.holders_le, Nat.zero_le _, h.position, h.forced⟩
    exact hReset.goto c hHere
  | forcing l =>
    rw [hAt] at hHere
    have hLe := h.holders_le l
    have hBit := Bool.toNat_le (s.lockData l)
    refine (h.write l false (fun _ => hHere) ?_ ?_).goto c trivial
    · simp only [State.holders] at hLe
      simp [State.setBit]
      omega
    · intro k hNe
      simp [State.holders, State.setBit, hNe.symm]
  | returning l => exact h.goto c trivial

theorem Guarded.step (e : Event ι) : Guarded (s.step c e) := by
  cases e with
  | lock l =>
    rw [State.step]
    split
    case h_1 => exact h.goto c trivial
    case h_2 => exact h
  | unlock l =>
    rw [State.step]
    split
    case h_2 => exact h
    case h_1 =>
    split
    case isFalse => exact h
    case isTrue hIn =>
      have hLe := h.holders_le l
      have hBit := Bool.toNat_le (s.lockData l)
      refine h.write l false h.forced ?_ ?_
      · have hPos : 0 < s.inside.countP (·.2 = l) := List.countP_pos_iff.mpr ⟨_, hIn, by simp⟩
        simp only [State.holders] at hLe
        rw [List.countP_erase]
        simp [hIn, State.setBit]
        omega
      · intro k hNe
        exact ⟨(List.erase_sublist).countP_le, Nat.le_refl _⟩
  | next rax => exact h.next c rax

end Steps

theorem Reachable.guarded {s : State ι κ} (hReach : Reachable s) : Guarded s := by
  have hStart : Guarded (State.start : State ι κ) :=
    ⟨fun _ => Nat.zero_le _, Nat.le_refl _, fun _ => trivial, fun hNe => absurd rfl hNe⟩
  rcases hReach with ⟨es, hRun⟩
  refine Run.invariant hStart ?_ hRun
  rintro s ⟨c, e⟩ s' h rfl
  exact h.step c e

------ The Twentieth Time-Out

/- `a` is inside the lock, and `n` time-outs were counted. -/
def waiting (a : κ) (l : ι) (n : Nat) : State ι κ where
  lockData := Function.update (fun _ => false) l true
  timeout := BitVec.ofNat 32 n
  position := fun _ => .running
  inside := [(a, l)]
  timeouts := n
  forced := []

section Forced

variable {s : State ι κ} {b : κ} {l : ι}

omit [DecidableEq ι] in
theorem goto_goto (s : State ι κ) (c : κ) (p q : Position ι) :
    (s.goto c p).goto c q = s.goto c q := by
  simp [State.goto]

theorem Reachable.next {p : Position ι} (hReach : Reachable (s.goto b p)) :
    Reachable ((s.goto b p).next b 0 p) := by
  simpa [State.step, State.goto] using hReach.step b (.next 0)

theorem Reachable.spin (hSet : s.lockData l = true)
    (hReach : Reachable (s.goto b (.spinning l 0))) {k : Nat} (hLess : k < 0x10000000) :
    Reachable (s.goto b (.spinning l (BitVec.ofNat 64 k))) := by
  induction k with
  | zero => exact hReach
  | succ k ih =>
    have hNext := (ih (by omega)).next
    have hNe : BitVec.ofNat 64 k + 1 ≠ 0x10000000 := by
      intro hEq
      have hNat := congrArg BitVec.toNat hEq
      simp at hNat
      omega
    have hStill : (s.goto b (.spinning l (BitVec.ofNat 64 k))).lockData l = true := hSet
    rw [State.next, if_neg hNe, if_pos hStill, goto_goto] at hNext
    rw [BitVec.ofNat_add]
    exact hNext

theorem Reachable.timesOut (hSet : s.lockData l = true)
    (hReach : Reachable (s.goto b (.spinning l 0))) :
    Reachable ({ s with timeout := s.timeout + 1, timeouts := s.timeouts + 1 }.goto b
      (.comparing l)) := by
  have hCount := (hReach.spin hSet (k := 0xfffffff) (by decide)).next
  rw [State.next, if_pos (by decide), goto_goto] at hCount
  have hStore := hCount.next
  rw [State.next, goto_goto] at hStore
  simpa [State.next, State.goto] using hStore.next

omit [DecidableEq κ] in
theorem waiting_counted (a : κ) (l : ι) (n : Nat) :
    { waiting a l n with
      timeout := (waiting a l n).timeout + 1
      timeouts := (waiting a l n).timeouts + 1 } = waiting a l (n + 1) := by
  simp [waiting, BitVec.ofNat_add]

theorem reachable_waiting (a b : κ) (l : ι) {n : Nat} (hLess : n < 20) :
    Reachable ((waiting a l n).goto b (.spinning l 0)) := by
  induction n with
  | zero =>
    have hStart : Reachable (State.start : State ι κ) := ⟨[], .nil⟩
    have hLock : Reachable (State.start.goto a (.locking l)) := hStart.step a (.lock l)
    have hInside : Reachable (waiting a l 0) := by
      simpa [State.next, State.start, State.goto, State.setBit, waiting] using hLock.next
    have hWait : Reachable ((waiting a l 0).goto b (.locking l)) := hInside.step b (.lock l)
    simpa [State.next, State.goto, waiting] using hWait.next
  | succ n ih =>
    have hCounted := (ih (by omega)).timesOut (by simp [waiting])
    rw [waiting_counted] at hCounted
    have hNe : ((waiting a l (n + 1)).goto b (.comparing l)).timeout ≠ 20 := by
      intro hEq
      have hNat := congrArg BitVec.toNat hEq
      simp [waiting, State.goto] at hNat
      omega
    have hReturn := hCounted.next
    rw [State.next, if_neg hNe, goto_goto] at hReturn
    simpa [State.next, State.goto] using hReturn.next

/- The handler has opened the lock that `a` is inside of. -/
def opened (a : κ) (l : ι) : State ι κ :=
  { waiting a l 20 with lockData := fun _ => false, timeout := 0, forced := [l] }

/- The CPU that the handler lets in, be it the holder itself, is inside as well. -/
theorem reachable_both_inside (a b : κ) (l : ι) :
    ∃ s : State ι κ, Reachable s ∧ s.timeouts = 20 ∧ s.inside = [(b, l), (a, l)] := by
  have hCounted := (reachable_waiting a b l (n := 19) (by decide)).timesOut (by simp [waiting])
  rw [waiting_counted] at hCounted
  have hReset : Reachable ((waiting a l 20).goto b (.resetting l)) := by
    simpa [State.next, State.goto, waiting] using hCounted.next
  have hForce : Reachable ({ waiting a l 20 with timeout := 0 }.goto b (.forcing l)) := by
    simpa [State.next, State.goto] using hReset.next
  have hReturn : Reachable ((opened a l).goto b (.returning l)) := by
    simpa [State.next, State.goto, State.setBit, waiting, opened] using hForce.next
  have hSpin : Reachable ((opened a l).goto b (.spinning l 0)) := by
    simpa [State.next, State.goto] using hReturn.next
  have hLock : Reachable ((opened a l).goto b (.locking l)) := by
    simpa [State.next, State.goto, opened] using hSpin.next
  exact ⟨_, hLock.next, rfl, rfl⟩

end Forced

omit [DecidableEq κ] in
theorem nodup_of_holders_le_one {s : State ι κ} (hOne : ∀ l, s.holders l ≤ 1) :
    (s.inside.map Prod.snd).Nodup := by
  rw [List.nodup_iff_count_le_one]
  intro l
  rw [List.count, List.countP_map]
  exact hOne l

/-
  Two CPUs are never inside one lock, and a CPU never gets into a lock it is inside of, as
  `Virtual::Mount` asks for when it calls `Create`, just as long as fewer than twenty time-outs
  were counted.
-/
theorem mutual_exclusion_iff [Nontrivial κ] [Nonempty ι] (n : Nat) :
    ((∀ s : State ι κ, Reachable s → s.timeouts ≤ n →
    ∀ l c d, (c, l) ∈ s.inside → (d, l) ∈ s.inside → c = d) ↔ n < 20) ∧
    ((∀ s : State ι κ, Reachable s → s.timeouts ≤ n → s.inside.Nodup) ↔ n < 20) := by
  have hExclusive : n < 20 → ∀ s : State ι κ, Reachable s → s.timeouts ≤ n →
      (s.inside.map Prod.snd).Nodup := by
    intro hFew s hReach hLe
    exact nodup_of_holders_le_one (hReach.guarded.exclusive (by omega))
  obtain ⟨a, b, hNe⟩ := exists_pair_ne κ
  obtain ⟨l⟩ := ‹Nonempty ι›
  refine ⟨⟨fun hAll => ?_, ?_⟩, ⟨fun hAll => ?_, ?_⟩⟩
  · by_contra hMany
    obtain ⟨s, hReach, hTimeouts, hInside⟩ := reachable_both_inside a b l
    refine hNe (hAll s hReach (by omega) l a b ?_ ?_) <;> simp [hInside]
  · intro hFew s hReach hLe l c d hC hD
    have hSame := List.inj_on_of_nodup_map (hExclusive hFew s hReach hLe) hC hD rfl
    exact congrArg Prod.fst hSame
  · by_contra hMany
    obtain ⟨s, hReach, hTimeouts, hInside⟩ := reachable_both_inside a a l
    have hOnce := hAll s hReach (by omega)
    simp [hInside] at hOnce
  · intro hFew s hReach hLe
    exact List.Nodup.of_map _ (hExclusive hFew s hReach hLe)

theorem mutual_exclusion_iff_pair :
    (∀ s : State Unit Bool, Reachable s → s.timeouts ≤ 19 → s.inside.Nodup) ∧
    ¬ ∀ s : State Unit Bool, Reachable s → s.timeouts ≤ 20 →
    ∀ l c d, (c, l) ∈ s.inside → (d, l) ∈ s.inside → c = d :=
  ⟨(mutual_exclusion_iff 19).2.mpr (by decide),
    fun hAll => absurd ((mutual_exclusion_iff 20).1.mp hAll) (by decide)⟩

end Spinlock

end Fennix
