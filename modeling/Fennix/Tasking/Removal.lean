import Fennix.Containers.Sequence
import Fennix.Tasking.Task

/-
  Removing processes and threads.

  A block that was freed keeps what it holds, so that the code goes on when it reads it; each such
  access is recorded, as is all that is freed.
-/

namespace Fennix

open List Function

structure ThreadMemory where
  status : CBStatus
  parent : Nat
  stack : Nat
  checksum : Nat

structure ProcessMemory where
  status : CBStatus
  ipcHandles : Nat
  threads : Vector Nat
  children : Vector Nat
  checksum : Nat

structure TaskMemory where
  threads : Nat → ThreadMemory
  processes : Nat → ProcessMemory
  listProcess : Vector Nat
  freedThreads : List Nat := []
  freedStacks : List Nat := []
  freedHandles : List Nat := []
  freedProcesses : List Nat := []
  misused : List Nat := []

def badfennec : Nat := 0xBADFE2EC

structure Behind where
  cells : TaskMemory → Vector Nat → UInt64 → List Nat
  long : ∀ m v position, position.toNat + v.vectorSize.toNat ≤ (cells m v position).length

def Vector.contents {α : Type} (v : Vector α) : List α :=
  (v.vectorBuffer.getD []).take v.vectorSize.toNat

theorem Vector.Holds.contents_eq {α : Type} {v : Vector α} {xs : List α} (h : v.Holds xs) :
    v.contents = xs := by
  have hSize := h.fits.size_le
  apply ext_getElem?
  intro i
  rw [Vector.contents, getElem?_take, h.size]
  by_cases hi : i < xs.length
  · rw [if_pos hi]
    exact h.elements i hi
  · rw [if_neg hi]
    exact (getElem?_eq_none (by omega)).symm

variable {q : Nat}

namespace TaskMemory

def touchThread (m : TaskMemory) (t : Nat) : TaskMemory :=
  if t ∈ m.freedThreads then
    { m with misused := m.misused ++ [t] }
  else m

def touchProcess (m : TaskMemory) (p : Nat) : TaskMemory :=
  if p ∈ m.freedProcesses then
    { m with misused := m.misused ++ [p] }
  else m

def setThread (m : TaskMemory) (t : Nat) (block : ThreadMemory) : TaskMemory :=
  { m with threads := fun u =>
    if u = t then block else m.threads u }

def setProcess (m : TaskMemory) (p : Nat) (block : ProcessMemory) : TaskMemory :=
  { m with processes := fun q =>
    if q = p then block else m.processes q }

@[simp] theorem setProcess_self (m : TaskMemory) (p : Nat) (block : ProcessMemory) :
    (m.setProcess p block).processes p = block :=
  if_pos rfl

theorem setProcess_other (m : TaskMemory) {p : Nat} (block : ProcessMemory) (hq : q ≠ p) :
    (m.setProcess p block).processes q = m.processes q :=
  if_neg hq

def freeThread (m : TaskMemory) (t : Nat) : TaskMemory :=
  { m.setThread t { m.threads t with checksum := badfennec } with
    freedStacks := m.freedStacks ++ [(m.threads t).stack]
    freedThreads := m.freedThreads ++ [t] }

def dropThread (behind : Behind) (m : TaskMemory) (p i : Nat) : Option TaskMemory :=
  let v := (m.processes p).threads
  let position := UInt64.ofNat i
  ((SequenceCall.remove position).performWith v (behind.cells m v position)).map (fun v =>
      m.setProcess p { m.processes p with threads := v })

def removeThread (behind : Behind) (m : TaskMemory) (t : Nat) : Option TaskMemory :=
  let m := m.touchThread t
  let p := (m.threads t).parent
  let m := m.touchProcess p
  match (m.processes p).threads.contents.idxOf? t with
  | none => some m
  | some i =>
    -- `tcb->Parent` is read once more after `kfree`
    let m := (m.freeThread t).touchThread t
    m.dropThread behind (m.threads t).parent i

/- The threads of a process, all of them or those that are terminated, one after the other. -/
def removeThreads (behind : Behind) (all : Bool) (p : Nat) :
    (n : Nat) → TaskMemory → Option TaskMemory :=
  eachBelow (fun j m => ((m.processes p).threads.vectorBuffer.read j).bind (fun t =>
        if all then m.removeThread behind t
        else
          let m := m.touchThread t
          if (m.threads t).status = .terminated then m.removeThread behind t else some m))

def freeProcess (behind : Behind) (m : TaskMemory) (p : Nat) : Option TaskMemory :=
  match m.listProcess.contents.idxOf? p with
  | none => some m
  | some i =>
    let m := m.touchProcess p
    let m := { m.setProcess p { m.processes p with checksum := badfennec } with
        freedHandles :=
          m.freedHandles ++ [(m.processes p).ipcHandles]
        freedProcesses := m.freedProcesses ++ [p] }
    let position := UInt64.ofNat i
    ((SequenceCall.remove position).performWith m.listProcess
      (behind.cells m m.listProcess position)).map (fun v => { m with listProcess := v })

def removeProcess (behind : Behind) : (fuel : Nat) → TaskMemory → Nat → Option TaskMemory
| 0, _, _ => none
| fuel + 1, m, p =>
  if p = 0 then some m
  else
    let m := m.touchProcess p
    let n := (m.processes p).threads.vectorSize.toNat
    if (m.processes p).status = .terminated then
      (removeThreads behind true p n m).bind
        (fun m => (eachBelow (fun j m => ((m.processes p).children.vectorBuffer.read
              j).bind (fun c => removeProcess behind fuel m c))
            (m.processes p).children.vectorSize.toNat
            m).bind (fun m => m.freeProcess behind p))
    else
      removeThreads behind false p n m

end TaskMemory

------ Removing an Element

variable {a b : List Nat}

theorem idxOf?_middle {t : Nat} (hNot : t ∉ a) : (a ++ t :: b).idxOf? t = some a.length := by
  rw [idxOf?_eq_some_iff]
  refine ⟨by simp, by simp, ?_⟩
  intro j hj hSame
  rw [getElem_append_left hj] at hSame
  exact hNot (hSame ▸ getElem_mem hj)

theorem Vector.Holds.remove_middle {v : Vector Nat} {t : Nat} (h : v.Holds (a ++ t :: b))
    {scratch : List Nat}
    (hLong : (UInt64.ofNat a.length).toNat + v.vectorSize.toNat ≤ scratch.length) :
    (UInt64.ofNat a.length).toNat = a.length ∧
    ∃ v', (SequenceCall.remove (UInt64.ofNat a.length)).performWith v scratch = some v' ∧
    v'.Holds (a ++ b) := by
  have hIndex : (UInt64.ofNat a.length).toNat = a.length := by
    apply UInt64.toNat_ofNat_of_lt'
    have hSize := h.size
    have hWord := v.vectorSize.toNat_lt
    simp only [length_append, length_cons] at hSize
    show a.length < 2 ^ 64
    omega
  refine ⟨hIndex, ?_⟩
  rcases h.performWith (show (SequenceCall.remove _).Callable v from trivial) hLong with
    ⟨v', hPerform, hHolds⟩
  refine ⟨v', hPerform, ?_⟩
  rw [SequenceCall.onList, hIndex, eraseIdx_append_of_length_le (Nat.le_refl _),
    Nat.sub_self] at hHolds
  exact hHolds

------ Removing a Thread

namespace TaskMemory

def withoutThread (m : TaskMemory) (p t : Nat) (v : Vector Nat) : TaskMemory :=
  { m.freeThread t with
    misused := m.misused ++ [t] }.setProcess p { m.processes p with threads := v }

theorem threads_withoutThread (m : TaskMemory) {p t : Nat} {v : Vector Nat} :
    (m.withoutThread p t v).processes p = { m.processes p with threads := v } :=
  setProcess_self _ p _

theorem processes_withoutThread (m : TaskMemory) {p t : Nat} {v : Vector Nat} (hq : q ≠ p) :
    (m.withoutThread p t v).processes q = m.processes q :=
  setProcess_other _ _ hq

theorem removeThread_eq (m : TaskMemory) (behind : Behind) {p t : Nat}
    (hParent : (m.threads t).parent = p) (hFresh : t ∉ m.freedThreads)
    (hAlive : p ∉ m.freedProcesses) (hHolds : (m.processes p).threads.Holds (a ++ t :: b))
    (hNot : t ∉ a) : ∃ v scratch, m.removeThread behind t = some (m.withoutThread p t v) ∧
    (SequenceCall.remove (UInt64.ofNat a.length)).performWith
    (m.processes p).threads scratch = some v ∧ v.Holds (a ++ b) := by
  have hThread : m.touchThread t = m := if_neg hFresh
  have hProcess : m.touchProcess p = m := if_neg hAlive
  -- the thread is freed, and then its parent is read
  have hMisuse : (m.freeThread t).touchThread t =
      { m.freeThread t with misused := m.misused ++ [t] } :=
    if_pos (mem_append_right _ mem_cons_self)
  have hBlock : (m.freeThread t).threads t = { m.threads t with checksum := badfennec } :=
    if_pos rfl
  have hStill : ((m.freeThread t).threads t).parent = p := by
    rw [hBlock]
    exact hParent
  rcases hHolds.remove_middle (behind.long { m.freeThread t with misused := m.misused ++ [t] }
        (m.processes p).threads _) with ⟨_, v, hRemove, hRest⟩
  refine ⟨v, _, ?_, hRemove, hRest⟩
  simp only [removeThread, hThread, hParent, hProcess, hHolds.contents_eq, idxOf?_middle hNot,
    hMisuse, hStill]
  exact congrArg (Option.map _) hRemove

end TaskMemory

structure Stage (m₀ : TaskMemory) (family : List Nat) (m : TaskMemory) (left : Nat → List Nat)
    (freed : List Nat) (misuses : Nat) (gone : List Nat) : Prop where
  thread : ∀ t, ∃ c, m.threads t = { m₀.threads t with checksum := c }
  process : ∀ q, ∃ v c, m.processes q = { m₀.processes q with threads := v, checksum := c }
  threads : ∀ q ∈ family, (m.processes q).threads.Holds (left q)
  listed : m.listProcess.Holds (m₀.listProcess.contents.filter (· ∉ gone))
  freedThreads : m.freedThreads = freed
  freedStacks : m.freedStacks = freed.map (fun t => (m₀.threads t).stack)
  freedProcesses : m.freedProcesses = gone
  freedHandles : m.freedHandles = gone.map (fun q => (m₀.processes q).ipcHandles)
  misused : m.misused.length = misuses

namespace Stage

variable {m₀ m : TaskMemory} {family freed gone : List Nat} {left : Nat → List Nat}
variable {misuses p t : Nat}

variable (h : Stage m₀ family m left freed misuses gone)

include h

theorem parent (t : Nat) : (m.threads t).parent = (m₀.threads t).parent := by
  rcases h.thread t with ⟨c, hc⟩
  rw [hc]

theorem touchProcess (hAlive : p ∉ gone) : m.touchProcess p = m :=
  if_neg (h.freedProcesses ▸ hAlive)

theorem withoutThread {v : Vector Nat} {rest : List Nat} (hRest : v.Holds rest) (t : Nat) :
    Stage m₀ family (m.withoutThread p t v) (update left p rest)
    (freed ++ [t]) (misuses + 1) gone where
  thread := by
    intro u
    rcases h.thread u with ⟨c, hc⟩
    by_cases hu : u = t
    · refine ⟨badfennec, ?_⟩
      rw [hu] at hc ⊢
      simp [TaskMemory.withoutThread, TaskMemory.freeThread, TaskMemory.setProcess,
        TaskMemory.setThread, hc]
    refine ⟨c, ?_⟩
    simp [TaskMemory.withoutThread, TaskMemory.freeThread, TaskMemory.setProcess,
      TaskMemory.setThread, hu, hc]
  process := by
    intro q
    rcases h.process q with ⟨w, c, hc⟩
    by_cases hq : q = p
    · refine ⟨v, c, ?_⟩
      rw [hq] at hc ⊢
      rw [m.threads_withoutThread, hc]
    · refine ⟨w, c, ?_⟩
      rw [m.processes_withoutThread hq, hc]
  threads := by
    intro q hq
    by_cases hqp : q = p
    · rw [hqp, update_self, m.threads_withoutThread]
      exact hRest
    · rw [update_of_ne hqp, m.processes_withoutThread hqp]
      exact h.threads q hq
  listed := h.listed
  freedThreads := congrArg (· ++ [t]) h.freedThreads
  freedStacks := by
    rcases h.thread t with ⟨c, hc⟩
    rw [map_append, ← h.freedStacks]
    show m.freedStacks ++ [(m.threads t).stack] = _
    rw [hc]
    rfl
  freedProcesses := h.freedProcesses
  freedHandles := h.freedHandles
  misused := by
    show (m.misused ++ [t]).length = _
    rw [length_append, h.misused]
    rfl

section

variable (behind : Behind) (hFamily : p ∈ family) (hAlive : p ∉ gone)
variable (hParent : (m₀.threads t).parent = p)

include hFamily hAlive hParent

theorem removeThread_found (hLeft : left p = a ++ t :: b) (hNot : t ∉ a) (hFresh : t ∉ freed) :
    ∃ m' scratch, m.removeThread behind t = some m' ∧ Stage m₀ family m'
    (update left p (a ++ b)) (freed ++ [t]) (misuses + 1) gone ∧
    (SequenceCall.remove (UInt64.ofNat a.length)).performWith (m.processes p).threads scratch =
    some (m'.processes p).threads := by
  have hHolds := h.threads p hFamily
  rw [hLeft] at hHolds
  rcases m.removeThread_eq behind ((h.parent t).trans hParent)
    (h.freedThreads ▸ hFresh) (h.freedProcesses ▸ hAlive) hHolds hNot with
    ⟨v, scratch, hThread, hRemove, hRest⟩
  refine ⟨_, scratch, hThread, h.withoutThread hRest t, ?_⟩
  rw [hRemove, m.threads_withoutThread]

theorem removeThread_freed (hLeft : t ∉ left p) (hFreed : t ∈ freed) :
    ∃ m', m.removeThread behind t = some m' ∧
    Stage m₀ family m' left freed (misuses + 1) gone ∧ m'.processes = m.processes := by
  have hMisuse : m.touchThread t = { m with misused := m.misused ++ [t] } :=
    if_pos (h.freedThreads ▸ hFreed)
  have hNext : Stage m₀ family { m with misused := m.misused ++ [t] }
      left freed (misuses + 1) gone :=
    { h with misused := by simp [h.misused] }
  refine ⟨_, ?_, hNext, rfl⟩
  have hHere := (h.parent t).trans hParent
  have hMissing : (m.processes p).threads.contents.idxOf? t = none := by
    rw [(h.threads p hFamily).contents_eq]
    exact idxOf?_eq_none_iff.mpr hLeft
  simp only [TaskMemory.removeThread, hMisuse, hHere, hNext.touchProcess hAlive, hMissing]

end

end Stage

end Fennix
