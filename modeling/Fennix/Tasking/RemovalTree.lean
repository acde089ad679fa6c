import Fennix.Library.Follow
import Fennix.Tasking.RemovalLoop

/-
  Removing a tree of terminated processes.
-/

namespace Fennix

open List Option

------ Children are kept

namespace TaskMemory

def ChildrenAre (children : Nat → Vector Nat) (m : TaskMemory) : Prop :=
  ∀ q, (m.processes q).children = children q

variable {children : Nat → Vector Nat} {behind : Behind} {m m' : TaskMemory} {p t i n fuel : Nat}

variable (h : ChildrenAre children m)

include h

theorem ChildrenAre.touchThread (t : Nat) : ChildrenAre children (m.touchThread t) := by
  unfold TaskMemory.touchThread
  split
  · exact h
  · exact h

theorem ChildrenAre.touchProcess (p : Nat) : ChildrenAre children (m.touchProcess p) := by
  unfold TaskMemory.touchProcess
  split
  · exact h
  · exact h

theorem ChildrenAre.setProcess {block : ProcessMemory}
    (hBlock : block.children = (m.processes p).children) :
    ChildrenAre children (m.setProcess p block) := by
  intro q
  by_cases hq : q = p
  · rw [hq, setProcess_self, hBlock]
    exact h p
  · rw [setProcess_other m block hq]
    exact h q

theorem ChildrenAre.removeThread (hRemove : m.removeThread behind t = some m') :
    ChildrenAre children m' := by
  have hFirst := (h.touchThread t).touchProcess ((m.touchThread t).threads t).parent
  dsimp only [TaskMemory.removeThread] at hRemove
  split at hRemove
  · cases hRemove
    exact hFirst
  rcases map_eq_some_iff.mp hRemove with ⟨v, _, rfl⟩
  refine ChildrenAre.setProcess ?_ rfl
  exact ChildrenAre.touchThread (m := TaskMemory.freeThread _ t) hFirst t

theorem ChildrenAre.removeThreads {all : Bool}
    (hRemove : removeThreads behind all p n m = some m') : ChildrenAre children m' := by
  refine eachBelow_keeps ?_ h hRemove
  intro j s s' hs hRound
  rcases bind_eq_some_iff.mp hRound with ⟨t, _, hThread⟩
  split at hThread
  · exact hs.removeThread hThread
  dsimp only at hThread
  split at hThread
  · exact (hs.touchThread t).removeThread hThread
  · cases hThread
    exact hs.touchThread t

theorem ChildrenAre.freeProcess (hFree : m.freeProcess behind p = some m') :
    ChildrenAre children m' := by
  unfold TaskMemory.freeProcess at hFree
  split at hFree
  · cases hFree
    exact h
  · rcases map_eq_some_iff.mp hFree with ⟨v, _, rfl⟩
    exact ChildrenAre.setProcess (h.touchProcess p) rfl

theorem ChildrenAre.removeProcess (hRemove : removeProcess behind fuel m p = some m') :
    ChildrenAre children m' := by
  induction fuel generalizing m m' p with
  | zero => cases hRemove
  | succ fuel ih =>
    rw [TaskMemory.removeProcess] at hRemove
    split at hRemove
    · cases hRemove
      exact h
    have hTouch := h.touchProcess p
    dsimp only at hRemove
    split at hRemove
    · rcases bind_eq_some_iff.mp hRemove with ⟨m₁, hThreads, hRemove⟩
      rcases bind_eq_some_iff.mp hRemove with ⟨m₂, hChildren, hFree⟩
      refine ChildrenAre.freeProcess ?_ hFree
      refine eachBelow_keeps ?_ (hTouch.removeThreads hThreads) hChildren
      intro j s s' hs hRound
      rcases bind_eq_some_iff.mp hRound with ⟨c, _, hChild⟩
      exact ih hs hChild
    · exact hTouch.removeThreads hRemove

end TaskMemory

------ Freeing a Process

theorem filter_gone_snoc {xs gone a b : List Nat} {p : Nat} (hNodup : xs.Nodup)
    (hSplit : xs.filter (· ∉ gone) = a ++ p :: b) :
    p ∉ a ∧ xs.filter (· ∉ gone ++ [p]) = a ++ b := by
  have hLeft := hNodup.filter (· ∉ gone)
  rw [hSplit] at hLeft
  have hParts := nodup_append.mp hLeft
  have hNotA : p ∉ a := fun hIn =>
    hParts.2.2 p hIn p mem_cons_self rfl
  have hNotB : p ∉ b := (nodup_cons.mp hParts.2.1).1
  refine ⟨hNotA, ?_⟩
  have hTwice : xs.filter (· ∉ gone ++ [p]) = (xs.filter (· ∉ gone)).filter (· ≠ p) := by
    rw [List.filter_filter]
    apply filter_congr
    intro x _
    simp [and_comm]
  rw [hTwice, hSplit, filter_append, filter_cons_of_neg (by simp)]
  congr 1
  · rw [filter_eq_self]
    intro x hx
    simpa using fun hEq : x = p => hNotA (hEq ▸ hx)
  rw [filter_eq_self]
  intro x hx
  simpa using fun hEq : x = p => hNotB (hEq ▸ hx)

theorem Stage.freeProcess {m₀ m : TaskMemory} {family freed gone : List Nat} {left : Nat → List Nat}
    {misuses p : Nat} (h : Stage m₀ family m left freed misuses gone) (behind : Behind)
    (hAlive : p ∉ gone) (hNodup : m₀.listProcess.contents.Nodup)
    (hListed : p ∈ m₀.listProcess.contents) : ∃ m', m.freeProcess behind p = some m' ∧
    Stage m₀ family m' left freed misuses (gone ++ [p]) := by
  have hMem : p ∈ m₀.listProcess.contents.filter (· ∉ gone) := by
    simp [hListed, hAlive]
  rcases append_of_mem hMem with ⟨a, b, hSplit⟩
  rcases filter_gone_snoc hNodup hSplit with ⟨hNot, hRest⟩
  have hHolds := h.listed
  rw [hSplit] at hHolds
  let m₁ : TaskMemory := { m.setProcess p { m.processes p with checksum := badfennec } with
      freedHandles :=
        m.freedHandles ++ [(m.processes p).ipcHandles]
      freedProcesses := m.freedProcesses ++ [p] }
  rcases hHolds.remove_middle (behind.long m₁ m.listProcess _) with ⟨_, v, hRemove, hLess⟩
  refine ⟨{ m₁ with listProcess := v }, ?_, ?_⟩
  · simp only [TaskMemory.freeProcess, hHolds.contents_eq, idxOf?_middle hNot,
      h.touchProcess hAlive]
    exact congrArg (Option.map _) hRemove
  constructor
  case thread => exact h.thread
  case process =>
    intro q
    rcases h.process q with ⟨w, c, hc⟩
    by_cases hq : q = p
    · refine ⟨w, badfennec, ?_⟩
      rw [hq] at hc ⊢
      exact (m.setProcess_self p _).trans (by rw [hc])
    · exact ⟨w, c, (m.setProcess_other _ hq).trans hc⟩
  case threads =>
    intro q hq
    have hSame := h.threads q hq
    by_cases hqp : q = p
    · rw [hqp] at hSame ⊢
      exact (m.setProcess_self p _).symm ▸ hSame
    · exact (m.setProcess_other _ hqp).symm ▸ hSame
  case listed => exact hRest ▸ hLess
  case freedThreads => exact h.freedThreads
  case freedStacks => exact h.freedStacks
  case freedProcesses =>
    exact congrArg (· ++ [p]) h.freedProcesses
  case freedHandles =>
    rcases h.process p with ⟨w, c, hc⟩
    simp [m₁, h.freedHandles, hc]
  case misused => exact h.misused

------ Trees of Processes

namespace TaskMemory

def threadsOf (m : TaskMemory) (q : Nat) : List Nat :=
  (m.processes q).threads.contents

def childrenOf (m : TaskMemory) (q : Nat) : List Nat :=
  (m.processes q).children.contents

end TaskMemory

/-
  A terminated process and all terminated processes below it: the vectors are in order, every thread
  is once in the vector of its parent, and every process once in the list.
-/
structure TerminatedTree (m : TaskMemory) (p : Nat) (family : List Nat) : Prop where
  order : PostOrder m.childrenOf [p] family
  distinct : family.Nodup
  nonzero : 0 ∉ family
  terminated : ∀ q ∈ family, (m.processes q).status = .terminated
  threads : ∀ q ∈ family, (m.processes q).threads.Holds (m.threadsOf q)
  children : ∀ q ∈ family, (m.processes q).children.Holds (m.childrenOf q)
  threads_distinct : ∀ q ∈ family, (m.threadsOf q).Nodup
  parent : ∀ q ∈ family, ∀ t ∈ m.threadsOf q, (m.threads t).parent = q
  listed : m.listProcess.Holds m.listProcess.contents
  listed_distinct : m.listProcess.contents.Nodup
  family_listed : ∀ q ∈ family, q ∈ m.listProcess.contents
  fresh : m.freedThreads = [] ∧ m.freedStacks = [] ∧ m.freedHandles = [] ∧ m.freedProcesses = [] ∧
    m.misused = []

namespace TerminatedTree

variable {m₀ m : TaskMemory} {root p : Nat} {family roots order emptied gone : List Nat}

def Progress (m₀ : TaskMemory) (family : List Nat) (m : TaskMemory)
    (emptied gone : List Nat) : Prop :=
  Stage m₀ family m (fun q =>
      if q ∈ emptied then skippedThreads (m₀.threadsOf q)
      else m₀.threadsOf q)
    (emptied.flatMap (fun q => visitedThreads (m₀.threadsOf q)))
    (emptied.flatMap m₀.threadsOf).length gone

theorem start (h : TerminatedTree m₀ root family) : Progress m₀ family m₀ [] [] where
  thread := fun t => ⟨(m₀.threads t).checksum, rfl⟩
  process := fun q =>
    ⟨(m₀.processes q).threads, (m₀.processes q).checksum, rfl⟩
  threads := by
    intro q hq
    rw [if_neg not_mem_nil]
    exact h.threads q hq
  listed := by
    rw [filter_eq_self.mpr (by simp)]
    exact h.listed
  freedThreads := h.fresh.1
  freedStacks := h.fresh.2.1
  freedHandles := h.fresh.2.2.1
  freedProcesses := h.fresh.2.2.2.1
  misused := by
    rw [h.fresh.2.2.2.2]
    rfl

theorem empty (h : TerminatedTree m₀ root family) (hStage : Progress m₀ family m emptied gone)
    (behind : Behind) (hEmptied : ∀ q ∈ emptied, q ∈ family) (hFamily : p ∈ family)
    (hNew : p ∉ emptied) (hAlive : p ∉ gone) : ∃ m', TaskMemory.removeThreads behind
    true p (m₀.threadsOf p).length m = some m' ∧
    Progress m₀ family m' (emptied ++ [p]) gone := by
  have hFresh : ∀ t ∈ m₀.threadsOf p, t ∉ emptied.flatMap (fun q =>
      visitedThreads (m₀.threadsOf q)) := by
    intro t ht hIn
    rcases mem_flatMap.mp hIn with ⟨q, hq, hVisited⟩
    have hOther := h.parent q (hEmptied q hq) t ((visitedThreads_sublist _).subset hVisited)
    rw [h.parent p hFamily t ht] at hOther
    exact hNew (hOther ▸ hq)
  rcases hStage.removeThreads ⟨hFamily, hAlive, h.threads_distinct p hFamily,
    h.parent p hFamily, hFresh⟩ behind (if_neg hNew) with ⟨m', hLoop, hNext⟩
  refine ⟨m', hLoop, ?_⟩
  have hLeft : (Function.update (fun q =>
        if q ∈ emptied then skippedThreads (m₀.threadsOf q)
        else m₀.threadsOf q) p (skippedThreads (m₀.threadsOf p))) =
      (fun q =>
        if q ∈ emptied ++ [p] then
          skippedThreads (m₀.threadsOf q)
        else m₀.threadsOf q) := by
    funext q
    by_cases hq : q = p
    · rw [hq, Function.update_self, if_pos (by simp)]
    · simp [hq]
  unfold Progress
  rw [← hLeft, flatMap_append, flatMap_append, length_append]
  simpa using hNext

def Removable (m₀ : TaskMemory) (family : List Nat) (behind : Behind) (roots order : List Nat)
    (depth : Nat) : Prop :=
  ∀ fuel ≥ depth, ∀ m emptied gone, Progress m₀ family m emptied gone →
    (∀ q ∈ emptied, q ∈ family) →
    (∀ q ∈ order, q ∉ emptied ∧ q ∉ gone) →
    ∃ m' more, roots.foldlM (TaskMemory.removeProcess behind fuel) m = some m' ∧
      Progress m₀ family m' (emptied ++ more) (gone ++ order) ∧
      more.Perm order

theorem removeProcess {below : List Nat} {fuel depth : Nat} {behind : Behind}
    (h : TerminatedTree m₀ root family)
    (hBelow : Removable m₀ family behind (m₀.childrenOf p) below depth) (hFuel : depth ≤ fuel)
    (hNodup : p ∉ below) (hFamily : p ∈ family) (hStage : Progress m₀ family m emptied gone)
    (hEmptied : ∀ q ∈ emptied, q ∈ family) (hNew : ∀ q ∈ p :: below, q ∉ emptied ∧ q ∉ gone) :
    ∃ m' more, TaskMemory.removeProcess behind (fuel + 1) m p = some m' ∧
    Progress m₀ family m' (emptied ++ p :: more) (gone ++ below ++ [p]) ∧ more.Perm below := by
  have hHere := hNew p mem_cons_self
  have hNonzero : p ≠ 0 := fun hZero =>
    h.nonzero (hZero ▸ hFamily)
  rcases hStage.process p with ⟨v, c, hBlock⟩
  have hStatus : (m.processes p).status = .terminated := by
    rw [hBlock]
    exact h.terminated p hFamily
  have hSize : (m.processes p).threads.vectorSize.toNat = (m₀.threadsOf p).length := by
    have hHolds := hStage.threads p hFamily
    rw [if_neg hHere.1] at hHolds
    exact hHolds.size
  rcases h.empty hStage behind hEmptied hFamily hHere.1 hHere.2 with ⟨m₁, hThreads, hStage₁⟩
  -- the children are read from a vector that stays the same
  have hChildren : TaskMemory.ChildrenAre (fun q => (m₀.processes q).children) m₁ := by
    intro q
    rcases hStage₁.process q with ⟨w, d, hw⟩
    rw [hw]
  have hVector := h.children p hFamily
  have hLoop : eachBelow (fun j m => ((m.processes p).children.vectorBuffer.read j).bind (fun c =>
              TaskMemory.removeProcess behind fuel m c))
        (m₁.processes p).children.vectorSize.toNat m₁ =
      (m₀.childrenOf p).foldlM (TaskMemory.removeProcess behind fuel) m₁ := by
    rw [hChildren p, hVector.size]
    refine eachBelow_eq_foldlM (P := TaskMemory.ChildrenAre
        (fun q => (m₀.processes q).children)) ?_ ?_ hChildren
    · intro s hs i hi
      rw [hs p, hVector.elements i hi, getElem?_eq_getElem hi]
      rfl
    · intro s x s' hs hx
      exact hs.removeProcess hx
  rcases hBelow fuel hFuel m₁ (emptied ++ [p]) gone hStage₁ (by
        intro q hq
        rcases mem_append.mp hq with hq | hq
        · exact hEmptied q hq
        · rw [mem_singleton.mp hq]
          exact hFamily)
      (by
        intro q hq
        have hOld := hNew q (mem_cons_of_mem p hq)
        refine ⟨?_, hOld.2⟩
        simp only [mem_append, mem_singleton, not_or]
        exact ⟨hOld.1, fun hEq => hNodup (hEq ▸ hq)⟩) with
    ⟨m₂, more, hForest, hStage₂, hPerm⟩
  rcases hStage₂.freeProcess behind (p := p) (by
        rw [mem_append]
        exact not_or_intro hHere.2 hNodup)
      h.listed_distinct (h.family_listed p hFamily) with
    ⟨m₃, hFree, hStage₃⟩
  refine ⟨m₃, more, ?_, ?_, hPerm⟩
  · simp only [TaskMemory.removeProcess, if_neg hNonzero, hStage.touchProcess hHere.2, hStatus,
      if_true, hSize, hThreads, bind_some, hLoop, hForest, hFree]
  · rw [append_assoc, singleton_append] at hStage₃
    exact hStage₃

theorem removeAll (h : TerminatedTree m₀ root family) (behind : Behind)
    (hOrder : PostOrder m₀.childrenOf roots order) (hNodup : order.Nodup)
    (hFamily : ∀ q ∈ order, q ∈ family) :
    ∃ depth, Removable m₀ family behind roots order depth := by
  refine PostOrder.induction_distinct (motive := fun roots order =>
      (∀ q ∈ order, q ∈ family) → ∃ depth, Removable m₀ family behind roots order depth)
    ?_ ?_ hOrder hNodup hFamily
  · intro _
    refine ⟨0, ?_⟩
    intro fuel _ m emptied gone hStage _ _
    refine ⟨m, [], rfl, ?_, List.Perm.refl _⟩
    rw [append_nil, append_nil]
    exact hStage
  intro p ps below rest hNotBelow hNotRest hApart ihBelow ihRest hFamily
  rcases ihBelow (fun q hq => hFamily q (by simp [hq])) with ⟨depth, hBelow⟩
  rcases ihRest (fun q hq => hFamily q (by simp [hq])) with ⟨depth', hRest⟩
  refine ⟨max (depth + 1) depth', ?_⟩
  intro fuel hFuel m emptied gone hStage hEmptied hNew
  obtain ⟨fuel, rfl⟩ := Nat.exists_eq_add_of_le' (show 1 ≤ fuel by omega)
  rcases h.removeProcess hBelow (show depth ≤ fuel by omega) hNotBelow
      (hFamily p (by simp)) hStage hEmptied (fun q hq => hNew q (by
        simp only [mem_append, mem_cons]
        rcases mem_cons.mp hq with hq | hq
        · exact .inr (.inl hq)
        · exact .inl hq)) with
    ⟨m₁, more, hFirst, hStage₁, hPerm⟩
  have hMore : ∀ q ∈ p :: more, q ∈ below ++ [p] := by
    intro q hq
    rcases mem_cons.mp hq with hq | hq
    · simp [hq]
    · simp [hPerm.subset hq]
  have hKnown : ∀ q ∈ emptied ++ p :: more, q ∈ family := by
    intro q hq
    rcases mem_append.mp hq with hq | hq
    · exact hEmptied q hq
    apply hFamily q
    have hIn := hMore q hq
    simp only [mem_append, mem_singleton] at hIn
    simp only [mem_append, mem_cons]
    exact hIn.imp_right Or.inl
  -- the rest of the forest has other processes
  have hOthersNew : ∀ q ∈ rest, q ∉ emptied ++ p :: more ∧ q ∉ gone ++ below ++ [p] := by
    intro q hq
    have hOld := hNew q (by simp [hq])
    have hOther : q ∉ below ++ [p] := by
      rw [mem_append, mem_singleton]
      rintro (hIn | hEq)
      · exact hApart q hq hIn
      · exact hNotRest (hEq ▸ hq)
    rw [mem_append, append_assoc, mem_append]
    exact ⟨not_or_intro hOld.1 (fun hIn => hOther (hMore q hIn)), not_or_intro hOld.2 hOther⟩
  rcases hRest (fuel + 1) (by omega) m₁ _ _ hStage₁ hKnown hOthersNew with
    ⟨m₂, more', hOthers, hStage₂, hPerm'⟩
  refine ⟨m₂, p :: more ++ more', ?_, ?_, ?_⟩
  · rw [foldlM_cons, hFirst]
    exact hOthers
  · simpa using hStage₂
  · refine ((hPerm.cons p).append hPerm').trans ?_
    exact perm_middle.symm

end TerminatedTree

------ Completeness

/-
  Every thread with its stack and every process is freed once, no freed block is accessed, and the
  processes are no longer in the list.
-/
structure RemovalComplete (m m' : TaskMemory) (family : List Nat) : Prop where
  threads : m'.freedThreads.Perm (family.flatMap m.threadsOf)
  stackPages : m'.freedStacks.Perm ((family.flatMap m.threadsOf).map (fun t => (m.threads t).stack))
  processes : m'.freedProcesses.Perm family
  unused : m'.misused = []
  listed : m'.listProcess.contents = m.listProcess.contents.filter (· ∉ family)

namespace TerminatedTree

variable {m : TaskMemory} {p : Nat} {family emptied : List Nat}

theorem visited_nodup (h : TerminatedTree m p family) (hPerm : emptied.Perm family) :
    (emptied.flatMap (fun q => visitedThreads (m.threadsOf q))).Nodup := by
  rw [nodup_flatMap]
  refine ⟨fun q hq => (h.threads_distinct q
    (hPerm.subset hq)).sublist (visitedThreads_sublist _), ?_⟩
  refine (hPerm.nodup_iff.mpr h.distinct).imp_of_mem ?_
  intro q q' hq hq' hNe t ht ht'
  -- a thread has one parent
  apply hNe
  rw [← h.parent q (hPerm.subset hq) t ((visitedThreads_sublist _).subset ht),
    h.parent q' (hPerm.subset hq') t ((visitedThreads_sublist _).subset ht')]

theorem visited_all_iff (h : TerminatedTree m p family) (hPerm : emptied.Perm family) :
    (∀ q ∈ family, ∀ t ∈ m.threadsOf q, t ∈ emptied.flatMap (fun q =>
    visitedThreads (m.threadsOf q))) ↔ ∀ q ∈ family, (m.threadsOf q).length ≤ 2 := by
  constructor
  · intro hAll q hq
    rw [← skippedThreads_eq_nil_iff, eq_nil_iff_forall_not_mem]
    intro t ht
    have hSplit := visited_append_skipped_perm (m.threadsOf q)
    have hMem : t ∈ m.threadsOf q := hSplit.subset (mem_append_right _ ht)
    rcases mem_flatMap.mp (hAll q hq t hMem) with ⟨q', hq', ht'⟩
    -- a visited thread with the same parent
    have hSame := h.parent q' (hPerm.subset hq') t ((visitedThreads_sublist _).subset ht')
    rw [h.parent q hq t hMem] at hSame
    rw [← hSame] at ht'
    have hBoth := hSplit.nodup_iff.mpr (h.threads_distinct q hq)
    exact (nodup_append.mp hBoth).2.2 t ht' t ht rfl
  intro hFew q hq t ht
  refine mem_flatMap.mpr ⟨q, hPerm.symm.subset hq, ?_⟩
  have hSplit := visited_append_skipped_perm (m.threadsOf q)
  rw [skippedThreads_eq_nil_iff.mpr (hFew q hq), append_nil] at hSplit
  exact hSplit.symm.subset ht

end TerminatedTree

theorem removal_complete_iff {m : TaskMemory} {p : Nat} {family : List Nat}
    (h : TerminatedTree m p family) (behind : Behind) : ∃ depth, ∀ fuel ≥ depth, ∃ m',
    TaskMemory.removeProcess behind fuel m p = some m' ∧
    (RemovalComplete m m' family ↔ ∀ q ∈ family, m.threadsOf q = []) ∧
    ((∀ q ∈ family, ∀ t ∈ m.threadsOf q, t ∈ m'.freedThreads) ↔
    ∀ q ∈ family, (m.threadsOf q).length ≤ 2) ∧ m'.freedThreads.Nodup ∧
    m'.freedProcesses = family ∧ m'.listProcess.contents =
    m.listProcess.contents.filter (· ∉ family) := by
  rcases h.removeAll behind h.order h.distinct (fun q hq => hq) with ⟨depth, hRemovable⟩
  refine ⟨depth, ?_⟩
  intro fuel hFuel
  rcases hRemovable fuel hFuel m [] [] h.start (by simp) (by simp) with
    ⟨m', emptied, hRun, hStage, hPerm⟩
  rw [nil_append, nil_append] at hStage
  rw [foldlM_cons] at hRun
  rcases bind_eq_some_iff.mp hRun with ⟨m₁, hProcess, hEnd⟩
  cases hEnd
  have hThreads := hStage.freedThreads
  have hListed := hStage.listed.contents_eq
  refine ⟨m', hProcess, ?_, ?_, ?_, hStage.freedProcesses, hListed⟩
  · constructor
    · intro hComplete q hq
      -- each thread is accessed after it was freed
      have hNone := hStage.misused
      rw [hComplete.unused] at hNone
      have hEmpty := length_eq_zero_iff.mp hNone.symm
      rw [flatMap_eq_nil_iff] at hEmpty
      exact hEmpty q (hPerm.symm.subset hq)
    intro hNone
    have hAll : family.flatMap m.threadsOf = [] := flatMap_eq_nil_iff.mpr hNone
    have hEmptied : ∀ q ∈ emptied, m.threadsOf q = [] := fun q hq => hNone q (hPerm.subset hq)
    have hVisited : m'.freedThreads = [] := by
      rw [hThreads, flatMap_eq_nil_iff]
      intro q hq
      rw [hEmptied q hq]
      rfl
    refine ⟨?_, ?_, ?_, ?_, hListed⟩
    · rw [hVisited, hAll]
    · rw [hStage.freedStacks, ← hThreads, hVisited, hAll]
    · rw [hStage.freedProcesses]
    · apply length_eq_zero_iff.mp
      rw [hStage.misused, flatMap_eq_nil_iff.mpr hEmptied]
      rfl
  · rw [hThreads]
    exact h.visited_all_iff hPerm
  · rw [hThreads]
    exact h.visited_nodup hPerm

def zerosBehind : Behind where
  cells := fun _ v position =>
    replicate (position.toNat + v.vectorSize.toNat) 0
  long := by
    intro m v position
    rw [length_replicate]

def oneProcess (ts : Vector Nat) : TaskMemory where
  threads := fun t => ⟨.terminated, 1, 1000 + t, 0⟩
  processes := fun _ => ⟨.terminated, 500, ts, {}, 0⟩
  listProcess := ⟨1, 5, some [1, 0, 0, 0, 0]⟩

theorem second_of_three_threads_leaks : ∃ m', TaskMemory.removeProcess zerosBehind 1
    (oneProcess ⟨3, 5, some [11, 12, 13, 0, 0]⟩) 1 = some m' ∧ m'.freedThreads = [11, 13] ∧
    m'.freedStacks = [1011, 1013] ∧ m'.misused = [11, 13, 13] ∧ m'.freedProcesses = [1] :=
  ⟨_, rfl, rfl, rfl, rfl, rfl⟩

def parentAndChild : TaskMemory where
  threads := fun t =>
    ⟨.terminated, if t = 21 then 2 else 1, 1000 + t, 0⟩
  processes := fun q =>
    if q = 1 then
      ⟨.terminated, 500, ⟨2, 5, some [11, 12, 0, 0, 0]⟩, ⟨1, 5, some [2, 0, 0, 0, 0]⟩, 0⟩
    else
      ⟨.terminated, 600, ⟨1, 5, some [21, 0, 0, 0, 0]⟩, {}, 0⟩
  listProcess := ⟨2, 5, some [1, 2, 0, 0, 0]⟩

theorem holds_of_five {size : UInt64} {xs cells : List Nat} (hSize : size ≤ 5)
    (hLength : size.toNat = xs.length) (hCells : cells.length = 5)
    (hFirst : ∀ i < xs.length, cells[i]? = xs[i]?) : Vector.Holds ⟨size, 5, some cells⟩ xs :=
  ⟨⟨hSize, by show 5 ≤ cells.length; omega⟩,
    show 5 + 32 ≤ 2 ^ 64 by decide, hLength, hFirst⟩

theorem parentAndChild_tree : TerminatedTree parentAndChild 1 [2, 1] where
  order := by
    have hChild : PostOrder parentAndChild.childrenOf [2] ([] ++ [2]) := .cons .nil .nil
    exact PostOrder.cons (show PostOrder _ (parentAndChild.childrenOf 1) _ from hChild) .nil
  distinct := by decide
  nonzero := by decide
  terminated := by decide
  threads := by
    intro q hq
    simp only [mem_cons, not_mem_nil, or_false] at hq
    rcases hq with rfl | rfl
    · exact holds_of_five (by decide) rfl rfl (by decide)
    · exact holds_of_five (by decide) rfl rfl (by decide)
  children := by
    intro q hq
    simp only [mem_cons, not_mem_nil, or_false] at hq
    rcases hq with rfl | rfl
    · exact Vector.holds_empty
    · exact holds_of_five (by decide) rfl rfl (by decide)
  threads_distinct := by decide
  parent := by decide
  listed := holds_of_five (by decide) rfl rfl (by decide)
  listed_distinct := by decide
  family_listed := by decide
  fresh := ⟨rfl, rfl, rfl, rfl, rfl⟩

theorem removal_complete_iff_parentAndChild : ∃ depth, ∀ fuel ≥ depth, ∃ m',
    TaskMemory.removeProcess zerosBehind fuel parentAndChild 1 = some m' ∧
    ¬ RemovalComplete parentAndChild m' [2, 1] ∧ m'.freedProcesses = [2, 1] ∧
    ∀ t ∈ [11, 12, 21], t ∈ m'.freedThreads := by
  rcases removal_complete_iff parentAndChild_tree zerosBehind with ⟨depth, hRemove⟩
  refine ⟨depth, ?_⟩
  intro fuel hFuel
  rcases hRemove fuel hFuel with ⟨m', hRun, hComplete, hThreads, _, hProcesses, _⟩
  have hAll := hThreads.mpr (by decide)
  refine ⟨m', hRun, ?_, hProcesses, ?_⟩
  · rw [hComplete]
    decide
  intro t ht
  simp only [mem_cons, not_mem_nil, or_false] at ht
  rcases ht with rfl | rfl | rfl
  · exact hAll 1 (by decide) 11 (by decide)
  · exact hAll 1 (by decide) 12 (by decide)
  · exact hAll 2 (by decide) 21 (by decide)

end Fennix
