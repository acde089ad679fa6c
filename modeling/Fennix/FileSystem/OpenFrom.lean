import Fennix.FileSystem.NodePath

/-
  Opening an absolute path from a directory.
-/

namespace Fennix

open Cwalk List Option

------ Normalized absolute Paths

namespace Cwalk

theorem keepSegment_plain {kept : List CString} {segment : CString}
    (hKept : ∀ c ∈ kept, c ≠ ['.'] ∧ c ≠ ['.', '.']) : ∀ c ∈ keepSegment true kept segment,
    c ≠ ['.'] ∧ c ≠ ['.', '.'] := by
  intro c hc
  unfold keepSegment at hc
  split at hc
  · exact hKept c hc
  rename_i hDot
  split at hc
  · split at hc
    · cases hc
    rename_i last rest
    split at hc
    · rename_i hLast
      exact ((hKept last mem_cons_self).2 hLast).elim
    · exact hKept c (mem_cons_of_mem last hc)
  rename_i hDots
  rcases mem_cons.mp hc with rfl | hc
  · exact ⟨hDot, hDots⟩
  · exact hKept c hc

theorem resolve_plain (given : List CString) :
    ∀ c ∈ resolve true given, c ≠ ['.'] ∧ c ≠ ['.', '.'] := by
  have hFold : ∀ kept : List CString, (∀ c ∈ kept, c ≠ ['.'] ∧ c ≠ ['.', '.']) →
    ∀ c ∈ given.foldl (keepSegment true) kept, c ≠ ['.'] ∧ c ≠ ['.', '.'] := by
    induction given with
    | nil => exact fun _ hKept => hKept
    | cons segment given ih =>
      intro kept hKept
      exact ih _ (keepSegment_plain hKept)
  intro c hc
  exact hFold [] (fun _ hNil => by cases hNil) c (mem_reverse.mp hc)

variable {path : CString}

section

variable (hAbsolute : pathIsAbsolute path = true)

include hAbsolute

theorem normalize_absolute : pathNormalize path = '/' :: join (resolve true (segments path)) := by
  rw [pathNormalize, pathJoinAndNormalize, if_pos hAbsolute]

theorem normalize_normalize : pathNormalize (pathNormalize path) = pathNormalize path := by
  have hSegments : segments ('/' :: join (resolve true (segments path))) =
    resolve true (segments path) :=
    segments_absolute (fun c hc => isSegment_of_mem (mem_resolve hc))
  rw [normalize_absolute hAbsolute, normalize_absolute rfl, hSegments,
    resolve_eq_self (resolve_plain _)]

theorem absolute_normalize : pathIsAbsolute (pathNormalize path) = true := by
  rw [normalize_absolute hAbsolute]
  rfl

end

end Cwalk

namespace Virtual

variable {v : Virtual} {root a n : NodeId} {fuel : Nat} {path : CString}

theorem normalizePath_absolute (hAbsolute : pathIsAbsolute path = true) (parent : Option NodeId) :
    v.normalizePath fuel parent path = some (pathNormalize path) := by
  rw [normalizePath, pathIsRelative, absolute_normalize hAbsolute]
  rfl

theorem fileExists_clean (hAbsolute : pathIsAbsolute path = true) (parent : NodeId) :
    v.fileExists fuel (some parent) (pathNormalize path) =
    (v.getNodeFromPath fuel parent (pathNormalize path)).map
    (fun node => if node = none then .notFound else .ok) := by
  have hSome : isempty (pathNormalize path) = false := by
    rw [normalize_absolute hAbsolute]
    rfl
  rw [fileExists, hSome, if_neg Bool.false_ne_true]
  dsimp only
  rw [normalizePath_absolute (absolute_normalize hAbsolute), normalize_normalize hAbsolute]
  rfl

------ What is found

def Resolves (v : Virtual) (a : NodeId) (path : CString) (n : NodeId) : Prop :=
  if v.name a = path then n = a
  else
    Greedy v.getChild a (segments path) n ∧ pathGetBasename path = some (v.name n)

theorem Linked.getNodeFromPath_resolves (h : Linked v) (ha : a < v.next) (hFuel : v.next ≤ fuel)
    (path : CString) : ∃ answer, v.getNodeFromPath fuel a path = some answer ∧
    ∀ n, answer = some n ↔ Resolves v a path n := by
  unfold getNodeFromPath Resolves
  by_cases hName : v.name a = path
  · refine ⟨some a, if_pos hName, ?_⟩
    intro n
    rw [if_pos hName, some.injEq]
    exact eq_comm
  simp only [if_neg hName]
  by_cases hNone : segments path = []
  · refine ⟨none, if_pos hNone, ?_⟩
    intro n
    refine iff_of_false (by simp) ?_
    rintro ⟨_, hBasename⟩
    rw [pathGetBasename, hNone] at hBasename
    cases hBasename
  rcases greedy_returns (segments path) (fun q b hq => Nat.lt_of_lt_of_le (Nat.lt_of_le_of_lt
          (Nat.le_trans (Nat.le_add_left _ _) (h.follow_bound ha hq).1)
          (h.follow_bound ha hq).2) hFuel) with ⟨last, hLast⟩
  have hGreedy := Greedy.of_greedy hLast
  refine ⟨if pathGetBasename path = some (v.name last)
      then some last else none,
    by rw [if_neg hNone, hLast]; rfl, ?_⟩
  intro n
  by_cases hBasename : pathGetBasename path = some (v.name last)
  · rw [if_pos hBasename, some.injEq]
    constructor
    · rintro rfl
      exact ⟨hGreedy, hBasename⟩
    · exact fun hn => hGreedy.functional hn.1
  rw [if_neg hBasename]
  refine iff_of_false (by simp) ?_
  rintro ⟨hn, hName'⟩
  rw [hGreedy.functional hn] at hBasename
  exact hBasename hName'

theorem Linked.fileOfNode {names : List CString} (h : Linked v) (hRoot : root ∈ v.roots)
    (hFollow : follow v.getChild root names = some n) (hFuel : v.next ≤ fuel) :
    ∃ name, v.fileOfNode fuel n = some { name := name, node := some n } := by
  have hBound := h.follow_bound (h.root_bounds hRoot).2 hFollow
  have hShort : names.length < fuel := Nat.lt_of_lt_of_le (Nat.lt_of_le_of_lt
    (Nat.le_trans (Nat.le_add_left _ _) hBound.1) hBound.2) hFuel
  rw [Virtual.fileOfNode, getPathFromNode, h.namesAbove hRoot hFollow hShort]
  exact ⟨_, rfl⟩

theorem Resolves.follows (h : Resolves v a path n) :
    ∃ names, follow v.getChild a names = some n := by
  unfold Resolves at h
  split at h
  · exact ⟨[], by rw [h]; rfl⟩
  · exact h.1.follows

------ What is opened

def rootNamed (v : Virtual) (path : CString) : Option NodeId :=
  v.roots.find? (fun a => v.name a = path)

theorem openFile_absolute {parent here there : Option NodeId}
    (hAbsolute : pathIsAbsolute path = true) (hFirst : v.roots.head? = some root)
    (hParent : v.parentOrRoot parent = some a)
    (hHere : v.getNodeFromPath fuel a (pathNormalize path) = some here)
    (hThere : v.getNodeFromPath fuel root (pathNormalize path) = some there)
    (hFile : ∀ n, n ∈ v.roots ∨ there = some n → ∃ name, v.fileOfNode fuel n =
    some { name := name, node := some n }) :
    ∃ file, v.openFile fuel path parent = some file ∧ file.node = here.or
      ((v.rootNamed (pathNormalize path)).or there) ∧ file.status =
      if file.node = none then .notFound else .ok := by
  have hDots : path ≠ ['.'] ∧ path ≠ ['.', '.'] := by
    constructor <;> rintro rfl <;> cases hAbsolute
  unfold openFile
  rw [if_neg hDots.1, if_neg hDots.2]
  simp only [hParent, normalizePath_absolute hAbsolute, bind_some,
    fileExists_clean hAbsolute, hHere, map_some, hFirst, hThere]
  cases here with
  | some n => exact ⟨_, rfl, rfl, rfl⟩
  | none =>
    -- the roots are tried by name, then the first of them
    rw [if_pos (by decide)]
    unfold rootNamed
    cases hNamed : v.roots.find? (fun a => v.name a = pathNormalize path) with
    | some n =>
      rcases hFile n (.inl (mem_of_find?_eq_some hNamed)) with ⟨name, hName⟩
      exact ⟨_, hName, rfl, rfl⟩
    | none =>
      cases there with
      | some n =>
        rcases hFile n (.inr rfl) with ⟨name, hName⟩
        exact ⟨_, hName, rfl, rfl⟩
      | none => exact ⟨_, rfl, rfl, rfl⟩

/-
  What is found from the parent is what is opened without it; and if nothing is found, no root with
  the path as its name is preferred to another node.
-/
structure ParentIgnored (v : Virtual) (root parent : NodeId) (path : CString) : Prop where
  found : ∀ n, Resolves v parent path n → Resolves v root path n ∨
      ((∀ m, ¬ Resolves v root path m) ∧ v.rootNamed path = some n)
  missed : (∀ n, ¬ Resolves v parent path n) → ∀ r n, v.rootNamed path = some r →
      Resolves v root path n → r = n

theorem parentIgnored_iff {parent : NodeId} {here there : Option NodeId}
    (hHere : ∀ n, here = some n ↔ Resolves v parent path n)
    (hThere : ∀ n, there = some n ↔ Resolves v root path n) :
    here.or ((v.rootNamed path).or there) = there.or ((v.rootNamed path).or there) ↔
    ParentIgnored v root parent path := by
  have hIff : ParentIgnored v root parent path ↔ (∀ n, here = some n → there = some n ∨
    (there = none ∧ v.rootNamed path = some n)) ∧
    (here = none → ∀ r n, v.rootNamed path = some r → there = some n → r = n) := by
    have hNone : there = none ↔ ∀ m, ¬ Resolves v root path m := by
      simp only [← hThere, eq_none_iff_forall_ne_some, ne_eq]
    have hNone' : here = none ↔ ∀ m, ¬ Resolves v parent path m := by
      simp only [← hHere, eq_none_iff_forall_ne_some, ne_eq]
    simp only [hNone, hNone', hHere, hThere]
    exact ⟨fun h => ⟨h.found, h.missed⟩, fun h => ⟨h.1, h.2⟩⟩
  rw [hIff]
  cases here <;> cases there <;>
    cases v.rootNamed path <;> simp [eq_comm]

theorem open_absolute_iff {parent : NodeId} (h : Linked v) (hFirst : v.roots.head? = some root)
    (hParent : parent < v.next) (hAbsolute : pathIsAbsolute path = true) (hFuel : v.next ≤ fuel) :
    ∃ file file', v.openFile fuel path (some parent) = some file ∧
    v.openFile fuel path none = some file' ∧
    (file.status = file'.status ∧ file.node = file'.node ↔ ParentIgnored v root parent
    (pathNormalize path)) := by
  have hRoot : root ∈ v.roots := mem_of_head? hFirst
  rcases h.getNodeFromPath_resolves hParent hFuel (pathNormalize path) with ⟨here, hHere, hFound⟩
  rcases h.getNodeFromPath_resolves (h.root_bounds hRoot).2 hFuel (pathNormalize path) with
    ⟨there, hThere, hFound'⟩
  have hFile : ∀ n, n ∈ v.roots ∨ there = some n → ∃ name, v.fileOfNode fuel n =
      some { name := name, node := some n } := by
    rintro n (hOther | hn)
    · exact h.fileOfNode hOther follow_nil hFuel
    · rcases ((hFound' n).mp hn).follows with ⟨names, hFollow⟩
      exact h.fileOfNode hRoot hFollow hFuel
  rcases openFile_absolute hAbsolute hFirst (show v.parentOrRoot (some parent) = some parent
    from rfl) hHere hThere hFile with ⟨file, hOpen, hNode, hStatus⟩
  rcases openFile_absolute hAbsolute hFirst (show v.parentOrRoot none = some root from hFirst)
    hThere hThere hFile with ⟨file', hOpen', hNode', hStatus'⟩
  refine ⟨file, file', hOpen, hOpen', ?_⟩
  rw [← parentIgnored_iff hFound hFound', ← hNode, ← hNode', hStatus, hStatus']
  exact ⟨fun hSame => hSame.2, fun hSame => by
    rw [hSame]
    exact ⟨rfl, rfl⟩⟩

------ A shadowed File

def shadowed : Virtual :=
  oneFile.addNode 1
    { name := ['f'], parent := some 1, operator := some 1 }

theorem absolute_path_shadowed : oneFile.create 4 none ['/', 'f'] = some (some 4, shadowed) ∧
    (shadowed.openFile 5 ['/', 'f'] (some 2)).map File.node = some (some 3) ∧
    (shadowed.openFile 5 ['/', 'f'] none).map File.node = some (some 4) :=
  ⟨rfl, rfl, rfl⟩

theorem open_absolute_iff_oneFile : ∃ file file',
    oneFile.openFile 4 ['/', 'a'] (some 2) = some file ∧
    oneFile.openFile 4 ['/', 'a'] none = some file' ∧
    (file.status = file'.status ∧ file.node = file'.node ↔ ParentIgnored oneFile 1 2
    (pathNormalize ['/', 'a'])) := by
  have hWell : WellFormed oneFile := by
    rcases built_oneFile with ⟨calls, hRun, _⟩
    exact Built.wellFormed ⟨calls, hRun⟩
  exact open_absolute_iff hWell.toLinked rfl (by decide) rfl (Nat.le_refl 4)

end Virtual

end Fennix
