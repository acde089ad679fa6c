import Fennix.FileSystem.Tree

/-
  Finding a node by its path, and what `Create` does to the tree.
-/

namespace Fennix

open Cwalk List

namespace Virtual

variable {v v' : Virtual} {root a n : NodeId} {fuel : Nat}

------ Lookup

theorem name_of_follow {p : NormalPath} (h : follow v.getChild root p.components = some n) :
    v.name n = p.basename := by
  rw [← List.dropLast_append_getLast p.nonempty] at h
  rcases follow_snoc_some.mp h with ⟨_, _, hChild⟩
  exact (getChild_some hChild).2

theorem NodeTree.getNodeFromPath_text (hTree : NodeTree v root) (p : NormalPath)
    (hFuel : v.next ≤ fuel) : ∃ last, Greedy v.getChild root p.components last ∧
    v.getNodeFromPath fuel root p.text = some ( if v.name root = p.text then some root
    else if v.name last = p.basename then some last else none) := by
  rcases greedy_returns p.components (fun _ _ hq =>
        Nat.lt_of_lt_of_le (hTree.length_lt hq) hFuel) with
    ⟨last, hWalk⟩
  refine ⟨last, Greedy.of_greedy hWalk, ?_⟩
  rw [getNodeFromPath, NormalPath.segments_text, hWalk, if_neg p.nonempty]
  by_cases hRoot : v.name root = p.text
  · rw [if_pos hRoot, if_pos hRoot]
  · rw [if_neg hRoot, if_neg hRoot]
    simp [eq_comm]

theorem NodeTree.not_root (hTree : NodeTree v root) (p : NormalPath) :
    follow v.getChild root p.components ≠ some root := by
  intro hRoot
  exact p.nonempty (hTree.unique hRoot follow_nil)

theorem fileExists_text (p : NormalPath) (parent : NodeId) :
    v.fileExists fuel (some parent) p.text = (v.getNodeFromPath fuel parent p.text).map
    (fun node => if node = none then .notFound else .ok) := by
  simp [fileExists, normalizePath, pathIsRelative]

def FindsChain (fuel : Nat) (v : Virtual) (root : NodeId) (p : NormalPath) : Prop :=
  ∃ answer, v.getNodeFromPath fuel root p.text = some answer ∧
      (∀ n, answer = some n ↔ v.Chain root p.components n) ∧
      (answer = none ↔ ∀ n, ¬ v.Chain root p.components n)

/- The root is not named like the whole path. -/
structure Findable (v : Virtual) (root : NodeId) (p : NormalPath) : Prop where
  root_name : v.name root ≠ p.text
  straight : (∃ n, v.Chain root p.components n) → Straight v.getChild root p.components
  missed : (∀ n, ¬ v.Chain root p.components n) → ∀ last, Greedy v.getChild root p.components last →
      v.name last ≠ p.basename

theorem getNodeFromPath_iff (hTree : NodeTree v root) (hDistinct : DistinctNames v root)
    (p : NormalPath) (hFuel : v.next ≤ fuel) : FindsChain fuel v root p ↔ Findable v root p := by
  rcases hTree.getNodeFromPath_text p hFuel with ⟨last, hWalk, hAnswer⟩
  have hChain : ∀ n, v.Chain root p.components n ↔ follow v.getChild root p.components = some n :=
    fun n => chain_iff hDistinct p.components Below.root
  constructor
  · rintro ⟨answer, hEq, hSome, _⟩
    rw [hAnswer, Option.some.injEq] at hEq
    have hName : v.name root ≠ p.text := by
      intro hRoot
      rw [if_pos hRoot] at hEq
      exact hTree.not_root p ((hChain root).mp ((hSome root).mp hEq.symm))
    rw [if_neg hName] at hEq
    refine ⟨hName, ?_, ?_⟩
    · rintro ⟨n, hn⟩
      have hFound := (hSome n).mpr hn
      rw [← hEq] at hFound
      split at hFound
      · cases hFound
        exact hWalk.straight (fun _ _ _ hp hq => hTree.unique hp hq) ((hChain last).mp hn)
      · cases hFound
    intro hNone last' hWalk' hLast
    rw [hWalk'.functional hWalk] at hLast
    rw [if_pos hLast] at hEq
    exact hNone last ((hSome last).mp hEq.symm)
  rintro ⟨hName, hStraight, hMissed⟩
  rw [if_neg hName] at hAnswer
  by_cases hExists : ∃ n, v.Chain root p.components n
  · rcases hExists with ⟨n, hn⟩
    have hFollow := (hChain n).mp hn
    have hLast : last = n := hWalk.functional ((hStraight ⟨n, hn⟩).greedy hFollow)
    rw [hLast, if_pos (name_of_follow hFollow)] at hAnswer
    refine ⟨some n, hAnswer, ?_, ?_⟩
    · intro m
      rw [hChain m, hFollow]
    constructor
    · intro hNone
      cases hNone
    · intro hNone
      exact (hNone n hn).elim
  have hNone := not_exists.mp hExists
  rw [if_neg (hMissed hNone last hWalk)] at hAnswer
  refine ⟨none, hAnswer, ?_, ?_⟩
  · intro m
    constructor
    · intro hSome
      cases hSome
    · intro hm
      exact (hNone m hm).elim
  · exact ⟨fun _ => hNone, fun _ => rfl⟩

def rootOnly : Virtual :=
  start.addNode 0
    { name := ['/'], flags := .fsDirectory, operator := some 1 }

def oneDirectory : Virtual :=
  rootOnly.addNode 1
    { name := ['a'], parent := some 1, operator := some 1 }

theorem built_oneDirectory : Built oneDirectory := by
  have hRoot : Step start (.createRoot (some 1) ['/']) rootOnly := ⟨some 1, rfl⟩
  have hDirectory : Step rootOnly (.create none ['/', 'a']) oneDirectory :=
    ⟨fun a ha => (by cases ha), 2, some 2, rfl⟩
  exact ⟨_, (Run.nil.snoc hRoot).snoc hDirectory⟩

theorem nodeTree_oneDirectory : NodeTree oneDirectory 1 ∧ DistinctNames oneDirectory 1 :=
  built_oneDirectory.wellFormed.nodeTree (by decide)

def pathA : NormalPath where
  components := [['a']]
  nonempty := by decide
  isSegment := by simp [IsSegment]
  resolved := by decide

def pathBA : NormalPath where
  components := [['b'], ['a']]
  nonempty := by decide
  isSegment := by simp [IsSegment]
  resolved := by decide

theorem getNodeFromPath_iff_oneDirectory : FindsChain 3 oneDirectory 1 pathA ↔
    Findable oneDirectory 1 pathA := by
  rcases nodeTree_oneDirectory with ⟨hTree, hDistinct⟩
  exact getNodeFromPath_iff hTree hDistinct pathA (by decide)

theorem not_chain_pathBA (n : NodeId) : ¬ oneDirectory.Chain 1 pathBA.components n := by
  intro hChain
  have hNone : follow oneDirectory.getChild 1 pathBA.components = none := by
    decide
  have hSome := (chain_iff nodeTree_oneDirectory.2 pathBA.components Below.root).mp hChain
  rw [hNone] at hSome
  cases hSome

theorem missing_directory_found : NodeTree oneDirectory 1 ∧ DistinctNames oneDirectory 1 ∧
    oneDirectory.getNodeFromPath 3 1 pathBA.text = some (some 2) ∧
    ∀ n, ¬ oneDirectory.Chain 1 pathBA.components n :=
  ⟨nodeTree_oneDirectory.1, nodeTree_oneDirectory.2, by decide, not_chain_pathBA⟩

------ Appended Nodes

structure Appended (v : Virtual) (a : NodeId) (missing : List CString) (v' : Virtual) : Prop where
  next : v'.next = v.next + missing.length
  fileSystemRoot : v'.fileSystemRoot = v.fileSystemRoot
  kept : ∀ x, x < v.next → x ≠ a → v'.nodes x = v.nodes x
  parent : v'.nodes a = { v.nodes a with
      children := v.children a ++ (if missing = [] then [] else [v.next]) }
  added : ∀ (i : Nat) c, missing[i]? = some c → v'.nodes (v.next + i) =
      { name := c
        parent := some (if i = 0 then a else v.next + i - 1)
        operator := (v.nodes a).operator
        children :=
          if i + 1 < missing.length then [v.next + i + 1]
          else [] }

namespace Appended

variable {missing : List CString}

theorem refl (v : Virtual) (a : NodeId) : Appended v a [] v where
  next := rfl
  fileSystemRoot := rfl
  kept := fun _ _ _ => rfl
  parent := by simp [children]
  added := by simp

variable {c : CString} {rest : List CString}

theorem cons (ha : a < v.next) (h : Appended (v.addNode a (v.newChild a c)) v.next rest v') :
    Appended v a (c :: rest) v' where
  next := by
    rw [h.next, addNode_next, length_cons]
    exact Nat.add_right_comm v.next 1 rest.length
  fileSystemRoot := h.fileSystemRoot
  kept := by
    intro x hx hNe
    rw [h.kept x (Nat.lt_succ_of_lt hx) (Nat.ne_of_lt hx),
      addNode_nodes_other v a _ (Nat.ne_of_lt hx) hNe]
  parent := by
    rw [h.kept a (Nat.lt_succ_of_lt ha) (Nat.ne_of_lt ha), addNode_nodes_parent v a _ ha]
    rfl
  added := by
    intro i d hi
    cases i with
    | zero =>
      cases hi
      rw [Nat.add_zero, h.parent, children, addNode_nodes_next]
      cases rest with
      | nil => rfl
      | cons e rest => simp [newChild]
    | succ i =>
      have hNode := h.added i d hi
      rw [addNode_next, addNode_nodes_next, Nat.add_right_comm v.next 1 i] at hNode
      rw [← Nat.add_assoc, hNode]
      simp only [length_cons, Nat.add_lt_add_iff_right]
      cases i with
      | zero => rfl
      | succ i => rfl
variable {x : NodeId}

theorem name_eq (h : Appended v a missing v') (hx : x < v.next) : v'.name x = v.name x := by
  by_cases hSame : x = a
  · rw [hSame, name, h.parent]
    rfl
  · rw [name, h.kept x hx hSame]
    rfl

theorem getChild_some {y : NodeId} (h : Appended v a missing v') (hx : x < v.next)
    (hOld : ∀ b ∈ v.children x, b < v.next) (hChild : v.getChild x c = some y) :
    v'.getChild x c = some y := by
  have hSame : (v.children x).find? (fun b => v'.name b = c) = some y := by
    rw [← hChild]
    exact find?_name_congr (fun b hb => h.name_eq (hOld b hb))
  by_cases hParent : x = a
  · rw [getChild, children, hParent, h.parent, find?_append, ← hParent]
    exact congrArg (fun found => Option.or found _) hSame
  · rw [getChild, children, h.kept x hx hParent]
    exact hSame

theorem getChild_new (h : Appended v a (c :: rest) v') (hOld : ∀ b ∈ v.children a, b < v.next)
    (hNone : v.getChild a c = none) : v'.getChild a c = some v.next := by
  have hBefore : (v.children a).find? (fun b => v'.name b = c) = none := by
    rw [← hNone]
    exact find?_name_congr (fun b hb => h.name_eq (hOld b hb))
  have hName : v'.name v.next = c := by
    rw [name, ← Nat.add_zero v.next, h.added 0 c rfl]
  rw [getChild, children, h.parent, find?_append, hBefore]
  simp [hName]

end Appended

------ The Loop over the Segments

structure CreatesPath (v : Virtual) (root : NodeId) (components : List CString) (n : NodeId)
    (v' : Virtual) : Prop where
  reached : follow v'.getChild root components = some n
  appended : ∃ existing missing a, components = existing ++ missing ∧
      follow v.getChild root existing = some a ∧
      (∀ c, missing.head? = some c → v.getChild a c = none) ∧
      Appended v a missing v'

theorem createSegments_missing {missing : List CString} (ha : a < v.next)
    (hOld : ∀ b ∈ v.children a, b < v.next)
    (hNone : ∀ c, missing.head? = some c → v.getChild a c = none)
    (hFit : ∀ c ∈ missing, c.length < FILENAME_LENGTH) : ∃ n v',
    v.createSegments a missing = some (n, v') ∧ follow v'.getChild a missing = some n ∧
    Appended v a missing v' := by
  induction missing generalizing v a with
  | nil => exact ⟨a, v, rfl, rfl, Appended.refl v a⟩
  | cons c rest ih =>
    have hAbsent := hNone c rfl
    rcases ih (v := v.addNode a (v.newChild a c)) (Nat.lt_succ_self v.next) (by
          intro b hb
          rw [children, addNode_nodes_next] at hb
          cases hb)
        (fun d _ => getChild_addNode_next rfl)
        (fun d hd => hFit d (mem_cons_of_mem _ hd))
      with ⟨n, v', hLoop, hRest, hAppended⟩
    have hAll := hAppended.cons ha
    refine ⟨n, v', ?_, ?_, hAll⟩
    · rw [createSegments, hAbsent, addNewChild, if_pos (hFit c mem_cons_self)]
      exact hLoop
    · rw [follow_cons, hAll.getChild_new hOld hAbsent]
      exact hRest

theorem createSegments_returns (hTree : NodeTree v root) {components : List CString}
    (hBelow : Below v root a) (hFit : ∀ c ∈ components, c.length < FILENAME_LENGTH) : ∃ n v',
    v.createSegments a components = some (n, v') ∧ CreatesPath v a components n v' := by
  have hOld : ∀ {x}, Below v root x → ∀ b ∈ v.children x, b < v.next :=
    fun hx b hb => hTree.allocated (hx.child hb)
  induction components generalizing a with
  | nil =>
    exact ⟨a, v, rfl, rfl, [], [], a, rfl, rfl, fun _ hHead => (by cases hHead), Appended.refl v a⟩
  | cons c rest ih =>
    cases hChild : v.getChild a c with
    | none =>
      have hHead : ∀ d, (c :: rest).head? = some d → v.getChild a d = none := by
        intro d hd
        cases hd
        exact hChild
      rcases createSegments_missing (hTree.allocated hBelow) (hOld hBelow) hHead hFit with
        ⟨n, v', hLoop, hReached, hAppended⟩
      exact ⟨n, v', hLoop, hReached, [], c :: rest, a, rfl, rfl, hHead, hAppended⟩
    | some b =>
      rcases ih (hBelow.child (getChild_some hChild).1) (fun d hd =>
            hFit d (mem_cons_of_mem _ hd)) with
        ⟨n, v', hLoop, hReached, existing, missing, last, hSplit, hFollow, hHead, hAppended⟩
      refine ⟨n, v', ?_, ?_, c :: existing, missing, last, ?_, ?_, hHead, hAppended⟩
      · rw [createSegments, hChild]
        exact hLoop
      · rw [follow_cons, hAppended.getChild_some (hTree.allocated hBelow) (hOld hBelow) hChild]
        exact hReached
      · rw [hSplit, cons_append]
      · rw [follow_cons, hChild]
        exact hFollow

------ The Lookups before the Loop

theorem normalizePath_root (hRoot : root ∈ v.roots) (hFuel : 0 < fuel) (path : CString) :
    ∃ cleanPath, v.normalizePath fuel (some root) path = some cleanPath ∧ ∀ c ∈ segments cleanPath,
    c ∈ segments path ∨ c = ['.'] := by
  cases fuel with
  | zero => cases hFuel
  | succ fuel =>
    have hBase : v.getPathFromNode (fuel + 1) (some root) = some [] := by
      rw [getPathFromNode, namesAbove, if_pos (.inr hRoot)]
      rfl
    rw [normalizePath, hBase]
    split
    · refine ⟨_, rfl, ?_⟩
      intro c hc
      rcases mem_segments_getAbsolute hc with hNone | hPath
      · cases hNone
      · exact mem_segments_normalize hPath
    · exact ⟨_, rfl, fun c hc => mem_segments_normalize hc⟩

theorem NodeTree.getNodeFromPath_returns (hTree : NodeTree v root) (hFuel : v.next ≤ fuel)
    (path : CString) : ∃ answer, v.getNodeFromPath fuel root path = some answer := by
  rcases greedy_returns (segments path) (fun _ _ hq =>
        Nat.lt_of_lt_of_le (hTree.length_lt hq) hFuel) with
    ⟨last, hWalk⟩
  rw [getNodeFromPath, hWalk]
  split
  · exact ⟨_, rfl⟩
  split
  · exact ⟨_, rfl⟩
  · exact ⟨_, rfl⟩

theorem NodeTree.fuel_pos (hTree : NodeTree v root) (hFuel : v.next ≤ fuel) : 0 < fuel :=
  Nat.lt_of_lt_of_le (Nat.zero_lt_of_lt (hTree.allocated Below.root)) hFuel

theorem NodeTree.fileExists_returns (hTree : NodeTree v root) (hRoot : root ∈ v.roots)
    (hFuel : v.next ≤ fuel) (path : CString) : ∃ status,
    v.fileExists fuel (some root) path = some status := by
  have hSome := hTree.fuel_pos hFuel
  rcases normalizePath_root hRoot hSome path with ⟨normalized, hNormalized, _⟩
  rcases hTree.getNodeFromPath_returns hFuel normalized with ⟨answer, hAnswer⟩
  rw [fileExists]
  split
  · exact ⟨_, rfl⟩
  · simp [hNormalized, hAnswer]

theorem create_appends (hRoot : v.roots.head? = some root) (hTree : NodeTree v root)
    (path : CString) (hFit : ∀ c ∈ segments path, c.length < FILENAME_LENGTH)
    (hFuel : v.next ≤ fuel) : ∃ cleanPath answer v',
    v.normalizePath fuel (some root) path = some cleanPath ∧
    v.create fuel none path = some (answer, v') ∧
    (∀ n, answer = some n → CreatesPath v root (segments cleanPath) n v') ∧
    (answer = none → v' = v) := by
  have hMem : root ∈ v.roots := mem_of_head? hRoot
  have hSome := hTree.fuel_pos hFuel
  rcases normalizePath_root hMem hSome path with ⟨cleanPath, hClean, hSegments⟩
  rcases hTree.fileExists_returns hMem hFuel cleanPath with ⟨status, hStatus⟩
  have hShort : ∀ c ∈ segments cleanPath, c.length < FILENAME_LENGTH := by
    intro c hc
    rcases hSegments c hc with hGiven | rfl
    · exact hFit c hGiven
    · decide
  rcases createSegments_returns hTree Below.root hShort with ⟨n, v', hLoop, hCreates⟩
  have hRefused : ∀ m, (none : Option NodeId) = some m →
    CreatesPath v root (segments cleanPath) m v :=
    fun _ hNone => (by cases hNone)
  refine ⟨cleanPath, ?_⟩
  by_cases hEmpty : isempty path = true
  · exact ⟨none, v, hClean, by rw [create, if_pos hEmpty], hRefused, fun _ => rfl⟩
  have hCreate : v.create fuel none path =
      if status ≠ .notFound then some (none, v)
      else if segments cleanPath = [] then
        some (none, v)
      else some (some n, v') := by
    rw [create, if_neg hEmpty]
    simp [parentOrRoot, hRoot, hClean, hStatus, hLoop]
  rw [hCreate]
  split
  · exact ⟨none, v, hClean, rfl, hRefused, fun _ => rfl⟩
  split
  · exact ⟨none, v, hClean, rfl, hRefused, fun _ => rfl⟩
  refine ⟨some n, v', hClean, rfl, ?_, ?_⟩
  · intro m hm
    cases hm
    exact hCreates
  · intro hNone
    cases hNone

theorem create_appends_oneDirectory : oneDirectory.roots.head? = some 1 ∧ ∃ cleanPath answer v',
    oneDirectory.normalizePath 3 (some 1) ['b'] = some cleanPath ∧
    oneDirectory.create 3 none ['b'] = some (answer, v') ∧
    (∀ n, answer = some n → CreatesPath oneDirectory 1 (segments cleanPath) n v') ∧
    (answer = none → v' = oneDirectory) :=
  ⟨by decide, create_appends (by decide) nodeTree_oneDirectory.1 ['b'] (by decide) (by decide)⟩

end Virtual

end Fennix
