import Fennix.FileSystem.Create

/-
  Creating a node and opening it again.
-/

namespace Fennix

open Cwalk List Option

namespace Virtual

variable {v v' : Virtual} {root a n : NodeId} {fuel : Nat}

theorem normalizePath_text (p : NormalPath) (parent : Option NodeId) :
    v.normalizePath fuel parent p.text = some p.text := by
  simp [normalizePath, pathIsRelative]

theorem create_text (hRoot : v.roots.head? = some root) (p : NormalPath) :
    v.create fuel none p.text =
    (v.getNodeFromPath fuel root p.text).bind (fun node => if node = none then
    (v.createSegments root p.components).map (fun created => (some created.1, created.2))
    else some (none, v)) := by
  rw [create, NormalPath.isempty_text, if_neg Bool.false_ne_true]
  simp only [parentOrRoot, orElse_none, hRoot, normalizePath_text, bind_some,
    fileExists_text, NormalPath.segments_text, if_neg p.nonempty]
  cases v.getNodeFromPath fuel root p.text with
  | none => rfl
  | some node =>
    cases node with
    | none => rfl
    | some node => rfl

theorem openFile_text (hRoot : v.roots.head? = some root) (p : NormalPath) :
    v.openFile fuel p.text none = (v.getNodeFromPath fuel root p.text).bind (fun node =>
    match node with
    | some n =>
        some
          { name := some p.basename, status := .ok, node := some n }
    | none =>
      match v.roots.find? (fun b => v.name b = p.text) with
      | some other => v.fileOfNode fuel other
      | none => some { status := .notFound }) := by
  have hDot : p.text ≠ ['.'] := by simp [NormalPath.text]
  have hDots : p.text ≠ ['.', '.'] := by
    simp [NormalPath.text]
  rw [openFile, if_neg hDot, if_neg hDots]
  simp only [parentOrRoot, orElse_none, hRoot, normalizePath_text, bind_some, fileExists_text]
  cases v.getNodeFromPath fuel root p.text with
  | none => rfl
  | some node =>
    cases node with
    | none =>
      simp only [map_some, bind_some]
      rfl
    | some node => simp

variable {stem : List CString}

theorem WellFormed.follow_addNode (h : WellFormed v) (node : FileSystemNode)
    (hRoot : root ∈ v.roots) (hStem : follow v.getChild root stem = some a)
    (hNone : v.getChild a node.name = none) (hBare : node.children = []) :
    follow (v.addNode a node).getChild root (stem ++ [node.name]) = some v.next ∧
    ∀ q, q ≠ stem ++ [node.name] → follow (v.addNode a node).getChild root q =
    follow v.getChild root q := by
  have hTree := (h.nodeTree hRoot).1
  have ha : a < v.next := hTree.allocated (Below.root.of_follow hStem)
  have hOld : ∀ {x}, x < v.next → ∀ b ∈ v.children x, b < v.next :=
    fun hx b hb => (h.ordered hx hb).2
  have hEdge : (v.addNode a node).getChild a node.name = some v.next := by
    rw [getChild_addNode_parent (hOld ha) ha, hNone, if_pos rfl]
    rfl
  have hSame : ∀ x c, x < v.next → (x ≠ a ∨ c ≠ node.name) →
    (v.addNode a node).getChild x c = v.getChild x c := by
    intro x c hx hOther
    by_cases hParent : x = a
    · subst hParent
      have hName : node.name ≠ c := (hOther.resolve_left (fun hNe => hNe rfl)).symm
      rw [getChild_addNode_parent (hOld hx) hx, if_neg hName]
      exact or_none
    · exact getChild_addNode_other (hOld hx) (Nat.ne_of_lt hx) hParent
  have hGraft : ∀ q, (q = stem ++ [node.name] → follow (v.addNode a node).getChild root q =
    some v.next) ∧ (q ≠ stem ++ [node.name] → follow (v.addNode a node).getChild root q =
    follow v.getChild root q) := by
    intro q
    exact (hTree.pathTree (stem.length + 1 + q.length)).follow_graft
        (Nat.lt_of_lt_of_le (Nat.lt_succ_self _) (Nat.le_add_right _ _)) hStem hNone hEdge
        (fun c => getChild_addNode_next hBare) hSame q (Nat.le_add_left _ _)
  exact ⟨(hGraft _).1 rfl, fun q => (hGraft q).2⟩

structure Extended (v : Virtual) (root : NodeId) (path : List CString) (v' : Virtual) : Prop where
  wellFormed : WellFormed v'
  roots : v'.roots = v.roots
  root_name : v'.name root = v.name root
  straight : Straight v'.getChild root path ↔ Straight v.getChild root path

variable {path : List CString}

theorem Extended.trans {v₁ : Virtual} (h : Extended v root path v₁) (h' : Extended v₁ root path v')
    : Extended v root path v' where
  wellFormed := h'.wellFormed
  roots := h'.roots.trans h.roots
  root_name := h'.root_name.trans h.root_name
  straight := h'.straight.trans h.straight

theorem WellFormed.extended {b : NodeId} {c : CString} (h : WellFormed v) (hRoot : root ∈ v.roots)
    (hStem : follow v.getChild root stem = some a) (hNone : v.getChild a c = none)
    (hAdd : v.addNewChild a c = some (b, v')) (rest : List CString) :
    Extended v root (stem ++ c :: rest) v' ∧
    follow v'.getChild root (stem ++ [c]) = some b ∧ v'.next = v.next + 1 := by
  rcases h.ordered h.allocated hRoot with ⟨hAbove, hBound⟩
  have hTree := (h.nodeTree hRoot).1
  have hBelow : Below v root a := Below.root.of_follow hStem
  have ha : a < v.next := hTree.allocated hBelow
  have hNotTop : v.fileSystemRoot ≠ a := by
    intro hEq
    rw [← hEq] at hBelow
    exact hTree.root_top hBelow hRoot
  have hWell := (h.addNewChild ha hNone hAdd).1
  unfold Virtual.addNewChild at hAdd
  split at hAdd
  · cases hAdd
    rcases h.follow_addNode (v.newChild a c) hRoot hStem hNone rfl with ⟨hNew, hOther⟩
    refine ⟨⟨hWell, ?_, ?_, ?_⟩, hNew, rfl⟩
    · exact children_addNode_other (Nat.ne_of_lt h.allocated) hNotTop
    · exact addNode_name v a _ (Nat.ne_of_lt hBound)
    · exact straight_graft hOther
  · cases hAdd

theorem createSegments_extended (stem : List CString) {rest : List CString} (h : WellFormed v)
    (hRoot : root ∈ v.roots) (hStem : follow v.getChild root stem = some a)
    (hLoop : v.createSegments a rest = some (n, v')) : Extended v root (stem ++ rest) v' ∧
    follow v'.getChild root (stem ++ rest) = some n ∧ v'.next ≤ v.next + rest.length := by
  have hEnd := createSegments_rule (P := fun w b ahead => ∃ done,
      done ++ ahead = stem ++ rest ∧ Extended v root (stem ++ rest) w ∧
        follow w.getChild root done = some b ∧ w.next + ahead.length ≤ v.next + rest.length) ?_ ?_
    ⟨stem, rfl, ⟨h, rfl, rfl, Iff.rfl⟩, hStem, Nat.le_refl _⟩ hLoop
  · rcases hEnd with ⟨done, hDone, hExtended, hReached, hNext⟩
    rw [append_nil] at hDone
    rw [hDone] at hReached
    exact ⟨hExtended, hReached, hNext⟩
  · rintro w b d c ahead ⟨done, hPath, hExtended, hReached, hNext⟩ hChild
    refine ⟨done ++ [c], ?_, hExtended, follow_snoc_some.mpr ⟨b, hReached, hChild⟩, ?_⟩
    · rw [← hPath, append_assoc, singleton_append]
    · exact Nat.le_trans (Nat.le_succ _) hNext
  · rintro w b c ahead ⟨done, hPath, hExtended, hReached, hNext⟩ hNone hFits
    have hAdd : w.addNewChild b c = some (w.next, w.addNode b (w.newChild b c)) := if_pos hFits
    rw [← hExtended.roots] at hRoot
    rcases hExtended.wellFormed.extended hRoot hReached hNone hAdd ahead with ⟨hMore, hNew, _⟩
    rw [hPath] at hMore
    refine ⟨done ++ [c], ?_, hExtended.trans hMore, hNew, ?_⟩
    · rw [← hPath, append_assoc, singleton_append]
    · rw [addNode_next, Nat.add_right_comm]
      exact hNext

def CreatesNew (fuel : Nat) (v : Virtual) (root : NodeId) (p : NormalPath) : Prop :=
  ∃ answer v', v.create fuel none p.text = some (answer, v') ∧
      (answer ≠ none ↔ ∀ n, ¬ v.Chain root p.components n) ∧
      ∀ n, answer = some n → ∃ file, v'.openFile fuel p.text none = some file ∧
            file.node = some n ∧ file.status = .ok

/-
  If the path names a node, skipping and repeating as the walk does ends at a node of the last name
  too.
-/
structure Creatable (v : Virtual) (root : NodeId) (p : NormalPath) : Prop where
  known : (∃ n, v.Chain root p.components n) → v.name root = p.text ∨
      ∀ last, Greedy v.getChild root p.components last → v.name last = p.basename
  unknown : (∀ n, ¬ v.Chain root p.components n) → v.name root ≠ p.text ∧
      (∀ last, Greedy v.getChild root p.components last → v.name last ≠ p.basename) ∧
      Straight v.getChild root p.components ∧
      ∀ c ∈ p.components, c.length < FILENAME_LENGTH

theorem WellFormed.fits_of_follow (h : WellFormed v) (hRoot : root ∈ v.roots)
    (hFollow : follow v.getChild root path = some n) : ∀ c ∈ path, c.length < FILENAME_LENGTH := by
  induction path using reverseRecOn generalizing n with
  | nil =>
    intro c hc
    cases hc
  | append_singleton path d ih =>
    rcases follow_snoc_some.mp hFollow with ⟨b, hb, hChild⟩
    intro c hc
    rcases mem_append.mp hc with hFirst | hLast
    · exact ih hb c hFirst
    · rw [mem_singleton.mp hLast, ← (getChild_some hChild).2]
      exact h.fits ((h.nodeTree hRoot).1.allocated (Below.root.of_follow hFollow))

theorem WellFormed.not_mem_roots (h : WellFormed v) (hRoot : root ∈ v.roots) {p : NormalPath}
    (hFollow : follow v.getChild root p.components = some n) : n ∉ v.roots := by
  intro hMem
  rw [← dropLast_append_getLast p.nonempty] at hFollow
  rcases follow_snoc_some.mp hFollow with ⟨b, hb, hChild⟩
  have hTree := (h.nodeTree hRoot).1
  have hBelow : Below v root b := Below.root.of_follow hb
  have hNotTop : b ≠ v.fileSystemRoot := by
    intro hEq
    rw [hEq] at hBelow
    exact hTree.root_top hBelow hRoot
  have hUp := h.parent (hTree.allocated hBelow) hNotTop (getChild_some hChild).1
  rcases h.root_parent hMem with hNone | hTop
  · rw [hUp] at hNone
    cases hNone
  · rw [hUp] at hTop
    exact hNotTop (some.inj hTop)

theorem WellFormed.opens_iff (h : WellFormed v) (hRoot : v.roots.head? = some root) (p : NormalPath)
    (hName : v.name root ≠ p.text) (hFollow : follow v.getChild root p.components = some n)
    (hFuel : v.next ≤ fuel) :
    (∃ file, v.openFile fuel p.text none = some file ∧ file.node = some n ∧ file.status = .ok) ↔
    Straight v.getChild root p.components := by
  have hMem : root ∈ v.roots := mem_of_head? hRoot
  have hTree := (h.nodeTree hMem).1
  rcases hTree.getNodeFromPath_text p hFuel with ⟨last, hWalk, hAnswer⟩
  rw [if_neg hName] at hAnswer
  rw [openFile_text hRoot, hAnswer, bind_some]
  constructor
  · rintro ⟨file, hFile, hNode, _⟩
    split at hFile
    · rename_i m hFound
      cases hFile
      split at hFound
      · cases hFound
        cases hNode
        exact hWalk.straight (fun _ _ _ hp hq => hTree.unique hp hq) hFollow
      · cases hFound
    -- the fallback opens a root or nothing
    exfalso
    split at hFile
    · rename_i other hOther
      rcases map_eq_some_iff.mp hFile with ⟨_, _, rfl⟩
      cases hNode
      exact h.not_mem_roots hMem hFollow (mem_of_find?_eq_some hOther)
    · cases hFile
      cases hNode
  intro hStraight
  have hLast : last = n := hWalk.functional (hStraight.greedy hFollow)
  rw [hLast, if_pos (name_of_follow hFollow)]
  exact ⟨_, rfl, rfl, rfl⟩

theorem refused_iff (hRoot : v.roots.head? = some root) (p : NormalPath)
    (hFound : v.getNodeFromPath fuel root p.text = some (some n)) : CreatesNew fuel v root p ↔
    ∃ n, v.Chain root p.components n := by
  have hCreate : v.create fuel none p.text = some (none, v) := by
    rw [create_text hRoot, hFound]
    rfl
  unfold CreatesNew
  rw [hCreate]
  constructor
  · rintro ⟨answer, v', hEq, hNew, _⟩
    cases hEq
    by_contra hNone
    exact hNew.mpr (not_exists.mp hNone) rfl
  rintro ⟨n, hn⟩
  refine ⟨none, v, rfl, ?_, ?_⟩
  · constructor
    · intro hNe
      exact (hNe rfl).elim
    · intro hNone
      exact (hNone n hn).elim
  · intro m hm
    cases hm

theorem WellFormed.creates_iff (h : WellFormed v) (hRoot : v.roots.head? = some root)
    (p : NormalPath) (hName : v.name root ≠ p.text)
    (hFound : v.getNodeFromPath fuel root p.text = some none)
    (hFuel : v.next + p.components.length ≤ fuel) : CreatesNew fuel v root p ↔
    (∀ n, ¬ v.Chain root p.components n) ∧ Straight v.getChild root p.components ∧
    ∀ c ∈ p.components, c.length < FILENAME_LENGTH := by
  have hMem : root ∈ v.roots := mem_of_head? hRoot
  have hCreate : v.create fuel none p.text = (v.createSegments root p.components).map
      (fun created => (some created.1, created.2)) := by
    rw [create_text hRoot, hFound]
    rfl
  -- opening the node the loop has reached
  have hOpens : ∀ n v', v.createSegments root p.components = some (n, v') →
    (∀ c ∈ p.components, c.length < FILENAME_LENGTH) ∧
    ((∃ file, v'.openFile fuel p.text none = some file ∧
    file.node = some n ∧ file.status = .ok) ↔ Straight v.getChild root p.components) := by
    intro n v' hLoop
    rcases createSegments_extended [] h hMem follow_nil hLoop with ⟨hExtended, hReached, hBound⟩
    rw [nil_append] at hExtended hReached
    have hRoot' : v'.roots.head? = some root := by
      rw [hExtended.roots]
      exact hRoot
    refine ⟨?_, ?_⟩
    · exact hExtended.wellFormed.fits_of_follow (mem_of_head? hRoot') hReached
    rw [← hExtended.straight]
    rw [← hExtended.root_name] at hName
    exact hExtended.wellFormed.opens_iff hRoot' p hName hReached (Nat.le_trans hBound hFuel)
  unfold CreatesNew
  rw [hCreate]
  constructor
  · rintro ⟨answer, v', hEq, hNew, hOpen⟩
    rcases map_eq_some_iff.mp hEq with ⟨⟨n, w⟩, hLoop, hPair⟩
    cases hPair
    rcases hOpens n w hLoop with ⟨hFit, hIff⟩
    exact ⟨hNew.mp (some_ne_none n), hIff.mp (hOpen n rfl), hFit⟩
  rintro ⟨hNone, hStraight, hFit⟩
  rcases createSegments_returns (h.nodeTree hMem).1 Below.root hFit with ⟨n, v', hLoop, _⟩
  refine ⟨some n, v', by rw [hLoop]; rfl, ?_, ?_⟩
  · exact ⟨fun _ => hNone, fun _ => some_ne_none n⟩
  intro m hm
  cases hm
  exact (hOpens n v' hLoop).2.mpr hStraight

theorem create_open_iff (hBuilt : Built v) (hRoot : v.roots.head? = some root) (p : NormalPath)
    (hFuel : v.next + p.components.length ≤ fuel) :
    CreatesNew fuel v root p ↔ Creatable v root p := by
  have h := hBuilt.wellFormed
  rcases (h.nodeTree (mem_of_head? hRoot)).1.getNodeFromPath_text p
    (Nat.le_trans (Nat.le_add_right _ _) hFuel) with ⟨last, hWalk, hAnswer⟩
  by_cases hFound : v.name root = p.text ∨ v.name last = p.basename
  · have hSome : ∃ m, v.getNodeFromPath fuel root p.text = some (some m) := by
      rw [hAnswer]
      split
      · exact ⟨root, rfl⟩
      rename_i hName
      rw [if_pos (hFound.resolve_left hName)]
      exact ⟨last, rfl⟩
    rcases hSome with ⟨m, hm⟩
    rw [refused_iff hRoot p hm]
    constructor
    · rintro ⟨n, hn⟩
      refine ⟨fun _ => ?_, fun hNone => (hNone n hn).elim⟩
      refine hFound.imp_right ?_
      intro hLast other hOther
      rw [hOther.functional hWalk]
      exact hLast
    intro hCreatable
    by_contra hNone
    rcases hCreatable.unknown (not_exists.mp hNone) with ⟨hName, hLast, _⟩
    exact hFound.elim hName (hLast last hWalk)
  rcases not_or.mp hFound with ⟨hName, hLast⟩
  rw [if_neg hName, if_neg hLast] at hAnswer
  rw [h.creates_iff hRoot p hName hAnswer hFuel]
  constructor
  · rintro ⟨hNone, hStraight, hFit⟩
    refine ⟨fun hSome => ?_, fun _ => ?_⟩
    · exact (not_exists.mpr hNone hSome).elim
    refine ⟨hName, ?_, hStraight, hFit⟩
    intro other hOther
    rw [hOther.functional hWalk]
    exact hLast
  intro hCreatable
  have hNone : ∀ n, ¬ v.Chain root p.components n := by
    intro n hn
    rcases hCreatable.known ⟨n, hn⟩ with hRootName | hEnd
    · exact hName hRootName
    · exact hLast (hEnd last hWalk)
  rcases hCreatable.unknown hNone with ⟨_, _, hStraight, hFit⟩
  exact ⟨hNone, hStraight, hFit⟩

theorem create_open_iff_oneDirectory : CreatesNew 5 oneDirectory 1 pathBA ↔
    Creatable oneDirectory 1 pathBA :=
  create_open_iff built_oneDirectory (by decide) pathBA (by decide)

theorem new_path_refused : Built oneDirectory ∧ oneDirectory.roots.head? = some 1 ∧
    (∀ n, ¬ oneDirectory.Chain 1 pathBA.components n) ∧ oneDirectory.create 5 none pathBA.text =
    some (none, oneDirectory) :=
  ⟨built_oneDirectory, by decide, not_chain_pathBA, rfl⟩

end Virtual

end Fennix
