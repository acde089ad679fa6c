import Fennix.Containers.Sequence
import Fennix.FileSystem.Open

/-
  The path of a node, as it is put together in memory.
-/

namespace Fennix

open Cwalk List

namespace Virtual

variable {node : Option NodeId} {xs ys : List CString}

def pathParts (v : Virtual) : (fuel : Nat) → Option NodeId → Vector CString →
      Option (Vector CString)
| 0, _, _ => none
| _ + 1, none, path => some path
| fuel + 1, some parent, path =>
  if parent = v.fileSystemRoot ∨ parent ∈ v.roots then
    some path
  else
    (path.pushBack (v.name parent)).bind (fun path => (path.pushBack ['/']).bind (fun path =>
        v.pathParts fuel (v.nodes parent).parent path))

def pathSize (path : Vector CString) : Option UInt64 :=
  eachBelow (fun i size => (path.vectorBuffer.read i).map (fun part =>
      size + UInt64.ofNat part.length))
    path.vectorSize.toNat 1

def joinParts (path : Vector CString) (size : UInt64) : Option (Buffer Char) :=
  eachBelow (fun i buffer => (path.vectorBuffer.read i).bind (Buffer.strcat '\x00' buffer))
    path.vectorSize.toNat
    (some (replicate size.toNat '\x00'))

def pathBuffer (fuel : Nat) (v : Virtual) (node : Option NodeId) : Option (Buffer Char) :=
  (v.pathParts fuel node {}).bind (fun path => path.reverse.bind (fun path =>
      (pathSize path).bind (joinParts path)))

------ The Parts in the Vector

variable {v v' : Virtual} {root n a b : NodeId} {fuel : Nat} {path : List CString}

theorem namesAbove_length (h : v.namesAbove fuel node xs = some ys) : xs.length ≤ ys.length := by
  induction fuel generalizing node xs with
  | zero => cases h
  | succ fuel ih =>
    cases node with
    | none =>
      cases h
      exact Nat.le_refl _
    | some parent =>
      rw [namesAbove] at h
      split at h
      · cases h
        exact Nat.le_refl _
      have hMore := ih h
      simp only [length_cons] at hMore
      omega

structure Collected (parts : Vector CString) (xs : List CString) : Prop where
  holds : parts.Holds xs
  tight : parts.vectorCapacity.toNat ≤ xs.length + 4

theorem pathParts_collected {parts : Vector CString} (hParts : Collected parts xs.reverse)
    (hNames : v.namesAbove fuel node xs = some ys) (hMemory : Allocatable (ys.length + 5)) :
    ∃ parts', v.pathParts fuel node parts = some parts' ∧ Collected parts' ys.reverse := by
  induction fuel generalizing node parts xs with
  | zero => cases hNames
  | succ fuel ih =>
    cases node with
    | none =>
      cases hNames
      exact ⟨parts, rfl, hParts⟩
    | some parent =>
      rw [namesAbove] at hNames
      rw [pathParts]
      split at hNames
      · rename_i hTop
        cases hNames
        rw [if_pos hTop]
        exact ⟨parts, rfl, hParts⟩
      rename_i hInside
      rw [if_neg hInside]
      have hLonger := namesAbove_length hNames
      simp only [length_cons] at hLonger
      unfold Allocatable at hMemory
      rcases hParts.holds.pushBack_tight hParts.tight (by
            unfold Allocatable
            rw [length_reverse]
            omega) (v.name parent) with
        ⟨w, hName, hHolds, hTight⟩
      rcases hHolds.pushBack_tight hTight (by
            unfold Allocatable
            rw [length_append, length_reverse, length_singleton]
            omega) ['/'] with
        ⟨w', hSlash, hHolds', hTight'⟩
      rw [hName, Option.bind_some, hSlash, Option.bind_some]
      apply ih _ hNames
      simp only [reverse_cons]
      exact ⟨hHolds', hTight'⟩

------ Size and Contents of the Buffer

section Buffers

variable {parts : Vector CString} {xs : List CString}

theorem foldlM_size (size : UInt64) (hFits : size.toNat + xs.flatten.length < 2 ^ 64) : ∃ total,
    xs.foldlM (fun size part => some (size + UInt64.ofNat part.length)) size = some total ∧
    total.toNat = size.toNat + xs.flatten.length := by
  induction xs generalizing size with
  | nil => exact ⟨size, rfl, rfl⟩
  | cons c xs ih =>
    rw [flatten_cons, length_append] at hFits ⊢
    have hSum : (size + UInt64.ofNat c.length).toNat = size.toNat + c.length := by
      rw [UInt64.toNat_add, UInt64.toNat_ofNat_of_lt' (show c.length < 2 ^ 64 by omega),
        Nat.mod_eq_of_lt (by omega)]
    rcases ih (size + UInt64.ofNat c.length) (by omega) with ⟨total, hFold, hTotal⟩
    refine ⟨total, ?_, by omega⟩
    rw [foldlM_cons]
    exact hFold

theorem pathSize_eq (h : parts.Holds xs) (hFits : xs.flatten.length + 1 < 2 ^ 64) :
    ∃ size, pathSize parts = some size ∧ size.toNat = xs.flatten.length + 1 := by
  have hLoop : pathSize parts = xs.foldlM (fun size part =>
      some (size + UInt64.ofNat part.length)) 1 := by
    rw [pathSize, h.size]
    refine eachBelow_eq_foldlM (P := fun _ => True) ?_ (fun _ _ _ _ _ => trivial) trivial
    intro size _ i hi
    rw [h.elements i hi, getElem?_eq_getElem hi]
    rfl
  rcases foldlM_size 1 (show 1 + xs.flatten.length < 2 ^ 64 by omega) with ⟨total, hFold, hTotal⟩
  refine ⟨total, hLoop.trans hFold, ?_⟩
  rw [hTotal, UInt64.toNat_one]
  omega

theorem joinParts_eq {size : UInt64} (h : parts.Holds xs) (hText : ∀ c ∈ xs, '\x00' ∉ c)
    (hSize : size.toNat = xs.flatten.length + 1) : joinParts parts size =
    some (some (xs.flatten ++ ['\x00'])) := by
  have hLoop : joinParts parts size = xs.foldlM (Buffer.strcat '\x00')
    (some (replicate size.toNat '\x00')) := by
    rw [joinParts, h.size]
    refine eachBelow_eq_foldlM (P := fun _ => True) ?_ (fun _ _ _ _ _ => trivial) trivial
    intro buffer _ i hi
    rw [h.elements i hi, getElem?_eq_getElem hi]
    rfl
  rw [hLoop, hSize]
  exact Buffer.strcat_all hText [] not_mem_nil

end Buffers

theorem pathBuffer_eq (hNames : v.namesAbove fuel node [] = some ys) (hText : ∀ c ∈ ys, '\x00' ∉ c)
    (hMemory : Allocatable (ys.length + 5)) (hFits : ys.flatten.length + 1 < 2 ^ 64) :
    v.pathBuffer fuel node = some (some (ys.flatten ++ ['\x00'])) := by
  have hEmpty : Collected {} ([] : List CString).reverse := ⟨Vector.holds_empty, Nat.zero_le _⟩
  rcases pathParts_collected hEmpty hNames hMemory with ⟨parts, hParts, hCollected⟩
  rcases hCollected.holds.reverse with ⟨reversed, hReverse, hHolds⟩
  rw [reverse_reverse] at hHolds
  rcases pathSize_eq hHolds hFits with ⟨size, hSize, hSum⟩
  rw [pathBuffer, hParts, Option.bind_some, hReverse, Option.bind_some, hSize, Option.bind_some]
  exact joinParts_eq hHolds hText hSum

------ The Names above a Node

namespace Linked

theorem root_bounds (h : Linked v) (hRoot : root ∈ v.roots) :
    v.fileSystemRoot < root ∧ root < v.next :=
  h.ordered h.allocated hRoot

theorem follow_bound (h : Linked v) (ha : a < v.next)
    (hFollow : follow v.getChild a path = some b) : a + path.length ≤ b ∧ b < v.next := by
  induction path using reverseRecOn generalizing b with
  | nil =>
    cases hFollow
    exact ⟨Nat.le_refl _, ha⟩
  | append_singleton path c ih =>
    rcases follow_snoc_some.mp hFollow with ⟨d, hd, hChild⟩
    have hLess := ih hd
    have hNext := h.ordered hLess.2 (getChild_some hChild).1
    rw [length_append, length_singleton]
    exact ⟨Nat.lt_of_le_of_lt hLess.1 hNext.1, hNext.2⟩

theorem namesAbove (h : Linked v) (hRoot : root ∈ v.roots)
    (hFollow : follow v.getChild root path = some n) (hFuel : path.length < fuel)
    (xs : List CString) : v.namesAbove fuel (some n) xs =
    some (path.flatMap (fun c => [['/'], c]) ++ xs) := by
  have hBounds := h.root_bounds hRoot
  induction path using reverseRecOn generalizing n fuel xs with
  | nil =>
    cases hFollow
    obtain ⟨fuel, rfl⟩ := Nat.exists_eq_add_of_le' (show 1 ≤ fuel from hFuel)
    exact if_pos (.inr hRoot)
  | append_singleton path c ih =>
    rw [length_append, length_singleton] at hFuel
    obtain ⟨fuel, rfl⟩ := Nat.exists_eq_add_of_le' (show 1 ≤ fuel by omega)
    rcases follow_snoc_some.mp hFollow with ⟨a, ha, hChild⟩
    rcases getChild_some hChild with ⟨hMem, hName⟩
    have hAbove := h.follow_bound hBounds.2 ha
    have hLater : v.fileSystemRoot < a := Nat.lt_of_lt_of_le hBounds.1
      (Nat.le_trans (Nat.le_add_right _ _) hAbove.1)
    have hNot : a ≠ v.fileSystemRoot := Nat.ne_of_gt hLater
    have hParent := h.parent hAbove.2 hNot hMem
    have hOrder := h.ordered hAbove.2 hMem
    -- the node is neither the top nor a root
    have hInside : ¬ (n = v.fileSystemRoot ∨ n ∈ v.roots) := by
      rintro (hTop | hOther)
      · exact Nat.ne_of_gt (Nat.lt_trans hLater hOrder.1) hTop
      have hUp := h.root_parent hOther
      rw [hParent] at hUp
      rcases hUp with hUp | hUp
      · cases hUp
      · exact hNot (Option.some.inj hUp)
    rw [Virtual.namesAbove, if_neg hInside, hParent, hName, ih ha (by omega)]
    simp

end Linked

------ Names without Terminators

def TextNames (v : Virtual) : Prop :=
  ∀ a, '\x00' ∉ v.name a

theorem TextNames.addNode {node : FileSystemNode} (h : TextNames v) (hNode : '\x00' ∉ node.name) :
    TextNames (v.addNode a node) := by
  intro b
  by_cases hb : b = v.next
  · rw [hb, name, addNode_nodes_next]
    exact hNode
  · rw [addNode_name v a node hb]
    exact h b

theorem TextNames.namesAbove (h : TextNames v) (hStart : ∀ c ∈ xs, '\x00' ∉ c)
    (hNames : v.namesAbove fuel node xs = some ys) : ∀ c ∈ ys, '\x00' ∉ c := by
  induction fuel generalizing node xs with
  | zero => cases hNames
  | succ fuel ih =>
    cases node with
    | none =>
      cases hNames
      exact hStart
    | some parent =>
      rw [Virtual.namesAbove] at hNames
      split at hNames
      · cases hNames
        exact hStart
      refine ih ?_ hNames
      intro c hc
      rcases mem_cons.mp hc with rfl | hc
      · decide
      rcases mem_cons.mp hc with rfl | hc
      · exact h parent
      · exact hStart c hc

theorem TextNames.normalizePath {text cleanPath : CString} (h : TextNames v) (hText : '\x00' ∉ text)
    (hClean : v.normalizePath fuel node text = some cleanPath) :
    ∀ c ∈ segments cleanPath, '\x00' ∉ c := by
  have hNormal : ∀ c ∈ segments (pathNormalize text), '\x00' ∉ c := by
    intro c hc
    rcases mem_segments_normalize hc with hc | rfl
    · exact fun hx => hText ((sublist_of_mem_segments hc).subset hx)
    · decide
  unfold Virtual.normalizePath at hClean
  split at hClean
  · rcases Option.map_eq_some_iff.mp hClean with ⟨base, hBase, rfl⟩
    rcases Option.map_eq_some_iff.mp hBase with ⟨names, hNames, rfl⟩
    intro c hc
    rcases mem_segments_getAbsolute hc with hc | hc
    · intro hx
      rcases mem_flatten.mp ((sublist_of_mem_segments hc).subset hx) with ⟨d, hd, hx⟩
      exact h.namesAbove (fun _ hNil => by cases hNil) hNames d hd hx
    · exact hNormal c hc
  · cases hClean
    exact hNormal

theorem TextNames.createSegments (h : TextNames v) (hPath : ∀ c ∈ path, '\x00' ∉ c)
    (hCreate : v.createSegments a path = some (n, v')) : TextNames v' := by
  refine (createSegments_rule (P := fun v _ rest => TextNames v ∧ ∀ c ∈ rest, '\x00' ∉ c)
    ?_ ?_ ⟨h, hPath⟩ hCreate).1
  · intro v a b c rest hRound _
    exact ⟨hRound.1, fun d hd => hRound.2 d (mem_cons_of_mem c hd)⟩
  intro v a c rest hRound _ _
  exact ⟨hRound.1.addNode (hRound.2 c mem_cons_self),
    fun d hd => hRound.2 d (mem_cons_of_mem c hd)⟩

end Virtual

def VirtualCall.IsText : VirtualCall → Prop
| .createRoot _ rootName => '\x00' ∉ rootName
| .create _ path => '\x00' ∉ path

namespace Virtual

variable {v v' : Virtual}

theorem TextNames.step {call : VirtualCall} (h : TextNames v) (hText : call.IsText)
    (hStep : Step v call v') : TextNames v' := by
  cases call with
  | createRoot operator rootName =>
    rcases hStep with ⟨answer, hCreate⟩
    unfold Virtual.createRoot at hCreate
    split at hCreate
    · cases hCreate
      exact h
    split at hCreate
    · cases hCreate
      exact h.addNode hText
    · cases hCreate
  | create parent path =>
    rcases hStep with ⟨_, fuel, answer, hCreate⟩
    rcases create_cases hCreate with ⟨_, rfl⟩ | ⟨first, cleanPath, n, _, hClean, hLoop, _⟩
    · exact h
    · exact h.createSegments (h.normalizePath hText hClean) hLoop

def BuiltFromText (v : Virtual) : Prop :=
  ∃ calls, Run Step start calls v ∧ ∀ call ∈ calls, call.IsText

theorem BuiltFromText.textNames (h : BuiltFromText v) : TextNames v := by
  rcases h with ⟨calls, hRun, hText⟩
  induction hRun with
  | nil =>
    intro a
    by_cases ha : a = 0
    · rw [ha]
      decide
    · simp [name, start, ha]
  | snoc _ hStep ih =>
    exact (ih (fun call hc => hText call (mem_append_left _ hc))).step (hText _ (by simp)) hStep

------ The canonical Path

end Virtual

def canonicalPath (path : List CString) : CString :=
  if path = [] then [] else '/' :: join path

theorem canonicalPath_eq (path : List CString) : (path.flatMap (fun c => [['/'], c])).flatten =
    canonicalPath path := by
  induction path with
  | nil => rfl
  | cons c path ih =>
    cases path with
    | nil => simp [canonicalPath, join]
    | cons d path =>
      rw [flatMap_cons, flatten_append, ih]
      simp [canonicalPath, join, intercalate_cons_cons]

theorem length_canonicalPath_le {path : List CString}
    (hFits : ∀ c ∈ path, c.length < FILENAME_LENGTH) : (canonicalPath path).length ≤
    path.length * FILENAME_LENGTH := by
  rw [← canonicalPath_eq]
  induction path with
  | nil => exact Nat.zero_le _
  | cons c path ih =>
    have hFirst := hFits c mem_cons_self
    have hRest := ih (fun d hd => hFits d (mem_cons_of_mem c hd))
    rw [flatMap_cons, flatten_append, length_append, length_cons, Nat.succ_mul]
    simp only [flatten_cons, flatten_nil, length_append, length_singleton, append_nil]
    omega

namespace Virtual

variable {v : Virtual} {root n : NodeId} {fuel : Nat} {path : List CString}

theorem getPathFromNode_canonical (hBuilt : BuiltFromText v)
    (hSpace : v.next * FILENAME_LENGTH ≤ 2 ^ 64) (hRoot : root ∈ v.roots)
    (hChain : v.Chain root path n) (hFuel : v.next ≤ fuel) : v.pathBuffer fuel (some n) =
    some (some (canonicalPath path ++ ['\x00'])) ∧ '\x00' ∉ canonicalPath path ∧
    v.getPathFromNode fuel (some n) = some (canonicalPath path) := by
  have hWell : WellFormed v := by
    rcases hBuilt with ⟨calls, hRun, _⟩
    exact Built.wellFormed ⟨calls, hRun⟩
  have hLinked := hWell.toLinked
  have hBounds := hLinked.root_bounds hRoot
  have hFollow : follow v.getChild root path = some n :=
    (chain_iff (hWell.nodeTree hRoot).2 path Below.root).mp hChain
  have hShort : path.length + 2 ≤ v.next := by
    have hEnd := hLinked.follow_bound hBounds.2 hFollow
    have hLess : root + path.length < v.next := Nat.lt_of_le_of_lt hEnd.1 hEnd.2
    have hFirst : 1 ≤ root := Nat.lt_of_le_of_lt (Nat.zero_le _) hBounds.1
    calc
      path.length + 2 = 1 + path.length + 1 := by omega
      _ ≤ root + path.length + 1 := Nat.add_le_add_right (Nat.add_le_add_right hFirst _) 1
      _ ≤ v.next := hLess
  have hBytes : (path.length + 2) * FILENAME_LENGTH ≤ 2 ^ 64 :=
    Nat.le_trans (Nat.mul_le_mul_right _ hShort) hSpace
  have hNames := hLinked.namesAbove hRoot hFollow (Nat.lt_of_lt_of_le
    (Nat.lt_of_lt_of_le (by omega) hShort) hFuel) []
  rw [append_nil] at hNames
  have hText := hBuilt.textNames.namesAbove (fun _ hNil => by cases hNil) hNames
  have hLength := length_canonicalPath_le (hWell.fits_of_follow hRoot hFollow)
  have hWhole := canonicalPath_eq path
  unfold FILENAME_LENGTH at hBytes hLength
  refine ⟨?_, ?_, ?_⟩
  · rw [← hWhole] at hLength ⊢
    apply pathBuffer_eq hNames hText
    · have hCount : (path.flatMap (fun c => [['/'], c])).length = path.length * 2 := by
        simp [length_flatMap]
      unfold Allocatable
      omega
    · omega
  · rw [← hWhole]
    intro hZero
    rcases mem_flatten.mp hZero with ⟨c, hc, hx⟩
    exact hText c hc hx
  · rw [getPathFromNode, hNames, Option.map_some, hWhole]

def oneFile : Virtual :=
  oneDirectory.addNode 2
    { name := ['f'], parent := some 2, operator := some 1 }

theorem built_oneFile : BuiltFromText oneFile := by
  have hRoot : Step start (.createRoot (some 1) ['/']) rootOnly := ⟨some 1, rfl⟩
  have hDirectory : Step rootOnly (.create none ['/', 'a']) oneDirectory :=
    ⟨fun a ha => (by cases ha), 2, some 2, rfl⟩
  have hFile : Step oneDirectory (.create none ['/', 'a', '/', 'f']) oneFile :=
    ⟨fun a ha => (by cases ha), 3, some 3, rfl⟩
  refine ⟨_, ((Run.nil.snoc hRoot).snoc hDirectory).snoc hFile, ?_⟩
  simp [VirtualCall.IsText]

theorem getPathFromNode_canonical_oneFile : oneFile.pathBuffer 4 (some 3) =
    some (some ['/', 'a', '/', 'f', '\x00']) :=
  (getPathFromNode_canonical built_oneFile (by decide) (show 1 ∈ oneFile.roots by decide)
    (show oneFile.Chain 1 [['a'], ['f']] 3 from ⟨2, by decide, rfl, 3, by decide, rfl, rfl⟩)
    (Nat.le_refl 4)).1

end Virtual

end Fennix
