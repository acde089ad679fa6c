import Fennix.FileSystem.Cwalk
import Fennix.Library.Greedy

/-
  The virtual file system.

  Nodes live in memory and know each other by address: a node lists its children and points to its
  parent.
-/

namespace Fennix

open Cwalk Option

def FILENAME_LENGTH : Nat := 256

abbrev NodeId := Nat

inductive NodeFlags
| fsError
| fsFile
| fsDirectory
| fsCharDevice
| fsBlockDevice
| fsPipe
| fsSymlink
| fsMountpoint
deriving DecidableEq

inductive FileStatus
| ok
| notFound
| invalidParameter
| invalidPath
deriving DecidableEq

structure FileSystemNode where
  name : CString
  flags : NodeFlags := .fsError
  parent : Option NodeId := none
  operator : Option Nat := none
  children : List NodeId := []

/- A new `FILE` is cleared memory: no name, no node, `OK`. -/
structure File where
  name : Option CString := none
  status : FileStatus := .ok
  node : Option NodeId := none

structure Virtual where
  nodes : NodeId → FileSystemNode
  next : NodeId
  fileSystemRoot : NodeId

namespace Virtual

def start : Virtual where
  nodes := fun a =>
    if a = 0 then
      { name := ['r', 'o', 'o', 't'], flags := .fsMountpoint }
    else { name := [] }
  next := 1
  fileSystemRoot := 0

def name (v : Virtual) (a : NodeId) : CString :=
  (v.nodes a).name

def children (v : Virtual) (a : NodeId) : List NodeId :=
  (v.nodes a).children

def roots (v : Virtual) : List NodeId :=
  v.children v.fileSystemRoot

def addNode (v : Virtual) (parent : NodeId) (node : FileSystemNode) : Virtual where
  nodes := fun a =>
    if a = v.next then node
    else if a = parent then
      { v.nodes parent with children := v.children parent ++ [v.next] }
    else v.nodes a
  next := v.next + 1
  fileSystemRoot := v.fileSystemRoot

def newChild (v : Virtual) (parent : NodeId) (name : CString) : FileSystemNode where
  name := name
  parent := some parent
  operator := (v.nodes parent).operator

def addNewChild (v : Virtual) (parent : NodeId) (name : CString) : Option (NodeId × Virtual) :=
  -- `strcpy` into `Name[FILENAME_LENGTH]`
  if name.length < FILENAME_LENGTH then
    some (v.next, v.addNode parent (v.newChild parent name))
  else none

def getChild (v : Virtual) (parent : NodeId) (name : CString) : Option NodeId :=
  (v.children parent).find? (fun a => v.name a = name)

------ Nodes and Paths

def namesAbove (v : Virtual) : (fuel : Nat) → Option NodeId → List CString → Option (List CString)
| 0, _, _ => none
| _ + 1, none, path => some path
| fuel + 1, some parent, path =>
  if parent = v.fileSystemRoot ∨ parent ∈ v.roots then
    some path
  else
    v.namesAbove fuel (v.nodes parent).parent (['/'] :: v.name parent :: path)

def getPathFromNode (fuel : Nat) (v : Virtual) (node : Option NodeId) : Option CString :=
  (v.namesAbove fuel node []).map List.flatten

/-
  For each segment the walk goes down to a child of that name and looks for the same name again; a
  segment that is not found leaves it where it is.
-/
def getNodeFromPath (fuel : Nat) (v : Virtual) (parent : NodeId)
    (path : CString) : Option (Option NodeId) :=
  if v.name parent = path then some (some parent)
  else if segments path = [] then some none
  else
    (greedy v.getChild fuel parent (segments path)).map (fun last =>
        if pathGetBasename path = some (v.name last) then
          some last
        else none)

def normalizePath (fuel : Nat) (v : Virtual) (parent : Option NodeId)
    (path : CString) : Option CString :=
  if pathIsRelative (pathNormalize path) then
    (v.getPathFromNode fuel parent).map (fun base => pathGetAbsolute base (pathNormalize path))
  else some (pathNormalize path)

def fileExists (fuel : Nat) (v : Virtual) (parent : Option NodeId)
    (path : CString) : Option FileStatus :=
  if isempty path then some .invalidPath
  else
    let parent := parent.getD v.fileSystemRoot
    (v.normalizePath fuel (some parent) path).bind
      (fun normalized => (v.getNodeFromPath fuel parent normalized).map (fun node =>
            if node = none then .notFound else .ok))

------ Creating and Opening

def createSegments (v : Virtual) (currentParent : NodeId) : List CString → Option (NodeId × Virtual)
| [] => some (currentParent, v)
| segment :: rest =>
  match v.getChild currentParent segment with
  | some child => v.createSegments child rest
  | none =>
    (v.addNewChild currentParent segment).bind (fun added => added.2.createSegments added.1 rest)

def parentOrRoot (v : Virtual) (parent : Option NodeId) : Option NodeId :=
  parent.orElse (fun _ => v.roots.head?)

def create (fuel : Nat) (v : Virtual) (parent : Option NodeId) (path : CString) :
    Option (Option NodeId × Virtual) :=
  if isempty path then some (none, v)
  else
    let currentParent := v.parentOrRoot parent
    (v.normalizePath fuel currentParent path).bind
      (fun cleanPath => (v.fileExists fuel currentParent cleanPath).bind (fun status =>
            if status ≠ .notFound then some (none, v)
            else if segments cleanPath = [] then
              some (none, v)
            else
              currentParent.bind (fun first =>
                (v.createSegments first
                  (segments cleanPath)).map
                  (fun created => (some created.1, created.2)))))

def createRoot (v : Virtual) (operator : Option Nat) (rootName : CString) :
    Option (Option NodeId × Virtual) :=
  if operator = none then some (none, v)
  else if rootName.length < FILENAME_LENGTH then
    some (some v.next, v.addNode v.fileSystemRoot
      { name := rootName, flags := .fsDirectory, operator := operator })
  else none

def fileOfNode (fuel : Nat) (v : Virtual) (node : NodeId) : Option File :=
  (v.getPathFromNode fuel (some node)).map (fun path =>
    { name := pathGetBasename path, node := some node })

def openFile (fuel : Nat) (v : Virtual) (path : CString) (parent : Option NodeId) : Option File :=
  if path = ['.'] then
    match parent with
    | some node => v.fileOfNode fuel node
    | none => some { status := .notFound }
  else if path = ['.', '.'] then
    parent.bind (fun node => v.fileOfNode fuel ((v.nodes node).parent.getD node))
  else
    let parent := v.parentOrRoot parent
    (v.normalizePath fuel parent path).bind
      (fun cleanPath => (v.fileExists fuel parent cleanPath).bind (fun status =>
            if status ≠ .ok then
              match v.roots.find? (fun a => v.name a = cleanPath) with
              | some root => v.fileOfNode fuel root
              | none =>
                v.roots.head?.bind (fun first =>
                  (v.getNodeFromPath fuel first
                    cleanPath).bind
                    (fun node =>
                      match node with
                      | some node =>
                        v.fileOfNode fuel node
                      | none =>
                        some { status := status }))
            else
              parent.bind (fun parent => (v.getNodeFromPath fuel parent cleanPath).map (fun node =>
                    { name := pathGetBasename cleanPath
                      status :=
                        if node = none then .notFound
                        else .ok
                      node := node }))))

theorem createSegments_rule {P : Virtual → NodeId → List CString → Prop}
    (hFound : ∀ {v a b c rest}, P v a (c :: rest) → v.getChild a c = some b → P v b rest)
    (hAdded : ∀ {v a c rest}, P v a (c :: rest) →
    v.getChild a c = none → c.length < FILENAME_LENGTH →
    P (v.addNode a (v.newChild a c)) v.next rest) {v v' : Virtual} {a n : NodeId}
    {path : List CString} (h : P v a path) (hCreate : v.createSegments a path = some (n, v')) :
    P v' n [] := by
  induction path generalizing v a with
  | nil =>
    cases hCreate
    exact h
  | cons c rest ih =>
    rw [createSegments] at hCreate
    cases hChild : v.getChild a c with
    | some b =>
      rw [hChild] at hCreate
      exact ih (hFound h hChild) hCreate
    | none =>
      rw [hChild] at hCreate
      rcases bind_eq_some_iff.mp hCreate with ⟨⟨b, v₁⟩, hAdd, hRest⟩
      unfold addNewChild at hAdd
      split at hAdd
      · rename_i hFits
        cases hAdd
        exact ih (hAdded h hChild hFits) hRest
      · cases hAdd

theorem create_cases {fuel : Nat} {v v' : Virtual} {parent answer : Option NodeId} {path : CString}
    (h : v.create fuel parent path = some (answer, v')) : (answer = none ∧ v' = v) ∨
    ∃ first cleanPath n, v.parentOrRoot parent = some first ∧
    v.normalizePath fuel (some first) path = some cleanPath ∧
    v.createSegments first (segments cleanPath) = some (n, v') ∧ answer = some n := by
  unfold create at h
  split at h
  · cases h
    exact .inl ⟨rfl, rfl⟩
  rcases bind_eq_some_iff.mp h with ⟨cleanPath, hClean, hRest⟩
  rcases bind_eq_some_iff.mp hRest with ⟨status, _, hLast⟩
  split at hLast
  · cases hLast
    exact .inl ⟨rfl, rfl⟩
  split at hLast
  · cases hLast
    exact .inl ⟨rfl, rfl⟩
  rcases bind_eq_some_iff.mp hLast with ⟨first, hFirst, hLoop⟩
  rcases map_eq_some_iff.mp hLoop with ⟨⟨n, w⟩, hCreated, hEq⟩
  cases hEq
  rw [hFirst] at hClean
  exact .inr ⟨first, cleanPath, n, hFirst, hClean, hCreated, rfl⟩

------ Fields after a Node was added

section AddNode

variable (v : Virtual) (parent : NodeId) (node : FileSystemNode)

@[simp] theorem addNode_next : (v.addNode parent node).next = v.next + 1 :=
  rfl

@[simp] theorem addNode_nodes_next : (v.addNode parent node).nodes v.next = node := by
  simp [addNode]

theorem addNode_nodes_parent (hParent : parent < v.next) :
    (v.addNode parent node).nodes parent = { v.nodes parent with
    children := v.children parent ++ [v.next] } := by
  simp [addNode, Nat.ne_of_lt hParent]

theorem addNode_nodes_other {a : NodeId} (hNew : a ≠ v.next) (hOther : a ≠ parent) :
    (v.addNode parent node).nodes a = v.nodes a := by
  simp [addNode, hNew, hOther]

theorem addNode_name {a : NodeId} (hNew : a ≠ v.next) :
    (v.addNode parent node).name a = v.name a := by
  by_cases hParent : a = parent
  · rw [hParent] at hNew ⊢
    simp [name, addNode, hNew]
  · rw [name, addNode_nodes_other v parent node hNew hParent]
    rfl

end AddNode

end Virtual

end Fennix
