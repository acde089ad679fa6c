import Fennix.FileSystem.Virtual
import Fennix.Library.Run

/-
  Trees of nodes.
-/

namespace Fennix

open List Option

namespace Virtual

inductive Below (v : Virtual) (root : NodeId) : NodeId → Prop
| root : Below v root root
| child {a b : NodeId} :
    Below v root a → b ∈ v.children a → Below v root b

structure NodeTree (v : Virtual) (root : NodeId) : Prop where
  allocated : ∀ {a}, Below v root a → a < v.next
  parent_unique : ∀ {a a' b}, Below v root a → Below v root a' →
      b ∈ v.children a → b ∈ v.children a' → a = a'
  root_top : ∀ {a}, Below v root a → root ∉ v.children a

def DistinctNames (v : Virtual) (root : NodeId) : Prop :=
  ∀ a, Below v root a → ((v.children a).map v.name).Nodup

def Chain (v : Virtual) : NodeId → List CString → NodeId → Prop
| a, [], n => n = a
| a, c :: rest, n =>
  ∃ b ∈ v.children a, v.name b = c ∧ v.Chain b rest n

section Trees

variable {v : Virtual} {root a b n : NodeId} {c : CString}

theorem getChild_some (h : v.getChild a c = some b) : b ∈ v.children a ∧ v.name b = c := by
  refine ⟨mem_of_find?_eq_some h, ?_⟩
  simpa using find?_some h

theorem getChild_none : v.getChild a c = none ↔ ∀ b ∈ v.children a, v.name b ≠ c := by
  simp [getChild, find?_eq_none]

theorem getChild_iff (hDistinct : ((v.children a).map v.name).Nodup) : v.getChild a c = some b ↔
    b ∈ v.children a ∧ v.name b = c := by
  refine ⟨getChild_some, ?_⟩
  rintro ⟨hMem, hName⟩
  cases hFound : v.getChild a c with
  | none => exact (getChild_none.mp hFound b hMem hName).elim
  | some d =>
    rcases getChild_some hFound with ⟨hMem', hName'⟩
    rw [inj_on_of_nodup_map hDistinct hMem' hMem (hName'.trans hName.symm)]

theorem Below.of_follow {path : List CString} (hBelow : Below v root a)
    (hFollow : follow v.getChild a path = some b) : Below v root b := by
  induction path generalizing a with
  | nil =>
    cases hFollow
    exact hBelow
  | cons c path ih =>
    rw [follow_cons] at hFollow
    rcases bind_eq_some_iff.mp hFollow with ⟨d, hChild, hRest⟩
    exact ih (hBelow.child (getChild_some hChild).1) hRest

theorem chain_iff (hDistinct : DistinctNames v root) (path : List CString)
    (hBelow : Below v root a) : v.Chain a path n ↔ follow v.getChild a path = some n := by
  induction path generalizing a with
  | nil =>
    rw [Chain, follow_nil, some.injEq]
    exact eq_comm
  | cons c path ih =>
    rw [Chain, follow_cons, bind_eq_some_iff]
    constructor
    · rintro ⟨b, hMem, hName, hRest⟩
      exact ⟨b, (getChild_iff (hDistinct a hBelow)).mpr
        ⟨hMem, hName⟩, (ih (hBelow.child hMem)).mp hRest⟩
    rintro ⟨b, hChild, hRest⟩
    rcases getChild_some hChild with ⟨hMem, hName⟩
    exact ⟨b, hMem, hName, (ih (hBelow.child hMem)).mpr hRest⟩

namespace NodeTree

theorem unique (hTree : NodeTree v root) {p q : List CString}
    (hp : follow v.getChild root p = some a) (hq : follow v.getChild root q = some a) : p = q := by
  have hTop : ∀ path c, follow v.getChild root (path ++ [c]) ≠ some root := by
    intro path c hPath
    rcases follow_snoc_some.mp hPath with ⟨b, hb, hChild⟩
    exact hTree.root_top (Below.root.of_follow hb) (getChild_some hChild).1
  induction p using reverseRecOn generalizing a q with
  | nil =>
    cases hp
    cases q using reverseRecOn with
    | nil => rfl
    | append_singleton q d => exact (hTop q d hq).elim
  | append_singleton p c ih =>
    cases q using reverseRecOn with
    | nil =>
      cases hq
      exact (hTop p c hp).elim
    | append_singleton q d =>
      rcases follow_snoc_some.mp hp with ⟨b, hb, hChild⟩
      rcases follow_snoc_some.mp hq with ⟨b', hb', hChild'⟩
      rcases getChild_some hChild with ⟨hMem, rfl⟩
      rcases getChild_some hChild' with ⟨hMem', rfl⟩
      cases hTree.parent_unique (Below.root.of_follow hb) (Below.root.of_follow hb') hMem hMem'
      rw [ih hb hb']

theorem pathTree (hTree : NodeTree v root) (depth : Nat) :
    PathTree v.getChild root depth (· < v.next) where
  unique := fun _ _ hp hq => hTree.unique hp hq
  owned := fun _ hp =>
    hTree.allocated (Below.root.of_follow hp)

theorem length_lt (hTree : NodeTree v root) {p : List CString}
    (hp : follow v.getChild root p = some a) : p.length < v.next :=
  (hTree.pathTree p.length).length_lt (Nat.le_refl _) hp

end NodeTree

end Trees

section AddNode

variable {v : Virtual} {parent a : NodeId} {node : FileSystemNode} {c : CString}

theorem children_addNode_other (hNew : a ≠ v.next) (hOther : a ≠ parent) :
    (v.addNode parent node).children a = v.children a := by
  rw [children, addNode_nodes_other v parent node hNew hOther]
  rfl

theorem children_addNode_parent (hParent : parent < v.next) :
    (v.addNode parent node).children parent = v.children parent ++ [v.next] := by
  rw [children, addNode_nodes_parent v parent node hParent]

theorem find?_name_congr {v' : Virtual} {nodes : List NodeId}
    (hNames : ∀ b ∈ nodes, v'.name b = v.name b) : nodes.find? (fun b => v'.name b = c) =
    nodes.find? (fun b => v.name b = c) := by
  induction nodes with
  | nil => rfl
  | cons b nodes ih =>
    rw [find?_cons, find?_cons, hNames b mem_cons_self,
      ih (fun d hd => hNames d (mem_cons_of_mem _ hd))]

private theorem find?_addNode {nodes : List NodeId} (hOld : ∀ b ∈ nodes, b < v.next) :
    nodes.find? (fun b => (v.addNode parent node).name b = c) =
    nodes.find? (fun b => v.name b = c) :=
  find?_name_congr (fun b hb => addNode_name v parent node (Nat.ne_of_lt (hOld b hb)))

theorem getChild_addNode_other (hOld : ∀ b ∈ v.children a, b < v.next) (hNew : a ≠ v.next)
    (hOther : a ≠ parent) : (v.addNode parent node).getChild a c = v.getChild a c := by
  rw [getChild, children_addNode_other hNew hOther]
  exact find?_addNode hOld

theorem getChild_addNode_parent (hOld : ∀ b ∈ v.children parent, b < v.next)
    (hParent : parent < v.next) : (v.addNode parent node).getChild parent c =
    (v.getChild parent c).or (if node.name = c then some v.next else none) := by
  rw [getChild, children_addNode_parent hParent, find?_append, find?_addNode hOld]
  congr 1
  by_cases hName : node.name = c
  · simp [name, hName]
  · simp [name, hName]

theorem getChild_addNode_next (hBare : node.children = []) :
    (v.addNode parent node).getChild v.next c = none := by
  rw [getChild, children, addNode_nodes_next, hBare]
  rfl

section

variable (hParent : parent < v.next)

include hParent

theorem mem_children_addNode {b : NodeId} (hBare : node.children = []) (ha : a < v.next + 1)
    (hb : b ∈ (v.addNode parent node).children a) : a < v.next ∧
    (b ∈ v.children a ∨ (a = parent ∧ b = v.next)) := by
  by_cases hNew : a = v.next
  · rw [hNew, children, addNode_nodes_next, hBare] at hb
    cases hb
  refine ⟨Nat.lt_of_le_of_ne (Nat.le_of_lt_succ ha) hNew, ?_⟩
  by_cases hSame : a = parent
  · rw [hSame, children_addNode_parent hParent] at hb
    rcases mem_append.mp hb with hOld | hLast
    · rw [hSame]
      exact .inl hOld
    · exact .inr ⟨hSame, mem_singleton.mp hLast⟩
  · rw [children_addNode_other hNew hSame] at hb
    exact .inl hb

theorem parent_addNode (ha : a < v.next) :
    ((v.addNode parent node).nodes a).parent = (v.nodes a).parent := by
  by_cases hSame : a = parent
  · rw [hSame, addNode_nodes_parent v parent node hParent]
  · rw [addNode_nodes_other v parent node (Nat.ne_of_lt ha) hSame]

theorem names_addNode (hNew : a ≠ v.next) (hOld : ∀ b ∈ v.children a, b < v.next) :
    ((v.addNode parent node).children a).map
    (v.addNode parent node).name = (v.children a).map v.name ++
    (if a = parent then [node.name] else []) := by
  have hNames : (v.children a).map (v.addNode parent node).name = (v.children a).map v.name := by
    apply map_congr_left
    intro b hb
    exact addNode_name v parent node (Nat.ne_of_lt (hOld b hb))
  by_cases hSame : a = parent
  · subst hSame
    rw [children_addNode_parent hParent, map_append, hNames, map_singleton, name,
      addNode_nodes_next, if_pos rfl]
  · rw [children_addNode_other hNew hSame, hNames, if_neg hSame, append_nil]

theorem nodup_addNode (hNew : a ≠ v.next) (hOld : ∀ b ∈ v.children a, b < v.next)
    (hName : a = parent → v.getChild a node.name = none)
    (hDistinct : ((v.children a).map v.name).Nodup) :
    (((v.addNode parent node).children a).map (v.addNode parent node).name).Nodup := by
  rw [names_addNode hParent hNew hOld]
  by_cases hSame : a = parent
  · rw [if_pos hSame, nodup_append]
    refine ⟨hDistinct, nodup_singleton _, ?_⟩
    rintro x hx y hy rfl
    rcases mem_map.mp hx with ⟨b, hb, rfl⟩
    exact getChild_none.mp (hName hSame) b hb (mem_singleton.mp hy)
  · rw [if_neg hSame, append_nil]
    exact hDistinct

end

end AddNode

structure Linked (v : Virtual) : Prop where
  allocated : v.fileSystemRoot < v.next
  ordered : ∀ {a b}, a < v.next → b ∈ v.children a → a < b ∧ b < v.next
  parent : ∀ {a b}, a < v.next → a ≠ v.fileSystemRoot →
    b ∈ v.children a → (v.nodes b).parent = some a
  root_parent : ∀ {b}, b ∈ v.roots → (v.nodes b).parent = none ∨
      (v.nodes b).parent = some v.fileSystemRoot

structure WellFormed (v : Virtual) : Prop extends Linked v where
  distinct : ∀ {a}, a < v.next → a ≠ v.fileSystemRoot → ((v.children a).map v.name).Nodup
  fits : ∀ {a}, a < v.next → (v.name a).length < FILENAME_LENGTH

namespace WellFormed

variable {v v' : Virtual}

theorem start : WellFormed start := by
  refine ⟨⟨by decide, ?_, ?_, ?_⟩, ?_, ?_⟩
  · intro a b ha hb
    have hZero : a = 0 := Nat.lt_one_iff.mp ha
    rw [hZero] at hb
    cases hb
  · intro a b ha hNe
    exact (hNe (Nat.lt_one_iff.mp ha)).elim
  · intro b hb
    cases hb
  · intro a ha hNe
    exact (hNe (Nat.lt_one_iff.mp ha)).elim
  · intro a ha
    have hZero : a = 0 := Nat.lt_one_iff.mp ha
    rw [hZero]
    decide

section

variable (h : WellFormed v)

include h

theorem addNode {parent : NodeId} {node : FileSystemNode} (hParent : parent < v.next)
    (hBare : node.children = []) (hFits : node.name.length < FILENAME_LENGTH)
    (hUp : node.parent = some parent ∨ (node.parent = none ∧ parent = v.fileSystemRoot))
    (hName : parent ≠ v.fileSystemRoot → v.getChild parent node.name = none) :
    WellFormed (v.addNode parent node) := by
  have hCases : ∀ {a b}, a < v.next + 1 → b ∈ (v.addNode parent node).children a → a < v.next ∧
      (b ∈ v.children a ∨ (a = parent ∧ b = v.next)) :=
    fun ha hb => mem_children_addNode hParent hBare ha hb
  refine ⟨⟨?_, ?_, ?_, ?_⟩, ?_, ?_⟩
  · exact Nat.lt_succ_of_lt h.allocated
  · intro a b ha hb
    rcases hCases ha hb with ⟨haOld, hOld | ⟨rfl, rfl⟩⟩
    · rcases h.ordered haOld hOld with ⟨hLess, hBound⟩
      exact ⟨hLess, Nat.lt_succ_of_lt hBound⟩
    · exact ⟨hParent, Nat.lt_succ_self _⟩
  · intro a b ha hNe hb
    rcases hCases ha hb with ⟨haOld, hOld | ⟨rfl, rfl⟩⟩
    · rw [parent_addNode hParent (h.ordered haOld hOld).2]
      exact h.parent haOld hNe hOld
    · rw [addNode_nodes_next]
      exact hUp.resolve_right (fun hRoot => hNe hRoot.2)
  · intro b hb
    rcases hCases (Nat.lt_succ_of_lt h.allocated) hb with ⟨_, hOld | ⟨hRoot, rfl⟩⟩
    · rw [parent_addNode hParent (h.ordered h.allocated hOld).2]
      exact h.root_parent hOld
    rw [addNode_nodes_next]
    rcases hUp with hSome | ⟨hNone, _⟩
    · refine Or.inr ?_
      rw [hSome, ← hRoot]
      rfl
    · exact .inl hNone
  · intro a ha hNe
    by_cases hNew : a = v.next
    · rw [hNew, children, addNode_nodes_next, hBare]
      exact nodup_nil
    have haOld : a < v.next := Nat.lt_of_le_of_ne (Nat.le_of_lt_succ ha) hNew
    apply nodup_addNode hParent hNew
    · exact fun b hb => (h.ordered haOld hb).2
    · rintro rfl
      exact hName hNe
    · exact h.distinct haOld hNe
  · intro a ha
    by_cases hNew : a = v.next
    · rw [hNew, name, addNode_nodes_next]
      exact hFits
    · rw [addNode_name v parent node hNew]
      exact h.fits (Nat.lt_of_le_of_ne (Nat.le_of_lt_succ ha) hNew)

theorem addNewChild {parent b : NodeId} {c : CString} (hParent : parent < v.next)
    (hNone : v.getChild parent c = none) (hAdd : v.addNewChild parent c = some (b, v')) :
    WellFormed v' ∧ b < v'.next := by
  unfold Virtual.addNewChild at hAdd
  split at hAdd
  · rename_i hFits
    cases hAdd
    exact ⟨h.addNode hParent rfl hFits (.inl rfl) (fun _ => hNone), Nat.lt_succ_self _⟩
  · cases hAdd

theorem createSegments {a n : NodeId} {path : List CString} (ha : a < v.next)
    (hCreate : v.createSegments a path = some (n, v')) : WellFormed v' := by
  refine (createSegments_rule (P := fun w b _ => WellFormed w ∧ b < w.next) ?_ ?_ ⟨h, ha⟩ hCreate).1
  · rintro w a b c rest ⟨hw, ha⟩ hChild
    exact ⟨hw, (hw.ordered ha (getChild_some hChild).1).2⟩
  · rintro w a c rest ⟨hw, ha⟩ hNone hFits
    exact ⟨hw.addNode ha rfl hFits (.inl rfl) (fun _ => hNone), Nat.lt_succ_self _⟩

theorem createRoot {operator : Option Nat} {rootName : CString} {answer : Option NodeId}
    (hCreate : v.createRoot operator rootName = some (answer, v')) : WellFormed v' := by
  unfold Virtual.createRoot at hCreate
  split at hCreate
  · cases hCreate
    exact h
  split at hCreate
  · rename_i hFits
    cases hCreate
    exact h.addNode h.allocated rfl hFits (.inr ⟨rfl, rfl⟩) (fun hNe => (hNe rfl).elim)
  · cases hCreate

theorem create {fuel : Nat} {parent answer : Option NodeId} {path : CString}
    (hParent : ∀ a, parent = some a → a < v.next)
    (hCreate : v.create fuel parent path = some (answer, v')) : WellFormed v' := by
  rcases create_cases hCreate with ⟨_, rfl⟩ | ⟨first, cleanPath, n, hFirst, _, hLoop, _⟩
  · exact h
  refine h.createSegments ?_ hLoop
  cases parent with
  | some a => exact hParent first hFirst
  | none =>
    have hMem : first ∈ v.roots := mem_of_head? hFirst
    exact (h.ordered h.allocated hMem).2

theorem nodeTree {root : NodeId} (hRoot : root ∈ v.roots) :
    NodeTree v root ∧ DistinctNames v root := by
  rcases h.ordered h.allocated hRoot with ⟨hAbove, hBound⟩
  have hBelow : ∀ {a}, Below v root a → root ≤ a ∧ a < v.next := by
    intro a ha
    induction ha with
    | root => exact ⟨Nat.le_refl _, hBound⟩
    | child _ hChild ih =>
      rcases h.ordered ih.2 hChild with ⟨hLess, hLast⟩
      exact ⟨Nat.le_trans ih.1 (Nat.le_of_lt hLess), hLast⟩
  have hNotTop : ∀ {a}, Below v root a → a ≠ v.fileSystemRoot := by
    intro a ha
    exact Nat.ne_of_gt (Nat.lt_of_lt_of_le hAbove (hBelow ha).1)
  refine ⟨⟨?_, ?_, ?_⟩, ?_⟩
  · intro a ha
    exact (hBelow ha).2
  · intro a a' b ha ha' hb hb'
    have hUp := h.parent (hBelow ha).2 (hNotTop ha) hb
    rw [h.parent (hBelow ha').2 (hNotTop ha') hb'] at hUp
    exact (some.inj hUp).symm
  · intro a ha hChild
    exact Nat.not_lt_of_le (hBelow ha).1 (h.ordered (hBelow ha).2 hChild).1
  · intro a ha
    exact h.distinct (hBelow ha).2 (hNotTop ha)

end

end WellFormed

end Virtual

inductive VirtualCall
| createRoot (operator : Option Nat) (rootName : CString)
| create (parent : Option NodeId) (path : CString)

namespace Virtual

def Step (v : Virtual) (call : VirtualCall) (v' : Virtual) : Prop :=
  match call with
  | .createRoot operator rootName =>
    ∃ answer, v.createRoot operator rootName = some (answer, v')
  | .create parent path =>
    (∀ a, parent = some a → a < v.next) ∧ ∃ fuel answer,
        v.create fuel parent path = some (answer, v')

def Built (v : Virtual) : Prop :=
  ∃ calls, Run Step start calls v

theorem Built.wellFormed {v : Virtual} (h : Built v) : WellFormed v := by
  rcases h with ⟨calls, hRun⟩
  apply hRun.invariant WellFormed.start
  intro s call s' hs hStep
  cases call with
  | createRoot operator rootName =>
    rcases hStep with ⟨answer, hCreate⟩
    exact hs.createRoot hCreate
  | create parent path =>
    rcases hStep with ⟨hParent, fuel, answer, hCreate⟩
    exact hs.create hParent hCreate

end Virtual

end Fennix
