import Fennix.FileSystem.Mountpoints
import Fennix.FileSystem.Tree

/-
  Links and names of the nodes of a tree.

  A node is tidy if its children point to it and have distinct names.
-/

namespace Fennix

open Cwalk List

namespace Virtual

structure Rooted (v : Virtual) (root : NodeId) : Prop where
  parent : ∀ a b, Below v root a → b ∈ v.children a → (v.nodes b).parent = some a
  distinct : DistinctNames v root
  path : ∀ n, Below v root n → ∃! path, v.Chain root path n

def TidyAt (v : Virtual) (a : NodeId) : Prop :=
  (∀ b ∈ v.children a, (v.nodes b).parent = some a) ∧ ((v.children a).map v.name).Nodup

def Tidy (D : NodeId → Prop) (v : Virtual) : Prop :=
  ∀ a, a < v.next → D a → TidyAt v a

structure Sound (v : Virtual) : Prop where
  allocated : v.fileSystemRoot < v.next
  ordered : ∀ {a b}, a < v.next → b ∈ v.children a → a < b ∧ b < v.next
  reachable : ∀ {a}, a < v.next → Below v v.fileSystemRoot a

section Rooted

variable {v : Virtual} {root a b n : NodeId}

theorem Chain.snoc {c : CString} {path : List CString} (h : v.Chain a path n)
    (hb : b ∈ v.children n) (hName : v.name b = c) : v.Chain a (path ++ [c]) b := by
  induction path generalizing a with
  | nil =>
    cases h
    exact ⟨b, hb, hName, rfl⟩
  | cons d path ih =>
    rcases h with ⟨e, he, hd, hRest⟩
    exact ⟨e, he, hd, ih hRest⟩

theorem Below.exists_chain (h : Below v root n) : ∃ path, v.Chain root path n := by
  induction h with
  | root => exact ⟨[], rfl⟩
  | @child a b _ hb ih =>
    rcases ih with ⟨path, hPath⟩
    exact ⟨path ++ [v.name b], hPath.snoc hb rfl⟩

namespace Sound

theorem below (h : Sound v) (hRoot : root < v.next) (hBelow : Below v root a) :
    root ≤ a ∧ a < v.next := by
  induction hBelow with
  | root => exact ⟨Nat.le_refl _, hRoot⟩
  | child _ hb ih =>
    rcases h.ordered ih.2 hb with ⟨hLess, hBound⟩
    exact ⟨Nat.le_trans ih.1 (Nat.le_of_lt hLess), hBound⟩

theorem rooted_of_tidyAt (h : Sound v) (hRoot : root < v.next)
    (hTidy : ∀ a, Below v root a → TidyAt v a) : Rooted v root := by
  have hDistinct : DistinctNames v root := fun a ha => (hTidy a ha).2
  have hTree : NodeTree v root := by
    refine ⟨fun ha => (h.below hRoot ha).2, ?_, ?_⟩
    · intro a a' b ha ha' hb hb'
      have hUp := (hTidy a ha).1 b hb
      rw [(hTidy a' ha').1 b hb'] at hUp
      exact (Option.some.inj hUp).symm
    · intro a ha hChild
      exact Nat.not_lt_of_le (h.below hRoot ha).1 (h.ordered (h.below hRoot ha).2 hChild).1
  refine ⟨fun a b ha => (hTidy a ha).1 b, hDistinct, ?_⟩
  intro n hn
  rcases hn.exists_chain with ⟨path, hPath⟩
  refine ⟨path, hPath, ?_⟩
  intro other hOther
  exact hTree.unique ((chain_iff hDistinct other Below.root).mp hOther)
    ((chain_iff hDistinct path Below.root).mp hPath)

theorem rooted_iff_tidyAt (h : Sound v) (hRoot : root < v.next) :
    Rooted v root ↔ ∀ a, Below v root a → TidyAt v a :=
  ⟨fun hRooted a ha => ⟨fun b => hRooted.parent a b ha, hRooted.distinct a ha⟩,
    h.rooted_of_tidyAt hRoot⟩

theorem rooted_iff (h : Sound v) : Rooted v v.fileSystemRoot ↔ Tidy (fun _ => True) v := by
  rw [h.rooted_iff_tidyAt h.allocated]
  constructor
  · intro hTidy a ha _
    exact hTidy a (h.reachable ha)
  · intro hTidy a ha
    exact hTidy a (h.below h.allocated ha).2 trivial

theorem below_root (h : Sound v) (ha : a < v.next) (hNe : a ≠ v.fileSystemRoot) :
    ∃ root ∈ v.roots, Below v root a := by
  have hReach := h.reachable ha
  clear ha
  induction hReach with
  | root => exact (hNe rfl).elim
  | @child p b hp hb ih =>
    by_cases hTop : p = v.fileSystemRoot
    · rw [hTop] at hb
      exact ⟨b, hb, Below.root⟩
    · rcases ih hTop with ⟨root, hRoot, hBelow⟩
      exact ⟨root, hRoot, hBelow.child hb⟩

theorem rooted_roots_iff (h : Sound v) : (∀ root ∈ v.roots, Rooted v root) ↔
    Tidy (fun a => a ≠ v.fileSystemRoot) v := by
  constructor
  · intro hRooted a ha hNe
    rcases h.below_root ha hNe with ⟨root, hRoot, hBelow⟩
    have hBound := (h.ordered h.allocated hRoot).2
    exact (h.rooted_iff_tidyAt hBound).mp (hRooted root hRoot) a hBelow
  intro hTidy root hRoot
  rcases h.ordered h.allocated hRoot with ⟨hAbove, hBound⟩
  refine h.rooted_of_tidyAt hBound ?_
  intro a ha
  rcases h.below hBound ha with ⟨hLe, hLess⟩
  exact hTidy a hLess (Nat.ne_of_gt (Nat.lt_of_lt_of_le hAbove hLe))

end Sound

end Rooted

section AddNode

variable {v : Virtual} {D : NodeId → Prop} {parent a b : NodeId} {node : FileSystemNode}

theorem mem_children_addNode_of_mem (hParent : parent < v.next) (ha : a < v.next)
    (hb : b ∈ v.children a) : b ∈ (v.addNode parent node).children a := by
  by_cases hSame : a = parent
  · rw [hSame, children_addNode_parent hParent]
    rw [hSame] at hb
    exact mem_append_left _ hb
  · rw [children_addNode_other (Nat.ne_of_lt ha) hSame]
    exact hb

theorem Sound.addNode (h : Sound v) (hParent : parent < v.next) (hBare : node.children = []) :
    Sound (v.addNode parent node) where
  allocated := Nat.lt_succ_of_lt h.allocated
  ordered := by
    intro a b ha hb
    rcases mem_children_addNode hParent hBare ha hb with ⟨haOld, hOld | ⟨rfl, rfl⟩⟩
    · rcases h.ordered haOld hOld with ⟨hLess, hBound⟩
      exact ⟨hLess, Nat.lt_succ_of_lt hBound⟩
    · exact ⟨hParent, Nat.lt_succ_self _⟩
  reachable := by
    have hOld : ∀ {a}, Below v v.fileSystemRoot a →
        Below (v.addNode parent node) v.fileSystemRoot a := by
      intro a ha
      induction ha with
      | root => exact Below.root
      | child hAbove hb ih =>
        exact ih.child (mem_children_addNode_of_mem hParent (h.below h.allocated hAbove).2 hb)
    intro a ha
    by_cases hNew : a = v.next
    · rw [hNew]
      refine (hOld (h.reachable hParent)).child ?_
      rw [children_addNode_parent hParent]
      exact mem_append_right _ mem_cons_self
    · exact hOld (h.reachable (Nat.lt_of_le_of_ne (Nat.le_of_lt_succ ha) hNew))

theorem Tidy.addNode (hTidy : Tidy D v) (h : Sound v) (hParent : parent < v.next)
    (hBare : node.children = []) (hUp : D parent → node.parent = some parent)
    (hName : D parent → v.getChild parent node.name = none) : Tidy D (v.addNode parent node) := by
  intro a ha hD
  by_cases hNew : a = v.next
  · rw [TidyAt, hNew, children, addNode_nodes_next, hBare]
    exact ⟨fun b hb => (not_mem_nil hb).elim, nodup_nil⟩
  have haOld : a < v.next := Nat.lt_of_le_of_ne (Nat.le_of_lt_succ ha) hNew
  rcases hTidy a haOld hD with ⟨hLinks, hDistinct⟩
  refine ⟨?_, ?_⟩
  · intro b hb
    rcases mem_children_addNode hParent hBare ha hb with ⟨_, hOld | ⟨rfl, rfl⟩⟩
    · rw [parent_addNode hParent (h.ordered haOld hOld).2]
      exact hLinks b hOld
    · rw [addNode_nodes_next]
      exact hUp hD
  apply nodup_addNode hParent hNew
  · exact fun b hb => (h.ordered haOld hb).2
  · rintro rfl
    exact hName hD
  · exact hDistinct

def Misplaced (D : NodeId → Prop) (v : Virtual) : Prop :=
  ∃ a, a < v.next ∧ D a ∧ ∃ b ∈ v.children a, (v.nodes b).parent ≠ some a

theorem Misplaced.not_tidy (h : Misplaced D v) : ¬ Tidy D v := by
  rcases h with ⟨a, ha, hD, b, hb, hParent⟩
  intro hTidy
  exact hParent ((hTidy a ha hD).1 b hb)

theorem Misplaced.addNode (h : Misplaced D v) (hSound : Sound v) (hParent : parent < v.next) :
    Misplaced D (v.addNode parent node) := by
  rcases h with ⟨a, ha, hD, b, hb, hWrong⟩
  refine ⟨a, Nat.lt_succ_of_lt ha, hD, b, mem_children_addNode_of_mem hParent ha hb, ?_⟩
  rw [parent_addNode hParent (hSound.ordered ha hb).2]
  exact hWrong

theorem misplaced_addNode (hParent : parent < v.next) (hD : D parent)
    (hUp : node.parent ≠ some parent) : Misplaced D (v.addNode parent node) := by
  refine ⟨parent, Nat.lt_succ_of_lt hParent, hD, v.next, ?_, ?_⟩
  · rw [children_addNode_parent hParent]
    exact mem_append_right _ mem_cons_self
  · rw [addNode_nodes_next]
    exact hUp

end AddNode

structure Grown (v v' : Virtual) : Prop where
  sound : Sound v'
  fileSystemRoot : v'.fileSystemRoot = v.fileSystemRoot
  next : v.next ≤ v'.next
  tidy : ∀ {D}, Tidy D v → Tidy D v'

theorem Grown.refl {v : Virtual} (h : Sound v) : Grown v v :=
  ⟨h, rfl, Nat.le_refl _, fun hTidy => hTidy⟩

theorem Grown.trans {v₁ v₂ v₃ : Virtual} (h : Grown v₁ v₂) (h' : Grown v₂ v₃) : Grown v₁ v₃ :=
  ⟨h'.sound, h'.fileSystemRoot.trans h.fileSystemRoot, Nat.le_trans h.next h'.next,
    fun hTidy => h'.tidy (h.tidy hTidy)⟩

theorem createSegments_grown {v v' : Virtual} {a n : NodeId} {path : List CString} (h : Sound v)
    (ha : a < v.next) (hCreate : v.createSegments a path = some (n, v')) :
    Grown v v' ∧ a ≤ n ∧ n < v'.next := by
  refine createSegments_rule (P := fun w b _ => Grown v w ∧ a ≤ b ∧ b < w.next)
    ?_ ?_ ⟨Grown.refl h, Nat.le_refl _, ha⟩ hCreate
  · rintro w b d c rest ⟨hGrown, hLe, hb⟩ hChild
    rcases hGrown.sound.ordered hb (getChild_some hChild).1 with ⟨hLess, hd⟩
    exact ⟨hGrown, Nat.le_trans hLe (Nat.le_of_lt hLess), hd⟩
  rintro w b c rest ⟨hGrown, hLe, hb⟩ hNone _
  have hAdded : Grown w (w.addNode b (w.newChild b c)) :=
    ⟨hGrown.sound.addNode hb rfl, rfl, Nat.le_succ _,
      fun hTidy => hTidy.addNode hGrown.sound hb rfl (fun _ => rfl) (fun _ => hNone)⟩
  exact ⟨hGrown.trans hAdded, Nat.le_trans hLe (Nat.le_of_lt hb), Nat.lt_succ_self _⟩

theorem create_grown {fuel : Nat} {v v' : Virtual} {parent answer : Option NodeId} {path : CString}
    (h : Sound v) (hParent : ∀ a, parent = some a → a < v.next)
    (hCreate : v.create fuel parent path = some (answer, v')) : Grown v v' := by
  rcases create_cases hCreate with ⟨_, rfl⟩ | ⟨first, cleanPath, n, hFirst, _, hLoop, _⟩
  · exact Grown.refl h
  refine (createSegments_grown h ?_ hLoop).1
  cases parent with
  | some a => exact hParent first hFirst
  | none =>
    exact (h.ordered h.allocated (mem_of_head? hFirst)).2

theorem create_answer {fuel : Nat} {v v' : Virtual} {n : NodeId} {path : CString} (h : Sound v)
    (hCreate : v.create fuel none path = some (some n, v')) :
    v.fileSystemRoot < n ∧ n < v'.next := by
  rcases create_cases hCreate with ⟨hNone, _⟩ | ⟨first, cleanPath, m, hFirst, _, hLoop, hm⟩
  · cases hNone
  cases hm
  rcases h.ordered h.allocated (mem_of_head? hFirst) with ⟨hAbove, hBound⟩
  rcases createSegments_grown h hBound hLoop with ⟨_, hLe, hn⟩
  exact ⟨Nat.lt_of_lt_of_le hAbove hLe, hn⟩

section SetFlags

variable (v : Virtual) (a b : NodeId) (flags : NodeFlags)

@[simp] theorem setFlags_children : (v.setFlags a flags).children b = v.children b := by
  simp only [children, setFlags]
  split
  · rename_i hSame
    rw [hSame]
  · rfl

@[simp] theorem setFlags_name : (v.setFlags a flags).name b = v.name b := by
  simp only [name, setFlags]
  split
  · rename_i hSame
    rw [hSame]
  · rfl

@[simp] theorem setFlags_parent : ((v.setFlags a flags).nodes b).parent = (v.nodes b).parent := by
  simp only [setFlags]
  split
  · rename_i hSame
    rw [hSame]
  · rfl

theorem grown_setFlags {v : Virtual} (h : Sound v) : Grown v (v.setFlags a flags) where
  sound := by
    refine ⟨h.allocated, ?_, ?_⟩
    · intro c d hc hd
      rw [setFlags_children] at hd
      exact h.ordered hc hd
    intro c hc
    have hBelow := h.reachable hc
    clear hc
    induction hBelow with
    | root => exact Below.root
    | child _ hd ih =>
      refine ih.child ?_
      rw [setFlags_children]
      exact hd
  fileSystemRoot := rfl
  next := Nat.le_refl _
  tidy := by
    intro D hTidy c hc hD
    have hNames : (v.setFlags a flags).name = v.name :=
      funext (fun d => setFlags_name v a d flags)
    rw [TidyAt, setFlags_children, hNames]
    refine ⟨?_, (hTidy c hc hD).2⟩
    intro d hd
    rw [setFlags_parent]
    exact (hTidy c hc hD).1 d hd

end SetFlags

end Virtual

end Fennix
