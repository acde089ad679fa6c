import Fennix.Library.Run
import Fennix.Library.Linked
import Fennix.Tasking.Monotasking
import Mathlib.Data.List.Perm.Subperm

/-
  The links of the mono-tasking queue.
-/

namespace Fennix

open List Option

namespace MonoTasking

def nextOf (s : MonoTasking) (a : Nat) : Nat :=
  (s.nodes a).next

def prevOf (s : MonoTasking) (a : Nat) : Nat :=
  (s.nodes a).prev

def taskOf (s : MonoTasking) (a : Nat) : Nat :=
  (s.nodes a).task

structure QueueOf (s : MonoTasking) (ns : List Nat) : Prop where
  first : s.queue = ns.headD 0
  linked : Linked s.nextOf s.prevOf 0 ns 0
  nodup : ns.Nodup
  live : ∀ a ∈ ns, a ≠ 0 ∧ a ∈ s.live
  once : s.live.Nodup
  tasks : (ns.map s.taskOf).Nodup
  nonzero : ∀ a ∈ ns, s.taskOf a ≠ 0

def Intact (s : MonoTasking) : Prop :=
  ∃ ns, QueueOf s ns

theorem intact_start : Intact start := by
  refine ⟨[], rfl, trivial, ?_, ?_, ?_, ?_, ?_⟩ <;> simp [start]

variable {stop : TaskQueue → Bool}

section Walks

variable {s : MonoTasking} {ns : List Nat} {before fuel a : Nat}

theorem readNode_zero : s.readNode 0 = none := by
  simp [readNode]

theorem readNode_live (h : a ≠ 0 ∧ a ∈ s.live) : s.readNode a = some (s.nodes a) :=
  if_pos h

theorem readNode_some {node : TaskQueue} (h : s.readNode a = some node) :
    a ≠ 0 ∧ node = s.nodes a := by
  unfold readNode at h
  split at h
  · rename_i hLive
    cases h
    exact ⟨hLive.1, rfl⟩
  · cases h

theorem nodesFrom_eq {prev : Nat → Nat} (hLinked : Linked s.nextOf prev before ns 0)
    (hNonzero : ∀ a ∈ ns, a ≠ 0) (hFuel : ns.length ≤ fuel) :
    s.nodesFrom fuel (ns.headD 0) = ns := by
  induction ns generalizing before fuel with
  | nil =>
    cases fuel with
    | zero => rfl
    | succ fuel => rfl
  | cons a ns ih =>
    cases fuel with
    | zero => simp at hFuel
    | succ fuel =>
      rcases hLinked with ⟨hNext, _, hRest⟩
      have hNext' : (s.nodes a).next = ns.headD 0 := hNext
      rw [headD_cons, nodesFrom, if_neg (hNonzero a mem_cons_self), hNext',
        ih hRest (fun b hb => hNonzero b (mem_cons_of_mem a hb)) (by simpa using hFuel)]

theorem walk_eq_find (hLinked : Linked s.nextOf s.prevOf before ns 0)
    (hLive : ∀ b ∈ ns, b ≠ 0 ∧ b ∈ s.live) (hFuel : ns.length ≤ fuel) :
    s.walk stop fuel (ns.headD 0) = ns.find? (fun b => stop (s.nodes b)) := by
  induction ns generalizing before fuel with
  | nil =>
    cases fuel with
    | zero => rfl
    | succ fuel =>
      rfl
  | cons b ns ih =>
    cases fuel with
    | zero => simp at hFuel
    | succ fuel =>
      rcases hLinked with ⟨hNext, _, hRest⟩
      have hOn := ih hRest (fun c hc => hLive c (mem_cons_of_mem b hc)) (by simpa using hFuel)
      rw [headD_cons, walk, readNode_live (hLive b mem_cons_self), bind_some, find?_cons]
      cases stop (s.nodes b) with
      | true => rfl
      | false => exact (congrArg (s.walk stop fuel) hNext).trans hOn

end Walks

namespace QueueOf

variable {s : MonoTasking} {ns pre post : List Nat} {a b : Nat}

theorem length_le (h : QueueOf s ns) : ns.length ≤ s.live.length :=
  (subperm_of_subset h.nodup (fun a ha => (h.live a ha).2)).length_le

theorem queued_eq (h : QueueOf s ns) : s.queued = ns.map s.taskOf := by
  rw [queued, h.first, nodesFrom_eq h.linked (fun a ha => (h.live a ha).1) h.length_le]
  rfl

theorem next_eq (h : QueueOf s (pre ++ a :: post)) : (s.nodes a).next = post.headD 0 :=
  h.linked.at_mid.1

theorem prev_eq (h : QueueOf s (pre ++ a :: post)) : (s.nodes a).prev = pre.getLastD 0 :=
  h.linked.at_mid.2

theorem apart (h : QueueOf s (pre ++ a :: post)) : a ∉ pre ∧ a ∉ post := by
  have hNodup := nodup_middle.mp h.nodup
  rw [nodup_cons, mem_append, not_or] at hNodup
  exact hNodup.1

theorem shift (h : QueueOf s (pre ++ a :: b :: post)) : QueueOf s ((pre ++ [a]) ++ b :: post) := by
  simpa using h

theorem other_task (h : QueueOf s (pre ++ a :: post)) (hb : b ∈ pre) : s.taskOf b ≠ s.taskOf a := by
  have hTasks := h.tasks
  rw [map_append, map_cons, nodup_append] at hTasks
  exact hTasks.2.2 _ (mem_map_of_mem hb) _ mem_cons_self

theorem walk_eq (h : QueueOf s ns) {fuel : Nat} (hFuel : s.live.length ≤ fuel) :
    s.walk stop fuel s.queue = ns.find? (fun b => stop (s.nodes b)) := by
  rw [h.first]
  exact walk_eq_find h.linked h.live (Nat.le_trans h.length_le hFuel)

theorem walk_task (h : QueueOf s (pre ++ a :: post)) {fuel : Nat} (hFuel : s.live.length ≤ fuel) :
    s.walk (fun node => node.task = s.taskOf a) fuel s.queue = some a := by
  rw [h.walk_eq hFuel, find?_eq_some_iff_append]
  refine ⟨decide_eq_true rfl, pre, post, rfl, fun b hb => ?_⟩
  rw [Bool.not_eq_true', decide_eq_false_iff_not]
  exact h.other_task hb

theorem next_ne_zero (h : QueueOf s (pre ++ a :: post)) (hb : b ∈ pre) : (s.nodes b).next ≠ 0 := by
  rcases append_of_mem hb with ⟨xs, ys, rfl⟩
  have hSplit : xs ++ b :: ys ++ a :: post = xs ++ b :: (ys ++ a :: post) := by simp
  rw [hSplit] at h
  rw [h.next_eq]
  cases ys with
  | nil => exact (h.live a (by simp)).1
  | cons c ys => exact (h.live c (by simp)).1

theorem lastNode_eq (h : QueueOf s (pre ++ [a])) : s.lastNode = some a := by
  rw [lastNode, h.walk_eq (Nat.le_refl _), find?_eq_some_iff_append]
  refine ⟨decide_eq_true h.next_eq, pre, [], rfl, fun b hb => ?_⟩
  rw [Bool.not_eq_true', decide_eq_false_iff_not]
  exact h.next_ne_zero hb

theorem congr {s' : MonoTasking} (h : QueueOf s ns) (hQueue : s'.queue = s.queue)
    (hNodes : ∀ a ∈ ns, s'.nodes a = s.nodes a) (hLive : ∀ a ∈ ns, a ∈ s'.live)
    (hOnce : s'.live.Nodup) : QueueOf s' ns := by
  have hTasks : ns.map s'.taskOf = ns.map s.taskOf := by
    apply map_congr_left
    intro a ha
    rw [taskOf, taskOf, hNodes a ha]
  refine ⟨hQueue.trans h.first, ?_, h.nodup, ?_, hOnce, ?_, ?_⟩
  · apply h.linked.congr
    · intro a ha
      rw [nextOf, nextOf, hNodes a ha]
    · intro a ha
      rw [prevOf, prevOf, hNodes a ha]
  · exact fun a ha => ⟨(h.live a ha).1, hLive a ha⟩
  · rw [hTasks]
    exact h.tasks
  · intro a ha
    rw [taskOf, hNodes a ha]
    exact h.nonzero a ha

theorem congr_links {s' : MonoTasking} (h : QueueOf s ns) (hQueue : s'.queue = s.queue)
    (hNodes : s'.nodes = s.nodes) (hLive : s'.live = s.live) : QueueOf s' ns := by
  refine h.congr hQueue ?_ ?_ ?_
  · intro a _
    rw [hNodes]
  · intro a ha
    rw [hLive]
    exact (h.live a ha).2
  · rw [hLive]
    exact h.once

theorem live_erase {left : List Nat} (h : QueueOf s ns) (hLeft : left ⊆ ns) (hGone : a ∉ left) :
    ∀ b ∈ left, b ≠ 0 ∧ b ∈ s.live.erase a := by
  intro b hb
  rcases h.live b (hLeft hb) with ⟨hNonzero, hLive⟩
  have hNe : b ≠ a := ne_of_mem_of_not_mem hb hGone
  exact ⟨hNonzero, (mem_erase_of_ne hNe).mpr hLive⟩

theorem first_of_prefix (h : QueueOf s (pre ++ a :: post)) (post' : List Nat) :
    s.queue = (pre ++ a :: post').headD 0 := by
  rw [h.first]
  cases pre with
  | nil => rfl
  | cons b pre => rfl

end QueueOf

def linkBehind (s : MonoTasking) (c a : Nat) : MonoTasking :=
  { s with nodes := fun x =>
      if x = c then { s.nodes c with next := a }
      else if x = a then
        { s.nodes a with next := (s.nodes c).next, prev := c }
      else s.nodes x }

section NewNodes

variable {s : MonoTasking} {ns pre post : List Nat} {a c task : Nat}

theorem writeNode_live {f : TaskQueue → TaskQueue} (h : a ≠ 0 ∧ a ∈ s.live) :
    s.writeNode a f = some (s.setNode a (f (s.nodes a))) :=
  if_pos h

theorem QueueOf.newNode (h : QueueOf s ns) (hFresh : a ∉ s.live) :
    QueueOf (s.newNode a task) ns := by
  refine h.congr ?_ ?_ ?_ ?_
  · rfl
  · intro b hb
    have hNe : b ≠ a := ne_of_mem_of_not_mem (h.live b hb).2 hFresh
    simp [MonoTasking.newNode, setNode, hNe]
  · exact fun b hb => mem_cons_of_mem a (h.live b hb).2
  · exact nodup_cons.mpr ⟨hFresh, h.once⟩

theorem insertAfterCurrent_eq
    (hWalk : s.walk (fun node => node.task = s.currentTask) s.live.length s.queue = some c)
    (hc : c ≠ 0 ∧ c ∈ s.live) (ha : a ≠ 0 ∧ a ∈ s.live) (hNe : c ≠ a) :
    s.insertAfterCurrent a = some (s.linkBehind c a) := by
  rw [insertAfterCurrent, hWalk, bind_some, readNode_live hc, bind_some,
    writeNode_live ha, bind_some, writeNode_live (s := s.setNode a _) hc]
  simp only [setNode, MonoTasking.linkBehind, if_neg hNe]

theorem appendNode_eq (hLast : s.lastNode = some c) (hEnd : (s.nodes c).next = 0)
    (hc : c ≠ 0 ∧ c ∈ s.live) (ha : a ≠ 0 ∧ a ∈ s.live) (hNe : c ≠ a) :
    s.appendNode a = some (s.linkBehind c a) := by
  rw [appendNode, hLast, bind_some, writeNode_live ha, bind_some,
    writeNode_live (s := s.setNode a _) hc]
  simp only [setNode, MonoTasking.linkBehind, if_neg hNe, hEnd]

theorem QueueOf.linked_linkBehind (h : QueueOf s (pre ++ c :: post))
    (hNew : a ∉ pre ++ c :: post) : Linked (s.linkBehind c a).nextOf
    (fun x => if post.head? = some x then a else (s.linkBehind c a).prevOf x) 0
    (pre ++ c :: a :: post) 0 := by
  have hNe : ∀ x ∈ pre ++ c :: post, x ≠ a := fun x hx => ne_of_mem_of_not_mem hx hNew
  have hca := (hNe c (by simp)).symm
  have hHead : post.head? ≠ some a := fun hEq => hNew (by simp [mem_of_head? hEq])
  refine h.linked.splice [] [a] h.nodup ?_ ⟨?_, ?_, trivial⟩ ?_ ?_ ?_
  · simp [nextOf, MonoTasking.linkBehind]
  · simp [nextOf, MonoTasking.linkBehind, hca, h.next_eq]
  · simp [prevOf, MonoTasking.linkBehind, hca, hHead]
  · intro d hd
    simp [hd]
  · intro d hd hdc
    simp [nextOf, MonoTasking.linkBehind, hdc, hNe d hd]
  · intro d hd hNot
    by_cases hdc : d = c
    · simp [prevOf, MonoTasking.linkBehind, hdc, hdc ▸ hNot]
    · simp [prevOf, MonoTasking.linkBehind, hdc, hNe d hd, hNot]

theorem QueueOf.linkBehind (h : QueueOf s (pre ++ [c])) (ha : a ≠ 0 ∧ a ∈ s.live)
    (hNew : a ∉ pre ++ [c]) (hTask : s.taskOf a ∉ (pre ++ [c]).map s.taskOf)
    (hNonzero : s.taskOf a ≠ 0) : QueueOf (s.linkBehind c a) (pre ++ [c, a]) := by
  have hShape : pre ++ [c, a] = (pre ++ [c]).concat a := by simp
  have hTaskOf : (s.linkBehind c a).taskOf = s.taskOf := by
    funext x
    simp only [taskOf, MonoTasking.linkBehind]
    split
    · simp [*]
    · split <;> simp [*]
  refine ⟨h.first_of_prefix [a], by simpa using h.linked_linkBehind hNew, ?_, ?_, h.once, ?_, ?_⟩
  · rw [hShape]
    exact h.nodup.concat hNew
  · rw [hShape, concat_eq_append, forall_mem_append, forall_mem_singleton]
    exact ⟨h.live, ha⟩
  · rw [hTaskOf, hShape, map_concat]
    exact h.tasks.concat hTask
  · rw [hTaskOf, hShape, concat_eq_append, forall_mem_append, forall_mem_singleton]
    exact ⟨h.nonzero, hNonzero⟩

theorem QueueOf.not_intact_linkBehind {d : Nat} (h : QueueOf s (pre ++ c :: d :: post)) (ha : a ≠ 0)
    (hNew : a ∉ pre ++ c :: d :: post) : ¬ Intact (s.linkBehind c a) := by
  rintro ⟨ns, hQueue⟩
  have hNonzero : ∀ b ∈ pre ++ c :: a :: d :: post, b ≠ 0 := by
    intro b hb
    by_cases hba : b = a
    · rwa [hba]
    · exact (h.live b (by simpa [hba] using hb)).1
  -- the nodes along `Next` are told by the links ahead alone
  have hNodes : ns = pre ++ c :: a :: d :: post := by
    have hAhead := nodesFrom_eq (h.linked_linkBehind hNew) hNonzero (Nat.le_add_right _ ns.length)
    have hThere := nodesFrom_eq hQueue.linked (fun b hb => (hQueue.live b hb).1)
      (Nat.le_add_left _ (pre ++ c :: a :: d :: post).length)
    rw [← h.first_of_prefix] at hAhead
    rw [← hQueue.first] at hThere
    exact hThere.symm.trans hAhead
  rw [hNodes] at hQueue
  have hBack := hQueue.shift.shift.prev_eq
  have hda := ne_of_mem_of_not_mem (show d ∈ pre ++ c :: d :: post by simp) hNew
  have hdc : d ≠ c := ne_of_mem_of_not_mem mem_cons_self h.apart.2
  simp [MonoTasking.linkBehind, hdc, hda, h.shift.prev_eq] at hBack
  exact hNew (by simp [hBack])

end NewNodes

------ Freed Nodes

def merged (s : MonoTasking) (c n : Nat) : MonoTasking :=
  { s with
    nodes := fun x =>
      if x = c then
        { s.nodes c with task := (s.nodes n).task, next := (s.nodes n).next }
      else if x = (s.nodes n).next ∧ (s.nodes n).next ≠ 0 then
        { s.nodes x with prev := c }
      else s.nodes x
    live := s.live.erase n }

section FreedNodes

variable {s : MonoTasking} {ns pre post : List Nat} {c n : Nat}

theorem QueueOf.mergeNext_eq (h : QueueOf s (pre ++ c :: n :: post)) :
    s.mergeNext c n = some (s.merged c n) := by
  have hc := h.live c (by simp)
  have hn := h.live n (by simp)
  rw [mergeNext, readNode_live hn, bind_some, writeNode_live hc, bind_some]
  by_cases hEnd : (s.nodes n).next = 0
  · simp only [hEnd, ne_eq, not_true_eq_false, if_false, map_some, deleteNode, setNode,
      merged, and_false]
  have hBehind : (s.nodes n).next ∈ post := by
    rw [h.shift.next_eq] at hEnd ⊢
    cases post with
    | nil => exact (hEnd rfl).elim
    | cons b post => exact mem_cons_self
  have hNe : (s.nodes n).next ≠ c := by
    intro hEq
    rw [hEq] at hBehind
    exact h.apart.2 (mem_cons_of_mem n hBehind)
  have hLive := h.live (s.nodes n).next (by simp [hBehind])
  rw [if_pos hEnd, writeNode_live (s := s.setNode c _) hLive, map_some]
  simp only [deleteNode, setNode, merged, hEnd, ne_eq, not_false_eq_true, and_true, if_neg hNe,
    some.injEq]
  congr 1
  funext x
  by_cases hx : x = c
  · simp [hx, hNe.symm]
  by_cases hxn : x = (s.nodes n).next
  · simp [hxn, hNe]
  · simp [hx, hxn]

theorem taskOf_merged (x : Nat) : (s.merged c n).taskOf x =
    if x = c then s.taskOf n else s.taskOf x := by
  by_cases hx : x = c
  · simp [taskOf, merged, hx]
  by_cases hxn : x = (s.nodes n).next ∧ (s.nodes n).next ≠ 0
  · simp only [taskOf, merged, if_neg hx, if_pos hxn]
  · simp only [taskOf, merged, if_neg hx, if_neg hxn]

theorem map_taskOf_merged {xs : List Nat} (hc : c ∉ xs) :
    xs.map (s.merged c n).taskOf = xs.map s.taskOf := by
  apply map_congr_left
  intro x hx
  rw [taskOf_merged, if_neg]
  rintro rfl
  exact hc hx

theorem QueueOf.tasks_merged (h : QueueOf s (pre ++ c :: n :: post)) :
    (pre ++ c :: post).map (s.merged c n).taskOf =
    pre.map s.taskOf ++ (n :: post).map s.taskOf := by
  have hPost : c ∉ post := fun hc =>
    h.apart.2 (mem_cons_of_mem n hc)
  rw [map_append, map_cons, map_cons, map_taskOf_merged h.apart.1,
    map_taskOf_merged hPost, taskOf_merged, if_pos rfl]

theorem nextOf_merged {x : Nat} (hx : x ≠ c) : (s.merged c n).nextOf x = s.nextOf x := by
  by_cases hxn : x = (s.nodes n).next ∧ (s.nodes n).next ≠ 0
  · simp only [nextOf, merged, if_neg hx, if_pos hxn]
  · simp only [nextOf, merged, if_neg hx, if_neg hxn]

theorem prevOf_merged (x : Nat) : (s.merged c n).prevOf x =
    if x ≠ c ∧ x ≠ 0 ∧ x = (s.nodes n).next then c else s.prevOf x := by
  by_cases hx : x = c
  · simp [prevOf, merged, hx]
  simp only [prevOf, merged, if_neg hx]
  by_cases hxn : x = (s.nodes n).next ∧ (s.nodes n).next ≠ 0
  · rw [if_pos hxn, if_pos ⟨hx, hxn.1 ▸ hxn.2, hxn.1⟩]
  rw [if_neg hxn, if_neg]
  rintro ⟨_, hZero, hEq⟩
  exact hxn ⟨hEq, hEq ▸ hZero⟩

theorem QueueOf.merged (h : QueueOf s (pre ++ c :: n :: post)) :
    QueueOf (s.merged c n) (pre ++ c :: post) := by
  have hSub : (pre ++ c :: post).Sublist (pre ++ c :: n :: post) := List.Sublist.append_left
    ((sublist_cons_self n post).cons_cons c) pre
  have hNext : (s.nodes n).next = post.headD 0 := h.shift.next_eq
  have hGone : n ∉ pre ++ c :: post := by
    have hSplit := h.shift.apart
    simp only [mem_append, mem_singleton, not_or] at hSplit
    simp [hSplit]
  refine ⟨h.first_of_prefix post, ?_, h.nodup.sublist hSub,
    h.live_erase hSub.subset hGone, h.once.erase n, ?_, ?_⟩
  · refine h.linked.splice [n] [] h.nodup ?_ trivial ?_ ?_ ?_
    · simp [nextOf, MonoTasking.merged, hNext]
    · -- the node behind points back to `c`
      intro b hb
      have hMem : b ∈ post := mem_of_head? hb
      have hbc : b ≠ c := ne_of_mem_of_not_mem (mem_cons_of_mem n hMem) h.apart.2
      have hbn : b = (s.nodes n).next := by
        rw [hNext, headD_eq_head?_getD, hb]
        rfl
      exact (prevOf_merged b).trans (if_pos ⟨hbc, (h.live b (by simp [hMem])).1, hbn⟩)
    · exact fun b _ hbc => nextOf_merged hbc
    · intro b _ hHead
      rw [prevOf_merged, if_neg]
      rintro ⟨_, hZero, hbn⟩
      rw [hNext] at hbn
      cases post with
      | nil => exact hZero hbn
      | cons d post => exact hHead (congrArg some hbn.symm)
  · rw [h.tasks_merged]
    have hTasks := h.tasks
    rw [map_append, map_cons] at hTasks
    exact hTasks.sublist (List.Sublist.append_left (sublist_cons_self _ _) _)
  · intro b hb
    rw [taskOf_merged]
    split
    · exact h.nonzero n (by simp)
    · exact h.nonzero b (hSub.subset hb)

theorem QueueOf.dropLast {p : Nat} (h : QueueOf s (pre ++ [p, c])) :
    ∃ s', s.dropLast c p = some s' ∧ QueueOf s' (pre ++ [p]) ∧ c ∉ s'.live := by
  have hSub : (pre ++ [p]).Sublist (pre ++ [p, c]) := List.Sublist.append_left (by simp) pre
  have hLive := h.live_erase hSub.subset h.shift.apart.1
  let s' := (s.deleteNode c).setNode p { s.nodes p with next := 0 }
  have hTaskOf : s'.taskOf = s.taskOf := by
    funext x
    by_cases hx : x = p <;> simp [s', taskOf, setNode, deleteNode, hx]
  have hPrevOf : s'.prevOf = s.prevOf := by
    funext x
    by_cases hx : x = p <;> simp [s', prevOf, setNode, deleteNode, hx]
  refine ⟨s', writeNode_live (hLive p (by simp)), ⟨h.first_of_prefix [], ?_, h.nodup.sublist hSub,
    hLive, h.once.erase c, ?_, ?_⟩, h.once.not_mem_erase⟩
  · refine h.linked.splice [c] [] h.nodup ?_ trivial nofun ?_ (fun b _ _ => congrFun hPrevOf b)
    · simp [s', nextOf, setNode]
    · intro b _ hbp
      simp [s', nextOf, setNode, deleteNode, hbp]
  · rw [hTaskOf]
    exact h.tasks.sublist (hSub.map _)
  · rw [hTaskOf]
    exact fun b hb => h.nonzero b (hSub.subset hb)

theorem freeFrom_of_walk {task fuel a : Nat}
    (h : s.walk (fun node => node.task = task) fuel a = some c) : s.freeFrom task fuel a =
    if (s.nodes c).next ≠ 0 then s.mergeNext c (s.nodes c).next
    else s.dropLast c (s.nodes c).prev := by
  induction fuel generalizing a with
  | zero => cases h
  | succ fuel ih =>
    rw [walk] at h
    rcases bind_eq_some_iff.mp h with ⟨node, hRead, hFound⟩
    rcases readNode_some hRead with ⟨ha, rfl⟩
    rw [freeFrom, if_neg ha, hRead, bind_some]
    by_cases hTask : (s.nodes a).task = task
    · rw [if_pos (decide_eq_true hTask)] at hFound
      cases hFound
      exact if_pos hTask
    rw [decide_eq_false hTask] at hFound
    rw [if_neg hTask]
    exact ih hFound

theorem QueueOf.freeTask_eq (h : QueueOf s (pre ++ c :: post)) : s.freeTask (s.taskOf c) =
    if (s.nodes c).next ≠ 0 then s.mergeNext c (s.nodes c).next
    else s.dropLast c (s.nodes c).prev := by
  exact freeFrom_of_walk (h.walk_task (Nat.le_succ _))

theorem QueueOf.freeTask_merged (h : QueueOf s (pre ++ c :: n :: post)) :
    s.freeTask (s.taskOf c) = some (s.merged c n) := by
  have hNext : (s.nodes c).next = n := h.next_eq
  rw [h.freeTask_eq, hNext, if_pos (h.live n (by simp)).1, h.mergeNext_eq]

theorem QueueOf.freeTask_last (h : QueueOf s (pre ++ [c])) :
    s.freeTask (s.taskOf c) = s.dropLast c (pre.getLastD 0) := by
  have hNext : (s.nodes c).next = 0 := h.next_eq
  rw [h.freeTask_eq, hNext, h.prev_eq]
  exact if_neg (fun hNot => hNot rfl)

theorem QueueOf.freeTask_only (h : QueueOf s [c]) : s.freeTask (s.taskOf c) = none := by
  have hLast : s.freeTask (s.taskOf c) = s.dropLast c 0 :=
    QueueOf.freeTask_last (show QueueOf s ([] ++ [c]) from h)
  rw [hLast, MonoTasking.dropLast, writeNode]
  exact if_neg (fun hNull => hNull.1 rfl)

theorem QueueOf.freeTask_dropped {p : Nat} (h : QueueOf s (pre ++ [p] ++ [c])) :
    ∃ s', s.freeTask (s.taskOf c) = some s' ∧ QueueOf s' (pre ++ [p]) ∧ c ∉ s'.live := by
  rw [h.freeTask_last, getLastD_concat]
  rw [append_assoc] at h
  exact h.dropLast

theorem QueueOf.freeTask_intact (h : QueueOf s ns) (hc : c ∈ ns) (hMany : 2 ≤ ns.length) :
    ∃ s', s.freeTask (s.taskOf c) = some s' ∧ Intact s' := by
  rcases append_of_mem hc with ⟨pre, post, rfl⟩
  cases post with
  | cons n post =>
    exact ⟨_, h.freeTask_merged, _, h.merged⟩
  | nil =>
    cases pre using reverseRecOn with
    | nil => simp at hMany
    | append_singleton pre p =>
      rcases h.freeTask_dropped with ⟨s', hFree, hQueue, _⟩
      exact ⟨s', hFree, _, hQueue⟩

end FreedNodes

------ The Scheduler

section Scheduler

variable {s s' : MonoTasking} {ns pre post : List Nat} {c task : Nat}

theorem QueueOf.findLastTask_ne_zero (h : QueueOf s (pre ++ c :: post)) :
    ∃ task, task ≠ 0 ∧ s.findLastTask = some task := by
  rcases eq_nil_or_concat (c :: post) with hNil | ⟨xs, a, hEq⟩
  · cases hNil
  rw [hEq, concat_eq_append, ← append_assoc] at h
  refine ⟨s.taskOf a, h.nonzero a (by simp), ?_⟩
  rw [findLastTask, h.lastNode_eq, bind_some, readNode_live (h.live a (by simp))]
  rfl

structure Settled (s s' : MonoTasking) : Prop where
  nodes : s'.nodes = s.nodes
  live : s'.live = s.live
  queue : s'.queue = s.queue
  tasks : ∀ t, s'.tasks t = s.tasks t ∨ s'.tasks t = settle (s.tasks t)

theorem settle_settle (block : QueuedTask) : settle (settle block) = settle block := by
  unfold settle
  by_cases hState : block.state = .pushed ∨ block.state = .poped <;> simp [hState]

theorem settled_settleTask (task : Nat) : Settled s (s.settleTask task) where
  nodes := rfl
  live := rfl
  queue := rfl
  tasks := by
    intro t
    by_cases ht : t = task
    · exact .inr (if_pos ht)
    · exact .inl (if_neg ht)

theorem Settled.trans {s'' : MonoTasking} (h : Settled s s') (h' : Settled s' s'') :
    Settled s s'' where
  nodes := h'.nodes.trans h.nodes
  live := h'.live.trans h.live
  queue := h'.queue.trans h.queue
  tasks := by
    intro t
    rcases h.tasks t with hOne | hOne
    · rw [← hOne]
      exact h'.tasks t
    refine Or.inr ?_
    rcases h'.tasks t with hTwo | hTwo
    · rw [hTwo, hOne]
    · rw [hTwo, hOne, settle_settle]

theorem settleFrom_returns {before fuel : Nat}
    (hLinked : Linked s.nextOf s.prevOf before (c :: post) 0)
    (hLive : ∀ b ∈ c :: post, b ≠ 0 ∧ b ∈ s.live) (hFuel : post.length < fuel) :
    ∃ s', s.settleFrom fuel c = some s' ∧ Settled s s' := by
  induction post generalizing s before fuel c with
  | nil =>
    cases fuel with
    | zero => simp at hFuel
    | succ fuel =>
      have hNext : (s.nodes c).next = 0 := hLinked.1
      refine ⟨_, ?_, settled_settleTask (s.taskOf c)⟩
      rw [settleFrom, readNode_live (hLive c (by simp)), bind_some, if_pos hNext]
      rfl
  | cons b post ih =>
    cases fuel with
    | zero => simp at hFuel
    | succ fuel =>
      have hNext : (s.nodes c).next = b := hLinked.1
      have hb := hLive b (by simp)
      have hRest := ih (s := s.settleTask (s.taskOf c)) (c := b) hLinked.2.2
        (fun d hd => hLive d (mem_cons_of_mem c hd)) (show post.length < fuel by simpa using hFuel)
      rcases hRest with ⟨s', hReturns, hSettled⟩
      refine ⟨s', ?_, (settled_settleTask (s.taskOf c)).trans hSettled⟩
      rw [settleFrom, readNode_live (hLive c (by simp)), bind_some, hNext, if_neg hb.1]
      exact hReturns

theorem Settled.queueOf (h : Settled s s') (hQueue : QueueOf s ns) : QueueOf s' ns :=
  hQueue.congr_links h.queue h.nodes h.live

theorem Settled.state_iff {state : TaskState} (h : Settled s s')
    (hState : state ≠ .pushed ∧ state ≠ .poped ∧ state ≠ .waiting) (t : Nat) :
    ((s'.tasks t).checksum = TASK_CHECKSUM ∧ (s'.tasks t).state = state) ↔
    ((s.tasks t).checksum = TASK_CHECKSUM ∧ (s.tasks t).state = state) := by
  rcases h.tasks t with hEq | hEq
  · rw [hEq]
  rw [hEq, settle]
  split
  · rename_i hMoved
    have hOld : (s.tasks t).state ≠ state := by
      rcases hMoved with hPushed | hPoped
      · rw [hPushed]
        exact hState.1.symm
      · rw [hPoped]
        exact hState.2.1.symm
    exact iff_of_false (fun hNow => hState.2.2 hNow.2.symm) (fun hBefore => hOld hBefore.2)
  · rfl

theorem Settled.ready_iff (h : Settled s s') (t : Nat) : s'.Ready t ↔ s.Ready t :=
  h.state_iff (by decide) t

theorem Settled.dead_iff (h : Settled s s') (t : Nat) : s'.Dead t ↔ s.Dead t :=
  h.state_iff (by decide) t

def dispatched (s : MonoTasking) (task : Nat) : MonoTasking :=
  { s.setState task .running with currentTask := task }

theorem QueueOf.dispatched (h : QueueOf s ns) (task : Nat) : QueueOf (s.dispatched task) ns :=
  h.congr_links rfl rfl rfl

theorem visit_ready (h : s.Ready task) : s.visit task = some (s.dispatched task, true) := by
  rw [visit, if_pos h.1, h.2]
  rfl

theorem visit_dead (h : s.Dead task) : s.visit task =
    (s.freeTask task).bind (fun s => s.findLastTask.bind (fun last =>
    if last = 0 then none else some (s, false))) := by
  rw [visit, if_pos h.1, h.2]

theorem visit_other (hReady : ¬ s.Ready task) (hDead : ¬ s.Dead task) :
    s.visit task = some (s, false) := by
  unfold visit
  by_cases hSum : (s.tasks task).checksum = TASK_CHECKSUM
  · rw [if_pos hSum]
    cases hState : (s.tasks task).state with
    | ready => exact absurd ⟨hSum, hState⟩ hReady
    | terminated => exact absurd ⟨hSum, hState⟩ hDead
    | null => rfl
    | running => rfl
    | waiting => rfl
    | pushed => rfl
    | poped => rfl
  · rw [if_neg hSum]

theorem QueueOf.visit_passes (h : QueueOf s (pre ++ c :: post)) (hReady : ¬ s.Ready (s.taskOf c))
    (hTail : post = [] → ¬ s.Dead (s.taskOf c)) :
    ∃ s' post', s.visit (s.taskOf c) = some (s', false) ∧ QueueOf s' (pre ++ c :: post') ∧
    s'.tasks = s.tasks ∧ pre.map s'.taskOf = pre.map s.taskOf := by
  by_cases hDead : s.Dead (s.taskOf c)
  · cases post with
    | nil => exact absurd hDead (hTail rfl)
    | cons n post =>
      have hMerged := h.merged
      rcases hMerged.findLastTask_ne_zero with ⟨last, hLast, hFind⟩
      refine ⟨s.merged c n, post, ?_, hMerged, rfl, ?_⟩
      · rw [visit_dead hDead, h.freeTask_merged, bind_some, hFind, bind_some, if_neg hLast]
      · exact map_taskOf_merged h.apart.1
  · exact ⟨s, post, visit_other hReady hDead, h, rfl, rfl⟩

theorem QueueOf.scanBack_ready (h : QueueOf s (pre ++ c :: post)) (hReady : s.Ready (s.taskOf c))
    (fuel : Nat) : s.scanBack (fuel + 1) c = some (s.dispatched (s.taskOf c), true) := by
  rw [scanBack, readNode_live (h.live c (by simp)), bind_some]
  change (s.visit (s.taskOf c)).bind _ = _
  rw [visit_ready hReady, bind_some]
  exact if_pos rfl

theorem QueueOf.scanBack_passes {post' : List Nat} (h : QueueOf s (pre ++ c :: post))
    (hVisit : s.visit (s.taskOf c) = some (s', false)) (h' : QueueOf s' (pre ++ c :: post'))
    (fuel : Nat) : s.scanBack (fuel + 1) c = if pre.getLastD 0 = 0 then some (s', false)
    else s'.scanBack fuel (pre.getLastD 0) := by
  rw [scanBack, readNode_live (h.live c (by simp)), bind_some]
  change (s.visit (s.taskOf c)).bind _ = _
  rw [hVisit, bind_some]
  dsimp only
  rw [readNode_live (h'.live c (by simp)), bind_some, h'.prev_eq]
  exact if_neg (by decide)

def readyAmong (s : MonoTasking) (ns : List Nat) : Option Nat :=
  (ns.map s.taskOf).reverse.find? (fun task => s.Ready task)

theorem readyAmong_concat (ns : List Nat) (c : Nat) : s.readyAmong (ns ++ [c]) =
    if s.Ready (s.taskOf c) then some (s.taskOf c) else s.readyAmong ns := by
  unfold readyAmong
  by_cases hReady : s.Ready (s.taskOf c) <;> simp [hReady]

theorem readyAmong_congr (hReady : ∀ t, s'.Ready t ↔ s.Ready t)
    (hMap : ns.map s'.taskOf = ns.map s.taskOf) : s'.readyAmong ns = s.readyAmong ns := by
  simp only [readyAmong, hMap, hReady]

def Served (s : MonoTasking) (ns : List Nat) (result : MonoTasking × Bool) : Prop :=
  ∀ t, s.readyAmong ns = some t → result.2 = true ∧ result.1.currentTask = t ∧
      (result.1.tasks t).state = .running

theorem served_dispatched (hReady : s.Ready (s.taskOf c)) : s.Served (ns ++ [c])
    (s.dispatched (s.taskOf c), true) := by
  intro t ht
  rw [readyAmong_concat, if_pos hReady] at ht
  cases ht
  refine ⟨rfl, rfl, ?_⟩
  simp [MonoTasking.dispatched, setState]

theorem scanBack_spec {fuel : Nat} (h : QueueOf s (pre ++ c :: post)) (hFuel : pre.length < fuel)
    (hTail : post = [] → ¬ s.Dead (s.taskOf c)) : ∃ result, s.scanBack fuel c = some result ∧
    Intact result.1 ∧ s.Served (pre ++ [c]) result := by
  induction fuel generalizing s pre c post with
  | zero => cases hFuel
  | succ fuel ih =>
    by_cases hReady : s.Ready (s.taskOf c)
    · exact ⟨_, h.scanBack_ready hReady fuel, ⟨_, h.dispatched _⟩, served_dispatched hReady⟩
    rcases h.visit_passes hReady hTail with ⟨s', post', hVisit, h', hTasks, hMap⟩
    have hOn := h.scanBack_passes hVisit h' fuel
    rcases eq_nil_or_concat' pre with rfl | ⟨pre, p, rfl⟩
    · refine ⟨(s', false), hOn.trans (if_pos rfl), ⟨_, h'⟩, ?_⟩
      intro t ht
      rw [readyAmong_concat, if_neg hReady] at ht
      cases ht
    have hp : p ≠ 0 := (h.live p (by simp)).1
    rw [getLastD_concat, if_neg hp] at hOn
    rw [append_assoc] at h'
    -- `p` is not the last node, so it may well be dead
    rcases ih h' (by simpa using hFuel) (by simp) with ⟨result, hScan, hIntact, hServed⟩
    refine ⟨result, hOn.trans hScan, hIntact, ?_⟩
    intro t ht
    rw [readyAmong_concat, if_neg hReady] at ht
    apply hServed
    rw [← ht]
    apply readyAmong_congr
    · intro t
      rw [Ready, hTasks, Ready]
    · exact hMap

theorem QueueOf.scanBack_dead (h : QueueOf s (pre ++ [c])) (hDead : s.Dead (s.taskOf c))
    (fuel : Nat) : s.scanBack fuel c = none := by
  cases fuel with
  | zero => rfl
  | succ fuel =>
    rw [scanBack, readNode_live (h.live c (by simp)), bind_some]
    change (s.visit (s.taskOf c)).bind _ = _
    rw [visit_dead hDead]
    cases pre using reverseRecOn with
    | nil =>
      rw [h.freeTask_only]
      rfl
    | append_singleton pre p =>
      rcases h.freeTask_dropped with ⟨s', hFree, hQueue, hGone⟩
      rcases hQueue.findLastTask_ne_zero with ⟨last, hLast, hFind⟩
      have hRead : s'.readNode c = none := if_neg (fun hLive => hGone hLive.2)
      rw [hFree, bind_some, hFind, bind_some, if_neg hLast, bind_some]
      dsimp only
      rw [hRead]
      rfl

theorem scheduler_empty (h : QueueOf s []) : s.monoSchedulerHelperHandler = none := by
  have hQueue : s.queue = 0 := h.first
  rw [monoSchedulerHelperHandler, hQueue]
  cases s.live.length with
  | zero => rfl
  | succ fuel =>
    rw [settleFrom, readNode_zero]
    rfl

theorem QueueOf.scheduler_eq (h : QueueOf s (pre ++ [c])) :
    ∃ s', Settled s s' ∧ QueueOf s' (pre ++ [c]) ∧ s.monoSchedulerHelperHandler =
    s'.scanBack s'.live.length c := by
  rcases exists_cons_of_ne_nil (append_ne_nil_of_right_ne_nil pre
    (cons_ne_nil c [])) with ⟨b, post, hShape⟩
  have hLength := h.length_le
  have hFirst := h.first
  have hLinked := h.linked
  have hLive := h.live
  rw [hShape] at hLength hFirst hLinked hLive
  rcases settleFrom_returns hLinked hLive hLength with ⟨s', hReturns, hSettled⟩
  have h' := hSettled.queueOf h
  refine ⟨s', hSettled, h', ?_⟩
  rw [monoSchedulerHelperHandler, hFirst, headD_cons, hReturns, bind_some,
    h'.lastNode_eq, bind_some]

end Scheduler

def created (s : MonoTasking) (a task : Nat) : MonoTasking :=
  MonoTasking.newNode
    { s with tasks := fun t =>
        if t = task then ⟨.ready, TASK_CHECKSUM⟩
        else s.tasks t }
    a task

section Calls

variable {s : MonoTasking} {ns pre post : List Nat} {a c task : Nat} {afterCurrent : Bool}

theorem QueueOf.created (h : QueueOf s ns) (task : Nat) (hFresh : a ∉ s.live) :
    QueueOf (s.created a task) ns :=
  QueueOf.newNode (h.congr_links rfl rfl rfl) hFresh

theorem taskOf_created (x : Nat) : (s.created a task).taskOf x =
    if x = a then task else s.taskOf x := by
  by_cases hx : x = a <;> simp [taskOf, MonoTasking.created, newNode, setNode, hx]

theorem QueueOf.map_created (h : QueueOf s ns) (task : Nat) (hFresh : a ∉ s.live) :
    ns.map (s.created a task).taskOf = ns.map s.taskOf := by
  apply map_congr_left
  intro b hb
  rw [taskOf_created, if_neg]
  rintro rfl
  exact hFresh (h.live b hb).2

theorem QueueOf.queue_ne_zero (h : QueueOf s (pre ++ c :: post)) : s.queue ≠ 0 := by
  rw [h.first]
  cases pre with
  | nil => exact (h.live c (by simp)).1
  | cons b pre => exact (h.live b (by simp)).1

theorem created_live (ha : a ≠ 0) : a ≠ 0 ∧ a ∈ (s.created a task).live :=
  ⟨ha, mem_cons_self⟩

theorem QueueOf.fresh (h : QueueOf s ns) (hFresh : a ∉ s.live) : a ∉ ns :=
  fun ha => hFresh (h.live a ha).2

theorem QueueOf.createTask_first (h : QueueOf s [])
    (hValid : s.Valid (.createTask a task afterCurrent)) :
    ∃ s', s.createTask a task afterCurrent = some s' ∧ Intact s' := by
  rcases hValid with ⟨ha, hFresh, hTask, _⟩
  have hQueue : s.queue = 0 := h.first
  refine ⟨{ s.created a task with queue := a }, ?_, [a], ?_⟩
  · exact if_pos hQueue
  refine ⟨rfl, ?_, by simp, ?_, ?_, by simp, ?_⟩
  · refine ⟨?_, ?_, trivial⟩
    · simp [nextOf, MonoTasking.created, MonoTasking.newNode, setNode]
    · simp [prevOf, MonoTasking.created, MonoTasking.newNode, setNode]
  · intro b hb
    rw [mem_singleton.mp hb]
    exact created_live ha
  · exact nodup_cons.mpr ⟨hFresh, h.once⟩
  · intro b hb
    rw [mem_singleton.mp hb]
    change (s.created a task).taskOf a ≠ 0
    rwa [taskOf_created, if_pos rfl]

theorem QueueOf.created_linkBehind (h : QueueOf s (pre ++ [c]))
    (hValid : s.Valid (.createTask a task afterCurrent)) :
    Intact ((s.created a task).linkBehind c a) := by
  rcases hValid with ⟨ha, hFresh, hTask, hNew⟩
  rw [h.queued_eq] at hNew
  refine ⟨_, (h.created task hFresh).linkBehind (created_live ha) (h.fresh hFresh) ?_ ?_⟩
  · rwa [taskOf_created, if_pos rfl, h.map_created task hFresh]
  · rwa [taskOf_created, if_pos rfl]

theorem QueueOf.createTask_append (h : QueueOf s (pre ++ [c]))
    (hValid : s.Valid (.createTask a task false)) : s.createTask a task false =
    some ((s.created a task).linkBehind c a) := by
  rcases hValid with ⟨ha, hFresh, _⟩
  have h' := h.created task hFresh
  have hNe : c ≠ a := ne_of_mem_of_not_mem (by simp) (h.fresh hFresh)
  have hAppend := appendNode_eq h'.lastNode_eq h'.next_eq
    (h'.live c (by simp)) (created_live ha) hNe
  rw [← hAppend]
  exact if_neg h.queue_ne_zero

theorem QueueOf.createTask_behind (h : QueueOf s (pre ++ c :: post))
    (hValid : s.Valid (.createTask a task true)) (hCurrent : s.taskOf c = s.currentTask) :
    s.createTask a task true = some ((s.created a task).linkBehind c a) := by
  rcases hValid with ⟨ha, hFresh, _⟩
  have h' := h.created task hFresh
  have hNe : c ≠ a := ne_of_mem_of_not_mem (by simp) (h.fresh hFresh)
  have hWalk := h'.walk_task (Nat.le_refl _)
  rw [taskOf_created, if_neg hNe, hCurrent] at hWalk
  rw [← insertAfterCurrent_eq hWalk (h'.live c (by simp)) (created_live ha) hNe]
  exact if_neg h.queue_ne_zero

theorem QueueOf.createTask_lost (h : QueueOf s ns) (hSome : s.queue ≠ 0) (hFresh : a ∉ s.live)
    (hLost : s.currentTask ∉ ns.map s.taskOf) : s.createTask a task true = none := by
  have h' := h.created task hFresh
  have hWalk : (s.created a task).walk (fun node => node.task = s.currentTask)
      (s.created a task).live.length (s.created a task).queue = none := by
    rw [h'.walk_eq (Nat.le_refl _), find?_eq_none]
    intro b hb hEq
    rw [← h.map_created task hFresh] at hLost
    exact hLost (of_decide_eq_true hEq ▸ mem_map_of_mem hb)
  have hInsert : (s.created a task).insertAfterCurrent a = none := by
    rw [insertAfterCurrent]
    change bind (MonoTasking.walk _ (fun node => node.task = s.currentTask) _ _) _ = _
    rw [hWalk]
    rfl
  rw [← hInsert]
  exact if_neg hSome

theorem QueueOf.getLast?_queued (h : QueueOf s (pre ++ [c])) :
    s.queued.getLast? = some (s.taskOf c) := by
  rw [h.queued_eq]
  simp

theorem QueueOf.current_last {s' : MonoTasking} (h : QueueOf s (pre ++ c :: post))
    (hValid : s.Valid (.createTask a task true)) (hCreate : s.createTask a task true = some s')
    (hIntact : Intact s') : s.queued.getLast? = some s.currentTask := by
  have hMem : s.currentTask ∈ (pre ++ c :: post).map s.taskOf := by
    by_contra hLost
    rw [h.createTask_lost h.queue_ne_zero hValid.2.1 hLost] at hCreate
    cases hCreate
  rcases mem_map.mp hMem with ⟨b, hb, hCurrent⟩
  rcases append_of_mem hb with ⟨xs, ys, hShape⟩
  rw [hShape] at h
  rw [h.createTask_behind hValid hCurrent] at hCreate
  cases hCreate
  cases ys with
  | nil => rw [h.getLast?_queued, hCurrent]
  | cons d ys =>
    exact ((h.created task hValid.2.1).not_intact_linkBehind
      hValid.1 (h.fresh hValid.2.1) hIntact).elim

theorem createTask_intact_iff (hIntact : Intact s)
    (hValid : s.Valid (.createTask a task afterCurrent)) :
    s.Allowed (.createTask a task afterCurrent) ↔ ∃ s', s.createTask a task afterCurrent = some s' ∧
    Intact s' := by
  rcases hIntact with ⟨ns, h⟩
  rcases eq_nil_or_concat' ns with rfl | ⟨pre, c, rfl⟩
  · refine ⟨fun _ => h.createTask_first hValid, fun _ => ?_⟩
    cases afterCurrent with
    | false => trivial
    | true => exact .inl h.queued_eq
  cases afterCurrent with
  | false =>
    exact ⟨fun _ => ⟨_, h.createTask_append hValid,
      h.created_linkBehind hValid⟩, fun _ => trivial⟩
  | true =>
    constructor
    · rintro (hEmpty | hLast)
      · rw [h.queued_eq] at hEmpty
        simp at hEmpty
      · rw [h.getLast?_queued] at hLast
        exact ⟨_, h.createTask_behind hValid (some.inj hLast), h.created_linkBehind hValid⟩
    · rintro ⟨s', hCreate, hIntact⟩
      exact .inr (h.current_last hValid hCreate hIntact)

theorem freeTask_intact_iff (hIntact : Intact s) (hValid : s.Valid (.freeTask task)) :
    s.Allowed (.freeTask task) ↔ ∃ s', s.freeTask task = some s' ∧ Intact s' := by
  rcases hIntact with ⟨ns, h⟩
  have hMem : task ∈ s.queued := hValid
  rw [h.queued_eq] at hMem
  rcases mem_map.mp hMem with ⟨c, hc, rfl⟩
  have hLength : s.queued.length = ns.length := by
    rw [h.queued_eq, length_map]
  constructor
  · intro hMany
    have hMany' : 2 ≤ s.queued.length := hMany
    exact h.freeTask_intact hc (hLength ▸ hMany')
  rintro ⟨s', hFree, _⟩
  change 2 ≤ s.queued.length
  rw [hLength]
  by_contra hFew
  obtain ⟨b, rfl⟩ : ∃ b, ns = [b] := by
    apply length_eq_one_iff.mp
    have hSome := length_pos_of_mem hc
    omega
  rw [mem_singleton.mp hc, h.freeTask_only] at hFree
  cases hFree

theorem QueueOf.scheduler_returns (h : QueueOf s (pre ++ [c])) (hTail : ¬ s.Dead (s.taskOf c)) :
    ∃ result, s.monoSchedulerHelperHandler = some result ∧
    Intact result.1 ∧ s.Served (pre ++ [c]) result := by
  rcases h.scheduler_eq with ⟨s', hSettled, h', hEq⟩
  have hTaskOf : s'.taskOf = s.taskOf := by
    funext x
    rw [taskOf, hSettled.nodes, taskOf]
  have hTail' : ¬ s'.Dead (s'.taskOf c) := by
    rwa [hSettled.dead_iff, hTaskOf]
  have hFuel : pre.length < s'.live.length := by
    have hLength := h'.length_le
    rw [length_append] at hLength
    exact hLength
  rcases scanBack_spec h' hFuel (fun _ => hTail') with ⟨result, hScan, hIntact, hServed⟩
  refine ⟨result, hEq.trans hScan, hIntact, ?_⟩
  intro t ht
  apply hServed
  rw [← ht]
  exact readyAmong_congr hSettled.ready_iff (by rw [hTaskOf])

theorem QueueOf.scheduler_dead (h : QueueOf s (pre ++ [c])) (hTail : s.Dead (s.taskOf c)) :
    s.monoSchedulerHelperHandler = none := by
  rcases h.scheduler_eq with ⟨s', hSettled, h', hEq⟩
  rw [hEq]
  apply h'.scanBack_dead
  have hTaskOf : s'.taskOf c = s.taskOf c := by
    rw [taskOf, hSettled.nodes, taskOf]
  rwa [hSettled.dead_iff, hTaskOf]

theorem schedule_intact_iff (hIntact : Intact s) : s.Allowed .schedule ↔
    ∃ s', s.execute .schedule = some s' ∧ Intact s' := by
  rcases hIntact with ⟨ns, h⟩
  constructor
  · rintro ⟨task, hLast, hAlive⟩
    rcases eq_nil_or_concat' ns with rfl | ⟨pre, c, rfl⟩
    · rw [h.queued_eq] at hLast
      cases hLast
    rw [h.getLast?_queued] at hLast
    cases hLast
    rcases h.scheduler_returns hAlive with ⟨result, hResult, hIntact, _⟩
    refine ⟨result.1, ?_, hIntact⟩
    rw [execute, hResult, map_some]
  rintro ⟨s', hExecute, _⟩
  rcases eq_nil_or_concat' ns with rfl | ⟨pre, c, rfl⟩
  · rw [execute, scheduler_empty h] at hExecute
    cases hExecute
  refine ⟨s.taskOf c, h.getLast?_queued, ?_⟩
  intro hDead
  rw [execute, h.scheduler_dead hDead] at hExecute
  cases hExecute

theorem execute_intact_iff (s : MonoTasking) (call : MonoCall) (hIntact : Intact s)
    (hValid : s.Valid call) : s.Allowed call ↔ ∃ s', s.execute call = some s' ∧ Intact s' := by
  cases call with
  | createTask a task afterCurrent =>
    exact createTask_intact_iff hIntact hValid
  | freeTask task => exact freeTask_intact_iff hIntact hValid
  | schedule => exact schedule_intact_iff hIntact
  | setState task state =>
    refine ⟨fun _ => ⟨_, rfl, ?_⟩, fun _ => trivial⟩
    rcases hIntact with ⟨ns, h⟩
    exact ⟨ns, h.congr_links rfl rfl rfl⟩

theorem dispatches_of_allowed (s : MonoTasking) (call : MonoCall) (hIntact : Intact s)
    (_ : s.Valid call) (hAllowed : s.Allowed call) : s.Dispatches call := by
  rintro rfl task hReady
  rcases hIntact with ⟨ns, h⟩
  rcases hAllowed with ⟨last, hLast, hAlive⟩
  rcases eq_nil_or_concat' ns with rfl | ⟨pre, c, rfl⟩
  · rw [h.queued_eq] at hLast
    cases hLast
  rw [h.getLast?_queued] at hLast
  cases hLast
  rcases h.scheduler_returns hAlive with ⟨⟨s', dispatched⟩, hResult, _, hServed⟩
  rw [readyNearTail, h.queued_eq] at hReady
  rcases hServed task hReady with ⟨hTrue, hCurrent, hRunning⟩
  cases hTrue
  exact ⟨s', hResult, hCurrent, hRunning⟩

end Calls

theorem queue_integrity_iff (calls : List MonoCall) (hValid : Meets execute Valid start calls) :
    (Stays execute Intact start calls ∧ Meets execute Dispatches start calls) ↔
    Meets execute Allowed start calls := by
  have hStays := stays_iff_meets_of_valid execute_intact_iff intact_start hValid
  constructor
  · rintro ⟨hIntact, _⟩
    exact hStays.mp hIntact
  intro hAllowed
  have hIntact := hStays.mpr hAllowed
  exact ⟨hIntact, Meets.of_stays dispatches_of_allowed hIntact hValid hAllowed⟩

theorem queue_integrity_iff_freed : Stays execute Intact start
    [.createTask 16 100 false, .schedule, .createTask 32 200 true, .schedule, .freeTask 100] ∧
    Meets execute Dispatches start
    [.createTask 16 100 false, .schedule, .createTask 32 200 true, .schedule, .freeTask 100] := by
  exact (queue_integrity_iff _ (by decide)).mpr (by decide)

theorem inserted_between : let calls : List MonoCall := [.createTask 16 100 false, .schedule,
        .createTask 32 200 false, .createTask 48 300 true, .schedule, .schedule]
    Meets execute Valid start calls ∧ ¬ Stays execute Intact start calls ∧
      ¬ Meets execute Dispatches start calls := by
  refine ⟨by decide, ?_, ?_⟩
  · rw [stays_iff_meets_of_valid execute_intact_iff intact_start (by decide)]
    decide
  rintro ⟨_, h⟩
  have h₁ := h _ rfl
  have h₂ := h₁.2 _ rfl
  have h₃ := h₂.2 _ rfl
  have h₄ := h₃.2 _ rfl
  have h₅ := h₄.2 _ rfl
  rcases h₅.1 rfl 300 (by decide) with ⟨s', hHandler, _⟩
  cases hHandler

end MonoTasking

end Fennix
