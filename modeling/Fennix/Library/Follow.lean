import Mathlib.Data.Finset.Card

/-
  Trees of bounded depth in a graph of labelled edges.

  `child a i` is the node the edge `i` of `a` leads to.
-/

variable {α ι : Type}

def follow (child : α → ι → Option α) (root : α) (path : List ι) : Option α :=
  path.foldl (fun node i => node.bind (fun a => child a i)) (some root)

variable {q : List ι}

section Paths

variable {child child' : α → ι → Option α} {root : α} {n : Nat}

@[simp] theorem follow_nil : follow child root [] = some root :=
  rfl

@[simp] theorem follow_snoc (path : List ι) (i : ι) : follow child root (path ++ [i]) =
    (follow child root path).bind (fun a => child a i) := by
  simp [follow]

theorem follow_snoc_some {path : List ι} {i : ι} {a : α} :
    follow child root (path ++ [i]) = some a ↔ ∃ b, follow child root path = some b ∧
    child b i = some a := by
  rw [follow_snoc, Option.bind_eq_some_iff]

theorem follow_append (p q : List ι) : follow child root (p ++ q) = (follow child root p).bind
    (fun a => follow child a q) := by
  induction q using List.reverseRecOn with
  | nil => cases h : follow child root p <;> simp [h]
  | append_singleton q j ih =>
    rw [← List.append_assoc, follow_snoc, ih]
    cases follow child root p with
    | none => rfl
    | some a => exact (follow_snoc q j).symm

theorem follow_cons (i : ι) (path : List ι) : follow child root (i :: path) = (child root i).bind
    (fun a => follow child a path) :=
  follow_append [i] path

theorem follow_cons_none {i : ι} (hNone : child root i = none) (path : List ι) :
    follow child root (i :: path) = none := by
  rw [follow_cons, hNone]
  rfl

theorem follow_congr
    (hSame : ∀ p a, p.length < n → follow child root p = some a → ∀ i, child' a i = child a i)
    (hLength : q.length ≤ n) : follow child' root q = follow child root q := by
  induction q using List.reverseRecOn with
  | nil => rfl
  | append_singleton q i ih =>
    rw [List.length_append, List.length_singleton] at hLength
    rw [follow_snoc, follow_snoc, ih (by omega)]
    cases hNode : follow child root q with
    | none => rfl
    | some a => exact hSame q a (by omega) hNode i

end Paths

structure PathTree (child : α → ι → Option α) (root : α) (n : Nat) (owned : α → Prop) : Prop where
  unique : ∀ {p q a}, p.length ≤ n → q.length ≤ n → follow child root p = some a →
      follow child root q = some a → p = q
  owned : ∀ {p a}, p.length ≤ n → follow child root p = some a → owned a

namespace PathTree

variable {child child' : α → ι → Option α} {root : α} {n : Nat} {owned : α → Prop}

theorem bare (hBare : ∀ i, child root i = none) (hOwned : owned root) :
    PathTree child root n owned := by
  have hOnly : ∀ p a, follow child root p = some a → p = [] ∧ a = root := by
    intro p
    induction p using List.reverseRecOn with
    | nil =>
      intro a ha
      cases ha
      exact ⟨rfl, rfl⟩
    | append_singleton p i ih =>
      intro a ha
      rw [follow_snoc] at ha
      cases hNode : follow child root p with
      | none =>
        rw [hNode] at ha
        cases ha
      | some b =>
        rcases ih b hNode with ⟨_, rfl⟩
        rw [hNode] at ha
        rw [Option.bind_some, hBare] at ha
        cases ha
  constructor
  · intro p q a _ _ hp hq
    rw [(hOnly p a hp).1, (hOnly q a hq).1]
  intro p a _ hp
  rw [(hOnly p a hp).2]
  exact hOwned

theorem congr (hTree : PathTree child root n owned)
    (hSame : ∀ p a, p.length < n → follow child root p = some a → ∀ i, child' a i = child a i) :
    PathTree child' root n owned where
  unique := by
    intro p q a hp hq hpa hqa
    rw [follow_congr hSame hp] at hpa
    rw [follow_congr hSame hq] at hqa
    exact hTree.unique hp hq hpa hqa
  owned := by
    intro p a hp hpa
    rw [follow_congr hSame hp] at hpa
    exact hTree.owned hp hpa

theorem length_lt {child : Nat → ι → Option Nat} {root bound a : Nat} {p : List ι}
    (hTree : PathTree child root n (· < bound)) (hLength : p.length ≤ n)
    (hPath : follow child root p = some a) : p.length < bound := by
  have hPassed : ∀ k, ∃ b, follow child root (p.take k) = some b := by
    intro k
    rw [← List.take_append_drop k p, follow_append] at hPath
    rcases Option.bind_eq_some_iff.mp hPath with ⟨b, hb, _⟩
    exact ⟨b, hb⟩
  choose node hNode using hPassed
  have hShort : ∀ k, (p.take k).length ≤ n := by
    intro k
    rw [List.length_take]
    omega
  -- the nodes passed are all different
  have hCard := Finset.card_le_card_of_injOn (s := Finset.range (p.length + 1))
    (t := Finset.range bound) node (by
        intro k _
        exact Finset.mem_coe.mpr (Finset.mem_range.mpr (hTree.owned (hShort k) (hNode k))))
      (by
        intro j hj k hk hEq
        have hTaken : p.take j = p.take k := hTree.unique (hShort j) (hShort k) (hNode j)
          (by rw [hNode k, hEq])
        have hLengths := congrArg List.length hTaken
        rw [List.length_take, List.length_take] at hLengths
        have hj' := Finset.mem_range.mp (Finset.mem_coe.mp hj)
        have hk' := Finset.mem_range.mp (Finset.mem_coe.mp hk)
        omega)
  rw [Finset.card_range, Finset.card_range] at hCard
  omega

section Graft

variable {stem : List ι} {parent fresh : α} {i : ι}

variable (hTree : PathTree child root n owned) (hDepth : stem.length < n)
  (hParent : follow child root stem = some parent) (hAbsent : child parent i = none)
  (hEdge : child' parent i = some fresh) (hBare : ∀ j, child' fresh j = none)
  (hSame : ∀ a j, owned a → (a ≠ parent ∨ j ≠ i) → child' a j = child a j)

include hTree hDepth hParent hAbsent hEdge hBare hSame

theorem follow_graft (q : List ι) (hLength : q.length ≤ n) :
    (q = stem ++ [i] → follow child' root q = some fresh) ∧
    (q ≠ stem ++ [i] → follow child' root q = follow child root q) := by
  induction q using List.reverseRecOn with
  | nil =>
    constructor
    · intro hEq
      simp at hEq
    · intro _
      rfl
  | append_singleton q j ih =>
    rw [List.length_append, List.length_singleton] at hLength
    rcases ih (by omega) with ⟨hNew, hOld⟩
    constructor
    · intro hEq
      rcases List.append_inj' hEq rfl with ⟨hq, hj⟩
      cases hj
      subst hq
      have hNe : q ≠ q ++ [i] := by simp
      rw [follow_snoc, hOld hNe, hParent]
      exact hEdge
    intro hNe
    rw [follow_snoc, follow_snoc]
    by_cases hq : q = stem ++ [i]
    · -- below the new node there is nothing yet
      rw [hNew hq, hq, follow_snoc, hParent]
      simp [hAbsent, hBare]
    rw [hOld hq]
    cases hNode : follow child root q with
    | none => rfl
    | some a =>
      apply hSame a j (hTree.owned (by omega) hNode)
      by_cases ha : a = parent
      · subst ha
        have hSamePath : q = stem := hTree.unique (by omega) (by omega) hNode hParent
        refine Or.inr ?_
        intro hj
        exact hNe (by rw [hSamePath, hj])
      · exact .inl ha

theorem follow_graft_leaf (hLength : q.length = n) (j : ι) :
    follow child' root (q ++ [j]) = follow child root (q ++ [j]) := by
  rcases hTree.follow_graft hDepth hParent hAbsent hEdge hBare hSame q (by omega) with ⟨hNew, hOld⟩
  rw [follow_snoc, follow_snoc]
  by_cases hq : q = stem ++ [i]
  · rw [hNew hq, hq, follow_snoc, hParent]
    simp [hAbsent, hBare]
  rw [hOld hq]
  cases hNode : follow child root q with
  | none => rfl
  | some a =>
    apply hSame a j (hTree.owned (by omega) hNode)
    refine Or.inl ?_
    intro ha
    subst ha
    have hPath : q = stem := hTree.unique (by omega) (by omega) hNode hParent
    rw [hPath] at hLength
    omega

theorem graft (hFresh : ¬ owned fresh) : PathTree child' root n (fun a => owned a ∨ a = fresh) := by
  have hFollow := hTree.follow_graft hDepth hParent hAbsent hEdge hBare hSame
  have hCases : ∀ q a, q.length ≤ n → follow child' root q = some a →
    (q = stem ++ [i] ∧ a = fresh) ∨ (follow child root q = some a ∧ owned a) := by
    intro q a hq hqa
    by_cases hEq : q = stem ++ [i]
    · rw [(hFollow q hq).1 hEq] at hqa
      cases hqa
      exact .inl ⟨hEq, rfl⟩
    · rw [(hFollow q hq).2 hEq] at hqa
      exact .inr ⟨hqa, hTree.owned hq hqa⟩
  constructor
  · intro p q a hp hq hpa hqa
    rcases hCases p a hp hpa with ⟨hpNew, ha⟩ | ⟨hpOld, ha⟩
    · rcases hCases q a hq hqa with ⟨hqNew, _⟩ | ⟨_, hOwned⟩
      · rw [hpNew, hqNew]
      · exact (hFresh (ha ▸ hOwned)).elim
    rcases hCases q a hq hqa with ⟨_, hEq⟩ | ⟨hqOld, _⟩
    · exact (hFresh (hEq ▸ ha)).elim
    · exact hTree.unique hp hq hpOld hqOld
  intro q a hq hqa
  rcases hCases q a hq hqa with ⟨_, ha⟩ | ⟨_, ha⟩
  · exact .inr ha
  · exact .inl ha

end Graft

section Leaf

variable {stem : List ι} {parent : α} {i : ι}

variable (hTree : PathTree child root n owned) (hDepth : stem.length = n)
  (hParent : follow child root stem = some parent)
  (hSame : ∀ a j, owned a → (a ≠ parent ∨ j ≠ i) → child' a j = child a j)

include hTree hDepth hParent hSame

theorem setLeaf : (∀ q, q.length ≤ n → follow child' root q = follow child root q) ∧
    PathTree child' root n owned := by
  have hInner : ∀ p a, p.length < n → follow child root p = some a →
    ∀ j, child' a j = child a j := by
    intro p a hp ha j
    apply hSame a j (hTree.owned (by omega) ha)
    refine Or.inl ?_
    intro hEq
    subst hEq
    have hPath : p = stem := hTree.unique (by omega) (by omega) ha hParent
    rw [hPath] at hp
    omega
  exact ⟨fun q hq => follow_congr hInner hq, hTree.congr hInner⟩

theorem follow_setLeaf [DecidableEq ι] (hLength : q.length = n) (j : ι) :
    follow child' root (q ++ [j]) =
    if q ++ [j] = stem ++ [i] then child' parent i else follow child root (q ++ [j]) := by
  have hInner := (hTree.setLeaf hDepth hParent hSame).1 q (by omega)
  rw [follow_snoc, follow_snoc, hInner]
  split
  · rename_i hEq
    rcases List.append_inj' hEq rfl with ⟨hq, hj⟩
    cases hj
    rw [hq, hParent]
    rfl
  rename_i hNe
  cases hNode : follow child root q with
  | none => rfl
  | some a =>
    apply hSame a j (hTree.owned (by omega) hNode)
    by_cases ha : a = parent
    · subst ha
      have hPath : q = stem := hTree.unique (by omega) (by omega) hNode hParent
      refine Or.inr ?_
      intro hj
      exact hNe (by rw [hPath, hj])
    · exact .inl ha

end Leaf

end PathTree

section Forests

variable {κ : Type}

inductive PostOrder (children : κ → List κ) : List κ → List κ → Prop
| nil : PostOrder children [] []
| cons {p : κ} {ps below rest : List κ} :
    PostOrder children (children p) below → PostOrder children ps rest →
        PostOrder children (p :: ps) (below ++ p :: rest)

theorem PostOrder.induction_distinct {children : κ → List κ} {motive : List κ → List κ → Prop}
    (hNil : motive [] [])
    (hCons : ∀ p ps below rest, p ∉ below → p ∉ rest → (∀ q ∈ rest, q ∉ below) →
    motive (children p) below → motive ps rest → motive (p :: ps) (below ++ p :: rest))
    {roots order : List κ} (h : PostOrder children roots order) (hNodup : order.Nodup) :
    motive roots order := by
  induction h with
  | nil => exact hNil
  | cons _ _ ihBelow ihRest =>
    rcases List.nodup_append.mp hNodup with ⟨hBelow, hTail, hApart⟩
    rcases List.nodup_cons.mp hTail with ⟨hRoot, hRest⟩
    refine hCons _ _ _ _ ?_ hRoot ?_ (ihBelow hBelow) (ihRest hRest)
    · exact fun hIn => hApart _ hIn _ List.mem_cons_self rfl
    · exact fun q hq hIn => hApart q hIn q (List.mem_cons_of_mem _ hq) rfl

end Forests
