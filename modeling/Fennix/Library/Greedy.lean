import Fennix.Library.Follow

/-
  Walks that take a label as often as they can.

  `follow` takes one edge for each label of a path and stops where an edge is missing.
-/

variable {α ι : Type}

def exhaust (child : α → ι → Option α) (i : ι) : (fuel : Nat) → α → Option α
| 0, _ => none
| fuel + 1, a =>
  match child a i with
  | none => some a
  | some b => exhaust child i fuel b

def greedy (child : α → ι → Option α) (fuel : Nat) : α → List ι → Option α
| a, [] => some a
| a, i :: path =>
  (exhaust child i fuel a).bind (fun b => greedy child fuel b path)

inductive Greedy (child : α → ι → Option α) : α → List ι → α → Prop
| done {a : α} : Greedy child a [] a
| skip {a b : α} {i : ι} {path : List ι} :
    child a i = none → Greedy child a path b → Greedy child a (i :: path) b
| down {a a' b : α} {i : ι} {path : List ι} :
    child a i = some a' → Greedy child a' (i :: path) b → Greedy child a (i :: path) b

section Walk

variable {child : α → ι → Option α} {fuel : Nat} {root a b : α} {i : ι} {path : List ι}

theorem Greedy.of_exhaust {c : α} (hExhaust : exhaust child i fuel a = some b)
    (hRest : Greedy child b path c) : Greedy child a (i :: path) c := by
  induction fuel generalizing a with
  | zero => cases hExhaust
  | succ fuel ih =>
    rw [exhaust] at hExhaust
    cases hChild : child a i with
    | none =>
      rw [hChild] at hExhaust
      cases hExhaust
      exact Greedy.skip hChild hRest
    | some a' =>
      rw [hChild] at hExhaust
      exact Greedy.down hChild (ih hExhaust)

theorem Greedy.of_greedy (h : greedy child fuel a path = some b) : Greedy child a path b := by
  induction path generalizing a with
  | nil =>
    cases h
    exact Greedy.done
  | cons i path ih =>
    rcases Option.bind_eq_some_iff.mp h with ⟨c, hExhaust, hRest⟩
    exact Greedy.of_exhaust hExhaust (ih hRest)

theorem Greedy.follows (h : Greedy child a path b) : ∃ q, follow child a q = some b := by
  induction h with
  | done => exact ⟨[], rfl⟩
  | skip _ _ ih => exact ih
  | @down a a' b i path hChild _ ih =>
    rcases ih with ⟨q, hq⟩
    refine ⟨i :: q, ?_⟩
    rw [follow_cons, hChild]
    exact hq

theorem Greedy.functional {b' : α} (h : Greedy child a path b) (h' : Greedy child a path b') :
    b = b' := by
  induction h with
  | done =>
    cases h'
    rfl
  | skip hNone _ ih =>
    cases h' with
    | skip _ hRest => exact ih hRest
    | down hSome _ =>
      rw [hNone] at hSome
      cases hSome
  | down hSome _ ih =>
    cases h' with
    | skip hNone _ =>
      rw [hNone] at hSome
      cases hSome
    | down hSome' hRest =>
      rw [hSome] at hSome'
      cases hSome'
      exact ih hRest

private theorem exhaust_returns (i : ι)
    (hShort : ∀ q b, follow child a q = some b → q.length < fuel) :
    ∃ q b, follow child a q = some b ∧ exhaust child i fuel a = some b := by
  induction fuel generalizing a with
  | zero =>
    have hFalse := hShort [] a rfl
    omega
  | succ fuel ih =>
    rw [exhaust]
    cases hChild : child a i with
    | none => exact ⟨[], a, rfl, rfl⟩
    | some a' =>
      have hBelow : ∀ q, follow child a (i :: q) = follow child a' q := by
        intro q
        rw [follow_cons, hChild]
        rfl
      rcases ih (by
          intro q b hq
          rw [← hBelow] at hq
          have hLess := hShort (i :: q) b hq
          rw [List.length_cons] at hLess
          omega) with
        ⟨q, b, hq, hExhaust⟩
      exact ⟨i :: q, b, by rw [hBelow, hq], hExhaust⟩

theorem greedy_returns (path : List ι)
    (hShort : ∀ q b, follow child root q = some b → q.length < fuel) :
    ∃ b, greedy child fuel root path = some b := by
  induction path generalizing root with
  | nil => exact ⟨root, rfl⟩
  | cons i path ih =>
    rcases exhaust_returns i hShort with ⟨q, a, hq, hExhaust⟩
    rw [greedy, hExhaust]
    apply ih
    intro r b hr
    have hLong : follow child root (q ++ r) = some b := by
      rw [follow_append, hq]
      exact hr
    have hLess := hShort (q ++ r) b hLong
    rw [List.length_append] at hLess
    omega

end Walk

def Straight (child : α → ι → Option α) (root : α) (path : List ι) : Prop :=
  ∀ stem i rest, path = stem ++ i :: rest → rest.head? ≠ some i →
      follow child root (stem ++ [i, i]) = none

section Straight

variable {child child' : α → ι → Option α} {root a b : α} {i : ι} {path : List ι}

theorem Straight.tail (hChild : child root i = some a)
    (hStraight : Straight child root (i :: path)) : Straight child a path := by
  intro stem j rest hPath hEnd
  have hNone := hStraight (i :: stem) j rest (by rw [hPath]; rfl) hEnd
  rw [List.cons_append, follow_cons, hChild] at hNone
  exact hNone

theorem Straight.cons (hChild : child root i = some a)
    (hEnd : path.head? ≠ some i → child a i = none) (hRest : Straight child a path) :
    Straight child root (i :: path) := by
  intro stem j rest hPath hLast
  cases stem with
  | nil =>
    cases hPath
    rw [List.nil_append, follow_cons, hChild]
    exact follow_cons_none (hEnd hLast) []
  | cons k stem =>
    rw [List.cons_append] at hPath
    rcases List.cons.inj hPath with ⟨rfl, hTail⟩
    rw [List.cons_append, follow_cons, hChild]
    exact hRest stem j rest hTail hLast

theorem greedy_repeat : Greedy child a (i :: i :: path) b ↔ Greedy child a (i :: path) b := by
  constructor
  · intro h
    generalize hLong : i :: i :: path = long at h
    induction h with
    | done => cases hLong
    | skip hNone hRest ih =>
      cases hLong
      exact hRest
    | down hSome _ ih =>
      cases hLong
      exact Greedy.down hSome (ih rfl)
  intro h
  generalize hLong : i :: path = long at h
  induction h with
  | done => cases hLong
  | skip hNone hRest ih =>
    cases hLong
    exact Greedy.skip hNone (Greedy.skip hNone hRest)
  | down hSome _ ih =>
    cases hLong
    exact Greedy.down hSome (ih rfl)

theorem Straight.greedy (hStraight : Straight child root path)
    (hFollow : follow child root path = some b) : Greedy child root path b := by
  induction path generalizing root with
  | nil =>
    cases hFollow
    exact Greedy.done
  | cons i path ih =>
    rw [follow_cons] at hFollow
    rcases Option.bind_eq_some_iff.mp hFollow with ⟨a, hChild, hRest⟩
    have hWalk := ih (hStraight.tail hChild) hRest
    apply Greedy.down hChild
    by_cases hEnd : path.head? = some i
    · rcases List.head?_eq_some_iff.mp hEnd with ⟨rest, rfl⟩
      exact greedy_repeat.mpr hWalk
    apply Greedy.skip _ hWalk
    have hNone := hStraight [] i path rfl hEnd
    rw [List.nil_append, follow_cons, hChild] at hNone
    rw [Option.bind_some, follow_cons] at hNone
    cases hNext : child a i with
    | none => rfl
    | some c =>
      rw [hNext] at hNone
      cases hNone

theorem Greedy.straight
    (hUnique : ∀ p q c, follow child root p = some c → follow child root q = some c → p = q)
    (hFollow : follow child root path = some b) (hWalk : Greedy child root path b) :
    Straight child root path := by
  induction path generalizing root with
  | nil =>
    intro stem i rest hPath
    simp at hPath
  | cons i path ih =>
    rw [follow_cons] at hFollow
    rcases Option.bind_eq_some_iff.mp hFollow with ⟨a, hChild, hRest⟩
    have hBelow : ∀ q, follow child root (i :: q) = follow child a q := by
      intro q
      rw [follow_cons, hChild]
      rfl
    have hUniqueBelow : ∀ p q c, follow child a p = some c → follow child a q = some c → p = q := by
      intro p q c hp hq
      rw [← hBelow] at hp hq
      exact (List.cons.inj (hUnique _ _ c hp hq)).2
    have hDown : Greedy child a (i :: path) b := by
      cases hWalk with
      | skip hNone _ =>
        rw [hChild] at hNone
        cases hNone
      | down hSome hDown =>
        rw [hChild] at hSome
        cases hSome
        exact hDown
    by_cases hEnd : path.head? = some i
    · -- the run goes on, and so does the walk
      rcases List.head?_eq_some_iff.mp hEnd with ⟨rest, rfl⟩
      exact Straight.cons hChild (fun hNe => (hNe rfl).elim)
        (ih hUniqueBelow hRest (greedy_repeat.mp hDown))
    cases hDown with
    | skip hNone hSkip =>
      exact Straight.cons hChild (fun _ => hNone) (ih hUniqueBelow hRest hSkip)
    | down hNext hFurther =>
      -- a second path to where the walk ended
      exfalso
      rcases hFurther.follows with ⟨q, hq⟩
      have hTwo : path = i :: q := by
        apply hUniqueBelow path (i :: q) b hRest
        rw [follow_cons, hNext]
        exact hq
      rw [hTwo] at hEnd
      exact hEnd rfl

theorem straight_graft {stem rest : List ι}
    (hOther : ∀ q, q ≠ stem ++ [i] → follow child' root q = follow child root q) :
    Straight child' root (stem ++ i :: rest) ↔ Straight child root (stem ++ i :: rest) := by
  unfold Straight
  apply forall₃_congr
  intro pre j post
  apply forall₂_congr
  intro hPath hEnd
  by_cases hSame : pre ++ [j, j] = stem ++ [i]
  · -- then the run of `j` would go on with `i`
    exfalso
    have hSplit : (pre ++ [j]) ++ [j] = stem ++ [i] := by
      rw [← hSame]
      simp
    rcases List.append_inj' hSplit rfl with ⟨hStem, hLabel⟩
    cases hLabel
    rw [← hStem, List.append_assoc] at hPath
    have hRest := List.append_cancel_left hPath
    cases hRest
    exact hEnd rfl
  · rw [hOther _ hSame]

end Straight
