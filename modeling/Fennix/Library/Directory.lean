import Mathlib.Data.List.Nodup

/-
  Directories kept as lists.

  A directory is a list of entries, each of which has a key.
-/

namespace Directory

variable {α K : Type} [DecidableEq K] (key : α → K) {l : List α} (k : K)

def lookup (k : K) (l : List α) : Option α :=
  l.find? (fun a => key a = k)

def replace (a : α) : List α → List α
| [] => []
| b :: l =>
  if key b = key a then a :: l else b :: replace a l

def enter (l : List α) (a : α) : List α :=
  if (lookup key (key a) l).isSome then replace key a l
  else l ++ [a]

def enterAll (l as : List α) : List α :=
  as.foldl (enter key) l

def Unique (l : List α) : Prop :=
  (l.map key).Nodup

def latest (k : K) (as : List α) : Option α :=
  (as.filter (fun a => key a = k)).getLast?

variable {key}

theorem lookup_eq_none_iff {k : K} : lookup key k l = none ↔ k ∉ l.map key := by
  simp [lookup]

theorem map_replace (a : α) (l : List α) : (replace key a l).map key = l.map key := by
  induction l with
  | nil => rfl
  | cons b l ih =>
    rw [replace]
    split
    · rename_i hSame
      rw [List.map_cons, List.map_cons, hSame]
    · rw [List.map_cons, List.map_cons, ih]

theorem lookup_replace {a : α} (hFound : (lookup key (key a) l).isSome = true) :
    lookup key k (replace key a l) = if key a = k then some a else lookup key k l := by
  induction l with
  | nil => simp [lookup] at hFound
  | cons b l ih =>
    rw [replace]
    by_cases hSame : key b = key a
    · rw [if_pos hSame]
      by_cases hk : key a = k
      · simp [lookup, hk]
      · simp [lookup, hSame, hk]
    rw [if_neg hSame]
    have hRest : (lookup key (key a) l).isSome = true := by
      simpa [lookup, hSame] using hFound
    by_cases hb : key b = k
    · have ha : key a ≠ k := by
        rintro rfl
        exact hSame hb
      simp [lookup, hb, ha]
    have hNext := ih hRest
    simp only [lookup] at hNext
    simpa [lookup, hb] using hNext

theorem lookup_enter (l : List α) (a : α) : lookup key k (enter key l a) =
    if key a = k then some a else lookup key k l := by
  rw [enter]
  split
  · rename_i hFound
    exact lookup_replace k hFound
  rename_i hMissing
  have hNone : lookup key (key a) l = none := by
    simpa using hMissing
  by_cases hk : key a = k
  · rw [hk] at hNone
    rw [lookup] at hNone
    simp [lookup, List.find?_append, hNone, hk]
  · simp [lookup, List.find?_append, hk]

theorem unique_enter (a : α) (hUnique : Unique key l) : Unique key (enter key l a) := by
  rw [Unique, enter]
  split
  · rw [map_replace]
    exact hUnique
  rename_i hMissing
  have hNone : lookup key (key a) l = none := by
    simpa using hMissing
  rw [List.map_append, List.nodup_append]
  refine ⟨hUnique, List.nodup_singleton _, ?_⟩
  intro k hk k' hk' hSame
  rw [List.map_cons, List.map_nil, List.mem_singleton] at hk'
  rw [hSame, hk'] at hk
  exact lookup_eq_none_iff.mp hNone hk

theorem unique_enterAll (as : List α) (hUnique : Unique key l) :
    Unique key (enterAll key l as) := by
  induction as generalizing l with
  | nil => exact hUnique
  | cons a as ih => exact ih (unique_enter a hUnique)

theorem lookup_enterAll (l as : List α) : lookup key k (enterAll key l as) =
    (latest key k as).or (lookup key k l) := by
  induction as generalizing l with
  | nil => rfl
  | cons a as ih =>
    rw [enterAll, List.foldl_cons]
    refine (ih (enter key l a)).trans ?_
    rw [lookup_enter, latest, latest]
    by_cases hk : key a = k
    · rw [if_pos hk, List.filter_cons_of_pos (by simpa using hk), List.getLast?_cons]
      cases List.getLast? (as.filter (fun a => key a = k))
      · rfl
      · rfl
    · rw [if_neg hk, List.filter_cons_of_neg (by simpa using hk)]

end Directory
