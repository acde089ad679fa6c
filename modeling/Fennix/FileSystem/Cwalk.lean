import Mathlib.Data.List.Induction

/-
  Paths as `cwalk` answers about them.

  The file system leaves all work on the text of a path to the `cwalk` library, in its UNIX style.
-/

namespace Fennix

open List

abbrev CString := List Char

def isspace (c : Char) : Bool :=
  c == ' ' || c == '\t' || c == '\r' || c == '\n' || c == '\x0c' || c == '\x0b'

def isempty (str : CString) : Bool :=
  str.all isspace

namespace Cwalk

variable {path c : CString} {given : List CString} {absolute : Bool}

------ Answers about a Path

def segments (path : CString) : List CString :=
  (path.splitOn '/').filter (· ≠ [])

def pathIsAbsolute (path : CString) : Bool :=
  path.head? == some '/'

def pathIsRelative (path : CString) : Bool :=
  !pathIsAbsolute path

def pathGetBasename (path : CString) : Option CString :=
  (segments path).getLast?

/- One segment more, the last one kept first. -/
def keepSegment (absolute : Bool) (kept : List CString) (segment : CString) : List CString :=
  if segment = ['.'] then kept
  else if segment = ['.', '.'] then
    match kept with
    | [] => if absolute then [] else [segment]
    | last :: rest =>
      if last = ['.', '.'] then segment :: kept else rest
  else segment :: kept

def resolve (absolute : Bool) (given : List CString) : List CString :=
  (given.foldl (keepSegment absolute) []).reverse

def join (given : List CString) : CString :=
  ['/'].intercalate given

def pathJoinAndNormalize (absolute : Bool) (given : List CString) : CString :=
  if absolute then '/' :: join (resolve true given)
  else if given = [] then []
  -- an empty output means the current directory
  else if resolve false given = [] then ['.']
  else join (resolve false given)

def pathNormalize (path : CString) : CString :=
  pathJoinAndNormalize (pathIsAbsolute path) (segments path)

def pathGetAbsolute (base path : CString) : CString :=
  pathJoinAndNormalize true (if pathIsAbsolute path then segments path
      else segments base ++ segments path)

------ Segments of a Text put together

def IsSegment (c : CString) : Prop :=
  c ≠ [] ∧ '/' ∉ c

theorem not_mem_splitOn (h : c ∈ path.splitOn '/') : '/' ∉ c := by
  induction path generalizing c with
  | nil =>
    rw [splitOn_nil, mem_singleton] at h
    rw [h]
    exact not_mem_nil
  | cons x path ih =>
    rw [splitOn, splitOnP_cons_eq_if_modifyHead] at h
    split at h
    · rcases mem_cons.mp h with rfl | hRest
      · exact not_mem_nil
      · exact ih hRest
    rename_i hOther
    cases hSplit : path.splitOnP (· == '/') with
    | nil =>
      rw [hSplit] at h
      cases h
    | cons first rest =>
      rw [hSplit, modifyHead_cons] at h
      have hMem : ∀ d ∈ first :: rest, '/' ∉ d := by
        intro d hd
        apply ih
        rw [splitOn, hSplit]
        exact hd
      rcases mem_cons.mp h with rfl | hRest
      · have hFirst := hMem first mem_cons_self
        rw [mem_cons, not_or]
        refine ⟨?_, hFirst⟩
        intro hEq
        rw [← hEq] at hOther
        exact hOther rfl
      · exact hMem c (mem_cons_of_mem _ hRest)

theorem isSegment_of_mem (h : c ∈ segments path) : IsSegment c := by
  rcases mem_filter.mp h with ⟨hMem, hFilled⟩
  exact ⟨of_decide_eq_true hFilled, not_mem_splitOn hMem⟩

theorem sublist_intercalate {separator : CString} {parts : List CString} (hc : c ∈ parts) :
    c.Sublist (separator.intercalate parts) := by
  induction parts with
  | nil => cases hc
  | cons d parts ih =>
    cases parts with
    | nil =>
      rw [mem_singleton.mp hc]
      simp
    | cons e parts =>
      rw [intercalate_cons_cons]
      rcases mem_cons.mp hc with rfl | hc
      · simp
      · exact (ih hc).trans (sublist_append_right _ _)

theorem sublist_of_mem_segments (hc : c ∈ segments path) : c.Sublist path := by
  have hWhole : c.Sublist (['/'].intercalate (path.splitOn '/')) :=
    sublist_intercalate (mem_filter.mp hc).1
  rwa [intercalate_splitOn] at hWhole

theorem segments_join (hGiven : ∀ c ∈ given, IsSegment c) : segments (join given) = given := by
  by_cases hNone : given = []
  · rw [hNone]
    rfl
  have hSplit : (join given).splitOn '/' = given := splitOn_intercalate '/'
      (fun c hc => (hGiven c hc).2) hNone
  rw [segments, hSplit, filter_eq_self]
  intro c hc
  exact decide_eq_true (hGiven c hc).1

theorem segments_absolute (hGiven : ∀ c ∈ given, IsSegment c) :
    segments ('/' :: join given) = given := by
  have hFirst : segments ('/' :: join given) = segments (join given) := by
    rw [segments, segments, splitOn, splitOnP_cons_eq_if_modifyHead,
      if_pos (beq_self_eq_true '/'), splitOn]
    exact filter_cons_of_neg (by simp)
  rw [hFirst, segments_join hGiven]

------ Resolved Segments

private theorem mem_keepSegment {kept : List CString} {segment : CString}
    (h : c ∈ keepSegment absolute kept segment) : c ∈ kept ∨ c = segment := by
  have hNew : c ∈ segment :: kept → c ∈ kept ∨ c = segment :=
    fun hMem => (mem_cons.mp hMem).symm
  unfold keepSegment at h
  split at h
  · exact .inl h
  split at h
  · cases kept with
    | nil =>
      cases absolute with
      | true => cases h
      | false => exact hNew h
    | cons last rest =>
      dsimp only at h
      split at h
      · exact hNew h
      · exact .inl (mem_cons_of_mem _ h)
  · exact hNew h

theorem mem_resolve (h : c ∈ resolve absolute given) : c ∈ given := by
  rw [resolve, mem_reverse] at h
  induction given using reverseRecOn with
  | nil => cases h
  | append_singleton given segment ih =>
    rw [foldl_append] at h
    rcases mem_keepSegment h with hOld | rfl
    · exact mem_append_left _ (ih hOld)
    · exact mem_append_right _ mem_cons_self

theorem resolve_eq_self (hGiven : ∀ c ∈ given, c ≠ ['.'] ∧ c ≠ ['.', '.']) :
    resolve absolute given = given := by
  have hKept : given.foldl (keepSegment absolute) [] = given.reverse := by
    induction given using reverseRecOn with
    | nil => rfl
    | append_singleton given segment ih =>
      have hLast := hGiven segment (mem_append_right _ mem_cons_self)
      rw [foldl_append, ih (fun c hc => hGiven c (mem_append_left _ hc))]
      simp [keepSegment, hLast]
  rw [resolve, hKept, reverse_reverse]

private theorem segments_joinAndNormalize (hGiven : ∀ c ∈ given, IsSegment c) :
    segments (pathJoinAndNormalize true given) = resolve true given := by
  rw [pathJoinAndNormalize, if_pos rfl]
  apply segments_absolute
  intro c hc
  exact hGiven c (mem_resolve hc)

theorem mem_segments_normalize (h : c ∈ segments (pathNormalize path)) :
    c ∈ segments path ∨ c = ['.'] := by
  have hGiven : ∀ c ∈ segments path, IsSegment c := fun c hc => isSegment_of_mem hc
  unfold pathNormalize at h
  cases hAbsolute : pathIsAbsolute path with
  | true =>
    rw [hAbsolute, segments_joinAndNormalize hGiven] at h
    exact .inl (mem_resolve h)
  | false =>
    rw [hAbsolute, pathJoinAndNormalize, if_neg Bool.false_ne_true] at h
    split at h
    · cases h
    split at h
    · exact .inr (mem_singleton.mp h)
    · rw [segments_join (fun c hc => hGiven c (mem_resolve hc))] at h
      exact .inl (mem_resolve h)

theorem mem_segments_getAbsolute {base : CString} (h : c ∈ segments (pathGetAbsolute base path)) :
    c ∈ segments base ∨ c ∈ segments path := by
  have hGiven : ∀ d ∈ (if pathIsAbsolute path then segments path
      else segments base ++ segments path),
      d ∈ segments base ∨ d ∈ segments path := by
    intro d hd
    split at hd
    · exact .inr hd
    · exact mem_append.mp hd
  rw [pathGetAbsolute, segments_joinAndNormalize (fun d hd => (hGiven d hd).elim isSegment_of_mem
      isSegment_of_mem)] at h
  exact hGiven c (mem_resolve h)

end Cwalk

------ Normalized Absolute Paths

open Cwalk

structure NormalPath where
  components : List CString
  nonempty : components ≠ []
  isSegment : ∀ c ∈ components, IsSegment c
  resolved : ∀ c ∈ components, c ≠ ['.'] ∧ c ≠ ['.', '.']

namespace NormalPath

variable (p : NormalPath)

def text : CString :=
  '/' :: join p.components

def basename : CString :=
  p.components.getLast p.nonempty

@[simp] theorem segments_text : segments p.text = p.components :=
  segments_absolute p.isSegment

@[simp] theorem pathIsAbsolute_text : pathIsAbsolute p.text = true :=
  rfl

@[simp] theorem pathNormalize_text : pathNormalize p.text = p.text := by
  rw [pathNormalize, pathIsAbsolute_text, segments_text, pathJoinAndNormalize, if_pos rfl,
    resolve_eq_self p.resolved]
  rfl

@[simp] theorem pathGetBasename_text : pathGetBasename p.text = some p.basename := by
  rw [pathGetBasename, segments_text]
  exact getLast?_eq_some_getLast p.nonempty

@[simp] theorem isempty_text : isempty p.text = false := by
  rfl

end NormalPath

end Fennix
