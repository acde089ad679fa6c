import Mathlib.Data.List.Basic
import Mathlib.Algebra.Group.Nat.Defs

/-
  Buffers of elements, with every access checked.

  A buffer is null or has an allocated length; reading and writing outside of it fails.
-/

def eachBelow {σ : Type} (body : Nat → σ → Option σ) : Nat → σ → Option σ
| 0, s => some s
| n + 1, s => (eachBelow body n s).bind (body n)

section Loops

variable {σ : Type} {body : Nat → σ → Option σ} {P : σ → Prop} {n : Nat} {s : σ}

theorem eachBelow_returns (hBody : ∀ i < n, ∀ s, P s → ∃ s', body i s = some s' ∧ P s')
    (hStart : P s) : ∃ s', eachBelow body n s = some s' ∧ P s' := by
  induction n with
  | zero => exact ⟨s, rfl, hStart⟩
  | succ n ih =>
    rcases ih (fun i hi => hBody i (by omega)) with ⟨t, hRounds, ht⟩
    rcases hBody n (by omega) t ht with ⟨s', hLast, hs'⟩
    refine ⟨s', ?_, hs'⟩
    rw [eachBelow, hRounds]
    exact hLast

theorem eachBelow_keeps (hKeep : ∀ j s s', P s → body j s = some s' → P s') (hStart : P s) {s' : σ}
    (hRounds : eachBelow body n s = some s') : P s' := by
  induction n generalizing s' with
  | zero =>
    cases hRounds
    exact hStart
  | succ n ih =>
    rcases Option.bind_eq_some_iff.mp hRounds with ⟨t, ht, hLast⟩
    exact hKeep n t s' (ih ht) hLast

theorem eachBelow_fails {i : Nat} (hi : i < n) (hKeep : ∀ j s s', P s → body j s = some s' → P s')
    (hFail : ∀ s, P s → body i s = none) (hStart : P s) : eachBelow body n s = none := by
  induction n with
  | zero => omega
  | succ n ih =>
    rw [eachBelow]
    by_cases hLast : i = n
    · cases hRounds : eachBelow body n s with
      | none => rfl
      | some t =>
        rw [← hLast] at hRounds ⊢
        exact hFail t (eachBelow_keeps hKeep hStart hRounds)
    · rw [ih (by omega)]
      rfl

theorem eachBelow_eq_foldlM {α : Type} {xs : List α} {f : σ → α → Option σ}
    (hBody : ∀ s, P s → ∀ i (hi : i < xs.length), body i s = f s (xs.get ⟨i, hi⟩))
    (hKeep : ∀ s x s', P s → f s x = some s' → P s') (hStart : P s) :
    eachBelow body xs.length s = xs.foldlM f s := by
  have hPart : ∀ k ≤ xs.length, eachBelow body k s = (xs.take k).foldlM f s ∧
    ∀ s', eachBelow body k s = some s' → P s' := by
    intro k hk
    induction k with
    | zero =>
      refine ⟨rfl, ?_⟩
      intro s' hs'
      cases hs'
      exact hStart
    | succ k ih =>
      rcases ih (by omega) with ⟨hSame, hGood⟩
      have hLess : k < xs.length := by omega
      have hRound : ∀ t, P t → body k t = f t (xs.get ⟨k, hLess⟩) := fun t ht => hBody t ht k hLess
      constructor
      · rw [eachBelow, List.take_succ_eq_append_getElem hLess, List.foldlM_append, ← hSame]
        cases hPrefix : eachBelow body k s with
        | none => rfl
        | some t =>
          simp [hRound t (hGood t hPrefix)]
      intro s' hs'
      rcases Option.bind_eq_some_iff.mp hs' with ⟨t, ht, hLast⟩
      rw [hRound t (hGood t ht)] at hLast
      exact hKeep t _ s' (hGood t ht) hLast
  have hAll := (hPart xs.length (Nat.le_refl _)).1
  rw [List.take_length] at hAll
  exact hAll

end Loops

abbrev Buffer (α : Type) :=
  Option (List α)

namespace Buffer

variable {α : Type}

def allocated (b : Buffer α) : Nat :=
  (b.getD []).length

def new [Inhabited α] (n : Nat) : Buffer α :=
  some (List.replicate n default)

def read (b : Buffer α) (i : Nat) : Option α :=
  (b.getD [])[i]?

def write (b : Buffer α) (i : Nat) (x : α) : Option (Buffer α) :=
  if i < b.allocated then some (some ((b.getD []).set i x))
  else none

def copy (source target : Buffer α) (n : Nat) : Option (Buffer α) :=
  eachBelow (fun i b => (source.read i).bind (b.write i)) n target

variable {b b' : Buffer α} {i n : Nat}

@[simp] theorem allocated_none : allocated (none : Buffer α) = 0 :=
  rfl

@[simp] theorem allocated_new [Inhabited α] : (new n : Buffer α).allocated = n := by
  simp [allocated, new]

theorem read_some (hi : i < b.allocated) : ∃ x, b.read i = some x :=
  ⟨_, List.getElem?_eq_getElem hi⟩

theorem read_none (hi : b.allocated ≤ i) : b.read i = none :=
  List.getElem?_eq_none hi

theorem write_some (hi : i < b.allocated) (x : α) :
    ∃ b', b.write i x = some b' ∧ b'.allocated = b.allocated := by
  refine ⟨_, if_pos hi, ?_⟩
  simp [allocated]

theorem write_none (hi : b.allocated ≤ i) (x : α) : b.write i x = none :=
  if_neg (by omega)

theorem allocated_write {x : α} (h : b.write i x = some b') : b'.allocated = b.allocated := by
  unfold write at h
  split at h
  · cases h
    simp [allocated]
  · cases h

theorem copy_returns {source target : Buffer α} (hSource : n ≤ source.allocated)
    (hTarget : n ≤ target.allocated) : ∃ b, source.copy target n = some b ∧
    b.allocated = target.allocated := by
  refine eachBelow_returns (P := fun b : Buffer α => b.allocated = target.allocated) ?_ rfl
  intro i hi b hb
  rcases read_some (Nat.lt_of_lt_of_le hi hSource) with ⟨x, hx⟩
  rcases write_some (show i < b.allocated by omega) x with ⟨b', hWrite, hLength⟩
  refine ⟨b', ?_, hLength.trans hb⟩
  rw [hx]
  exact hWrite

theorem read_write {x : α} (h : b.write i x = some b') (k : Nat) :
    b'.read k = if k = i then some x else b.read k := by
  unfold write at h
  split at h
  · rename_i hi
    cases h
    by_cases hk : k = i
    · rw [if_pos hk, hk]
      exact List.getElem?_set_self hi
    · rw [if_neg hk]
      exact List.getElem?_set_ne (fun h => hk h.symm)
  · cases h

theorem read_copy {source target : Buffer α} (h : source.copy target n = some b) (k : Nat) :
    b.read k = if k < n then source.read k else target.read k := by
  induction n generalizing b with
  | zero =>
    cases h
    exact (if_neg (Nat.not_lt_zero k)).symm
  | succ n ih =>
    rcases Option.bind_eq_some_iff.mp h with ⟨c, hRounds, hLast⟩
    rcases Option.bind_eq_some_iff.mp hLast with ⟨x, hx, hWrite⟩
    rw [read_write hWrite, ih hRounds]
    by_cases hk : k = n
    · rw [if_pos hk, if_pos (by omega), hk, hx]
    rw [if_neg hk]
    by_cases hLess : k < n
    · rw [if_pos hLess, if_pos (by omega)]
    · rw [if_neg hLess, if_neg (by omega)]

def put : Buffer α → Nat → List α → Option (Buffer α)
| b, _, [] => some b
| b, start, x :: source =>
  (b.write start x).bind (fun b => put b (start + 1) source)

def terminator [DecidableEq α] (zero : α) (b : Buffer α) : Option Nat :=
  (b.getD []).findIdx? (· = zero)

def strcat [DecidableEq α] (zero : α) (b : Buffer α) (source : List α) : Option (Buffer α) :=
  (b.terminator zero).bind (fun start => (b.put start source).bind
      (fun b => b.write (start + source.length) zero))

section Padded

variable {zero : α} {text source : List α}

theorem write_padded (text : List α) (zero x : α) (k : Nat) :
    write (some (text ++ List.replicate (k + 1) zero)) text.length x =
    some (some (text ++ [x] ++ List.replicate k zero)) := by
  unfold write
  rw [if_pos (by simp [allocated])]
  simp [List.replicate_succ]

theorem put_padded (text : List α) (k : Nat) :
    put (some (text ++ List.replicate (source.length + k) zero)) text.length source =
    some (some (text ++ source ++ List.replicate k zero)) := by
  induction source generalizing text with
  | nil => simp [put]
  | cons x source ih =>
    rw [put, List.length_cons, show source.length + 1 + k = source.length + k + 1 by omega,
      write_padded, Option.bind_some]
    have hNext := ih (text ++ [x])
    rw [List.length_append, List.length_singleton] at hNext
    rw [hNext]
    simp

variable [DecidableEq α]

theorem terminator_padded (hText : zero ∉ text) (k : Nat) :
    terminator zero (some (text ++ List.replicate (k + 1) zero)) = some text.length := by
  unfold terminator
  rw [Option.getD_some, List.findIdx?_append, List.findIdx?_eq_none_iff.mpr ?_]
  · simp [List.replicate_succ, List.findIdx?_cons]
  · intro x hx
    simpa using fun hEq : x = zero => hText (hEq ▸ hx)

theorem strcat_padded (hText : zero ∉ text) (k : Nat) : strcat zero
    (some (text ++ List.replicate (source.length + (k + 1)) zero)) source =
    some (some (text ++ source ++ List.replicate (k + 1) zero)) := by
  unfold strcat
  rw [← Nat.add_assoc, terminator_padded hText, Option.bind_some, Nat.add_assoc, put_padded,
    Option.bind_some]
  have hLast := write_padded (text ++ source) zero zero k
  rw [List.length_append] at hLast
  rw [hLast]
  simp [List.replicate_succ]

theorem strcat_all {parts : List (List α)} (hParts : ∀ c ∈ parts, zero ∉ c) (text : List α)
    (hText : zero ∉ text) : parts.foldlM (strcat zero)
    (some (text ++ List.replicate (parts.flatten.length + 1) zero)) =
    some (some (text ++ parts.flatten ++ [zero])) := by
  induction parts generalizing text with
  | nil => simp
  | cons c parts ih =>
    rw [List.foldlM_cons, List.flatten_cons, List.length_append, Nat.add_assoc, strcat_padded hText]
    have hNext := ih (fun d hd => hParts d (List.mem_cons_of_mem c hd)) (text ++ c) (by
        rw [List.mem_append]
        exact not_or_intro hText (hParts c List.mem_cons_self))
    simpa using hNext

end Padded

end Buffer

------ Tables of a Fixed Length

abbrev Table (n : Nat) (α : Type) :=
  Fin n → α

namespace Table

variable {n : Nat} {α : Type} {table : Table n α} {i : Nat} {x : α}

def load (table : Table n α) (i : Nat) : Option α :=
  if h : i < n then some (table ⟨i, h⟩) else none

def store (table : Table n α) (i : Nat) (x : α) : Option (Table n α) :=
  if h : i < n then some (Function.update table ⟨i, h⟩ x)
  else none

theorem load_of_lt (h : i < n) : load table i = some (table ⟨i, h⟩) :=
  dif_pos h

theorem load_of_le (h : n ≤ i) : load table i = none :=
  dif_neg (Nat.not_lt.mpr h)

theorem store_of_lt (h : i < n) : store table i x = some (Function.update table ⟨i, h⟩ x) :=
  dif_pos h

theorem store_of_le (h : n ≤ i) : store table i x = none :=
  dif_neg (Nat.not_lt.mpr h)

end Table
