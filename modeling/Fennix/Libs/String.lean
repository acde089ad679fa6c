import Fennix.Library.Memory

/-
  Moving bytes that may overlap, and the search for a string in a string.
-/

namespace Fennix

open List Memory

def copyByte (dest src : Nat) (m : Memory) (i : Nat) : Memory :=
  m.write (dest + i) (m (src + i))

def memmove (m : Memory) (dest src n : Nat) : Memory :=
  if dest < src then (range n).foldl (copyByte dest src) m
  else (range n).reverse.foldl (copyByte dest src) m

variable {dest src : Nat}

theorem copy_upwards (m : Memory) (n : Nat) (hDown : dest ≤ src) :
    (range n).foldl (copyByte dest src) m = m.copy dest src n := by
  induction n with
  | zero =>
    funext x
    exact (m.copy_outside src (by omega)).symm
  | succ n ih =>
    rw [range_succ, foldl_append, ih]
    funext x
    -- the next byte has not been overwritten
    have hNext : m.copy dest src n (src + n) = m (src + n) := m.copy_outside src (by omega)
    change (m.copy dest src n).write (dest + n) (m.copy dest src n (src + n)) x = _
    rw [hNext]
    unfold write copy
    split
    · rename_i hx
      rw [if_pos (by omega), hx, Nat.add_sub_cancel_left]
    by_cases hIn : dest ≤ x ∧ x < dest + n
    · rw [if_pos hIn, if_pos (by omega)]
    · rw [if_neg hIn, if_neg (by omega)]

theorem copy_downwards (m : Memory) (n : Nat) (hUp : src ≤ dest) :
    (range n).reverse.foldl (copyByte dest src) m = m.copy dest src n := by
  induction n generalizing m with
  | zero =>
    funext x
    exact (m.copy_outside src (by omega)).symm
  | succ n ih =>
    rw [range_succ, reverse_append, foldl_append, ih]
    funext x
    change (m.write (dest + n) (m (src + n))).copy dest src n x = _
    unfold copy
    by_cases hIn : dest ≤ x ∧ x < dest + n
    · rw [if_pos hIn, if_pos (by omega), write_other m _ (by omega)]
    rw [if_neg hIn]
    by_cases hLast : x = dest + n
    · rw [if_pos (by omega), hLast, write_same, Nat.add_sub_cancel_left]
    · rw [if_neg (by omega), write_other m _ hLast]

theorem memmove_eq (m : Memory) (dest src n : Nat) : memmove m dest src n = m.copy dest src n := by
  rw [memmove]
  split
  · exact copy_upwards m n (by omega)
  · exact copy_downwards m n (by omega)

theorem memmove_moves (m : Memory) (dest src n : Nat) :
    (∀ i, i < n → memmove m dest src n (dest + i) = m (src + i)) ∧
    ∀ x, x < dest ∨ dest + n ≤ x → memmove m dest src n x = m x := by
  rw [memmove_eq]
  refine ⟨fun i hi => ?_, fun x hx => m.copy_outside src hx⟩
  rw [copy, if_pos (by omega), Nat.add_sub_cancel_left]

end Fennix

namespace Fennix

open List

def charAt (s : List (BitVec 8)) (i : Nat) : Option (BitVec 8) :=
  (s ++ [0])[i]?

/- The loop of `strstr` on offsets into the two strings: `none` if a read fails or the fuel runs
out, `some none` for NULL. -/
def strstrFrom (text needle : List (BitVec 8)) : (fuel haystack a b : Nat) → Option (Option Nat)
| 0, _, _, _ => none
| fuel + 1, haystack, a, b => do
  let y ← charAt needle b
  if y = 0 then return some haystack
  let x ← charAt text a
  if x = 0 then return none
  if x ≠ y then strstrFrom text needle fuel (haystack + 1) (haystack + 1) 0
  else strstrFrom text needle fuel haystack (a + 1) (b + 1)

def strstr (fuel : Nat) (haystack needle : List (BitVec 8)) : Option (Option Nat) :=
  strstrFrom haystack needle fuel 0 0 0

def OccursAt (text needle : List (BitVec 8)) (p : Nat) : Prop :=
  needle <+: text.drop p

def Leftmost (text needle : List (BitVec 8)) : Option Nat → Prop
| some p => OccursAt text needle p ∧ ∀ q, q < p → ¬ OccursAt text needle q
| none => ∀ q, ¬ OccursAt text needle q

section

variable {s text needle : List (BitVec 8)} {i p k : Nat}

theorem charAt_length : charAt s s.length = some 0 := by
  simp [charAt]

theorem charAt_of_lt (h : i < s.length) : charAt s i = some s[i] := by
  rw [charAt, getElem?_append_left h, getElem?_eq_getElem h]

theorem char_ne_zero (hString : 0 ∉ s) (h : i < s.length) : s[i] ≠ 0#8 := by
  intro hZero
  have hMem := getElem_mem h
  rw [hZero] at hMem
  exact hString hMem

theorem occursAt_iff : OccursAt text needle p ↔
    ∀ i (h : i < needle.length), text[p + i]? = some needle[i] := by
  simp only [OccursAt, prefix_iff_getElem?, getElem?_drop]

theorem OccursAt.length_le (h : OccursAt text needle p) (hNeedle : 0 < needle.length) :
    p + needle.length ≤ text.length := by
  have hPrefix := List.IsPrefix.length_le h
  rw [length_drop] at hPrefix
  omega

structure Matched (text needle : List (BitVec 8)) (p k : Nat) : Prop where
  inNeedle : k ≤ needle.length
  inText : p + k ≤ text.length
  same : ∀ i (h : i < needle.length), i < k → text[p + i]? = some needle[i]
  before : ∀ q, q < p → ¬ OccursAt text needle q

namespace Matched

variable (hMatched : Matched text needle p k)

include hMatched

theorem whole (hk : k = needle.length) : Leftmost text needle (some p) :=
  ⟨occursAt_iff.mpr fun i h => hMatched.same i h (by omega), hMatched.before⟩

theorem absent (hk : k < needle.length) (hEnd : p + k = text.length) :
    Leftmost text needle none := by
  intro q hOccurs
  by_cases hq : q < p
  · exact hMatched.before q hq hOccurs
  · have hLength := hOccurs.length_le (by omega)
    omega

theorem next (hk : k < needle.length) (ha : p + k < text.length) (hSame : text[p + k] = needle[k]) :
    Matched text needle p (k + 1) where
  inNeedle := hk
  inText := ha
  before := hMatched.before
  same i h hi := by
    rcases Nat.lt_succ_iff_lt_or_eq.mp hi with hLow | rfl
    · exact hMatched.same i h hLow
    · rw [getElem?_eq_getElem ha, hSame]

theorem restart (hk : k < needle.length) (ha : p + k < text.length)
    (hDiffer : text[p + k] ≠ needle[k]) : Matched text needle (p + 1) 0 where
  inNeedle := Nat.zero_le _
  inText := by omega
  same i _ hi := absurd hi (Nat.not_lt_zero i)
  before q hq hOccurs := by
    rcases Nat.lt_succ_iff_lt_or_eq.mp hq with hLow | rfl
    · exact hMatched.before q hLow hOccurs
    have hAt := occursAt_iff.mp hOccurs k hk
    rw [getElem?_eq_getElem ha] at hAt
    exact hDiffer (Option.some.inj hAt)

end Matched

theorem strstrFrom_leftmost (hText : 0 ∉ text) (hNeedle : 0 ∉ needle) (fuel : Nat)
    (hMatched : Matched text needle p k)
    (hFuel : (text.length - p) * (needle.length + 1) + (needle.length - k) < fuel) :
    ∃ r, strstrFrom text needle fuel p (p + k) k = some r ∧ Leftmost text needle r := by
  induction fuel generalizing p k with
  | zero => exact absurd hFuel (Nat.not_lt_zero _)
  | succ fuel ih =>
    rcases Nat.lt_or_eq_of_le hMatched.inNeedle with hk | rfl
    swap
    · exact ⟨some p, by simp [strstrFrom, charAt_length], hMatched.whole rfl⟩
    have hy := char_ne_zero hNeedle hk
    rcases Nat.lt_or_eq_of_le hMatched.inText with ha | ha
    swap
    · refine ⟨none, ?_, hMatched.absent hk ha⟩
      simp [strstrFrom, charAt_of_lt hk, hy, ha, charAt_length]
    have hx := char_ne_zero hText ha
    have hStep : strstrFrom text needle (fuel + 1) p (p + k) k =
        if text[p + k] ≠ needle[k] then strstrFrom text needle fuel (p + 1) (p + 1 + 0) 0
        else strstrFrom text needle fuel p (p + (k + 1)) (k + 1) := by
      simp [strstrFrom, charAt_of_lt hk, charAt_of_lt ha, hx, hy, Nat.add_assoc]
    rw [hStep]
    by_cases hSame : text[p + k] = needle[k]
    · rw [if_neg (not_not_intro hSame)]
      exact ih (hMatched.next hk ha hSame) (by omega)
    rw [if_pos hSame]
    apply ih (hMatched.restart hk ha hSame)
    have hLeft : text.length - p = text.length - (p + 1) + 1 := by omega
    rw [hLeft, Nat.add_mul, Nat.one_mul] at hFuel
    omega

end

theorem strstr_leftmost (haystack needle : List (BitVec 8)) (hText : 0 ∉ haystack)
    (hNeedle : 0 ∉ needle) (fuel : Nat)
    (hFuel : (haystack.length + 1) * (needle.length + 1) ≤ fuel) :
    ∃ r, strstr fuel haystack needle = some r ∧ Leftmost haystack needle r := by
  have hStart : Matched haystack needle 0 0 :=
    ⟨Nat.zero_le _, Nat.zero_le _, fun i _ hi => absurd hi (Nat.not_lt_zero i),
      fun q hq => absurd hq (Nat.not_lt_zero q)⟩
  apply strstrFrom_leftmost hText hNeedle fuel hStart
  rw [Nat.add_mul] at hFuel
  simp only [Nat.sub_zero]
  omega

theorem strstr_leftmost_repeated :
    ∃ r, strstr 12 [1, 1, 2] [1, 2] = some r ∧ Leftmost [1, 1, 2] [1, 2] r :=
  strstr_leftmost [1, 1, 2] [1, 2] (by decide) (by decide) 12 (by decide)

end Fennix
