import Mathlib.Data.BitVec
import Mathlib.Tactic.IntervalCases
import Mathlib.Tactic.Ring

/-
  Numbers as text and back in the C library.
-/

namespace Fennix

namespace Libc

open List

def int32 (n : Int) : Int :=
  n.bmod (2 ^ 32)

def abs (i : Int) : Int :=
  if i < 0 then int32 (-i) else i

def swap (buffer : List (BitVec 8)) (x y : Nat) : List (BitVec 8) :=
  (buffer.set x (buffer.getD y 0)).set y (buffer.getD x 0)

def reverse (buffer : List (BitVec 8)) (i j : Nat) : List (BitVec 8) :=
  if i < j then reverse (swap buffer i j) (i + 1) (j - 1) else buffer
termination_by j - i

def itoaDigits (base : Int) (hBase : 2 ≤ base) (buffer : List (BitVec 8)) (n : Int) (i : Nat) :
    List (BitVec 8) × Nat :=
  if n = 0 then (buffer, i)
  else
    let r := n.tmod base
    let char := if r ≥ 10 then 65 + (r - 10) else 48 + r
    itoaDigits base hBase (buffer.set i (BitVec.ofInt 8 char)) (n.tdiv base) (i + 1)
termination_by n.natAbs
decreasing_by
  rw [Int.natAbs_tdiv]
  exact Nat.div_lt_self (by omega) (by omega)

def itoa (value : Int) (buffer : List (BitVec 8)) (base : Int) : List (BitVec 8) :=
  if hBase : base < 2 ∨ base > 32 then buffer
  else
    let (buffer, i) := itoaDigits base (by omega) buffer (abs value) 0
    let (buffer, i) := if i = 0 then (buffer.set i 48, i + 1) else (buffer, i)
    let (buffer, i) :=
      if value < 0 ∧ base = 10 then (buffer.set i 45, i + 1) else (buffer, i)
    reverse (buffer.set i 0) 0 (i - 1)

def strlen (s : List (BitVec 8)) : Nat :=
  (s.takeWhile (fun c => c != 0)).length

def atoiLoop (string : List (BitVec 8)) : (i : Nat) → (outBuffer power : BitVec 64) → BitVec 64
| 0, outBuffer, _ => outBuffer
| i + 1, outBuffer, power =>
  atoiLoop string i (outBuffer + BitVec.ofInt 64 ((string.getD i 0).toInt - 48) * power)
    (power * 10)

def atoi (string : List (BitVec 8)) : Int :=
  ((atoiLoop string (strlen string) 0 1).setWidth 32).toInt

variable {pre post : List (BitVec 8)} {b : BitVec 8}

theorem set_next (pre : List (BitVec 8)) (h : 0 < post.length) :
    (pre ++ post).set pre.length b = pre ++ b :: post.drop 1 := by
  rcases exists_cons_of_length_pos h with ⟨c, rest, rfl⟩
  rw [set_append_right _ _ (Nat.le_refl _), Nat.sub_self]
  rfl

theorem swap_getElem? {buffer : List (BitVec 8)} {x y : Nat} (hx : x < buffer.length)
    (hy : y < buffer.length) (k : Nat) : (swap buffer x y)[k]? =
    if k = y then buffer[x]? else if k = x then buffer[y]? else buffer[k]? := by
  simp only [swap, getElem?_set, length_set, getD_eq_getElem?_getD, getElem?_eq_getElem hx,
    getElem?_eq_getElem hy, Option.getD_some, hx, hy, if_true, eq_comm]

theorem reverse_getElem? {buffer : List (BitVec 8)} {i j : Nat} (hj : j < buffer.length) (k : Nat) :
    (reverse buffer i j)[k]? = if i ≤ k ∧ k ≤ j then buffer[i + j - k]? else buffer[k]? := by
  induction hGap : j - i using Nat.strongRecOn generalizing buffer i j with
  | ind gap ih =>
    rw [reverse]
    split
    · have hLength : (swap buffer i j).length = buffer.length := by
        simp [swap]
      have hSum : i + 1 + (j - 1) = i + j := by omega
      rw [ih (j - 1 - (i + 1)) (by omega) (by omega) rfl, hSum, swap_getElem? (by omega) hj,
        swap_getElem? (by omega) hj]
      split_ifs <;> first | omega | rfl | (congr 1; omega)
    split_ifs
    · congr 1
      omega
    · rfl

def valueOf : List (BitVec 8) → Int
| [] => 0
| b :: ds => b.toInt - 48 + valueOf ds * 10

theorem atoiLoop_eq (ds : List (BitVec 8)) (out power : BitVec 64) :
    atoiLoop (ds.reverse ++ post) ds.length out power =
    out + BitVec.ofInt 64 (valueOf ds) * power := by
  induction ds generalizing out power post with
  | nil => simp [atoiLoop, valueOf]
  | cons b ds ih =>
    have hText : (b :: ds).reverse ++ post = ds.reverse ++ b :: post := by
      simp
    have hChar : (ds.reverse ++ b :: post).getD ds.length 0 = b := by
      simp [getD_eq_getElem?_getD]
    have hTen : BitVec.ofInt 64 10 = 10 := rfl
    rw [hText, length_cons, atoiLoop, hChar, ih, valueOf, BitVec.ofInt_add, BitVec.ofInt_mul, hTen]
    ring

theorem atoi_text (ds : List (BitVec 8)) (hDigits : 0 ∉ ds) :
    atoi (ds.reverse ++ 0 :: post) = int32 (valueOf ds) := by
  have hLength : strlen (ds.reverse ++ 0 :: post) = ds.length := by
    have hText : ∀ c ∈ ds.reverse, (c != 0) = true := by
      intro c hc
      rw [bne_iff_ne]
      rintro rfl
      exact hDigits (mem_reverse.mp hc)
    rw [strlen, takeWhile_append_of_pos hText, takeWhile_cons_of_neg (by simp), append_nil,
      length_reverse]
  rw [atoi, hLength, atoiLoop_eq, zero_add, mul_one, BitVec.toInt_setWidth, BitVec.toNat_ofInt,
    int32, Int.bmod_def, Int.bmod_def]
  omega

theorem natAbs_tmod_lt (n : Int) : (n.tmod 10).natAbs < 10 := by
  rw [Int.natAbs_tmod]
  exact Nat.mod_lt _ (by decide)

theorem natAbs_tdiv_ten (n : Int) : (n.tdiv 10).natAbs = n.natAbs / 10 := by
  rw [Int.natAbs_tdiv]
  rfl

structure DigitsOf (ds : List (BitVec 8)) (n : Int) : Prop where
  value : valueOf ds = n
  below : n.natAbs < 10 ^ ds.length
  above : n ≠ 0 → 10 ^ ds.length ≤ n.natAbs * 10
  empty : n = 0 → ds = []
  noZero : 0 ∉ ds

theorem DigitsOf.cons {n : Int} {ds : List (BitVec 8)} (h : DigitsOf ds (n.tdiv 10)) (hn : n ≠ 0) :
    DigitsOf (BitVec.ofInt 8 (48 + n.tmod 10) :: ds) n := by
  have hSplit := Int.tmod_add_mul_tdiv n 10
  have hLow := natAbs_tmod_lt n
  have hChar : (BitVec.ofInt 8 (48 + n.tmod 10)).toInt = 48 + n.tmod 10 := by
    rw [BitVec.toInt_ofInt, Int.bmod_def]
    omega
  have hAbs := natAbs_tdiv_ten n
  have hBelow := h.below
  have hAbove := h.above
  refine ⟨?_, ?_, fun _ => ?_, fun hZero => absurd hZero hn, ?_⟩
  · rw [valueOf, hChar, h.value]
    omega
  · rw [length_cons, Nat.pow_succ]
    omega
  · rw [length_cons, Nat.pow_succ]
    by_cases hTop : n.tdiv 10 = 0
    · rw [h.empty hTop, length_nil]
      omega
    · have hRest := hAbove hTop
      omega
  · rw [mem_cons, not_or]
    refine ⟨fun hZero => ?_, h.noZero⟩
    rw [← hZero] at hChar
    change (0 : Int) = _ at hChar
    omega

theorem DigitsOf.length_le {n : Int} {ds : List (BitVec 8)} (h : DigitsOf ds n)
    (hn : n.natAbs ≤ 2 ^ 31) : ds.length ≤ 10 := by
  by_cases hZero : n = 0
  · rw [h.empty hZero]
    decide
  have hBound : 10 ^ ds.length < 10 ^ 11 := by
    have hAbove := h.above hZero
    omega
  exact Nat.lt_succ_iff.mp ((Nat.pow_lt_pow_iff_right (by decide)).mp hBound)

theorem itoaDigits_eq (pre post : List (BitVec 8)) (n : Int)
    (hRoom : n.natAbs * 10 < 10 ^ post.length) :
    ∃ ds, DigitsOf ds n ∧ ds.length ≤ post.length ∧
    itoaDigits 10 (by decide) (pre ++ post) n pre.length =
      (pre ++ ds ++ post.drop ds.length, (pre ++ ds).length) := by
  induction hAbs : n.natAbs using Nat.strongRecOn generalizing pre post n with
  | ind k ih =>
    rw [itoaDigits]
    by_cases hn : n = 0
    · refine ⟨[], ⟨hn.symm, by rw [hn]; decide, fun h => absurd hn h, fun _ => rfl, not_mem_nil⟩,
        Nat.zero_le _, ?_⟩
      rw [if_pos hn, append_nil, length_nil, drop_zero]
    have hSmaller := natAbs_tdiv_ten n
    have hLow := natAbs_tmod_lt n
    rcases post with _ | ⟨c, post⟩
    · rw [length_nil] at hRoom
      omega
    rw [length_cons, Nat.pow_succ] at hRoom
    rcases ih (n.tdiv 10).natAbs (by omega)
      (pre ++ [BitVec.ofInt 8 (48 + n.tmod 10)]) post (n.tdiv 10) (by omega) rfl with
      ⟨ds, hDigits, hLength, hRest⟩
    refine ⟨_, hDigits.cons hn, by simpa using hLength, ?_⟩
    rw [if_neg hn]
    dsimp only
    rw [if_neg (by omega), set_next _ (by simp)]
    rw [length_append, length_singleton] at hRest
    simpa using hRest

theorem terminate_eq (text : List (BitVec 8)) (hText : text ≠ []) (h : 0 < post.length) :
    reverse ((text ++ post).set text.length 0) 0 (text.length - 1) =
    text.reverse ++ 0 :: post.drop 1 := by
  have hPos := length_pos_of_ne_nil hText
  apply ext_getElem?
  intro k
  rw [set_next _ h, reverse_getElem? (by simp; omega), Nat.zero_add, getElem?_append,
    getElem?_append, getElem?_append, length_reverse]
  by_cases hk : k < text.length
  · rw [if_pos (by omega), if_pos (by omega), if_pos hk, getElem?_reverse hk]
  · rw [if_neg (by omega), if_neg hk, if_neg hk]

theorem valueOf_sign (ds : List (BitVec 8)) :
    valueOf (ds ++ [45]) = valueOf ds - 3 * 10 ^ ds.length := by
  induction ds with
  | nil => rfl
  | cons b ds ih =>
    rw [cons_append, valueOf, ih, valueOf, length_cons, pow_succ]
    ring

theorem natAbs_abs {value : Int} (h : -2 ^ 31 ≤ value ∧ value < 2 ^ 31) :
    (abs value).natAbs = value.natAbs := by
  unfold abs int32
  rw [Int.bmod_def]
  omega

theorem itoa_value (value : Int) (buffer : List (BitVec 8)) (hBuffer : 12 ≤ buffer.length)
    (hValue : -2 ^ 31 ≤ value ∧ value < 2 ^ 31) : ∃ ds, DigitsOf ds (abs value) ∧
    atoi (itoa value buffer 10) =
      int32 (if value < 0 then abs value - 3 * 10 ^ ds.length else abs value) := by
  have hAbs := natAbs_abs hValue
  have hPow : 10 ^ 12 ≤ 10 ^ buffer.length := Nat.pow_le_pow_right (by decide) hBuffer
  rcases itoaDigits_eq [] buffer (abs value) (by omega) with
    ⟨ds, hDigits, _, hEq⟩
  have hShort := hDigits.length_le (by omega)
  have hEmpty : ds.length = 0 ↔ value = 0 := by
    have hBelow := hDigits.below
    constructor
    · intro h
      rw [h] at hBelow
      omega
    · intro h
      rw [hDigits.empty (by omega), length_nil]
  refine ⟨ds, hDigits, ?_⟩
  simp only [nil_append, length_nil] at hEq
  rw [itoa, dif_neg (by decide), hEq]
  dsimp only
  rcases Int.lt_trichotomy value 0 with hNeg | rfl | hPos
  · rw [if_neg (show ¬ ds.length = 0 by omega), if_pos (show value < 0 ∧ (10 : Int) = 10 by omega)]
    dsimp only
    have hSign : (ds ++ buffer.drop ds.length).set ds.length 45 =
        (ds ++ [45]) ++ (buffer.drop ds.length).drop 1 := by
      rw [set_next _ (by rw [length_drop]; omega), append_assoc]
      rfl
    have hLength : ds.length + 1 = (ds ++ [45]).length := by
      rw [length_append, length_singleton]
    rw [hSign, hLength, terminate_eq _ (by simp) (by rw [length_drop, length_drop]; omega),
      atoi_text, valueOf_sign, hDigits.value, if_pos hNeg]
    rw [mem_append, mem_singleton, not_or]
    exact ⟨hDigits.noZero, by decide⟩
  · have hNil : ds = [] := hDigits.empty rfl
    subst hNil
    have hZero : ([] ++ buffer.drop 0).set 0 48 = [48] ++ (buffer.drop 0).drop 1 := by
      exact set_next [] (by rw [length_drop]; omega)
    rw [length_nil, if_pos rfl, if_neg (show ¬ ((0 : Int) < 0 ∧ (10 : Int) = 10) by omega)]
    dsimp only
    have hText : reverse (([48] ++ (buffer.drop 0).drop 1).set (0 + 1) 0) 0 (0 + 1 - 1) = _ :=
      terminate_eq [48] (by simp) (by rw [length_drop, length_drop]; omega)
    rw [hZero, hText, atoi_text _ (by decide), if_neg (by decide)]
    rfl
  · rw [if_neg (show ¬ ds.length = 0 by omega),
      if_neg (show ¬ (value < 0 ∧ (10 : Int) = 10) by omega)]
    dsimp only
    rw [terminate_eq _ (ne_nil_of_length_pos (by omega)) (by rw [length_drop]; omega),
      atoi_text _ hDigits.noZero, hDigits.value, if_neg (by omega)]

theorem atoi_itoa_iff (value : Int) (buffer : List (BitVec 8)) (hBuffer : 12 ≤ buffer.length)
    (hValue : -2 ^ 31 ≤ value ∧ value < 2 ^ 31) :
    atoi (itoa value buffer 10) = value ↔ 0 ≤ value ∨ value = -2115098112 := by
  rcases itoa_value value buffer hBuffer hValue with ⟨ds, hDigits, hEq⟩
  rw [hEq]
  by_cases hNeg : value < 0
  swap
  · rw [if_neg hNeg, abs, if_neg hNeg, int32, Int.bmod_def]
    omega
  rw [if_pos hNeg]
  have hAbs := natAbs_abs hValue
  have hBelow := hDigits.below
  have hAbove := hDigits.above (by omega)
  have hShort := hDigits.length_le (by omega)
  have hLeast : abs value = -value ∨ value = -2 ^ 31 ∧ abs value = value := by
    rw [abs, if_pos hNeg, int32, Int.bmod_def]
    omega
  rw [int32, Int.bmod_def]
  generalize ds.length = k at *
  interval_cases k <;> omega

theorem atoi_itoa_iff_negative : atoi (itoa (-2115098112) (replicate 12 0) 10) = -2115098112 :=
  (atoi_itoa_iff (-2115098112) (replicate 12 0) (by decide) (by decide)).mpr (.inr rfl)

theorem atoi_itoa_minusOne : atoi (itoa (-1) (replicate 12 0) 10) = -29 := by
  rcases itoa_value (-1) (replicate 12 0) (by decide) (by decide) with ⟨ds, hDigits, hEq⟩
  have hOne : ds.length = 1 := by
    have hBelow : 1 < 10 ^ ds.length := hDigits.below
    have hAbove : 10 ^ ds.length ≤ 10 ^ 1 := hDigits.above (by decide)
    have hLe := (Nat.pow_le_pow_iff_right (by decide)).mp hAbove
    have hPos : ds.length ≠ 0 := by
      intro h
      rw [h] at hBelow
      exact absurd hBelow (by decide)
    omega
  rw [hEq, hOne]
  decide

end Libc

end Fennix
