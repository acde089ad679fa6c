import Mathlib.Data.Nat.ModEq

/-
  Ones' complement sums of 16-bit words.

  A sum is folded into 16 bits by adding its carries at the lower end.
-/

def endAround (x : Nat) : Nat :=
  if x < 2 ^ 16 then x
  else endAround (x % 2 ^ 16 + x / 2 ^ 16)
termination_by x
decreasing_by omega

theorem endAround_of_lt {x : Nat} (h : x < 2 ^ 16) : endAround x = x := by
  rw [endAround, if_pos h]

theorem endAround_step {x : Nat} (h : ¬ x < 2 ^ 16) :
    endAround x = endAround (x % 2 ^ 16 + x / 2 ^ 16) := by
  rw [endAround, if_neg h]

theorem endAround_lt (x : Nat) : endAround x < 2 ^ 16 := by
  induction x using endAround.induct with
  | case1 x h => rwa [endAround_of_lt h]
  | case2 x h ih => rwa [endAround_step h]

theorem fold_modEq (x : Nat) : x % 2 ^ 16 + x / 2 ^ 16 ≡ x [MOD 65535] := by
  have hCarry : 2 ^ 16 * (x / 2 ^ 16) ≡ 1 * (x / 2 ^ 16) [MOD 65535] :=
    Nat.ModEq.mul_right _ (by decide)
  have hSum := Nat.ModEq.add_left (x % 2 ^ 16) hCarry
  rw [Nat.mod_add_div, Nat.one_mul] at hSum
  exact hSum.symm

theorem endAround_modEq (x : Nat) : endAround x ≡ x [MOD 65535] := by
  induction x using endAround.induct with
  | case1 x h => rw [endAround_of_lt h]
  | case2 x h ih =>
    rw [endAround_step h]
    exact ih.trans (fold_modEq x)

theorem endAround_eq_zero {x : Nat} : endAround x = 0 ↔ x = 0 := by
  induction x using endAround.induct with
  | case1 x h => rw [endAround_of_lt h]
  | case2 x h ih =>
    rw [endAround_step h, ih]
    omega

theorem endAround_complement (x : Nat) : endAround (x + (65535 - endAround x)) = 65535 := by
  have hLt := endAround_lt x
  have hZero : endAround (x + (65535 - endAround x)) ≠ 0 := by
    rw [Ne, endAround_eq_zero]
    intro hSum
    have hx : x = 0 := by omega
    rw [hx, endAround_of_lt (by decide)] at hSum
    omega
  have hMod : endAround (x + (65535 - endAround x)) ≡ 0 [MOD 65535] := by
    calc endAround (x + (65535 - endAround x))
      _ ≡ x + (65535 - endAround x) [MOD 65535] := endAround_modEq _
      _ ≡ endAround x + (65535 - endAround x) [MOD 65535] :=
          Nat.ModEq.add_right _ (endAround_modEq x).symm
      _ ≡ 0 [MOD 65535] := by
          rw [Nat.add_sub_cancel' (by omega)]
          rfl
  have hSmall := endAround_lt (x + (65535 - endAround x))
  have hDvd := (Nat.modEq_zero_iff_dvd).mp hMod
  omega

def bigEndianSum : List (BitVec 8) → Nat
| a :: b :: rest =>
  a.toNat * 256 + b.toNat + bigEndianSum rest
| [a] => a.toNat * 256
| [] => 0

theorem bigEndianSum_append (bs cs : List (BitVec 8)) (hEven : bs.length % 2 = 0) :
    bigEndianSum (bs ++ cs) = bigEndianSum bs + bigEndianSum cs := by
  induction bs using bigEndianSum.induct with
  | case1 a b rest ih =>
    have hRest : rest.length % 2 = 0 := by
      simp only [List.length_cons] at hEven
      omega
    rw [List.cons_append, List.cons_append, bigEndianSum, bigEndianSum, ih hRest]
    omega
  | case2 a => simp at hEven
  | case3 => rw [List.nil_append, bigEndianSum, Nat.zero_add]

theorem bigEndianSum_le (bs : List (BitVec 8)) : 2 * bigEndianSum bs ≤ 65535 * (bs.length + 1) := by
  induction bs using bigEndianSum.induct with
  | case1 a b rest ih =>
    have ha := a.isLt
    have hb := b.isLt
    rw [bigEndianSum, List.length_cons, List.length_cons]
    omega
  | case2 a =>
    have ha := a.isLt
    rw [bigEndianSum, List.length_singleton]
    omega
  | case3 =>
    rw [bigEndianSum]
    omega
