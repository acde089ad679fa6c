import Mathlib.Tactic.Common
import Mathlib.Algebra.Group.Nat.Defs

/-
  Decimal text of a natural number, as bytes.
-/

namespace Decimal

open List

variable {n : Nat}

def decimal (n : Nat) : List (BitVec 8) :=
  (Nat.toDigits 10 n).map fun c => BitVec.ofNat 8 c.toNat

private theorem digitChar_byte : ∀ d : Fin 10,
    BitVec.ofNat 8 (Nat.digitChar d).toNat = BitVec.ofNat 8 (48 + d) := by
  decide

theorem decimal_of_lt (h : n < 10) : decimal n = [BitVec.ofNat 8 (48 + n)] := by
  rw [decimal, Nat.toDigits_of_lt_base h]
  exact congrArg (fun b => [b]) (digitChar_byte ⟨n, h⟩)

theorem decimal_of_le (h : 10 ≤ n) :
    decimal n = decimal (n / 10) ++ [BitVec.ofNat 8 (48 + n % 10)] := by
  rw [decimal, Nat.toDigits_of_base_le (by decide) h, map_append]
  exact congrArg (fun b => _ ++ [b]) (digitChar_byte ⟨n % 10, Nat.mod_lt _ (by decide)⟩)

theorem decimal_induction {P : Nat → Prop} (hLast : ∀ n, n < 10 → P n)
    (hMore : ∀ n, 10 ≤ n → P (n / 10) → P n) (n : Nat) : P n := by
  induction n using Nat.strongRecOn with
  | ind n ih =>
    by_cases h : n < 10
    · exact hLast n h
    · exact hMore n (by omega) (ih (n / 10) (by omega))

theorem decimal_length_pos (n : Nat) : 0 < (decimal n).length := by
  rw [decimal, length_map]
  exact Nat.length_toDigits_pos

theorem pow_length_le (hn : n ≠ 0) : 10 ^ (decimal n).length ≤ n * 10 := by
  induction n using decimal_induction with
  | hLast n h =>
    rw [decimal_of_lt h, length_singleton]
    omega
  | hMore n h ih =>
    rw [decimal_of_le h, length_append, length_singleton]
    omega

theorem decimal_length_le {k : Nat} (hk : 0 < k) (h : n < 10 ^ k) : (decimal n).length ≤ k := by
  by_cases hn : n = 0
  · rw [hn]
    exact hk
  have hPow : 10 ^ (decimal n).length < 10 ^ (k + 1) := by
    have hLe := pow_length_le hn
    omega
  exact Nat.lt_succ_iff.mp ((Nat.pow_lt_pow_iff_right (by decide)).mp hPow)

theorem digit_of_mem {b : BitVec 8} (hb : b ∈ decimal n) : 48 ≤ b.toNat ∧ b.toNat < 58 := by
  induction n using decimal_induction with
  | hLast n h =>
    rw [decimal_of_lt h, mem_singleton] at hb
    rw [hb, BitVec.toNat_ofNat]
    omega
  | hMore n h ih =>
    rw [decimal_of_le h, mem_append, mem_singleton] at hb
    rcases hb with hHead | rfl
    · exact ih hHead
    · rw [BitVec.toNat_ofNat]
      omega

theorem zero_notMem : 0 ∉ decimal n := by
  intro h
  exact absurd (digit_of_mem h).1 (by decide)

theorem head_ne_zero (hn : n ≠ 0) : (decimal n).head? ≠ some 48 := by
  induction n using decimal_induction with
  | hLast n h =>
    rw [decimal_of_lt h]
    intro hZero
    have hNat := congrArg BitVec.toNat (Option.some.inj hZero)
    rw [BitVec.toNat_ofNat, Nat.mod_eq_of_lt (by omega)] at hNat
    change 48 + n = 48 at hNat
    omega
  | hMore n h ih =>
    have hHead : decimal (n / 10) ≠ [] := ne_nil_of_length_pos (decimal_length_pos _)
    rcases exists_cons_of_ne_nil hHead with ⟨b, rest, hEq⟩
    have hFirst := ih (by omega)
    rw [hEq] at hFirst
    rw [decimal_of_le h, hEq]
    exact hFirst

end Decimal
