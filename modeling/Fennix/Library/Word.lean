import Mathlib.Tactic.Common
import Mathlib.Algebra.Group.Int.Defs
import Mathlib.Algebra.Group.Nat.Defs

/-
  Unsigned 64-bit arithmetic on natural numbers.
-/

/- Reduce to an unsigned 64-bit value. Kept irreducible so that no unifier counts to `2 ^ 64`. -/
@[irreducible] def u64 (n : Nat) : Nat :=
  n % 2 ^ 64

@[irreducible] def sub64 (n k : Nat) : Nat :=
  u64 (n + (2 ^ 64 - u64 k))

theorem u64_of_lt {n : Nat} (h : n < 2 ^ 64) : u64 n = n := by
  unfold u64
  exact Nat.mod_eq_of_lt h

theorem toNat_ofNat_of_lt {n : Nat} (h : n < 2 ^ 64) : (BitVec.ofNat 64 n).toNat = n := by
  rw [BitVec.toNat_ofNat]
  exact Nat.mod_eq_of_lt h

def alignUp (n align : Nat) : Nat :=
  (n + (align - 1)) / align * align

theorem sub64_of_le {n k : Nat} (hLe : k ≤ n) (hn : n < 2 ^ 64) : sub64 n k = n - k := by
  unfold sub64 u64
  omega

def int64 (n : Nat) : Int :=
  if n < 2 ^ 63 then n else (n : Int) - 2 ^ 64
