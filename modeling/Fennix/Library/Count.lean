import Mathlib.Data.Nat.Count

/-
  Counting the numbers below a bound.
-/

variable {p q : Nat → Prop} [DecidablePred p] [DecidablePred q] {n : Nat}

theorem count_eq_of_iff (h : ∀ k < n, p k ↔ q k) : Nat.count p n = Nat.count q n := by
  apply Nat.le_antisymm
  · exact Nat.count_mono_left (fun k hk => (h k hk).mp)
  · exact Nat.count_mono_left (fun k hk => (h k hk).mpr)

theorem count_eq_succ_of_remove {i : Nat} (hi : i < n) (hp : p i) (hq : ¬ q i)
    (hOther : ∀ k, k ≠ i → (p k ↔ q k)) : Nat.count p n = Nat.count q n + 1 := by
  induction n with
  | zero => cases hi
  | succ n ih =>
    rw [Nat.count_succ, Nat.count_succ]
    by_cases hLast : i = n
    · have hSame : Nat.count p n = Nat.count q n := by
        apply count_eq_of_iff
        intro k hk
        exact hOther k (by omega)
      rw [← hLast, if_pos hp, if_neg hq, hLast, hSame]
    have hIff : p n ↔ q n := hOther n (fun hEq => hLast hEq.symm)
    rw [ih (by omega)]
    by_cases hn : p n
    · rw [if_pos hn, if_pos (hIff.mp hn)]
    · rw [if_neg hn, if_neg (fun h => hn (hIff.mpr h))]

theorem count_eq_of_interval {a b : Nat} (hInterval : ∀ k < n, p k ↔ a ≤ k ∧ k < b) (hLow : a ≤ b)
    (hHigh : b ≤ n) : Nat.count p n = b - a := by
  have hUpTo : ∀ k ≤ n, Nat.count p k = min k b - a := by
    intro k hk
    induction k with
    | zero => simp
    | succ k ih =>
      rw [Nat.count_succ, ih (by omega)]
      by_cases hIn : a ≤ k ∧ k < b
      · rw [if_pos ((hInterval k hk).mpr hIn)]
        omega
      · rw [if_neg (fun h => hIn ((hInterval k hk).mp h))]
        omega
  rw [hUpTo n (Nat.le_refl n), Nat.min_eq_right hHigh]
