import Fennix.Library.Bytes

/-
  The search for the sleep package of the system.
-/

namespace Fennix

open List

namespace DSDT

def S5 : List (BitVec 8) :=
  [0x5F, 0x53, 0x35, 0x5F]

def compared (m : Memory) : Nat → List (BitVec 8) → List Nat
| _, [] => []
| a, b :: bs => a :: if m a = b then compared m (a + 1) bs else []

def search (m : Memory) : (length : Nat) → Nat → List Nat × Nat × Nat
| 0, s5 => ([], 2 ^ 64 - 1, s5)
| length + 1, s5 =>
  if m.bytes s5 4 = S5 then (compared m s5 S5, length, s5)
  else
    let rest := search m length (s5 + 1)
    (compared m s5 S5 ++ rest.1, rest.2)

def operand (m : Memory) (a : Nat) : Nat :=
  if m a = 0x0A then a + 1 else a

def parse (m : Memory) (s5 : Nat) : List Nat × Option (BitVec 16 × BitVec 16) :=
  let named := m (s5 - 1) = 0x08 ∨ m (s5 - 2) = 0x08 ∧ m (s5 - 1) = 0x5C
  let reads := if m (s5 - 1) = 0x08 then [s5 - 1] else [s5 - 1, s5 - 2]
  if named then
    if m (s5 + 4) = 0x12 then
      let a := s5 + 5 + (((m (s5 + 5) &&& 0xC0) >>> 6).toNat + 2)
      let b := operand m a + 1
      (reads ++ [s5 + 4, s5 + 5, a, operand m a, b, operand m b],
        some ((m (operand m a)).setWidth 16 <<< 10, (m (operand m b)).setWidth 16 <<< 10))
    else (reads ++ [s5 + 4], none)
  else (reads, none)

def tableLength (m : Memory) (table : Nat) : Nat :=
  m.load (table + 4) 4

def construct (m : Memory) (table : Nat) : Option Nat × List Nat :=
  let found := search m (tableLength m table) (table + 36)
  let reads := range' (table + 4) 4 ++ found.1
  if found.2.1 ≤ 0 then (none, reads)
  else (some found.2.2, reads ++ (parse m found.2.2).1)

variable {m : Memory} {table length s5 p : Nat}

def Occurs (m : Memory) (table p : Nat) : Prop :=
  table + 36 ≤ p ∧ p + 4 ≤ table + tableLength m table ∧ m.bytes p 4 = S5

def First (m : Memory) (table p : Nat) : Prop :=
  Occurs m table p ∧ ∀ q < p, ¬ Occurs m table q

structure Meets (m : Memory) (table : Nat) : Prop where
  parses_iff : (∃ p, (construct m table).1 = some p) ↔ ∃ p, Occurs m table p
  first : ∀ p, (construct m table).1 = some p → First m table p
  inside : ∀ r ∈ (construct m table).2, table ≤ r ∧ r < table + tableLength m table

theorem mem_compared {bs : List (BitVec 8)} {r : Nat} (h : r ∈ compared m s5 bs) :
    s5 ≤ r ∧ r < s5 + bs.length := by
  induction bs generalizing s5 with
  | nil => cases h
  | cons b bs ih =>
    rw [length_cons]
    rcases mem_cons.mp h with rfl | hRest
    · omega
    split at hRest
    · have hLater := ih hRest
      omega
    · cases hRest

theorem search_cases (m : Memory) (length s5 : Nat) :
    (∃ p, s5 ≤ p ∧ p < s5 + length ∧ m.bytes p 4 = S5 ∧ (∀ q, s5 ≤ q → q < p → m.bytes q 4 ≠ S5) ∧
    (search m length s5).2 = (s5 + length - 1 - p, p) ∧ p ∈ (search m length s5).1 ∧
    ∀ r ∈ (search m length s5).1, s5 ≤ r ∧ r < p + 4) ∨
    ((∀ q, s5 ≤ q → q < s5 + length → m.bytes q 4 ≠ S5) ∧
    (search m length s5).2.1 = 2 ^ 64 - 1) := by
  induction length generalizing s5 with
  | zero => exact .inr ⟨fun q hq hLess => by omega, rfl⟩
  | succ length ih =>
    rw [search]
    by_cases hHere : m.bytes s5 4 = S5
    · rw [if_pos hHere]
      refine Or.inl ⟨s5, Nat.le_refl _, by omega, hHere, fun q hq hLess => by omega, ?_,
        mem_cons_self, fun r hr => mem_compared hr⟩
      rw [show s5 + (length + 1) - 1 - s5 = length by omega]
    have hOther : ∀ q, s5 ≤ q → q < s5 + 1 → m.bytes q 4 ≠ S5 := by
      intro q hq hLess
      rwa [show q = s5 by omega]
    rw [if_neg hHere, show s5 + (length + 1) = s5 + 1 + length by omega]
    rcases ih (s5 + 1) with ⟨p, hLow, hHigh, hp, hFirst, hEnd, hRead, hReads⟩ | ⟨hNone, hEnd⟩
    · refine Or.inl ⟨p, by omega, hHigh, hp, fun q hq hLess => ?_, hEnd,
        mem_append_right _ hRead, fun r hr => ?_⟩
      · exact (Nat.lt_or_ge q (s5 + 1)).elim (hOther q hq) (fun hMore => hFirst q hMore hLess)
      rcases mem_append.mp hr with hNow | hLater
      · have hNear : s5 ≤ r ∧ r < s5 + 4 := mem_compared hNow
        omega
      · have hFar := hReads r hLater
        omega
    · refine Or.inr ⟨fun q hq hLess => ?_, hEnd⟩
      exact (Nat.lt_or_ge q (s5 + 1)).elim (hOther q hq) (fun hMore => hNone q hMore hLess)

theorem meets_iff (m : Memory) (table : Nat) : Meets m table ↔ ∃ p, First m table p ∧
    ∀ r ∈ (parse m p).1, table ≤ r ∧ r < table + tableLength m table := by
  rcases search_cases m (tableLength m table) (table + 36) with
    ⟨p, hLow, hHigh, hp, hFirst, hEnd, hRead, hReads⟩ | ⟨hNone, hEnd⟩
  · have hConstruct : construct m table =
        if table + 36 + tableLength m table - 1 - p ≤ 0 then
          (none, range' (table + 4) 4 ++ (search m (tableLength m table) (table + 36)).1)
        else (some p, range' (table + 4) 4 ++
          (search m (tableLength m table) (table + 36)).1 ++ (parse m p).1) := by
      rw [construct, hEnd]
    constructor
    · intro h
      have hMore : ¬ table + 36 + tableLength m table - 1 - p ≤ 0 := by
        intro hLast
        have hInside := (h.inside p (by rw [hConstruct, if_pos hLast]; simp [hRead])).2
        omega
      rw [if_neg hMore] at hConstruct
      refine ⟨p, h.first p (by rw [hConstruct]), fun r hr => h.inside r ?_⟩
      rw [hConstruct]
      exact mem_append_right _ hr
    rintro ⟨p', ⟨⟨hLow', hHigh', hp'⟩, hNone⟩, hParse⟩
    have hSame : p = p' := by
      rcases Nat.lt_trichotomy p p' with hLess | hEq | hLess
      · exact (hNone p hLess ⟨hLow, by omega, hp⟩).elim
      · exact hEq
      · exact (hFirst p' hLow' hLess hp').elim
    subst hSame
    rw [if_neg (by omega)] at hConstruct
    refine ⟨iff_of_true ⟨p, by rw [hConstruct]⟩ ⟨p, hLow, hHigh', hp⟩, ?_, ?_⟩
    · intro q hq
      rw [hConstruct] at hq
      cases hq
      exact ⟨⟨hLow, hHigh', hp⟩, hNone⟩
    rw [hConstruct]
    intro r hr
    rcases mem_append.mp hr with hBefore | hRest
    · rcases mem_append.mp hBefore with hHeader | hScan
      · rw [mem_range'] at hHeader
        omega
      · have hNear := hReads r hScan
        omega
    · exact hParse r hRest
  -- the place behind the last one tried is parsed
  have hNowhere : ∀ p, ¬ Occurs m table p := by
    rintro p ⟨hLow, hHigh, hp⟩
    exact hNone p hLow (by omega) hp
  refine iff_of_false (fun h => ?_) (fun ⟨p, hFirst, _⟩ => hNowhere p hFirst.1)
  have hSome : (construct m table).1 =
    some (search m (tableLength m table) (table + 36)).2.2 := by
    rw [construct, hEnd, if_neg (by decide)]
  exact hNowhere _ (h.first _ hSome).1

theorem absent_parsed : (construct (fun x => if x = 4 then 36 else 0) 0).1 = some 72 := by
  decide +kernel

end DSDT

end Fennix
