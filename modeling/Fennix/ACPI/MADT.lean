import Fennix.Library.Memory
import Mathlib.Logic.Relation

/-
  The table of the interrupt controllers.
-/

namespace Fennix

open List Option BitVec

structure MADT where
  ioapic : List Nat := []
  iso : List Nat := []
  nmi : List Nat := []
  lapic : List Nat := []
  lapicAddr : Nat := 0
  cpuCores : BitVec 8
  mapped : List Nat := []

namespace MADT

variable (m : Memory)

def entryType (ptr : Nat) : Nat :=
  (m ptr).toNat

def entryLength (ptr : Nat) : Nat :=
  (m (ptr + 1)).toNat

def enabled (ptr : Nat) : Bool :=
  (m (ptr + 4)).getLsbD 0

def visited (stop : Nat) : (fuel : Nat) → Nat → Option (List Nat)
| 0, _ => none
| fuel + 1, ptr =>
  if ptr < stop then (visited stop fuel (ptr + entryLength m ptr)).map (cons ptr)
  else some []

def enter (s : MADT) (ptr : Nat) : MADT :=
  match entryType m ptr with
  | 0 =>
    if enabled m ptr then { s with lapic := s.lapic ++ [ptr], cpuCores := s.cpuCores + 1 } else s
  | 1 => { s with ioapic := s.ioapic ++ [ptr], mapped := s.mapped ++ [m.load (ptr + 4) 4] }
  | 2 => { s with iso := s.iso ++ [ptr] }
  | 4 => { s with nmi := s.nmi ++ [ptr] }
  | 5 => { s with lapicAddr := ptr }
  | _ => s

def collect (s : MADT) (ptr : Nat) : MADT :=
  { enter m s ptr with mapped := (enter m s ptr).mapped ++ [(enter m s ptr).lapicAddr] }

/-
  The bytes an iteration reads at an entry. Besides the type, the length and what the loop itself
  uses, these are the fields handed to `trace`.
-/
def reads (ptr : Nat) : List Nat :=
  ptr :: (match entryType m ptr with
    | 0 => if enabled m ptr then [ptr + 4, ptr + 2, ptr + 3] else [ptr + 4]
    | 1 => (ptr + 2) :: range' (ptr + 4) 4
    | 2 => range' (ptr + 2) 8
    | 4 => [ptr + 2, ptr + 5]
    | _ => []) ++ [ptr + 1]

/- How many bytes of an entry of a type are read, counted up to the last of them. -/
def extent : (type : Nat) → Nat
| 0 => 5
| 1 => 8
| 2 => 10
| 4 => 6
| _ => 2

def tableEnd (table : Nat) : Nat :=
  table + m.load (table + 4) 4

def construct (fuel : Nat) (table : Nat) (cpuCores : BitVec 8) : Option (MADT × List Nat) :=
  (visited m (tableEnd m table) fuel (table + 44)).map (fun ptrs =>
    (ptrs.foldl (collect m) ⟨[], [], [], [], m.load (table + 36) 4, cpuCores, []⟩,
      range' (table + 36) 4 ++ range' (table + 4) 4 ++ ptrs.flatMap (reads m)))

def Tiles (stop : Nat) : Nat → List Nat → Prop
| ptr, [] => ptr = stop
| ptr, p :: ptrs => p = ptr ∧ 0 < entryLength m ptr ∧ Tiles stop (ptr + entryLength m ptr) ptrs

def isLapic (ptr : Nat) : Bool :=
  entryType m ptr = 0 && enabled m ptr

variable {m}

theorem Tiles.le {stop ptr : Nat} {ptrs : List Nat} (h : Tiles m stop ptr ptrs) : ptr ≤ stop := by
  induction ptrs generalizing ptr with
  | nil => exact Nat.le_of_eq h
  | cons p ptrs ih =>
    have hRest := ih h.2.2
    omega

theorem Tiles.visited {stop ptr : Nat} {ptrs : List Nat} (h : Tiles m stop ptr ptrs) :
    visited m stop (ptrs.length + 1) ptr = some ptrs := by
  induction ptrs generalizing ptr with
  | nil => exact if_neg (Nat.not_lt.mpr (Nat.le_of_eq h.symm))
  | cons p ptrs ih =>
    rcases h with ⟨rfl, hLength, hRest⟩
    have hStop := hRest.le
    rw [length_cons, MADT.visited, if_pos (by omega), ih hRest, map_some]

theorem foldl_gains {σ : Type} {f : σ → Nat → σ} {g : σ → List Nat} {c : Nat → Bool}
    (hStep : ∀ s p, g (f s p) = g s ++ [p].filter c) (ps : List Nat) (s : σ) :
    g (ps.foldl f s) = g s ++ ps.filter c := by
  induction ps generalizing s with
  | nil => simp
  | cons p ps ih =>
    rw [List.foldl_cons, ih, hStep, List.append_assoc, ← List.filter_append]
    rfl

theorem collect_fields (s : MADT) (ptr : Nat) :
    (collect m s ptr).lapic = s.lapic ++ [ptr].filter (isLapic m) ∧
    (collect m s ptr).ioapic = s.ioapic ++ [ptr].filter (entryType m · = 1) ∧
    (collect m s ptr).iso = s.iso ++ [ptr].filter (entryType m · = 2) ∧
    (collect m s ptr).nmi = s.nmi ++ [ptr].filter (entryType m · = 4) ∧
    (collect m s ptr).cpuCores = s.cpuCores + BitVec.ofNat 8 ([ptr].filter (isLapic m)).length := by
  unfold collect enter
  cases hOn : enabled m ptr <;> split <;> simp_all [filter, isLapic]

theorem cpuCores_foldl (ps : List Nat) (s : MADT) : (ps.foldl (collect m) s).cpuCores =
    s.cpuCores + BitVec.ofNat 8 (ps.filter (isLapic m)).length := by
  induction ps generalizing s with
  | nil => simp
  | cons p ps ih =>
    rw [List.foldl_cons, ih, (collect_fields s p).2.2.2.2, BitVec.add_assoc, ← BitVec.ofNat_add,
      ← length_append, ← filter_append, singleton_append]

theorem collected (m : Memory) (table : Nat) (cpuCores : BitVec 8) (ptrs : List Nat)
    (hTiles : Tiles m (tableEnd m table) (table + 44) ptrs) :
    ∃ s reads, construct m (ptrs.length + 1) table cpuCores = some (s, reads) ∧
    s.lapic = ptrs.filter (isLapic m) ∧ s.ioapic = ptrs.filter (entryType m · = 1) ∧
    s.iso = ptrs.filter (entryType m · = 2) ∧ s.nmi = ptrs.filter (entryType m · = 4) ∧
    (s.cpuCores.toNat = cpuCores.toNat + s.lapic.length ↔
      cpuCores.toNat + s.lapic.length < 256) := by
  refine ⟨_, _, by rw [construct, hTiles.visited]; rfl, ?_⟩
  rw [foldl_gains (fun s p => (collect_fields s p).1)]
  refine ⟨rfl, ?_, ?_, ?_, ?_⟩
  · exact foldl_gains (fun s p => (collect_fields s p).2.1) ptrs _
  · exact foldl_gains (fun s p => (collect_fields s p).2.2.1) ptrs _
  · exact foldl_gains (fun s p => (collect_fields s p).2.2.2.1) ptrs _
  · have hCores := cpuCores.isLt
    rw [cpuCores_foldl, toNat_add, toNat_ofNat, nil_append]
    dsimp only
    omega

/- An enabled processor, an interrupt controller and a processor that is off. -/
theorem collected_three : let m : Memory := fun x =>
      if x = 4 then 72 else if x = 45 then 8 else if x = 48 then 1 else if x = 52 then 1
      else if x = 53 then 12 else if x = 65 then 8 else 0
    ∃ s reads, construct m 4 0 0 = some (s, reads) ∧ s.lapic = [44] ∧ s.ioapic = [52] := by
  intro m
  rcases collected m 0 0 [44, 52, 64] ⟨rfl, by decide, rfl, by decide, rfl, by decide, rfl⟩ with
    ⟨s, reads, hReturns, hLapic, hIoapic, _⟩
  exact ⟨s, reads, hReturns, hLapic.trans (by decide), hIoapic.trans (by decide)⟩

def crowded : Memory := fun x =>
  if x = 4 then 0x2C else if x = 5 then 0x08 else if x < 44 then 0
  else if (x - 44) % 8 = 1 then 8 else if (x - 44) % 8 = 4 then 1 else 0

theorem crowded_uncounted : (construct crowded 257 0 0).map
    (fun r => (r.1.lapic.length, r.1.cpuCores)) = some (256, 0) := by
  decide +kernel

def Reaches (m : Memory) (stop : Nat) : Nat → Nat → Prop :=
  Relation.ReflTransGen (fun p q => p < stop ∧ q = p + entryLength m p)

variable {stop p : Nat} {ptrs : List Nat}

theorem visited_eq_none (hHere : p < stop) (hZero : entryLength m p = 0) (fuel : Nat) :
    visited m stop fuel p = none := by
  induction fuel with
  | zero => rfl
  | succ fuel ih => rw [visited, if_pos hHere, hZero, Nat.add_zero, ih, map_none]

theorem reaches_of_visited {fuel : Nat} (h : visited m stop fuel p = some ptrs) {q : Nat}
    (hReaches : Reaches m stop p q) (hq : q < stop) : 0 < entryLength m q ∧ q ∈ ptrs := by
  induction fuel generalizing p ptrs with
  | zero => cases h
  | succ fuel ih =>
    by_cases hHere : p < stop
    · have hSome : 0 < entryLength m p := by
        by_contra hZero
        rw [visited_eq_none hHere (by omega)] at h
        cases h
      rw [visited, if_pos hHere, map_eq_some_iff] at h
      rcases h with ⟨rest, hRest, rfl⟩
      rcases hReaches.cases_head with rfl | ⟨r, ⟨_, rfl⟩, hLater⟩
      · exact ⟨hSome, mem_cons_self⟩
      · rcases ih hRest hLater with ⟨hLength, hMem⟩
        exact ⟨hLength, mem_cons_of_mem _ hMem⟩
    rcases hReaches.cases_head with rfl | ⟨r, ⟨hp, _⟩, _⟩
    · exact (hHere hq).elim
    · exact (hHere hp).elim

theorem visited_of_reaches (h : ∀ q, Reaches m stop p q → q < stop → 0 < entryLength m q) :
    ∃ fuel ptrs, visited m stop fuel p = some ptrs ∧ ∀ q ∈ ptrs, Reaches m stop p q ∧ q < stop := by
  induction hn : stop - p using Nat.strongRecOn generalizing p with
  | _ n ih =>
    by_cases hHere : p < stop
    · have hSome := h p .refl hHere
      have hStep : ∀ q, Reaches m stop (p + entryLength m p) q → Reaches m stop p q :=
        fun q hq => .head ⟨hHere, rfl⟩ hq
      rcases ih _ (by omega) (fun q hq => h q (hStep q hq)) rfl with ⟨fuel, ptrs, hVisited, hAll⟩
      refine ⟨fuel + 1, p :: ptrs, by rw [visited, if_pos hHere, hVisited]; rfl, ?_⟩
      rw [forall_mem_cons]
      exact ⟨⟨.refl, hHere⟩, fun q hq => ⟨hStep q (hAll q hq).1, (hAll q hq).2⟩⟩
    · exact ⟨1, [], if_neg hHere, by simp⟩

theorem reads_inside_iff (m : Memory) (q stop : Nat) :
    (∀ r ∈ reads m q, r < stop) ↔ q + extent (entryType m q) ≤ stop := by
  unfold reads extent
  split <;> simp only [range', mem_append, mem_cons, not_mem_nil, or_false, or_imp, forall_and,
    forall_eq, apply_ite]
  · split <;> simp <;> omega
  all_goals omega

/-
  The constructor returns and reads only bytes of the table exactly if the header is there and every
  entry the loop comes to has a length and the bytes read of its type.
-/
theorem robust_iff (m : Memory) (table : Nat) (cpuCores : BitVec 8) :
    (∃ fuel s rs, construct m fuel table cpuCores = some (s, rs) ∧ ∀ r ∈ rs, r < tableEnd m table) ↔
    table + 40 ≤ tableEnd m table ∧
    ∀ q, Reaches m (tableEnd m table) (table + 44) q → q < tableEnd m table →
      0 < entryLength m q ∧ q + extent (entryType m q) ≤ tableEnd m table := by
  simp only [construct, map_eq_some_iff, Prod.mk.injEq, ← reads_inside_iff]
  constructor
  · rintro ⟨fuel, s, rs, ⟨ptrs, hVisited, _, rfl⟩, hInside⟩
    simp only [mem_append, mem_range', mem_flatMap] at hInside
    refine ⟨?_, fun q hReaches hq => ?_⟩
    · have hLast := hInside (table + 39) (.inl (.inl ⟨3, by omega, by omega⟩))
      omega
    · rcases reaches_of_visited hVisited hReaches hq with ⟨hLength, hMem⟩
      exact ⟨hLength, fun r hr => hInside r (.inr ⟨q, hMem, hr⟩)⟩
  rintro ⟨hHeader, hEntries⟩
  rcases visited_of_reaches (fun q hq hStop => (hEntries q hq hStop).1) with
    ⟨fuel, ptrs, hVisited, hAll⟩
  refine ⟨fuel, _, _, ⟨ptrs, hVisited, rfl, rfl⟩, ?_⟩
  simp only [mem_append, mem_range', mem_flatMap]
  rintro r ((⟨i, hi, rfl⟩ | ⟨i, hi, rfl⟩) | ⟨q, hq, hr⟩)
  · omega
  · omega
  · exact (hEntries q (hAll q hq).1 (hAll q hq).2).2 r hr

theorem stuck_at_entry :
    ¬ ∃ fuel, (construct (fun x => if x = 4 then 46 else 0) fuel 0 0).isSome := by
  rintro ⟨fuel, h⟩
  rw [construct, visited_eq_none (by decide) rfl] at h
  cases h

end MADT

end Fennix
