import Mathlib.Tactic.Common
import Mathlib.Algebra.Group.Nat.Defs

/-
  The table-driven checksum of the userspace library.

  The static table is built by the first call.
-/

namespace Fennix

open List BitVec

def POLYNOMIAL : BitVec 32 :=
  0xEDB88320#32

def tableStep (crc : BitVec 32) : BitVec 32 :=
  let mask := -(crc &&& 1#32)
  (crc >>> 1) ^^^ (POLYNOMIAL &&& mask)

def tableEntry (byte : BitVec 32) : BitVec 32 :=
  (range 8).foldl (fun crc _ => tableStep crc) byte

abbrev CrcTable :=
  Fin 256 → BitVec 32

def fullTable : CrcTable :=
  fun byte => tableEntry (BitVec.ofNat 32 byte.val)

theorem lowByte_lt (x : BitVec 32) : (x &&& 0xFF#32).toNat < 256 := by
  rw [toNat_and]
  exact Nat.lt_succ_of_le Nat.and_le_right

def buildTable (table : CrcTable) : CrcTable :=
  if table ⟨1, by decide⟩ = 0 then fullTable else table

/-
  The loop over the data with its `int` counter: `none` if the data end without a terminator or the
  counter overflows.
-/
def crcLoop (table : CrcTable) : List (BitVec 8) → (i : Nat) → BitVec 32 → Option (BitVec 32)
| [], _, _ => none
| data :: rest, i, crc =>
  let byte := data.setWidth 32
  if byte = 0 then some (~~~ crc)
  else if i + 1 = 2 ^ 31 then none
  else
    let index : Fin 256 := ⟨((crc ^^^ byte) &&& 0xFF#32).toNat, lowByte_lt _⟩
    crcLoop table rest (i + 1) ((crc >>> 8) ^^^ table index)

def cyclicRedundancyCheck32 (table : CrcTable) (data : List (BitVec 8)) :
    CrcTable × Option (BitVec 32) :=
  let built := buildTable table
  (built, crcLoop built data 0 0xFFFFFFFF)

def tableAfter (calls : List (List (BitVec 8))) : CrcTable :=
  calls.foldl (fun table data => (cyclicRedundancyCheck32 table data).1) fun _ => 0

------ The Polynomial Division

def crcBit (crc : BitVec 32) (bit : Bool) : BitVec 32 :=
  (crc >>> 1) ^^^ if crc.getLsbD 0 ^^ bit then POLYNOMIAL else 0#32

def bitsOf (byte : BitVec 8) : List Bool :=
  (range 8).map byte.getLsbD

/- The reflected CRC-32 of a message, bit by bit. -/
def crc32 (message : List (BitVec 8)) : BitVec 32 :=
  ~~~ (message.flatMap bitsOf).foldl crcBit 0xFFFFFFFF

------ Eight Steps at Once

variable (crc x y : BitVec 32) (n : Nat)

theorem tableStep_eq : tableStep x = (x >>> 1) ^^^ if x.getLsbD 0 then POLYNOMIAL else 0#32 := by
  rw [tableStep, and_one_eq_setWidth_ofBool_getLsbD]
  cases x.getLsbD 0 <;> rfl

theorem tableStep_xor : tableStep (x ^^^ y) = tableStep x ^^^ tableStep y := by
  simp only [tableStep_eq, getLsbD_xor, ushiftRight_xor_distrib]
  have hCancel : POLYNOMIAL ^^^ (POLYNOMIAL ^^^ ((x >>> 1) ^^^ (y >>> 1))) =
      (x >>> 1) ^^^ (y >>> 1) := by
    rw [← BitVec.xor_assoc, BitVec.xor_self, zero_xor]
  cases x.getLsbD 0 <;> cases y.getLsbD 0
  · simp
  · simp [xor_assoc]
  · simp only [Bool.true_xor, Bool.not_false, if_true, Bool.false_eq_true, if_false, xor_zero]
    ac_rfl
  · simp only [Bool.xor_self, Bool.false_eq_true, if_false, if_true, xor_zero]
    rw [← hCancel]
    ac_rfl

def steps : Nat → BitVec 32 → BitVec 32
| 0, x => x
| n + 1, x => tableStep (steps n x)

theorem foldl_tableStep : (range n).foldl (fun crc _ => tableStep crc) x = steps n x := by
  induction n with
  | zero => rfl
  | succ n ih => rw [range_succ, foldl_append, ih, foldl_cons, foldl_nil, steps]

theorem steps_xor : steps n (x ^^^ y) = steps n x ^^^ steps n y := by
  induction n with
  | zero => rfl
  | succ n ih => rw [steps, ih, tableStep_xor, steps, steps]

theorem steps_of_clear {k : Nat} (hn : n ≤ k) (hClear : ∀ i, i < k → x.getLsbD i = false) :
    steps n x = x >>> n := by
  induction n with
  | zero => rw [steps, ushiftRight_zero]
  | succ n ih =>
    have hLow : (x >>> n).getLsbD 0 = false := by
      rw [getLsbD_ushiftRight]
      exact hClear _ (by omega)
    rw [steps, ih (by omega), tableStep_eq, hLow, ← shiftRight_add]
    simp

theorem steps_eight : steps 8 x = (x >>> 8) ^^^ steps 8 (x &&& 0xFF#32) := by
  have hSplit : x = (x &&& ~~~0xFF#32) ^^^ (x &&& 0xFF#32) := by
    apply eq_of_getLsbD_eq
    intro i hi
    simp only [getLsbD_xor, getLsbD_and, getLsbD_not, hi, decide_true, Bool.true_and]
    cases x.getLsbD i <;> cases (0xFF#32).getLsbD i <;> rfl
  have hMask : ∀ i < 8, (~~~0xFF#32).getLsbD i = false := by
    decide
  have hClear : ∀ i < 8, (x &&& ~~~0xFF#32).getLsbD i = false := by
    intro i hi
    rw [getLsbD_and, hMask i hi, Bool.and_false]
  have hShift : (x &&& ~~~0xFF#32) >>> 8 = x >>> 8 := by
    have hOnes : (~~~0xFF#32) >>> 8 = allOnes 32 >>> 8 := by
      decide
    rw [ushiftRight_and_distrib, hOnes, ← ushiftRight_and_distrib, and_allOnes]
  calc steps 8 x = steps 8 ((x &&& ~~~0xFF#32) ^^^ (x &&& 0xFF#32)) := by rw [← hSplit]
    _ = (x >>> 8) ^^^ steps 8 (x &&& 0xFF#32) := by
      rw [steps_xor, steps_of_clear _ 8 (Nat.le_refl 8) hClear, hShift]

theorem steps_bits (byte : BitVec 8) : steps n (crc ^^^ byte.setWidth 32) =
    ((range n).map byte.getLsbD).foldl crcBit crc ^^^ (byte.setWidth 32 >>> n) := by
  induction n with
  | zero => rw [steps, range_zero, map_nil, foldl_nil, ushiftRight_zero]
  | succ n ih =>
    have hBit : (byte.setWidth 32 >>> n).getLsbD 0 = byte.getLsbD n := by
      rw [getLsbD_ushiftRight, Nat.add_zero, getLsbD_setWidth]
      by_cases hn : n < 32
      · simp [hn]
      · simp [getLsbD_of_ge byte n (by omega)]
    rw [steps, ih, range_succ, map_append, map_singleton, foldl_append, foldl_cons, foldl_nil,
      tableStep_eq, crcBit, getLsbD_xor, hBit, ushiftRight_xor_distrib, ← shiftRight_add]
    ac_rfl

theorem crcByte (byte : BitVec 8) : (bitsOf byte).foldl crcBit crc =
    (crc >>> 8) ^^^ tableEntry ((crc ^^^ byte.setWidth 32) &&& 0xFF#32) := by
  have hGone : byte.setWidth 32 >>> 8 = 0#32 := by
    apply eq_of_getLsbD_eq
    intro i _
    rw [getLsbD_ushiftRight, getLsbD_setWidth, getLsbD_of_ge byte _ (by omega)]
    simp
  have hSteps := steps_bits crc 8 byte
  rw [hGone, xor_zero] at hSteps
  rw [bitsOf, ← hSteps, steps_eight, ushiftRight_xor_distrib, hGone, xor_zero, tableEntry,
    foldl_tableStep]

def CrcTable.Ready (table : CrcTable) : Prop :=
  table = (fun _ => 0) ∨ table = fullTable

theorem buildTable_eq {table : CrcTable} (h : table.Ready) : buildTable table = fullTable := by
  rcases h with rfl | rfl
  · exact if_pos rfl
  · exact if_neg (by decide)

theorem ready_tableAfter (calls : List (List (BitVec 8))) : (tableAfter calls).Ready := by
  apply foldlRecOn calls
  · exact .inl rfl
  · intro table h data _
    exact .inr (buildTable_eq h)

theorem crcLoop_eq (message rest : List (BitVec 8)) (hMessage : 0 ∉ message) (i : Nat)
    (hLength : i + message.length < 2 ^ 31) :
    crcLoop fullTable (message ++ 0 :: rest) i crc =
    some (~~~ (message.flatMap bitsOf).foldl crcBit crc) := by
  induction message generalizing i crc with
  | nil => rfl
  | cons data message ih =>
    rw [length_cons] at hLength
    have hByte : data.setWidth 32 ≠ 0 := by
      intro h
      apply ne_of_not_mem_cons hMessage
      have hNat := congrArg BitVec.toNat h
      rw [toNat_setWidth_of_le (by decide)] at hNat
      exact (eq_of_toNat_eq (y := 0#8) hNat).symm
    have hIndex : BitVec.ofNat 32 ((crc ^^^ data.setWidth 32) &&& 0xFF#32).toNat =
        (crc ^^^ data.setWidth 32) &&& 0xFF#32 := by
      rw [ofNat_toNat, setWidth_eq]
    rw [List.cons_append, crcLoop]
    dsimp only
    rw [if_neg hByte, if_neg (by omega), fullTable, hIndex, ← crcByte,
      ih _ (not_mem_of_not_mem_cons hMessage) _ (by omega), flatMap_cons, foldl_append]

theorem cyclicRedundancyCheck32_eq (calls : List (List (BitVec 8))) (message rest : List (BitVec 8))
    (hMessage : 0 ∉ message) (hLength : message.length < 2 ^ 31) :
    (cyclicRedundancyCheck32 (tableAfter calls) (message ++ 0 :: rest)).2 =
    some (crc32 message) := by
  rw [cyclicRedundancyCheck32, buildTable_eq (ready_tableAfter calls)]
  exact crcLoop_eq _ message rest hMessage 0 (by omega)

theorem cyclicRedundancyCheck32_second :
    (cyclicRedundancyCheck32 (tableAfter [[97, 0]]) ([97, 98, 99] ++ 0 :: [])).2 =
    some (crc32 [97, 98, 99]) :=
  cyclicRedundancyCheck32_eq [[97, 0]] [97, 98, 99] [] (by decide) (by decide)

example : crc32 [97, 98, 99] = 0x352441C2 := by
  decide +kernel

end Fennix
