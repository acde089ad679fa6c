import Fennix.Library.Decimal

/-
  The conversions of the kernel from numbers to text.

  Each writes into a static buffer, at offsets from its start that may be negative, so a buffer is
  modelled with what lies around it.
-/

namespace Fennix

open Decimal List Function

abbrev Around :=
  Int → BitVec 8

structure Around.Holds (buffer : Around) (text : List (BitVec 8)) : Prop where
  chars : ∀ (i : Nat) (h : i < text.length), buffer i = text[i]
  terminated : buffer text.length = 0
  noZero : 0 ∉ text

def countDigits (sizeTest size : Nat) : Nat :=
  if sizeTest / 10 > 0 then countDigits (sizeTest / 10) ((size + 1) % 256) else size
termination_by sizeTest
decreasing_by omega

def writeDigits (size : Nat) (buffer : Around) (value index : Nat) : Around :=
  let written := update buffer ((size : Int) - index) (BitVec.ofNat 8 (value % 10 + 48))
  if value / 10 > 0 then writeDigits size written (value / 10) ((index + 1) % 256) else written
termination_by value
decreasing_by omega

def u64ToString (buffer : Around) (value : Nat) : Around :=
  let size := countDigits value 0
  update (writeDigits size buffer value 0) (size + 1) 0

theorem countDigits_eq (value size : Nat) (h : size + (decimal value).length ≤ 256) :
    countDigits value size + 1 = size + (decimal value).length := by
  induction value using decimal_induction generalizing size with
  | hLast n hn =>
    rw [countDigits, if_neg (by omega), decimal_of_lt hn, length_singleton]
  | hMore n hn ih =>
    rw [decimal_of_le hn, length_append, length_singleton] at h
    have hPos := decimal_length_pos (n / 10)
    rw [countDigits, if_pos (by omega), Nat.mod_eq_of_lt (by omega), ih _ (by omega),
      decimal_of_le hn, length_append, length_singleton]
    omega

theorem writeDigits_spec {size : Nat} (index : Nat) (buffer : Around) (value : Nat)
    (hSize : size + 1 = index + (decimal value).length) (hByte : size < 256) :
    (∀ (i : Nat) (h : i < (decimal value).length),
    writeDigits size buffer value index i = (decimal value)[i]) ∧
    ∀ x : Int, (decimal value).length ≤ x → writeDigits size buffer value index x = buffer x := by
  induction value using decimal_induction generalizing index buffer with
  | hLast n hn =>
    rw [decimal_of_lt hn, length_singleton] at hSize
    have hAt : (size : Int) - index = 0 := by omega
    simp only [decimal_of_lt hn, length_singleton]
    rw [writeDigits, if_neg (by omega), hAt, Nat.mod_eq_of_lt hn]
    refine ⟨fun i h => ?_, fun x hx => update_of_ne (by omega) ..⟩
    have hZero : i = 0 := by omega
    subst hZero
    simp [Nat.add_comm]
  | hMore n hn ih =>
    have hLength : (decimal n).length = (decimal (n / 10)).length + 1 := by
      rw [decimal_of_le hn, length_append, length_singleton]
    have hPos := decimal_length_pos (n / 10)
    have hAt : (size : Int) - index = (decimal (n / 10)).length := by omega
    have hNext : (index + 1) % 256 = index + 1 := Nat.mod_eq_of_lt (by omega)
    rw [writeDigits, if_pos (by omega), hAt, hNext]
    rcases ih (index + 1) (update buffer (decimal (n / 10)).length
      (BitVec.ofNat 8 (n % 10 + 48))) (by omega) with ⟨hHead, hRest⟩
    refine ⟨fun i h => ?_, fun x hx => ?_⟩
    · simp only [decimal_of_le hn]
      by_cases hi : i < (decimal (n / 10)).length
      · rw [hHead i hi, getElem_append_left hi]
      have hLast : i = (decimal (n / 10)).length := by omega
      subst hLast
      rw [hRest _ (Int.le_refl _)]
      simp [Nat.add_comm]
    · rw [hRest x (by omega)]
      exact update_of_ne (by omega) ..

theorem u64ToString_decimal (buffer : Around) (value : UInt64) :
    (u64ToString buffer value.toNat).Holds (decimal value.toNat) ∧
    (value.toNat ≠ 0 → (decimal value.toNat).head? ≠ some 48) := by
  have hValue : value.toNat < 10 ^ 20 := Nat.lt_trans value.toNat_lt (by decide)
  have hLength := decimal_length_le (by decide) hValue
  have hSize := countDigits_eq value.toNat 0 (by omega)
  rcases writeDigits_spec 0 buffer value.toNat hSize (by omega) with ⟨hDigits, _⟩
  have hEnd : ((countDigits value.toNat 0 : Int) + 1) = (decimal value.toNat).length := by omega
  refine ⟨⟨fun i h => ?_, ?_, zero_notMem⟩, head_ne_zero⟩
  · rw [u64ToString, update_of_ne (by omega), hDigits i h]
  · rw [u64ToString, hEnd, update_self]

def hexDigit (temp : BitVec 8) : BitVec 8 :=
  temp + if temp > 9 then 55 else 48

def hexByte (size : Nat) (bytes : Nat → BitVec 8) (buffer : Around) (i : Nat) : Around :=
  update
    (update buffer ((size : Int) - (i * 2 + 1 : Nat)) (hexDigit ((bytes i &&& 0xF0) >>> 4)))
    ((size : Int) - (i * 2 : Nat)) (hexDigit (bytes i &&& 0x0F))

/- Shared body of the variants, reading the argument byte by byte through a pointer. -/
def toHexString (size rounds : Nat) (buffer : Around) (bytes : Nat → BitVec 8) : Around :=
  update ((range rounds).foldl (hexByte size bytes) buffer) (size + 1) 0

def argument (n value : Nat) (behind : Nat → BitVec 8) (i : Nat) : BitVec 8 :=
  if i < n then BitVec.ofNat 8 (value / 256 ^ i) else behind i

section

variable (buffer : Around) (value : Nat) (behind : Nat → BitVec 8)

def u64ToHexString : Around :=
  toHexString (8 * 2 - 1) ((8 * 2 - 1) / 2 + 1) buffer (argument 8 value behind)

def u32ToHexString : Around :=
  toHexString (4 * 2 - 1) (4 * 2 - 1) buffer (argument 4 value behind)

def u16ToHexString : Around :=
  toHexString (2 * 2 - 1) (2 * 2 - 1) buffer (argument 2 value behind)

end

inductive HexVariant where
| u64
| u32
| u16
deriving DecidableEq, Repr

def HexVariant.bytes : HexVariant → Nat
| .u64 => 8
| .u32 => 4
| .u16 => 2

def HexVariant.size (v : HexVariant) : Nat :=
  v.bytes * 2 - 1

def HexVariant.rounds (v : HexVariant) : Nat :=
  match v with
  | .u64 => v.size / 2 + 1
  | .u32 => v.size
  | .u16 => v.size

def HexVariant.convert : HexVariant → Around → Nat → (Nat → BitVec 8) → Around
| .u64 => u64ToHexString
| .u32 => u32ToHexString
| .u16 => u16ToHexString

def nibble (bytes : Nat → BitVec 8) (k : Nat) : BitVec 8 :=
  hexDigit (if k % 2 = 0 then bytes (k / 2) &&& 0x0F else (bytes (k / 2) &&& 0xF0) >>> 4)

theorem foldl_hexByte (size rounds : Nat) (bytes : Nat → BitVec 8) (buffer : Around) (x : Int) :
    (range rounds).foldl (hexByte size bytes) buffer x =
    if (size : Int) - (rounds * 2 : Nat) < x ∧ x ≤ size then nibble bytes (size - x).toNat
    else buffer x := by
  induction rounds with
  | zero => rw [if_neg (by omega), range_zero, foldl_nil]
  | succ r ih =>
    rw [range_succ, foldl_append, foldl_cons, foldl_nil, hexByte]
    by_cases hLow : x = (size : Int) - (r * 2 : Nat)
    · have hAt : ((size : Int) - x).toNat = r * 2 := by omega
      rw [← hLow, if_pos (by omega), hAt, nibble]
      simp
    rw [update_of_ne hLow]
    by_cases hHigh : x = (size : Int) - (r * 2 + 1 : Nat)
    · have hAt : ((size : Int) - x).toNat = r * 2 + 1 := by omega
      have hHalf : (r * 2 + 1) / 2 = r := by omega
      rw [hHigh, update_self, ← hHigh, if_pos (by omega), hAt, nibble, if_neg (by omega), hHalf]
    rw [update_of_ne hHigh, ih]
    congr 1
    exact propext (by omega)

def hexChar (d : Nat) : BitVec 8 :=
  BitVec.ofNat 8 (Nat.digitChar d).toUpper.toNat

def hexText (n value : Nat) : List (BitVec 8) :=
  (range (n * 2)).map fun j => hexChar (value / 16 ^ (n * 2 - 1 - j) % 16)

private theorem hexDigit_byte : ∀ b : BitVec 8, hexDigit (b &&& 0x0F) = hexChar (b.toNat % 16) ∧
    hexDigit ((b &&& 0xF0) >>> 4) = hexChar (b.toNat / 16) := by
  decide +kernel

private theorem hexChar_ne_zero : ∀ d : Fin 16, hexChar d ≠ 0 := by
  decide

theorem nibble_argument {n k : Nat} (value : Nat) (behind : Nat → BitVec 8) (hk : k < n * 2) :
    nibble (argument n value behind) k = hexChar (value / 16 ^ k % 16) := by
  have hByte : argument n value behind (k / 2) = BitVec.ofNat 8 (value / 256 ^ (k / 2)) :=
    if_pos (by omega)
  have hSquare : (256 : Nat) ^ (k / 2) = 16 ^ (k / 2 * 2) := by
    rw [Nat.mul_comm, Nat.pow_mul]
  rw [nibble, hByte, hSquare]
  by_cases hEven : k % 2 = 0
  · have hWhole : k / 2 * 2 = k := by omega
    rw [if_pos hEven, (hexDigit_byte _).1, BitVec.toNat_ofNat, hWhole]
    congr 1
    omega
  have hHalf : 16 ^ k = 16 ^ (k / 2 * 2) * 16 := by
    rw [← Nat.pow_succ]
    congr 1
    omega
  rw [if_neg hEven, (hexDigit_byte _).2, BitVec.toNat_ofNat, hHalf, ← Nat.div_div_eq_div_mul]
  congr 1
  omega

namespace HexVariant

variable (v : HexVariant) (buffer : Around) (value : Nat) (behind : Nat → BitVec 8)

theorem bytes_le_rounds : v.bytes ≤ v.rounds ∧ 0 < v.bytes := by
  cases v <;> decide

theorem convert_eq : v.convert buffer value behind =
    toHexString v.size v.rounds buffer (argument v.bytes value behind) := by
  cases v <;> rfl

theorem convert_at (x : Int) : v.convert buffer value behind x =
    if x = v.size + 1 then 0
    else if (v.size : Int) - (v.rounds * 2 : Nat) < x ∧ x ≤ v.size then
    nibble (argument v.bytes value behind) (v.size - x).toNat
    else buffer x := by
  rw [convert_eq, toHexString, update_apply, foldl_hexByte]

theorem convert_holds : (v.convert buffer value behind).Holds (hexText v.bytes value) := by
  have hRounds := v.bytes_le_rounds
  have hSize : v.size = v.bytes * 2 - 1 := rfl
  have hLength : (hexText v.bytes value).length = v.bytes * 2 := by
    rw [hexText, length_map, length_range]
  refine ⟨fun i h => ?_, ?_, fun hZero => ?_⟩
  · have hAt : ((v.size : Int) - i).toNat = v.bytes * 2 - 1 - i := by omega
    rw [convert_at, if_neg (by omega), if_pos (by omega), hAt,
      nibble_argument _ _ (by omega)]
    simp [hexText]
  · rw [convert_at, if_pos (by omega)]
  · rcases mem_map.mp hZero with ⟨j, _, hj⟩
    exact hexChar_ne_zero ⟨_, Nat.mod_lt _ (by decide)⟩ hj

/- Only the buffer is written, only the argument is read, and the text is the right one. -/
structure Correct (v : HexVariant) (value : Nat) : Prop where
  inside : ∀ buffer behind x, x < 0 ∨ 128 ≤ x → v.convert buffer value behind x = buffer x
  argumentOnly : ∀ buffer behind behind',
    v.convert buffer value behind = v.convert buffer value behind'
  text : ∀ buffer behind, (v.convert buffer value behind).Holds (hexText v.bytes value)

theorem u64_correct : Correct .u64 value := by
  have hAt : ∀ buffer behind x, HexVariant.u64.convert buffer value behind x =
      if x = 16 then 0 else if -1 < x ∧ x ≤ 15 then hexChar (value / 16 ^ (15 - x).toNat % 16)
      else buffer x := by
    intro buffer behind x
    rw [convert_at]
    change (if x = 16 then _ else if -1 < x ∧ x ≤ 15 then _ else _) = _
    split_ifs with hEnd hIn
    · rfl
    · exact nibble_argument _ _ (by change (15 - x).toNat < 16; omega)
    · rfl
  refine ⟨fun buffer behind x hx => ?_, fun buffer behind behind' => ?_, fun buffer behind =>
    convert_holds ..⟩
  · rw [hAt, if_neg (by omega), if_neg (by omega)]
  · funext x
    rw [hAt, hAt]

theorem not_correct (hRounds : v.bytes < v.rounds) : ¬ v.Correct value := by
  intro h
  have hSize : v.size = v.bytes * 2 - 1 := rfl
  have hPos := v.bytes_le_rounds.2
  -- the low digit of the first byte behind the argument
  have hWritten : ∀ buffer, v.convert buffer value (fun _ => 0) (-1) = 48 := by
    intro buffer
    have hAt : ((v.size : Int) - -1).toNat = v.bytes * 2 := by omega
    have hBehind : argument v.bytes value (fun _ => 0) (v.bytes * 2 / 2) = 0 := if_neg (by omega)
    rw [convert_at, if_neg (by omega), if_pos (by omega), hAt, nibble, if_pos (by omega), hBehind]
    decide
  have hKept := h.inside (fun _ => 0) (fun _ => 0) (-1) (.inl (by decide))
  rw [hWritten] at hKept
  exact absurd hKept (by decide)

end HexVariant

theorem hexString_correct_iff (v : HexVariant) (value : Nat) : v.Correct value ↔ v = .u64 := by
  constructor
  · intro h
    cases v with
    | u64 => rfl
    | u32 => exact absurd h (HexVariant.not_correct _ _ (by decide))
    | u16 => exact absurd h (HexVariant.not_correct _ _ (by decide))
  · rintro rfl
    exact HexVariant.u64_correct value

theorem u32_writes_before_buffer :
    u32ToHexString (fun _ => 0) 0xDEADBEEF (fun _ => 0) (-1) = 48 := by
  decide

end Fennix
