import Fennix.Library.OnesComplement
import Fennix.Network.Address

/-
  The checksum of the internet protocol.

  The words of the data are read as the machine stores them, swapped and added up; the carries are
  folded in and the complement is swapped back.
-/

namespace Fennix

open List BitVec Memory

------ The Checksum

def swapHalves (x : BitVec 16) : BitVec 16 :=
  ((x &&& 0xFF00#16) >>> 8) ||| ((x &&& 0x00FF#16) <<< 8)

/- The sum of the words. The last byte of data of odd length is a `char`, which is signed. -/
def addWords (checksum : BitVec 64) : List (BitVec 8) → BitVec 64
| a :: b :: rest =>
  addWords (checksum + (swapHalves (joinBytes 16 [a, b])).setWidth 64) rest
| [last] =>
  checksum + ((last.signExtend 16).setWidth 64 <<< 8)
| [] => checksum

theorem carries_iff (x : BitVec 64) : x &&& 0xFFFF0000#64 = 0#64 ↔
    x.toNat / 2 ^ 16 % 2 ^ 16 = 0 := by
  have hMask : ∀ i, byteAt (x &&& 0xFFFF0000#64) i = byteAt x i &&& byteAt 0xFFFF0000#64 i :=
    byteAt_and x 0xFFFF0000#64
  have hTwo := toNat_byteAt x 2
  have hThree := toNat_byteAt x 3
  constructor
  · intro h
    rw [h] at hMask
    have hByteTwo : byteAt x 2 = 0#8 := by
      have hAnd := hMask 2
      exact (and_allOnes.symm.trans hAnd.symm)
    have hByteThree : byteAt x 3 = 0#8 := by
      have hAnd := hMask 3
      exact (and_allOnes.symm.trans hAnd.symm)
    rw [hByteTwo] at hTwo
    rw [hByteThree] at hThree
    simp only [toNat_ofNat, Nat.zero_mod] at hTwo hThree
    omega
  intro h
  apply eq_of_byteAt (n := 8) rfl
  intro i hi
  rw [hMask]
  by_cases hHigh : i = 2 ∨ i = 3
  · have hZero : byteAt x i = 0#8 := by
      apply eq_of_toNat_eq
      rcases hHigh with rfl | rfl
      · rw [hTwo]
        change _ = 0
        omega
      rw [hThree]
      change _ = 0
      omega
    rw [hZero, zero_and]
    exact (byteAt_zero i).symm
  interval_cases i <;> first
    | exact absurd (by decide) hHigh
    | exact and_zero

theorem toNat_fold (x : BitVec 64) : ((x &&& 0xFFFF#64) + (x >>> 16)).toNat =
    x.toNat % 2 ^ 16 + x.toNat / 2 ^ 16 := by
  have hLow : (x &&& 0xFFFF#64).toNat = x.toNat % 2 ^ 16 :=
    Nat.and_two_pow_sub_one_eq_mod x.toNat 16
  have hLt := x.isLt
  rw [toNat_add, hLow, toNat_ushiftRight, Nat.shiftRight_eq_div_pow]
  omega

def foldCarries (checksum : BitVec 64) : BitVec 64 :=
  if checksum &&& 0xFFFF0000#64 = 0#64 then checksum
  else
    foldCarries ((checksum &&& 0xFFFF#64) + (checksum >>> 16))
termination_by checksum.toNat
decreasing_by
  rename_i hCarries
  rw [carries_iff] at hCarries
  rw [toNat_fold]
  omega

def calculateChecksum (data : List (BitVec 8)) : BitVec 16 :=
  let checksum := foldCarries (addWords 0#64 data)
  setWidth 16 (((~~~checksum &&& 0xFF00#64) >>> 8) ||| ((~~~checksum &&& 0x00FF#64) <<< 8))

theorem swapHalves_eq (x : BitVec 16) : swapHalves x = b16 x := by
  apply eq_of_byteAt (n := 2) rfl
  intro i hi
  have hIn : 8 * i + 8 ≤ 16 := by omega
  change byteAt (((x &&& (0xFF#8).setWidth 16 <<< (8 * 1)) >>> (8 * 1)) |||
    ((x &&& (0xFF#8).setWidth 16 <<< (8 * 0)) <<< (8 * 1))) i = _
  rw [byteAt_or, byteAt_ushiftRight, byteAt_shiftLeft _ _ hIn, b16,
    byteAt_reverseBytes x (by decide) hi]
  interval_cases i <;>
    simp (disch := decide) only [byteAt_mask, byteAt_beyond] <;> simp

theorem toNat_join_two (a b : BitVec 8) :
    (joinBytes 16 [a, b]).toNat = a.toNat + 256 * b.toNat := by
  have hLow := toNat_byteAt (joinBytes 16 [a, b]) 0
  have hHigh := toNat_byteAt (joinBytes 16 [a, b]) 1
  rw [byteAt_joinBytes _ (by decide)] at hLow hHigh
  have hLt := (joinBytes 16 [a, b]).isLt
  simp only [getD_cons_zero, getD_cons_succ, Nat.pow_zero, Nat.pow_one, Nat.div_one] at hLow hHigh
  omega

theorem toNat_swapHalves_join (a b : BitVec 8) : (swapHalves (joinBytes 16 [a, b])).toNat =
    a.toNat * 256 + b.toNat := by
  have hSwap : reverseBytes 2 (joinBytes 16 [a, b]) = joinBytes 16 [b, a] :=
    reverseBytes_joinBytes rfl (by decide)
  rw [swapHalves_eq, b16, hSwap, toNat_join_two]
  omega

def signExcess : List (BitVec 8) → Nat
| _ :: _ :: rest => signExcess rest
| [last] => if last.toNat < 128 then 0 else 0xFF0000
| [] => 0

theorem signExcess_eq_zero_iff (data : List (BitVec 8)) :
    signExcess data = 0 ↔ ∀ last ∈ data.getLast?, data.length % 2 = 1 → last.toNat < 128 := by
  induction data using bigEndianSum.induct with
  | case1 a b rest ih =>
    have hParity : (rest.length + 1 + 1) % 2 = rest.length % 2 := by omega
    rw [signExcess, ih, length_cons, length_cons, hParity]
    cases rest with
    | nil => simp
    | cons c rest => rw [getLast?_cons_cons, getLast?_cons_cons]
  | case2 last => simp [signExcess]
  | case3 => simp [signExcess]

theorem signExcess_cases (data : List (BitVec 8)) :
    signExcess data = 0 ∨ signExcess data = 0xFF0000 := by
  induction data using bigEndianSum.induct with
  | case1 a b rest ih => exact ih
  | case2 last =>
    rw [signExcess]
    split
    · exact .inl rfl
    · exact .inr rfl
  | case3 => exact .inl rfl

theorem shifted_byte (last : BitVec 8) : (last.signExtend 16).setWidth 64 <<< 8 =
    BitVec.ofNat 64 (last.toNat * 256 + if last.toNat < 128 then 0 else 0xFF0000) := by
  revert last
  decide +kernel

theorem addWords_signed (checksum : BitVec 64) (data : List (BitVec 8)) :
    addWords checksum data = checksum + BitVec.ofNat 64 (bigEndianSum data + signExcess data) := by
  induction data using bigEndianSum.induct generalizing checksum with
  | case1 a b rest ih =>
    have hWord : (swapHalves (joinBytes 16 [a, b])).setWidth 64 =
      BitVec.ofNat 64 (a.toNat * 256 + b.toNat) := by
      apply eq_of_toNat_eq
      rw [toNat_setWidth, toNat_swapHalves_join, toNat_ofNat]
    rw [addWords, ih, hWord, bigEndianSum, signExcess, BitVec.add_assoc, BitVec.ofNat_add_ofNat,
      Nat.add_assoc (a.toNat * 256 + b.toNat)]
  | case2 last => rw [addWords, bigEndianSum, signExcess, shifted_byte]
  | case3 => rw [addWords, bigEndianSum, signExcess, BitVec.add_zero]

theorem toNat_foldCarries (x : BitVec 64) (hx : x.toNat < 2 ^ 32) :
    (foldCarries x).toNat = endAround x.toNat := by
  induction x using foldCarries.induct with
  | case1 x hDone =>
    rw [foldCarries, if_pos hDone, endAround_of_lt]
    rw [carries_iff] at hDone
    omega
  | case2 x hCarries ih =>
    rw [foldCarries, if_neg hCarries]
    rw [carries_iff] at hCarries
    rw [toNat_fold] at ih
    rw [ih (by omega)]
    exact (endAround_step (by omega)).symm

theorem foldCarries_modEq (x : BitVec 64) :
    (foldCarries x).toNat ≡ x.toNat [MOD 65535] ∧ (foldCarries x).toNat ≤ x.toNat ∧
    (foldCarries x).toNat / 2 ^ 16 % 2 ^ 16 = 0 := by
  induction x using foldCarries.induct with
  | case1 x hDone =>
    rw [foldCarries, if_pos hDone]
    exact ⟨rfl, Nat.le_refl _, (carries_iff x).mp hDone⟩
  | case2 x hCarries ih =>
    rw [foldCarries, if_neg hCarries]
    rw [carries_iff] at hCarries
    rw [toNat_fold] at ih
    exact ⟨ih.1.trans (fold_modEq x.toNat), by omega, ih.2.2⟩

theorem swap_complement (x : BitVec 64) : setWidth 16
    (((x &&& 0xFF00#64) >>> 8) ||| ((x &&& 0x00FF#64) <<< 8)) = b16 (x.setWidth 16) := by
  apply eq_of_byteAt (n := 2) rfl
  intro i hi
  have hIn : 8 * i + 8 ≤ 64 := by omega
  rw [byteAt_setWidth _ (by omega), b16, byteAt_reverseBytes _ (by decide) hi,
    byteAt_setWidth _ (by omega)]
  change byteAt (((x &&& (0xFF#8).setWidth 64 <<< (8 * 1)) >>> (8 * 1)) |||
    ((x &&& (0xFF#8).setWidth 64 <<< (8 * 0)) <<< (8 * 1))) i = _
  rw [byteAt_or, byteAt_ushiftRight, byteAt_shiftLeft _ _ hIn]
  interval_cases i <;>
    simp (disch := decide) only [byteAt_mask] <;> simp

theorem calculateChecksum_fold (data : List (BitVec 8)) :
    calculateChecksum data = b16 (BitVec.ofNat 16
    (65535 - (foldCarries (addWords 0#64 data)).toNat % 2 ^ 16)) := by
  rw [calculateChecksum, swap_complement]
  congr 1
  apply eq_of_toNat_eq
  have hLt := (foldCarries (addWords 0#64 data)).isLt
  rw [toNat_setWidth, toNat_not, toNat_ofNat]
  omega

def internetChecksum (data : List (BitVec 8)) : BitVec 16 :=
  BitVec.ofNat 16 (65535 - endAround (bigEndianSum data))

theorem b16_inj {x y : BitVec 16} : b16 x = b16 y ↔ x = y := by
  constructor
  · intro h
    rw [← b16_joinBytes x, h, b16_joinBytes]
  · exact fun h => congrArg b16 h

section

variable (data : List (BitVec 8))

theorem calculateChecksum_iff_fold : calculateChecksum data = b16 (internetChecksum data) ↔
    (foldCarries (addWords 0#64 data)).toNat % 2 ^ 16 = endAround (bigEndianSum data) := by
  have hLt := endAround_lt (bigEndianSum data)
  rw [calculateChecksum_fold, b16_inj, internetChecksum, ← toNat_inj, toNat_ofNat, toNat_ofNat]
  omega

theorem toNat_addWords (hLength : data.length ≤ 131072) :
    (addWords 0#64 data).toNat = bigEndianSum data + signExcess data := by
  have hBound := bigEndianSum_le data
  have hExcess := signExcess_cases data
  rw [addWords_signed, BitVec.zero_add, BitVec.toNat_ofNat, Nat.mod_eq_of_lt (by omega)]

theorem calculateChecksum_unsigned (hLength : data.length ≤ 131072) (hNone : signExcess data = 0) :
    calculateChecksum data = b16 (internetChecksum data) := by
  have hBound := bigEndianSum_le data
  have hSum := toNat_addWords data hLength
  rw [calculateChecksum_iff_fold, toNat_foldCarries _ (by omega), hSum, hNone, Nat.add_zero]
  exact Nat.mod_eq_of_lt (endAround_lt _)

theorem calculateChecksum_eq (hEven : data.length % 2 = 0) (hLength : data.length ≤ 131072) :
    calculateChecksum data = b16 (BitVec.ofNat 16 (65535 - endAround (bigEndianSum data))) := by
  apply calculateChecksum_unsigned data hLength
  rw [signExcess_eq_zero_iff]
  intro last _ hOdd
  omega

/- What the code adds up, before it is cut to 64 bits. -/
def wordSum : Nat :=
  bigEndianSum data + signExcess data

/-
  The value at which folding a sum of 64 bits stops. Its bits 16 to 31 are clear; bits 32 and up are
  not looked at and may be set. The second fold leaves at most a carry of bit 32, and later ones
  none.
-/
def settled (sum : Nat) : Nat :=
  let once := sum % 2 ^ 16 + sum / 2 ^ 16
  let twice := once % 2 ^ 16 + once / 2 ^ 16
  if sum / 2 ^ 16 % 2 ^ 16 = 0 then sum
  else if once / 2 ^ 16 % 2 ^ 16 = 0 then once
  else if twice / 2 ^ 16 % 2 ^ 16 = 0 then twice
  else endAround (twice % 2 ^ 16 + twice / 2 ^ 16)

theorem toNat_foldCarries_eq (x : BitVec 64) : (foldCarries x).toNat = settled x.toNat := by
  have hFold : ∀ y : BitVec 64, (foldCarries y).toNat =
    if y.toNat / 2 ^ 16 % 2 ^ 16 = 0 then y.toNat
    else (foldCarries ((y &&& 0xFFFF#64) + (y >>> 16))).toNat := by
    intro y
    rw [foldCarries, apply_ite BitVec.toNat]
    simp only [carries_iff]
  have hLt := x.isLt
  unfold settled
  rw [hFold x, hFold, hFold,
    toNat_foldCarries _ (by rw [toNat_fold, toNat_fold, toNat_fold]; omega)]
  simp only [toNat_fold]

theorem signExcess_of_sum_zero (hZero : bigEndianSum data = 0) : signExcess data = 0 := by
  induction data using bigEndianSum.induct with
  | case1 a b rest ih =>
    rw [bigEndianSum] at hZero
    exact ih (by omega)
  | case2 last =>
    rw [bigEndianSum] at hZero
    exact if_pos (by omega)
  | case3 => rfl

/-
  The result is right exactly if what is lost, the bits from 32 on of the settled sum and the
  overflows of 64 bits, is what the sign of the last byte added, and 0 is not left of another sum.
  For data of at most 131072 bytes nothing is lost.
-/
theorem calculateChecksum_iff :
    (calculateChecksum data = b16 (internetChecksum data) ↔
      settled (wordSum data % 2 ^ 64) / 2 ^ 32 + wordSum data / 2 ^ 64 ≡
        signExcess data [MOD 65535] ∧
      (settled (wordSum data % 2 ^ 64) % 2 ^ 32 = 0 → bigEndianSum data = 0)) ∧
    (data.length ≤ 131072 → (calculateChecksum data = b16 (internetChecksum data) ↔
      ∀ last ∈ data.getLast?, data.length % 2 = 1 → last.toNat < 128)) := by
  have hSum : (addWords 0#64 data).toNat = wordSum data % 2 ^ 64 := by
    rw [addWords_signed, BitVec.zero_add, toNat_ofNat, wordSum]
  have hEnd := endAround_modEq (bigEndianSum data)
  have hEndLt := endAround_lt (bigEndianSum data)
  have hEndZero := endAround_eq_zero (x := bigEndianSum data)
  have hExcess := signExcess_cases data
  have hNone := signExcess_of_sum_zero data
  rcases foldCarries_modEq (addWords 0#64 data) with ⟨hMod, hLe, hMiddle⟩
  rw [calculateChecksum_iff_fold]
  constructor
  · rw [toNat_foldCarries_eq, hSum] at hMod hLe hMiddle ⊢
    rw [wordSum] at hMod hLe hMiddle ⊢
    unfold Nat.ModEq at hMod hEnd ⊢
    omega
  intro hLength
  have hBound := bigEndianSum_le data
  rw [← signExcess_eq_zero_iff, ← calculateChecksum_iff_fold]
  refine ⟨?_, calculateChecksum_unsigned data hLength⟩
  intro hRight
  rw [calculateChecksum_iff_fold] at hRight
  rw [hSum, wordSum] at hMod hLe
  unfold Nat.ModEq at hMod hEnd
  omega

end

theorem calculateChecksum_iff_one_byte :
    calculateChecksum [0x7F#8] = b16 (internetChecksum [0x7F#8]) :=
  ((calculateChecksum_iff [0x7F#8]).2 (by decide)).mpr (by decide)

theorem bigEndianSum_ones (n : Nat) : bigEndianSum (replicate (2 * n) 0xFF#8) = n * 65535 := by
  induction n with
  | zero => rfl
  | succ n ih =>
    rw [Nat.mul_succ, List.replicate_succ, List.replicate_succ, bigEndianSum, ih]
    change 255 * 256 + 255 + _ = _
    omega

theorem last_byte_signed :
    calculateChecksum [0x80#8] = 0x007F#16 ∧ b16 (internetChecksum [0x80#8]) = 0xFF7F#16 ∧
    ∃ data, data.length = 131076 ∧ calculateChecksum data ≠ b16 (internetChecksum data) := by
  refine ⟨?_, ?_, List.replicate (2 * 65537) 0xFF#8 ++ [0#8, 1#8], ?_, ?_⟩
  · rw [calculateChecksum]
    rw [foldCarries, if_neg (by decide), foldCarries, if_pos (by decide)]
    decide
  · rw [internetChecksum, endAround_of_lt (by decide)]
    decide
  · rw [length_append, length_replicate]
    rfl
  · have hSum : bigEndianSum (List.replicate (2 * 65537) 0xFF#8 ++ [0#8, 1#8]) = 2 ^ 32 := by
      rw [bigEndianSum_append _ _ (by rw [length_replicate]), bigEndianSum_ones]
      rfl
    have hNone : signExcess (List.replicate (2 * 65537) 0xFF#8 ++ [0#8, 1#8]) = 0 := by
      rw [signExcess_eq_zero_iff, length_append, length_replicate]
      intro last _ hOdd
      cases hOdd
    rw [Ne, calculateChecksum_iff_fold, addWords_signed, hSum, hNone, foldCarries,
      if_pos (by decide)]
    intro hZero
    exact absurd (endAround_eq_zero.mp hZero.symm) (by decide)

theorem splitBytes_b16 (x : BitVec 16) : splitBytes 2 (b16 x) = [byteAt x 1, byteAt x 0] :=
  splitBytes_reverseBytes x (by decide)

theorem toNat_swapHalves (x : BitVec 16) : (swapHalves x).toNat =
    x.toNat % 256 * 256 + x.toNat / 256 := by
  have hJoin : b16 x = joinBytes 16 [byteAt x 1, byteAt x 0] :=
    rfl
  have hLt := x.isLt
  rw [swapHalves_eq, hJoin, toNat_join_two, toNat_byteAt, toNat_byteAt]
  omega

theorem big_endian_halves (x : BitVec 16) :
    (byteAt x 1).toNat * 256 + (byteAt x 0).toNat = x.toNat := by
  have hLt := x.isLt
  rw [toNat_byteAt, toNat_byteAt]
  omega

theorem calculateChecksum_stored (before behind : List (BitVec 8)) (hBefore : before.length % 2 = 0)
    (hBehind : behind.length % 2 = 0) (hLength : before.length + behind.length ≤ 131070) :
    calculateChecksum (before ++ (splitBytes 2 (calculateChecksum (before ++ ([0, 0] ++ behind))) ++
    behind)) = 0 := by
  have hEven : ∀ field : List (BitVec 8), field.length = 2 →
    (before ++ (field ++ behind)).length % 2 = 0 ∧
    (before ++ (field ++ behind)).length ≤ 131072 := by
    intro field hField
    simp only [length_append, hField]
    omega
  have hSum : ∀ a b : BitVec 8, bigEndianSum (before ++ ([a, b] ++ behind)) =
    bigEndianSum before + bigEndianSum behind + (a.toNat * 256 + b.toNat) := by
    intro a b
    rw [bigEndianSum_append _ _ hBefore, bigEndianSum_append [a, b] behind (by simp)]
    simp only [bigEndianSum]
    omega
  let total := bigEndianSum before + bigEndianSum behind
  have hField : calculateChecksum (before ++ ([0#8, 0#8] ++ behind)) =
    b16 (BitVec.ofNat 16 (65535 - endAround total)) := by
    have hData := hEven [0#8, 0#8] rfl
    rw [calculateChecksum_eq _ hData.1 hData.2, hSum]
    rfl
  have hStored := hEven (splitBytes 2 (calculateChecksum (before ++ ([0, 0] ++ behind)))) (by simp)
  rw [calculateChecksum_eq _ hStored.1 hStored.2]
  change b16 (BitVec.ofNat 16 (65535 - endAround (bigEndianSum
    (before ++ (splitBytes 2 (calculateChecksum
    (before ++ ([0#8, 0#8] ++ behind))) ++ behind))))) = _
  rw [hField, splitBytes_b16, hSum, big_endian_halves, toNat_ofNat,
    Nat.mod_eq_of_lt (by omega), endAround_complement]
  decide

def sealField (m : Memory) (data length field : Nat) : Memory :=
  let cleared := m.store (data + field) 2 0
  cleared.store (data + field) 2 (calculateChecksum (cleared.bytes data length)).toNat

theorem bytes_store_field (m : Memory) (data field k : Nat) (x : BitVec 16) :
    (m.store (data + field) 2 x.toNat).bytes data (field + (2 + k)) =
    m.bytes data field ++ (splitBytes 2 x ++ m.bytes (data + field + 2) k) := by
  rw [bytes_add, bytes_add, bytes_store_same,
    bytes_store_other m _ (by omega), bytes_store_other m _ (by omega)]

theorem calculateChecksum_sealField (m : Memory) (data length field : Nat)
    (hEven : length % 2 = 0) (hLength : length ≤ 131072) (hAligned : field % 2 = 0)
    (hField : field + 2 ≤ length) :
    calculateChecksum ((sealField m data length field).bytes data length) = 0 := by
  obtain ⟨k, rfl⟩ : ∃ k, length = field + (2 + k) := ⟨length - field - 2, by omega⟩
  have hBefore : (m.store (data + field) 2 0).bytes data field = m.bytes data field :=
    bytes_store_other m 0 (by omega)
  have hBehind : (m.store (data + field) 2 0).bytes (data + field + 2) k =
    m.bytes (data + field + 2) k := bytes_store_other m 0 (by omega)
  have hCleared : (m.store (data + field) 2 0).bytes data (field + (2 + k)) =
    m.bytes data field ++ ([0, 0] ++ m.bytes (data + field + 2) k) :=
    bytes_store_field m data field k 0
  rw [sealField, bytes_store_field, hBefore, hBehind, hCleared]
  exact calculateChecksum_stored _ _ (by simpa) (by simp; omega) (by simp; omega)

/- The words 0xFFFF before and behind the field add up to more than 16 bits. -/
theorem calculateChecksum_sealField_ones : calculateChecksum
    ((sealField (fun _ => 0xFF) 0 6 2).bytes 0 6) = 0 :=
  calculateChecksum_sealField (fun _ => 0xFF) 0 6 2 (by decide) (by decide) (by decide) (by decide)

end Fennix
