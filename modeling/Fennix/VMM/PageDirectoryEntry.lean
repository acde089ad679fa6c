import Mathlib.Data.Nat.Bitwise

/-
  Page directory entries and page map indices.

  An entry is one 64-bit word: flags in the low 12 bits, the page frame in bits 12 to 51, and the
  rest untouched.
-/

namespace Fennix

namespace PTFlag

def P : BitVec 64 := 1
def RW : BitVec 64 := 2
def US : BitVec 64 := 4
def PS : BitVec 64 := 0x80

end PTFlag

structure PageDirectoryEntry where
  raw : BitVec 64

namespace PageDirectoryEntry

variable (e : PageDirectoryEntry) (target flags : BitVec 64) {i : Nat}

def addFlag (e : PageDirectoryEntry) (flag : BitVec 64) : PageDirectoryEntry :=
  ⟨e.raw ||| flag⟩

def setFlag (e : PageDirectoryEntry) (flag : BitVec 64) (enabled : Bool) : PageDirectoryEntry :=
  let cleared := e.raw &&& ~~~flag
  ⟨if enabled then cleared ||| flag else cleared⟩

def getFlag (e : PageDirectoryEntry) (flag : BitVec 64) : Bool :=
  decide (0 < e.raw &&& flag)

def clearFlags (_ : PageDirectoryEntry) : PageDirectoryEntry :=
  ⟨0⟩

def frameMask : BitVec 64 := 0x000FFFFFFFFFF000

def keepMask : BitVec 64 := 0xFFF0000000000FFF

def addressMask : BitVec 64 := 0x000000FFFFFFFFFF

def getAddress (e : PageDirectoryEntry) : BitVec 64 :=
  (e.raw &&& frameMask) >>> 12

def setAddress (e : PageDirectoryEntry) (address : BitVec 64) : PageDirectoryEntry :=
  ⟨(e.raw &&& keepMask) ||| ((address &&& addressMask) <<< 12)⟩

def page (e : PageDirectoryEntry) : BitVec 64 :=
  e.getAddress <<< 12

def pointTo (e : PageDirectoryEntry) (target flags : BitVec 64) : PageDirectoryEntry :=
  ((e.setAddress (target >>> 12)).setFlag PTFlag.P true).addFlag flags

def IsPage (a : BitVec 64) : Prop :=
  a.toNat % 4096 = 0 ∧ a.toNat < 2 ^ 52

instance (a : BitVec 64) : Decidable (IsPage a) :=
  inferInstanceAs (Decidable (_ ∧ _))

private theorem getLsbD_frameMask : ∀ i < 64, frameMask.getLsbD i = decide (12 ≤ i ∧ i < 52) := by
  decide

private theorem getLsbD_keepMask : ∀ i < 64, keepMask.getLsbD i = !decide (12 ≤ i ∧ i < 52) := by
  decide

private theorem getLsbD_addressMask : ∀ i < 64, addressMask.getLsbD i = decide (i < 40) := by
  decide

private theorem getLsbD_present : ∀ i < 64, PTFlag.P.getLsbD i = decide (i = 0) := by
  decide

theorem getFlag_twoPow (k : Nat) (hk : k < 64) :
    e.getFlag (BitVec.twoPow 64 k) = e.raw.getLsbD k := by
  have hPos : 0 < BitVec.twoPow 64 k := by
    rw [BitVec.lt_def, BitVec.toNat_twoPow]
    rw [Nat.mod_eq_of_lt (Nat.pow_lt_pow_right (by omega) hk)]
    exact Nat.two_pow_pos k
  unfold getFlag
  rw [BitVec.and_twoPow]
  cases e.raw.getLsbD k with
  | true => simpa using hPos
  | false => simp

theorem getFlag_null (flag : BitVec 64) : getFlag ⟨0⟩ flag = false := by
  simp [getFlag]

theorem getFlag_P : e.getFlag PTFlag.P = e.raw.getLsbD 0 :=
  getFlag_twoPow e 0 (by omega)

theorem getFlag_PS : e.getFlag PTFlag.PS = e.raw.getLsbD 7 :=
  getFlag_twoPow e 7 (by omega)

theorem getLsbD_pointTo (hi : i < 64) : (e.pointTo target flags).raw.getLsbD i =
    ((if 12 ≤ i ∧ i < 52 then target.getLsbD i else e.raw.getLsbD i || decide (i = 0)) ||
    flags.getLsbD i) := by
  simp only [pointTo, addFlag, setFlag, setAddress, if_true, BitVec.getLsbD_or, BitVec.getLsbD_and,
    BitVec.getLsbD_not, BitVec.getLsbD_shiftLeft, BitVec.getLsbD_ushiftRight, getLsbD_keepMask i hi,
    getLsbD_present i hi]
  by_cases hFrame : 12 ≤ i ∧ i < 52
  · have hLow : ¬ i < 12 := by omega
    have hNe : ¬ i = 0 := by omega
    have hMask : addressMask.getLsbD (i - 12) = true := by
      rw [getLsbD_addressMask (i - 12) (by omega)]
      simpa using by omega
    rw [show 12 + (i - 12) = i by omega, hMask, if_pos hFrame]
    simp only [hFrame, hLow, hNe, hi, decide_true, decide_false, Bool.not_true, Bool.not_false,
      Bool.and_false, Bool.and_true, Bool.true_and, Bool.false_or, Bool.or_false, and_self]
  by_cases hLow : i < 12
  · rw [if_neg hFrame]
    by_cases hZero : i = 0
    · simp only [hZero, decide_true, Bool.or_true]
    · simp only [hFrame, hLow, hZero, hi, decide_true, decide_false, Bool.not_true,
        Bool.not_false, Bool.and_false, Bool.and_true, Bool.false_and, Bool.or_false]
  have hMask : addressMask.getLsbD (i - 12) = false := by
    rw [getLsbD_addressMask (i - 12) (by omega)]
    simpa using by omega
  have hNe : ¬ i = 0 := by omega
  rw [hMask, if_neg hFrame]
  simp only [hFrame, hNe, hi, decide_true, decide_false, Bool.not_false, Bool.and_false,
    Bool.and_true, Bool.or_false]

theorem getFlag_P_pointTo : (e.pointTo target flags).getFlag PTFlag.P = true := by
  rw [getFlag_P, getLsbD_pointTo e target flags (by omega)]
  simp

theorem getFlag_PS_pointTo : (e.pointTo target flags).getFlag PTFlag.PS =
    (e.getFlag PTFlag.PS || flags.getLsbD 7) := by
  rw [getFlag_PS, getFlag_PS, getLsbD_pointTo e target flags (by omega)]
  simp

private theorem IsPage.getLsbD_of_outside {a : BitVec 64} (hPage : IsPage a)
    (hi : ¬ (12 ≤ i ∧ i < 52)) : a.getLsbD i = false := by
  rw [← BitVec.testBit_toNat]
  by_cases hLow : i < 12
  · have hMod : a.toNat % 2 ^ 12 = 0 := hPage.1
    have hBit := Nat.testBit_mod_two_pow a.toNat 12 i
    rw [hMod] at hBit
    simpa [hLow] using hBit.symm
  · apply Nat.testBit_lt_two_pow
    exact Nat.lt_of_lt_of_le hPage.2 (Nat.pow_le_pow_right (by omega) (by omega))

def framePage (target : BitVec 64) : BitVec 64 :=
  target &&& frameMask

theorem framePage_of_isPage {a : BitVec 64} (hPage : IsPage a) : framePage a = a := by
  apply BitVec.eq_of_getLsbD_eq
  intro i hi
  rw [framePage, BitVec.getLsbD_and, getLsbD_frameMask i hi]
  by_cases hFrame : 12 ≤ i ∧ i < 52
  · simp [hFrame]
  · rw [hPage.getLsbD_of_outside hFrame, Bool.false_and]

/- Flags that leave the frame field and the size bit alone. -/
def TableFlags (flags : BitVec 64) : Prop :=
  flags &&& frameMask = 0 ∧ flags.getLsbD 7 = false

instance (flags : BitVec 64) : Decidable (TableFlags flags) :=
  inferInstanceAs (Decidable (_ ∧ _))

private theorem TableFlags.getLsbD_frame {flags : BitVec 64} (hFlags : TableFlags flags)
    (hi : 12 ≤ i ∧ i < 52) : flags.getLsbD i = false := by
  have hBit : (flags &&& frameMask).getLsbD i = false := by
    rw [hFlags.1]
    exact BitVec.getLsbD_zero
  rw [BitVec.getLsbD_and, getLsbD_frameMask i (by omega)] at hBit
  simpa [hi] using hBit

theorem tableFlags_of_lt {flags : BitVec 64} (hLow : flags.toNat < 4096)
    (hSize : flags.getLsbD 7 = false) : TableFlags flags := by
  refine ⟨?_, hSize⟩
  apply BitVec.eq_of_getLsbD_eq
  intro i hi
  rw [BitVec.getLsbD_and, getLsbD_frameMask i hi]
  by_cases hFrame : 12 ≤ i ∧ i < 52
  · have hFlag : flags.getLsbD i = false := by
      rw [← BitVec.testBit_toNat]
      apply Nat.testBit_lt_two_pow
      have hPow : 2 ^ 12 ≤ 2 ^ i := Nat.pow_le_pow_right (by omega) hFrame.1
      omega
    simp [hFlag]
  · simp [hFrame]

theorem page_pointTo {flags : BitVec 64} (hFlags : TableFlags flags) :
    (e.pointTo target flags).page = framePage target := by
  apply BitVec.eq_of_getLsbD_eq
  intro i hi
  simp only [page, getAddress, framePage, BitVec.getLsbD_shiftLeft, BitVec.getLsbD_ushiftRight,
    BitVec.getLsbD_and]
  by_cases hFrame : 12 ≤ i ∧ i < 52
  · rw [show 12 + (i - 12) = i by omega, getLsbD_pointTo e target flags hi, getLsbD_frameMask i hi,
      hFlags.getLsbD_frame hFrame]
    simp [hFrame, hi]
  by_cases hLow : i < 12
  · simp [hLow, getLsbD_frameMask i hi]
  · rw [show 12 + (i - 12) = i by omega, getLsbD_frameMask i hi]
    simp [hFrame]

end PageDirectoryEntry

namespace PageMapIndexer

def indexMask : BitVec 64 := 0x1FF

def field (virtualAddress : BitVec 64) (shift : Nat) : BitVec 64 :=
  (virtualAddress &&& (indexMask <<< shift)) >>> shift

theorem field_toNat (virtualAddress : BitVec 64) (shift : Nat) :
    (field virtualAddress shift).toNat = virtualAddress.toNat / 2 ^ shift % 512 := by
  have hMask : field virtualAddress shift = (virtualAddress >>> shift) &&& indexMask := by
    apply BitVec.eq_of_getLsbD_eq
    intro i hi
    simp only [field, BitVec.getLsbD_ushiftRight, BitVec.getLsbD_and, BitVec.getLsbD_shiftLeft]
    by_cases hIn : shift + i < 64
    · have hLow : ¬ shift + i < shift := by omega
      simp only [hIn, hLow, Nat.add_sub_cancel_left, decide_true, decide_false, Bool.not_false,
        Bool.true_and]
    · rw [BitVec.getLsbD_of_ge _ _ (Nat.not_lt.mp hIn)]
      simp only [Bool.false_and]
  have hMod := Nat.and_two_pow_sub_one_eq_mod (virtualAddress.toNat >>> shift) 9
  rw [hMask, BitVec.toNat_and, BitVec.toNat_ushiftRight]
  rw [Nat.shiftRight_eq_div_pow] at hMod ⊢
  exact hMod

def slot (virtualAddress : BitVec 64) (shift : Nat) : Fin 512 :=
  ⟨(field virtualAddress shift).toNat, by
    rw [field_toNat]
    exact Nat.mod_lt _ (by omega)⟩

end PageMapIndexer

structure PageMapIndexer where
  pdp : Fin 512
  pd : Fin 512
  pt : Fin 512
  p : Fin 512
deriving DecidableEq, Repr

namespace PageMapIndexer

def of (virtualAddress : BitVec 64) : PageMapIndexer where
  pdp := slot virtualAddress 39
  pd := slot virtualAddress 30
  pt := slot virtualAddress 21
  p := slot virtualAddress 12

def SamePage (v w : BitVec 64) : Prop :=
  v.toNat / 4096 % 2 ^ 36 = w.toNat / 4096 % 2 ^ 36

instance (v w : BitVec 64) : Decidable (SamePage v w) :=
  inferInstanceAs (Decidable (_ = _))

theorem of_eq_iff (v w : BitVec 64) : of v = of w ↔ SamePage v w := by
  simp only [of, PageMapIndexer.mk.injEq, slot, Fin.mk.injEq, field_toNat, SamePage]
  omega

def Canonical (v : BitVec 64) : Prop :=
  v.toNat < 2 ^ 47 ∨ 2 ^ 64 - 2 ^ 47 ≤ v.toNat

instance (v : BitVec 64) : Decidable (Canonical v) :=
  inferInstanceAs (Decidable (_ ∨ _))

theorem samePage_iff_of_canonical {v w : BitVec 64} (hv : Canonical v) (hw : Canonical w) :
    SamePage v w ↔ v.toNat / 4096 = w.toNat / 4096 := by
  have hvLt := v.isLt
  have hwLt := w.isLt
  simp only [Canonical] at hv hw
  simp only [SamePage]
  omega

end PageMapIndexer

end Fennix
