import Fennix.Library.Memory
import Mathlib.Tactic.IntervalCases

/-
  The bytes of a word.
-/

variable {w : Nat}

def byteAt (x : BitVec w) (i : Nat) : BitVec 8 :=
  x.extractLsb' (8 * i) 8

def splitBytes (n : Nat) (x : BitVec w) : List (BitVec 8) :=
  (List.range n).map (byteAt x)

def joinBytes (w : Nat) : List (BitVec 8) → BitVec w
| [] => 0
| b :: bs => b.setWidth w ||| (joinBytes w bs <<< 8)

def reverseBytes (n : Nat) (x : BitVec w) : BitVec w :=
  joinBytes w (splitBytes n x).reverse

@[simp] theorem length_splitBytes (n : Nat) (x : BitVec w) : (splitBytes n x).length = n := by
  simp [splitBytes]

theorem toNat_byteAt (x : BitVec w) (i : Nat) : (byteAt x i).toNat = x.toNat / 256 ^ i % 256 := by
  have hPow : (2 : Nat) ^ (8 * i) = 256 ^ i := Nat.pow_mul 2 8 i
  rw [byteAt, BitVec.extractLsb'_toNat, Nat.shiftRight_eq_div_pow, hPow]

theorem getLsbD_byteAt (x : BitVec w) (i j : Nat) : (byteAt x i).getLsbD j =
    (decide (j < 8) && x.getLsbD (8 * i + j)) := by
  rw [byteAt, BitVec.getLsbD_extractLsb']

theorem byteAt_or (x y : BitVec w) (i : Nat) : byteAt (x ||| y) i = byteAt x i ||| byteAt y i := by
  apply BitVec.eq_of_getLsbD_eq
  intro j hj
  simp only [getLsbD_byteAt, BitVec.getLsbD_or, hj, decide_true, Bool.true_and]

theorem byteAt_and (x y : BitVec w) (i : Nat) : byteAt (x &&& y) i = byteAt x i &&& byteAt y i := by
  apply BitVec.eq_of_getLsbD_eq
  intro j hj
  simp only [getLsbD_byteAt, BitVec.getLsbD_and, hj, decide_true, Bool.true_and]

variable {i : Nat}

theorem byteAt_shiftLeft (x : BitVec w) (k : Nat) (hi : 8 * i + 8 ≤ w) :
    byteAt (x <<< (8 * k)) i = if k ≤ i then byteAt x (i - k) else 0#8 := by
  apply BitVec.eq_of_getLsbD_eq
  intro j hj
  have hIn : 8 * i + j < w := by omega
  by_cases hk : k ≤ i
  · have hNot : ¬ 8 * i + j < 8 * k := by omega
    have hSub : 8 * i + j - 8 * k = 8 * (i - k) + j := by
      omega
    simp only [getLsbD_byteAt, BitVec.getLsbD_shiftLeft, hj, hIn, hNot, hSub, if_pos hk,
      decide_true, decide_false, Bool.not_false, Bool.true_and]
  have hLow : 8 * i + j < 8 * k := by omega
  simp only [getLsbD_byteAt, BitVec.getLsbD_shiftLeft, hj, hIn, hLow, if_neg hk, decide_true,
    Bool.not_true, Bool.and_false, Bool.false_and, BitVec.getLsbD_zero]

theorem byteAt_ushiftRight (x : BitVec w) (k i : Nat) :
    byteAt (x >>> (8 * k)) i = byteAt x (i + k) := by
  apply BitVec.eq_of_getLsbD_eq
  intro j hj
  have hAdd : 8 * k + (8 * i + j) = 8 * (i + k) + j := by
    omega
  simp only [getLsbD_byteAt, BitVec.getLsbD_ushiftRight, hAdd]

theorem byteAt_setWidth {v : Nat} (x : BitVec v) (hi : 8 * i + 8 ≤ w) :
    byteAt (x.setWidth w) i = byteAt x i := by
  apply BitVec.eq_of_getLsbD_eq
  intro j hj
  have hIn : 8 * i + j < w := by omega
  simp only [getLsbD_byteAt, BitVec.getLsbD_setWidth, hIn, decide_true, Bool.true_and]

theorem setWidth_eq_byteAt (x : BitVec w) : x.setWidth 8 = byteAt x 0 := by
  apply BitVec.eq_of_getLsbD_eq
  intro j hj
  simp only [getLsbD_byteAt, BitVec.getLsbD_setWidth, Nat.mul_zero, Nat.zero_add]

theorem byteAt_byte (b : BitVec 8) (i : Nat) : byteAt b i = if i = 0 then b else 0#8 := by
  apply BitVec.eq_of_getLsbD_eq
  intro j hj
  by_cases hi : i = 0
  · simp only [getLsbD_byteAt, hi, hj, if_true, Nat.mul_zero, Nat.zero_add, decide_true,
      Bool.true_and]
  · have hOut : b.getLsbD (8 * i + j) = false := BitVec.getLsbD_of_ge _ _ (by omega)
    simp only [getLsbD_byteAt, hOut, if_neg hi, Bool.and_false, BitVec.getLsbD_zero]

theorem byteAt_beyond (x : BitVec w) (hi : w ≤ 8 * i) : byteAt x i = 0#8 := by
  apply BitVec.eq_of_getLsbD_eq
  intro j hj
  have hOut : x.getLsbD (8 * i + j) = false := BitVec.getLsbD_of_ge _ _ (by omega)
  simp only [getLsbD_byteAt, hOut, Bool.and_false, BitVec.getLsbD_zero]

theorem byteAt_zero (i : Nat) : byteAt (0#w) i = 0#8 := by
  apply BitVec.eq_of_getLsbD_eq
  intro j hj
  simp only [getLsbD_byteAt, BitVec.getLsbD_zero, Bool.and_false]

theorem byteAt_placed (b : BitVec 8) (k : Nat) (hi : 8 * i + 8 ≤ w) :
    byteAt (b.setWidth w <<< (8 * k)) i = if i = k then b else 0#8 := by
  rw [byteAt_shiftLeft _ _ hi]
  by_cases hk : k ≤ i
  · rw [if_pos hk, byteAt_setWidth _ (by omega), byteAt_byte]
    by_cases hik : i = k
    · rw [if_pos (by omega), if_pos hik]
    · rw [if_neg (by omega), if_neg hik]
  · rw [if_neg hk, if_neg (by omega)]

theorem byteAt_mask (x : BitVec w) (k : Nat) (hi : 8 * i + 8 ≤ w) :
    byteAt (x &&& (0xFF#8).setWidth w <<< (8 * k)) i = if i = k then byteAt x k else 0#8 := by
  rw [byteAt_and, byteAt_placed _ _ hi]
  by_cases hik : i = k
  · have hOnes : (0xFF#8) = BitVec.allOnes 8 := rfl
    rw [if_pos hik, if_pos hik, hik, hOnes, BitVec.and_allOnes]
  · rw [if_neg hik, if_neg hik, BitVec.and_zero]

theorem setWidth_shift_mask (x : BitVec w) (k : Nat) (hw : 8 ≤ w) :
    ((x >>> (8 * k)) &&& (0xFF#8).setWidth w <<< (8 * 0)).setWidth 8 = byteAt x k := by
  rw [setWidth_eq_byteAt, byteAt_mask _ _ (by omega), if_pos rfl, byteAt_ushiftRight, Nat.zero_add]

theorem eq_of_byteAt {n : Nat} {x y : BitVec w} (hw : w = 8 * n)
    (h : ∀ i < n, byteAt x i = byteAt y i) : x = y := by
  apply BitVec.eq_of_getLsbD_eq
  intro k hk
  have hByte := congrArg (fun b => b.getLsbD (k % 8)) (h (k / 8) (by omega))
  have hSplit : 8 * (k / 8) + k % 8 = k := Nat.div_add_mod k 8
  have hSmall : k % 8 < 8 := Nat.mod_lt k (by decide)
  simpa only [getLsbD_byteAt, hSplit, hSmall, decide_true, Bool.true_and] using hByte

theorem byteAt_joinBytes (bs : List (BitVec 8)) (hi : 8 * i + 8 ≤ w) :
    byteAt (joinBytes w bs) i = bs.getD i 0 := by
  induction bs generalizing i with
  | nil =>
    apply BitVec.eq_of_getLsbD_eq
    simp [joinBytes, getLsbD_byteAt]
  | cons b bs ih =>
    apply BitVec.eq_of_getLsbD_eq
    intro j hj
    cases i with
    | zero =>
      have hjw : j < w := by omega
      simp only [joinBytes, getLsbD_byteAt, hj, hjw, BitVec.getLsbD_or, BitVec.getLsbD_setWidth,
        BitVec.getLsbD_shiftLeft, Nat.mul_zero, Nat.zero_add, decide_true, Bool.true_and,
        Bool.not_true, Bool.and_false, Bool.false_and, Bool.or_false, List.getD_cons_zero]
    | succ i =>
      have hRest := congrArg (fun b => b.getLsbD j) (ih (i := i) (by omega))
      have hHigh : 8 * (i + 1) + j - 8 = 8 * i + j := by
        omega
      have hNot : ¬ 8 * (i + 1) + j < 8 := by omega
      have hIn : 8 * (i + 1) + j < w := by omega
      have hOut : b.getLsbD (8 * (i + 1) + j) = false := BitVec.getLsbD_of_ge _ _ (by omega)
      simp only [getLsbD_byteAt, hj, decide_true, Bool.true_and] at hRest
      simp only [joinBytes, getLsbD_byteAt, hj, hHigh, hNot, hIn, hOut, hRest, BitVec.getLsbD_or,
        BitVec.getLsbD_setWidth, BitVec.getLsbD_shiftLeft, decide_true, decide_false,
        Bool.not_false, Bool.true_and, Bool.and_false, Bool.false_or, List.getD_cons_succ]

variable {bs : List (BitVec 8)}

theorem splitBytes_joinBytes {n : Nat} (hLength : bs.length = n) (hw : 8 * n ≤ w) :
    splitBytes n (joinBytes w bs) = bs := by
  apply List.ext_getElem
  · simp [hLength]
  intro i hi hi'
  have hIn : 8 * i + 8 ≤ w := by omega
  simp [splitBytes, byteAt_joinBytes bs hIn, hi']

theorem joinBytes_splitBytes {n : Nat} (x : BitVec w) (hw : w = 8 * n) :
    joinBytes w (splitBytes n x) = x := by
  apply eq_of_byteAt hw
  intro i hi
  rw [byteAt_joinBytes _ (by omega)]
  simp [splitBytes, hi]

variable {k : Nat}

theorem joinBytes_splitBytes_of_lt {n : Nat} (x : BitVec w) (hw : w = 8 * k)
    (hx : x.toNat < 256 ^ n) : joinBytes w (splitBytes n x) = x := by
  apply eq_of_byteAt hw
  intro i hi
  rw [byteAt_joinBytes _ (by omega)]
  by_cases hUsed : i < n
  · simp [splitBytes, hUsed]
  have hLarge : 256 ^ n ≤ 256 ^ i := Nat.pow_le_pow_right (by decide) (Nat.not_lt.mp hUsed)
  have hZero : (byteAt x i).toNat = 0 := by
    rw [toNat_byteAt, Nat.div_eq_of_lt (Nat.lt_of_lt_of_le hx hLarge)]
  rw [List.getD_eq_getElem?_getD, List.getElem?_eq_none (by simpa using hUsed)]
  exact (BitVec.eq_of_toNat_eq hZero).symm

theorem byteAt_reverseBytes {n : Nat} (x : BitVec w) (hw : 8 * n ≤ w) (hi : i < n) :
    byteAt (reverseBytes n x) i = byteAt x (n - 1 - i) := by
  have hIn : 8 * i + 8 ≤ w := by omega
  rw [reverseBytes, byteAt_joinBytes _ hIn]
  simp [splitBytes, hi]

theorem splitBytes_reverseBytes {n : Nat} (x : BitVec w) (hw : 8 * n ≤ w) :
    splitBytes n (reverseBytes n x) = (splitBytes n x).reverse :=
  splitBytes_joinBytes (by simp) hw

theorem reverseBytes_joinBytes {n : Nat} (hLength : bs.length = n) (hw : 8 * n ≤ w) :
    reverseBytes n (joinBytes w bs) = joinBytes w bs.reverse := by
  rw [reverseBytes, splitBytes_joinBytes hLength hw]

variable {cs : List (BitVec 8)}

theorem joinBytes_inj (hLength : bs.length = cs.length) (hw : 8 * cs.length ≤ w) :
    joinBytes w bs = joinBytes w cs ↔ bs = cs := by
  constructor
  · intro h
    have hSplit := congrArg (splitBytes cs.length) h
    rwa [splitBytes_joinBytes hLength hw, splitBytes_joinBytes rfl hw] at hSplit
  · rintro rfl
    rfl

namespace Memory

variable (m : Memory) (a n : Nat)

def bytes (m : Memory) (a n : Nat) : List (BitVec 8) :=
  (List.range n).map (fun i => m (a + i))

def word (w : Nat) (m : Memory) (a n : Nat) : BitVec w :=
  joinBytes w (m.bytes a n)

@[simp] theorem length_bytes : (m.bytes a n).length = n := by
  simp [bytes]

theorem bytes_add (k : Nat) : m.bytes a (n + k) = m.bytes a n ++ m.bytes (a + n) k := by
  simp [bytes, List.range_add, Nat.add_assoc]

theorem bytes_append {m : Memory} {a : Nat} (h : m.bytes a (bs ++ cs).length = bs ++ cs) :
    m.bytes a bs.length = bs ∧ m.bytes (a + bs.length) cs.length = cs := by
  rw [List.length_append, bytes_add] at h
  exact List.append_inj h (by simp)

theorem splitBytes_word (hw : 8 * n ≤ w) : splitBytes n (m.word w a n) = m.bytes a n :=
  splitBytes_joinBytes (length_bytes m a n) hw

theorem bytes_store_same (x : BitVec w) : (m.store a n x.toNat).bytes a n = splitBytes n x := by
  apply List.ext_getElem
  · simp
  intro i hi hi'
  have hIn : i < n := by simpa using hi
  have hByte : BitVec.ofNat 8 (x.toNat / 256 ^ i) = byteAt x i := by
    apply BitVec.eq_of_toNat_eq
    rw [toNat_byteAt, BitVec.toNat_ofNat]
  simp [bytes, store, splitBytes, hIn, hByte]

theorem bytes_store_other {a b n : Nat} (v : Nat) (hApart : a + k ≤ b ∨ b + n ≤ a) :
    (m.store b n v).bytes a k = m.bytes a k := by
  apply List.ext_getElem
  · simp
  intro i hi hi'
  have hIn : i < k := by simpa using hi
  simp only [bytes, List.getElem_map, List.getElem_range]
  exact store_outside m v (by omega)

def place (m : Memory) (a : Nat) (bs : List (BitVec 8)) : Memory :=
  fun x =>
    if a ≤ x ∧ x < a + bs.length then bs.getD (x - a) 0
    else m x

theorem bytes_place (bs : List (BitVec 8)) : (m.place a bs).bytes a bs.length = bs := by
  apply List.ext_getElem
  · simp
  · intro i hi hi'
    simp [bytes, place, hi']

end Memory

structure Put where
  bytes : List (BitVec 8)
  step : Nat

namespace Put

def byte (b : BitVec 8) : Put :=
  ⟨[b], 1⟩

def passed (put : Put) : List (BitVec 8) :=
  put.bytes.take put.step

def run : List Put → Nat → Memory → Memory
| [], _, m => m
| put :: puts, pointer, m => run puts (pointer + put.step) (m.place pointer put.bytes)

def ranges : List Put → Nat → List (Nat × Nat)
| [], _ => []
| put :: puts, pointer => (pointer, pointer + put.bytes.length) :: ranges puts (pointer + put.step)

theorem run_before (puts : List Put) {pointer x : Nat} (m : Memory) (hx : x < pointer) :
    run puts pointer m x = m x := by
  induction puts generalizing pointer m with
  | nil => rfl
  | cons put puts ih =>
    rw [run, ih _ (by omega), Memory.place, if_neg (by omega)]

theorem bytes_run (puts : List Put) (pointer : Nat) (m : Memory)
    (hSteps : ∀ put ∈ puts, put.step ≤ put.bytes.length) :
    (run puts pointer m).bytes pointer (puts.flatMap passed).length = puts.flatMap passed := by
  induction puts generalizing pointer m with
  | nil => rfl
  | cons put puts ih =>
    have hStep := hSteps put List.mem_cons_self
    have hLength : put.passed.length = put.step := List.length_take_of_le hStep
    rw [List.flatMap_cons, List.length_append, Memory.bytes_add, hLength, run,
      ih _ _ (fun other hOther => hSteps other (List.mem_cons_of_mem put hOther))]
    congr 1
    -- nothing that is behind the pointer is written again
    apply List.ext_getElem
    · simp [hLength]
    intro i hi hi'
    have hIn : i < put.step := by simpa using hi
    have hKept := run_before puts (m.place pointer put.bytes)
      (show pointer + i < pointer + put.step by omega)
    simp [Memory.bytes, hKept, Memory.place, passed, show i < put.bytes.length by omega]

end Put
