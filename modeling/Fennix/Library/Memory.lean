import Mathlib.Tactic.Common
import Mathlib.Algebra.Group.Nat.Defs

/-
  Byte-addressed memory with little-endian words.

  A memory is a total map from addresses to bytes.
-/

abbrev Memory :=
  Nat → BitVec 8

namespace Memory

variable (m : Memory) (b : BitVec 8) {a x n a' n' : Nat}

def write (m : Memory) (a : Nat) (b : BitVec 8) : Memory :=
  fun x => if x = a then b else m x

def fill (m : Memory) (a : Nat) (b : BitVec 8) (n : Nat) : Memory :=
  fun x => if a ≤ x ∧ x < a + n then b else m x

def copy (m : Memory) (a source n : Nat) : Memory :=
  fun x =>
    if a ≤ x ∧ x < a + n then m (source + (x - a)) else m x

@[simp] theorem write_same (a : Nat) (b : BitVec 8) : m.write a b a = b := by
  simp [write]

theorem write_other (hx : x ≠ a) : m.write a b x = m x := by
  simp [write, hx]

theorem fill_inside (hLow : a ≤ x) (hHigh : x < a + n) : m.fill a b n x = b := by
  simp [fill, hLow, hHigh]

theorem fill_outside (hx : x < a ∨ a + n ≤ x) : m.fill a b n x = m x := by
  unfold fill
  rw [if_neg]
  omega

theorem copy_outside (source : Nat) (hx : x < a ∨ a + n ≤ x) : m.copy a source n x = m x := by
  unfold copy
  rw [if_neg]
  omega

def load (m : Memory) (a : Nat) : Nat → Nat
| 0 => 0
| n + 1 => (m a).toNat + 256 * load m (a + 1) n

def store (m : Memory) (a n v : Nat) : Memory :=
  fun x =>
    if a ≤ x ∧ x < a + n then
      BitVec.ofNat 8 (v / 256 ^ (x - a))
    else m x

def AgreeOn (m m' : Memory) (a n : Nat) : Prop :=
  ∀ x, a ≤ x → x < a + n → m x = m' x

theorem store_outside (v : Nat) (hx : x < a ∨ a + n ≤ x) : m.store a n v x = m x := by
  unfold store
  rw [if_neg]
  omega

theorem load_shift {m m' : Memory} (h : ∀ i < n, m (a + i) = m' (a' + i)) :
    m.load a n = m'.load a' n := by
  induction n generalizing a a' with
  | zero => rfl
  | succ n ih =>
    have hHead : m a = m' a' := h 0 (by omega)
    have hTail : m.load (a + 1) n = m'.load (a' + 1) n := by
      apply ih
      intro i hi
      rw [Nat.add_assoc, Nat.add_assoc, Nat.add_comm 1]
      exact h (i + 1) (by omega)
    rw [load, load, hHead, hTail]

theorem load_congr {m m' : Memory} (h : AgreeOn m m' a n) : m.load a n = m'.load a n :=
  load_shift (fun i hi => h (a + i) (by omega) (by omega))

theorem load_lt (a n : Nat) : m.load a n < 256 ^ n := by
  induction n generalizing a with
  | zero => simp [load]
  | succ n ih =>
    have hByte : (m a).toNat < 256 := (m a).isLt
    have hRest := ih (a + 1)
    rw [load, Nat.pow_succ]
    omega

private theorem load_store_digits (a n v k j : Nat) (hFit : k + j ≤ n) :
    (m.store a n v).load (a + k) j = v / 256 ^ k % 256 ^ j := by
  induction j generalizing k with
  | zero => simp [load, Nat.mod_one]
  | succ j ih =>
    have hByte : ((m.store a n v) (a + k)).toNat = v / 256 ^ k % 256 := by
      have hIn : a ≤ a + k ∧ a + k < a + n := by omega
      simp [store, hIn]
    have hRest := ih (k + 1) (by omega)
    rw [load, hByte, show a + k + 1 = a + (k + 1) by rfl, hRest, Nat.pow_succ 256 k,
      ← Nat.div_div_eq_div_mul, Nat.pow_succ 256 j, Nat.mul_comm (256 ^ j) 256, Nat.mod_mul]

@[simp] theorem load_store_same (a n v : Nat) : (m.store a n v).load a n = v % 256 ^ n := by
  simpa using load_store_digits m a n v 0 n (by omega)

theorem load_store_other (v : Nat) (hApart : a' + n' ≤ a ∨ a + n ≤ a') :
    (m.store a n v).load a' n' = m.load a' n' := by
  apply load_congr
  intro x hLow hHigh
  exact store_outside m v (by omega)

theorem load_fill_other (hApart : a' + n' ≤ a ∨ a + n ≤ a') :
    (m.fill a b n).load a' n' = m.load a' n' := by
  apply load_congr
  intro x hLow hHigh
  exact fill_outside m b (by omega)

theorem load_fill_zero (hLow : a ≤ a') (hHigh : a' + n' ≤ a + n) :
    (m.fill a 0 n).load a' n' = 0 := by
  induction n' generalizing a' with
  | zero => rfl
  | succ n' ih =>
    have hHead : m.fill a 0 n a' = 0 := fill_inside m 0 hLow (by omega)
    rw [load, hHead, ih (by omega) (by omega)]
    rfl

theorem load_write_other (hApart : a' + n' ≤ a ∨ a < a') :
    (m.write a b).load a' n' = m.load a' n' := by
  apply load_congr
  intro x hLow hHigh
  exact write_other m b (by omega)

end Memory
