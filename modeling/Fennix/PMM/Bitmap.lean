import Fennix.Library.Memory

/-
  The bitmap of the page frame allocator.

  A bitmap is a byte count and the address of its buffer; its bits live in memory.
-/

namespace Fennix

open BitVec

variable {i : Nat} (byte : BitVec 8)

def bitIndexer (bitIndex : Nat) : BitVec 8 :=
  0b10000000#8 >>> bitIndex

def byteHas (byte : BitVec 8) (bitIndex : Nat) : Bool :=
  decide (0 < byte &&& bitIndexer bitIndex)

def byteSet (byte : BitVec 8) (bitIndex : Nat) (value : Bool) : BitVec 8 :=
  let cleared := byte &&& ~~~ bitIndexer bitIndex
  if value then cleared ||| bitIndexer bitIndex
  else cleared

private theorem bitIndexer_getLsbD_fin : ∀ i j : Fin 8,
    (bitIndexer i).getLsbD j = decide (i.val + j.val = 7) := by
  decide

theorem bitIndexer_getLsbD {j : Nat} (hi : i < 8) (hj : j < 8) :
    (bitIndexer i).getLsbD j = decide (i + j = 7) :=
  bitIndexer_getLsbD_fin ⟨i, hi⟩ ⟨j, hj⟩

theorem byteHas_eq_getLsbD (hi : i < 8) : byteHas byte i = byte.getLsbD (7 - i) := by
  unfold byteHas
  cases hBit : byte.getLsbD (7 - i) with
  | false =>
    have hZero : byte &&& bitIndexer i = 0 := by
      apply eq_of_getLsbD_eq
      intro j hj
      rw [getLsbD_and, bitIndexer_getLsbD hi hj]
      by_cases h : i + j = 7
      · have hIndex : j = 7 - i := by omega
        simp [hIndex, hBit]
      · simp [h]
    simp [hZero]
  | true =>
    have hNe : byte &&& bitIndexer i ≠ 0 := by
      intro h
      have hRead := congrArg (fun b => b.getLsbD (7 - i)) h
      simp [hBit, bitIndexer_getLsbD hi (j := 7 - i) (by omega)] at hRead
      omega
    simpa using (pos_iff_ne_zero _).mpr hNe

theorem byteSet_getLsbD (i : Nat) (value : Bool) {k : Nat} (hk : k < 8) :
    (byteSet byte i value).getLsbD k = if (bitIndexer i).getLsbD k then value
    else byte.getLsbD k := by
  have hNot : (~~~ bitIndexer i).getLsbD k = !(bitIndexer i).getLsbD k := by
    simp [hk]
  cases value <;>
    cases hMask : (bitIndexer i).getLsbD k <;>
      simp [byteSet, hNot, hMask]

theorem byteHas_byteSet {j : Nat} (hi : i < 8) (hj : j < 8) (value : Bool) :
    byteHas (byteSet byte i value) j = if i = j then value else byteHas byte j := by
  have hMask : (bitIndexer i).getLsbD (7 - j) = decide (i = j) := by
    rw [bitIndexer_getLsbD hi (by omega)]
    exact decide_eq_decide.mpr (by omega)
  rw [byteHas_eq_getLsbD _ hj, byteHas_eq_getLsbD _ hj, byteSet_getLsbD _ _ _ (by omega), hMask]
  simp

theorem byteHas_zero (bitIndex : Nat) : byteHas 0 bitIndex = false := by
  simp [byteHas]

end Fennix

namespace Fennix

structure Bitmap where
  size : Nat
  buffer : Nat
deriving DecidableEq, Repr

namespace Bitmap

variable (b : Bitmap) (m : Memory) {index : Nat} (value : Bool)

def bits (b : Bitmap) : Nat :=
  b.size * 8

def get (b : Bitmap) (m : Memory) (index : Nat) : Bool :=
  if index > b.size * 8 then false
  else byteHas (m (b.buffer + index / 8)) (index % 8)

def set (b : Bitmap) (m : Memory) (index : Nat) (value : Bool) : Bool × Memory :=
  if index > b.size * 8 then (false, m)
  else
    (true, m.write (b.buffer + index / 8) (byteSet (m (b.buffer + index / 8)) (index % 8) value))

theorem get_of_gt (h : b.size * 8 < index) : b.get m index = false := by
  simp [get, h]

theorem set_of_gt (h : b.size * 8 < index) : b.set m index value = (false, m) := by
  simp [set, h]

theorem set_fst_of_le (h : index ≤ b.size * 8) : (b.set m index value).1 = true := by
  simp [set, Nat.not_lt.mpr h]

theorem get_set_same (h : index ≤ b.size * 8) : b.get (b.set m index value).2 index = value := by
  have hMod : index % 8 < 8 := Nat.mod_lt _ (by omega)
  simp [get, set, Nat.not_lt.mpr h, byteHas_byteSet _ hMod hMod]

theorem get_set_other {other : Nat} (h : other ≠ index) :
    b.get (b.set m index value).2 other = b.get m other := by
  unfold get set
  by_cases hOther : other > b.size * 8
  · simp [hOther]
  by_cases hIndex : index > b.size * 8
  · simp [hIndex]
  simp only [hIndex, if_false]
  by_cases hByte : other / 8 = index / 8
  · have hBit : index % 8 ≠ other % 8 := by omega
    rw [hByte, Memory.write_same,
      byteHas_byteSet _ (Nat.mod_lt _ (by omega)) (Nat.mod_lt _ (by omega)), if_neg hBit]
  · rw [Memory.write_other]
    omega

theorem set_other {x : Nat} (hx : x ≠ b.buffer + index / 8) : (b.set m index value).2 x = m x := by
  unfold set
  split
  · rfl
  · exact m.write_other _ hx

theorem read_over_write {i j : Nat} (hi : i < b.bits) (_hj : j < b.bits) :
    (b.set m i value).1 = true ∧
    b.get (b.set m i value).2 i = value ∧
    (j ≠ i → b.get (b.set m i value).2 j = b.get m j) ∧
    ∀ x, x ≠ b.buffer + i / 8 → (b.set m i value).2 x = m x :=
  ⟨b.set_fst_of_le m value (Nat.le_of_lt hi), b.get_set_same m value (Nat.le_of_lt hi),
    b.get_set_other m value,
    fun _ => b.set_other m value⟩

theorem read_over_write_byte :
    Bitmap.get ⟨1, 16⟩ (Bitmap.set ⟨1, 16⟩ (fun _ => 0xff) 3 false).2 3 = false :=
  (read_over_write ⟨1, 16⟩ (fun _ => 0xff) false (i := 3) (j := 4) (by decide) (by decide)).2.1

/- At this index `Get` and `Set` depend on, and change, only the `size` bytes of the buffer, and
answer false without an effect if there is no such bit. -/
def Bounded (b : Bitmap) (index : Nat) : Prop :=
  (∀ m m' : Memory, m.AgreeOn m' b.buffer b.size → b.get m index = b.get m' index ∧
    ∀ value, (b.set m index value).1 = (b.set m' index value).1 ∧
      (b.set m index value).2.AgreeOn (b.set m' index value).2 b.buffer b.size) ∧
  (∀ m value x, x < b.buffer ∨ b.buffer + b.size ≤ x → (b.set m index value).2 x = m x) ∧
  (b.size * 8 ≤ index → ∀ m value, b.get m index = false ∧ b.set m index value = (false, m))

theorem bounded_of_lt (h : index < b.size * 8) : b.Bounded index := by
  have hByte : index / 8 < b.size := by omega
  have hLe := Nat.le_of_lt h
  refine ⟨fun m m' hAgree => ?_, fun m value x hx => b.set_other m value (by omega),
    fun hEnd => by omega⟩
  have hSame := hAgree (b.buffer + index / 8) (by omega) (by omega)
  refine ⟨by simp only [get, hSame], fun value => ⟨?_, fun x hLow hHigh => ?_⟩⟩
  · rw [b.set_fst_of_le m value hLe, b.set_fst_of_le m' value hLe]
  · simp only [set, Nat.not_lt.mpr hLe, if_false, Memory.write, hSame, hAgree x hLow hHigh]

theorem bounded_of_gt (h : b.size * 8 < index) : b.Bounded index := by
  refine ⟨fun m m' hAgree => ?_, fun m value x _ => ?_, fun _ m value => ?_⟩
  · simp only [b.get_of_gt _ h, b.set_of_gt _ _ h, true_and]
    exact fun _ => hAgree
  · rw [b.set_of_gt m value h]
  · exact ⟨b.get_of_gt m h, b.set_of_gt m value h⟩

theorem not_bounded_end : ¬ b.Bounded (b.size * 8) := by
  intro h
  have hSet := b.set_fst_of_le (fun _ => 0) true (Nat.le_refl (b.size * 8))
  rw [(h.2.2 (Nat.le_refl _) (fun _ => 0) true).2] at hSet
  exact Bool.noConfusion hSet

theorem bounded_iff (index : Nat) : b.Bounded index ↔ index ≠ b.size * 8 := by
  constructor
  · rintro h rfl
    exact b.not_bounded_end h
  intro h
  rcases Nat.lt_or_gt_of_ne h with hLow | hHigh
  · exact b.bounded_of_lt hLow
  · exact b.bounded_of_gt hHigh

end Bitmap

end Fennix
