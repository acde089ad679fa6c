import Mathlib.Data.Nat.Init
import Fennix.Library.Memory

/-
  Pixels of a frame.
-/

structure Frame where
  width : Nat
  height : Nat
  stride : Nat

namespace Frame

variable {f : Frame} {x y n : Nat}

def Shows (f : Frame) (i : Nat) : Prop :=
  i % f.stride < f.width ∧ i / f.stride < f.height

instance (f : Frame) (i : Nat) : Decidable (f.Shows i) :=
  inferInstanceAs (Decidable (_ ∧ _))

theorem shows_of_lt (hStride : f.width ≤ f.stride) (hx : x < f.width) (hy : y < f.height) :
    f.Shows (x + y * f.stride) := by
  have hIn : x < f.stride := Nat.lt_of_lt_of_le hx hStride
  have hPositive : 0 < f.stride := Nat.zero_lt_of_lt hIn
  constructor
  · rw [Nat.add_mul_mod_self_right, Nat.mod_eq_of_lt hIn]
    exact hx
  · rw [Nat.add_mul_div_right _ _ hPositive, Nat.div_eq_of_lt hIn, Nat.zero_add]
    exact hy

theorem not_shows_of_le (hPositive : 0 < f.stride) (hy : f.height ≤ y) :
    ¬ f.Shows (x + y * f.stride) := by
  rintro ⟨_, hRow⟩
  rw [Nat.add_mul_div_right _ _ hPositive] at hRow
  exact absurd hRow (Nat.not_lt.mpr (Nat.le_trans hy (Nat.le_add_left _ _)))

theorem shows_block_iff (hWidth : 0 < f.width) (hStride : f.width ≤ f.stride) (hn : n ≤ f.height) :
    (∀ i < f.width * n, f.Shows i) ↔ f.stride = f.width ∨ n ≤ 1 := by
  constructor
  · intro hAll
    by_contra hNot
    rw [not_or] at hNot
    -- the first hidden pixel is among them
    have hHidden : f.width < f.stride := by omega
    have hTwo : f.width * 2 ≤ f.width * n := Nat.mul_le_mul_left f.width (by omega)
    have hColumn := (hAll f.width (by omega)).1
    rw [Nat.mod_eq_of_lt hHidden] at hColumn
    exact Nat.lt_irrefl _ hColumn
  rintro (hSame | hOne) i hi
  · rw [Shows, hSame]
    have hRow : i / f.width < n := Nat.div_lt_of_lt_mul hi
    exact ⟨Nat.mod_lt i hWidth, by omega⟩
  have hLine : f.width * n ≤ f.width * 1 := Nat.mul_le_mul_left f.width hOne
  have hSome : n ≠ 0 := by
    rintro rfl
    simp at hi
  have hShown := shows_of_lt (x := i) (y := 0) hStride (by omega) (by omega)
  rwa [Nat.zero_mul, Nat.add_zero] at hShown

def pixel (f : Frame) (address : Nat) (m : Memory) (x y : Nat) : Nat :=
  m.load (address + 4 * (x + y * f.stride)) 4

def MovesUp (f : Frame) (lines address : Nat) (move : Memory → Memory) : Prop :=
  ∀ m x y, x < f.width → y < f.height - lines →
    f.pixel address (move m) x y = f.pixel address m x (y + lines)

variable {lines address source bytes : Nat}

theorem movesUp_copy (hDense : f.stride = f.width) (hSource : source = f.width * lines * 4)
    (hBytes : bytes = f.width * (f.height - lines) * 4) :
    f.MovesUp lines address (fun m => m.copy address (address + source) bytes) := by
  intro m x y hx hy
  have hInside : x + y * f.width < f.width * (f.height - lines) := by
    have hRows := Nat.mul_le_mul_right f.width (Nat.succ_le_of_lt hy)
    rw [Nat.succ_mul, Nat.mul_comm (f.height - lines)] at hRows
    omega
  rw [pixel, pixel, hDense]
  apply Memory.load_shift
  intro i hi
  dsimp only [Memory.copy]
  rw [if_pos (by omega), Nat.add_mul, Nat.mul_comm lines]
  congr 1
  omega

theorem source_of_movesUp (hWidth : 0 < f.width) (hLines : lines < f.height)
    (hSome : 0 < lines * f.stride)
    (h : f.MovesUp lines address (fun m => m.copy address (address + source) bytes)) :
    source = 4 * (lines * f.stride) := by
  -- a memory in which only the pixel that is to come first is lit
  have hFirst := congrArg (· % 256) (h (fun a =>
    if a = address + 4 * (lines * f.stride) then 1 else 0) 0 0 hWidth (by omega))
  simp only [pixel, Memory.load, Nat.add_mul_mod_self_left, Nat.zero_add, Nat.zero_mul,
    Nat.mul_zero, Nat.add_zero, if_true, Memory.copy] at hFirst
  split at hFirst
  · split at hFirst
    · omega
    · cases hFirst
  · rw [if_neg (by omega)] at hFirst
    cases hFirst

theorem movesUp_iff (hStride : f.width ≤ f.stride) (hLines : lines < f.height)
    (hHeight : f.height < 2 ^ 32) : f.MovesUp lines address (fun m => m.copy address
    (address + f.width * lines * 4 % 2 ^ 32) (f.width * (f.height - lines) * 4 % 2 ^ 64)) ↔
    f.width = 0 ∨ lines = 0 ∨ f.stride = f.width ∧ f.width * lines * 4 < 2 ^ 32 := by
  constructor
  · intro h
    rcases Nat.eq_zero_or_pos f.width with hNone | hWidth
    · exact .inl hNone
    rcases Nat.eq_zero_or_pos lines with hZero | hSome
    · exact .inr (.inl hZero)
    have hProduct := Nat.mul_le_mul_left lines hStride
    have hPositive : 0 < lines * f.width := Nat.mul_pos hSome hWidth
    have hSource := source_of_movesUp hWidth hLines (by omega) h
    rw [Nat.mul_comm f.width] at hSource ⊢
    have hSame : lines * f.stride = lines * f.width := by omega
    exact .inr (.inr ⟨Nat.eq_of_mul_eq_mul_left hSome hSame, by omega⟩)
  intro h
  by_cases hWidth : f.width = 0
  · intro m x y hx
    omega
  rcases Nat.eq_zero_or_pos lines with rfl | hSome
  · intro m x y _ _
    apply Memory.load_shift
    intro i hi
    simp only [Nat.mul_zero, Nat.zero_mul, Nat.zero_mod, Nat.add_zero, Memory.copy]
    split
    · congr 1
      omega
    · rfl
  have hFits := (h.resolve_left hWidth).resolve_left (by omega)
  have hWide : f.width ≤ f.width * lines := Nat.le_mul_of_pos_right _ hSome
  have hBlock := Nat.mul_le_mul (show f.width ≤ 2 ^ 30 - 1 by omega)
    (show f.height - lines ≤ 2 ^ 32 by omega)
  exact movesUp_copy hFits.1 (Nat.mod_eq_of_lt hFits.2) (Nat.mod_eq_of_lt (by omega))

end Frame

def raster (stride : Nat) (lit : Nat → Nat → Bool) (x₀ x₁ y₀ y₁ : Nat) : List Nat :=
  (List.range' y₀ (y₁ - y₀)).flatMap (fun y => ((List.range' x₀ (x₁ - x₀)).filter (fun x =>
      lit (y - y₀) (x - x₀))).map (fun x => x + y * stride))

theorem mem_raster {stride : Nat} {lit : Nat → Nat → Bool} {x₀ x₁ y₀ y₁ i : Nat} :
    i ∈ raster stride lit x₀ x₁ y₀ y₁ ↔ ∃ x y, (x₀ ≤ x ∧ x < x₁) ∧ (y₀ ≤ y ∧ y < y₁) ∧
    lit (y - y₀) (x - x₀) = true ∧ x + y * stride = i := by
  have hRange : ∀ a b k : Nat, k ∈ List.range' a (b - a) ↔ a ≤ k ∧ k < b := by
    intro a b k
    rw [List.mem_range'_1]
    omega
  simp only [raster, List.mem_flatMap, List.mem_map, List.mem_filter, hRange]
  constructor
  · rintro ⟨y, hy, x, ⟨hx, hLit⟩, hi⟩
    exact ⟨x, y, hx, hy, hLit, hi⟩
  · rintro ⟨x, y, hx, hy, hLit, hi⟩
    exact ⟨y, hy, x, ⟨hx, hLit⟩, hi⟩
