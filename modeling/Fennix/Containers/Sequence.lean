import Fennix.Containers.Vector
import Fennix.Heap.Clients

/-
  The growing array as a sequence.

  Below its size a `Vector` holds the elements of a list, and the calls do to it what append, drop
  the last, delete one, reverse and nothing do to the list.
-/

namespace Fennix

open List Option Buffer

def Allocatable (bytes : Nat) : Prop :=
  bytes + 32 ≤ 2 ^ 64

------ Vectors that hold a List

namespace Vector

variable {α : Type} {v : Vector α} {xs : List α} {i : Nat}

def withScratch (v : Vector α) (scratch : List α) : Vector α :=
  { v with vectorBuffer := v.vectorBuffer.map (· ++ scratch) }

def withoutScratch (v : Vector α) : Vector α :=
  { v with vectorBuffer := v.vectorBuffer.map (·.take v.vectorCapacity.toNat) }

structure Holds (v : Vector α) (xs : List α) : Prop where
  fits : Fits v
  memory : Allocatable v.vectorCapacity.toNat
  size : v.vectorSize.toNat = xs.length
  elements : ∀ i < xs.length, v.vectorBuffer.read i = xs[i]?

theorem holds_empty : Holds ({} : Vector α) [] :=
  ⟨fits_empty, show 0 + 32 ≤ 2 ^ 64 by decide, rfl, fun _ hi => (Nat.not_lt_zero _ hi).elim⟩

theorem Holds.inside (h : Holds v xs) (hi : i < xs.length) : i < v.vectorBuffer.allocated := by
  have hSize := h.fits.size_le
  rw [h.size] at hSize
  omega

theorem allocated_withScratch {scratch : List α} (hSome : 0 < v.vectorBuffer.allocated) :
    (v.withScratch scratch).vectorBuffer.allocated = v.vectorBuffer.allocated + scratch.length := by
  unfold withScratch
  cases hBuffer : v.vectorBuffer with
  | none =>
    rw [hBuffer] at hSome
    exact (Nat.lt_irrefl 0 hSome).elim
  | some cells =>
    exact length_append

theorem allocated_le_withScratch (scratch : List α) : v.vectorBuffer.allocated ≤
    (v.withScratch scratch).vectorBuffer.allocated := by
  rcases Nat.eq_zero_or_pos v.vectorBuffer.allocated with hZero | hSome
  · omega
  · rw [allocated_withScratch hSome]
    omega

theorem read_withScratch {scratch : List α} (hi : i < v.vectorBuffer.allocated) :
    (v.withScratch scratch).vectorBuffer.read i = v.vectorBuffer.read i := by
  unfold withScratch
  cases hBuffer : v.vectorBuffer with
  | none => rfl
  | some cells =>
    rw [hBuffer] at hi
    exact getElem?_append_left hi

theorem Holds.withScratch (h : Holds v xs) (scratch : List α) :
    Holds (v.withScratch scratch) xs := by
  refine ⟨⟨h.fits.size, Nat.le_trans h.fits.capacity (allocated_le_withScratch scratch)⟩,
    h.memory, h.size, ?_⟩
  intro i hi
  rw [read_withScratch (h.inside hi)]
  exact h.elements i hi

theorem read_withoutScratch (hi : i < v.vectorCapacity.toNat) :
    v.withoutScratch.vectorBuffer.read i = v.vectorBuffer.read i := by
  unfold Vector.withoutScratch Buffer.read
  cases v.vectorBuffer with
  | none => rfl
  | some cells => exact getElem?_take_of_lt hi

theorem Holds.withoutScratch (h : Holds v xs) : Holds v.withoutScratch xs := by
  have hSize := UInt64.le_iff_toNat_le.mp h.fits.size
  have hCapacity := h.fits.capacity
  refine ⟨⟨h.fits.size, ?_⟩, h.memory, h.size, ?_⟩
  · show v.vectorCapacity.toNat ≤ _
    unfold Vector.withoutScratch
    cases hBuffer : v.vectorBuffer with
    | none =>
      rw [hBuffer] at hCapacity
      exact hCapacity
    | some cells =>
      rw [hBuffer] at hCapacity
      show _ ≤ (cells.take _).length
      rw [length_take]
      exact Nat.le_min.mpr ⟨Nat.le_refl _, hCapacity⟩
  intro i hi
  rw [read_withoutScratch (by rw [← h.size] at hi; omega)]
  exact h.elements i hi

theorem Holds.reserve [Inhabited α] (h : Holds v xs) {capacity : UInt64}
    (hSize : v.vectorSize ≤ capacity) (hMemory : Allocatable capacity.toNat) :
    ∃ b, reserve v capacity = some ⟨v.vectorSize, capacity, b⟩ ∧
    Holds ⟨v.vectorSize, capacity, b⟩ xs := by
  rcases reserve_eq h.fits capacity with ⟨b, hReserve, hLength⟩
  refine ⟨b, hReserve, ⟨hSize, Nat.le_of_eq hLength.symm⟩, hMemory, h.size, ?_⟩
  rcases map_eq_some_iff.mp hReserve with ⟨b', hCopy, hEq⟩
  -- the copy takes all elements over
  have hParts := Vector.mk.inj hEq
  rw [hParts.1, hParts.2.2, if_neg (show ¬ capacity < v.vectorSize from fun hLess => by
        rw [UInt64.le_iff_toNat_le] at hSize
        rw [UInt64.lt_iff_toNat_lt] at hLess
        omega)] at hCopy
  intro i hi
  rw [read_copy hCopy, h.size, if_pos hi]
  exact h.elements i hi

theorem Holds.append (h : Holds v xs) (hRoom : v.vectorSize < v.vectorCapacity) (value : α) :
    ∃ b, v.vectorBuffer.write v.vectorSize.toNat value = some b ∧
    Holds ⟨v.vectorSize + 1, v.vectorCapacity, b⟩ (xs ++ [value]) := by
  rw [UInt64.lt_iff_toNat_lt] at hRoom
  have hBound := v.vectorCapacity.toNat_lt
  have hFits := h.fits.capacity
  rcases write_some (show v.vectorSize.toNat < v.vectorBuffer.allocated by omega) value with
    ⟨b, hWrite, hLength⟩
  have hSize : (v.vectorSize + 1).toNat = v.vectorSize.toNat + 1 := by
    rw [UInt64.toNat_add, UInt64.toNat_one, Nat.mod_eq_of_lt (by omega)]
  refine ⟨b, hWrite, ⟨?_, ?_⟩, h.memory, ?_, ?_⟩
  · rw [UInt64.le_iff_toNat_le, hSize]
    exact hRoom
  · rw [hLength]
    exact hFits
  · rw [hSize, h.size, length_append]
    rfl
  · intro i hi
    rw [length_append, length_singleton] at hi
    rw [read_write hWrite, h.size]
    by_cases hLast : i = xs.length
    · rw [if_pos hLast, hLast]
      exact getElem?_concat_length.symm
    · rw [if_neg hLast, getElem?_append_left (by omega)]
      exact h.elements i (by omega)

theorem Holds.pushBack [Inhabited α] (h : Holds v xs)
    (hMemory : v.vectorSize < v.vectorCapacity ∨ Allocatable (v.vectorCapacity.toNat + 5))
    (value : α) : ∃ v', pushBack v value = some v' ∧ Holds v' (xs ++ [value]) := by
  rw [Vector.pushBack]
  split
  · rename_i hFull
    have hFull' := UInt64.le_iff_toNat_le.mp hFull
    have hSize := UInt64.le_iff_toNat_le.mp h.fits.size
    -- more room is needed, and it does not wrap around
    have hMore : Allocatable (v.vectorCapacity.toNat + 5) := by
      rcases hMemory with hLess | hMore
      · rw [UInt64.lt_iff_toNat_lt] at hLess
        omega
      · exact hMore
    have hGrown : (v.vectorCapacity + 5).toNat = v.vectorCapacity.toNat + 5 := by
      unfold Allocatable at hMore
      rw [UInt64.toNat_add]
      exact Nat.mod_eq_of_lt (by
        show v.vectorCapacity.toNat + 5 < 2 ^ 64
        omega)
    rcases h.reserve (show v.vectorSize ≤ v.vectorCapacity + 5 by
          rw [UInt64.le_iff_toNat_le]
          omega)
        (hGrown.symm ▸ hMore) with
      ⟨b, hReserve, hHolds⟩
    rcases hHolds.append (show v.vectorSize < v.vectorCapacity + 5 by
          rw [UInt64.lt_iff_toNat_lt]
          omega) value with
      ⟨b', hWrite, hHolds'⟩
    refine ⟨_, ?_, hHolds'⟩
    dsimp only at hWrite
    rw [hReserve, bind_some, hWrite]
    rfl
  rename_i hRoom
  have hLess : v.vectorSize < v.vectorCapacity := UInt64.not_le.mp hRoom
  rcases h.append hLess value with ⟨b, hWrite, hHolds⟩
  refine ⟨_, ?_, hHolds⟩
  rw [bind_some, hWrite]
  rfl

theorem pushBack_capacity [Inhabited α] {v' : Vector α} {value : α}
    (h : pushBack v value = some v') : v'.vectorCapacity = if v.vectorSize ≥ v.vectorCapacity then
    v.vectorCapacity + 5 else v.vectorCapacity := by
  rcases bind_eq_some_iff.mp h with ⟨w, hRoom, hWrite⟩
  rcases map_eq_some_iff.mp hWrite with ⟨b, _, rfl⟩
  by_cases hFull : v.vectorSize ≥ v.vectorCapacity
  · rw [if_pos hFull] at hRoom ⊢
    rcases map_eq_some_iff.mp hRoom with ⟨b', _, rfl⟩
    rfl
  rw [if_neg hFull] at hRoom ⊢
  cases hRoom
  rfl

theorem Holds.pushBack_tight [Inhabited α] (h : Holds v xs)
    (hTight : v.vectorCapacity.toNat ≤ xs.length + 4) (hMemory : Allocatable (xs.length + 5))
    (value : α) : ∃ v', Vector.pushBack v value = some v' ∧ Holds v' (xs ++ [value]) ∧
    v'.vectorCapacity.toNat ≤ (xs ++ [value]).length + 4 := by
  unfold Allocatable at hMemory
  have hFull : v.vectorSize ≥ v.vectorCapacity → v.vectorCapacity.toNat ≤ xs.length := by
    intro hLe
    rw [← h.size]
    exact UInt64.le_iff_toNat_le.mp hLe
  have hRoom : v.vectorSize < v.vectorCapacity ∨ Allocatable (v.vectorCapacity.toNat + 5) := by
    by_cases hLe : v.vectorSize ≥ v.vectorCapacity
    · have hSmall := hFull hLe
      unfold Allocatable
      exact .inr (by omega)
    · exact .inl (UInt64.not_le.mp hLe)
  rcases h.pushBack hRoom value with ⟨v', hPush, hHolds⟩
  refine ⟨v', hPush, hHolds, ?_⟩
  rw [pushBack_capacity hPush, length_append, length_singleton]
  split
  · rename_i hLe
    have hSmall := hFull hLe
    rw [UInt64.toNat_add]
    refine Nat.le_trans (Nat.mod_le _ _) ?_
    show v.vectorCapacity.toNat + 5 ≤ _
    omega
  · omega

theorem Holds.size_pred (h : Holds v xs) (hSome : 0 < xs.length) :
    (v.vectorSize - 1).toNat = xs.length - 1 := by
  rw [UInt64.toNat_sub_of_le, h.size, UInt64.toNat_one]
  rw [UInt64.le_iff_toNat_le, UInt64.toNat_one, h.size]
  exact hSome

theorem Holds.popBack (h : Holds v xs) (hSome : v.vectorSize ≠ 0) :
    Holds (popBack v) xs.dropLast := by
  have hLength : 0 < xs.length := by
    rw [← h.size]
    apply Nat.pos_of_ne_zero
    exact fun hZero => hSome (UInt64.toNat_inj.mp hZero)
  have hFits := (fits_popBack_iff h.fits).mpr (.inl hSome)
  refine ⟨hFits, h.memory, ?_, ?_⟩
  · rw [length_dropLast]
    exact h.size_pred hLength
  intro i hi
  rw [length_dropLast] at hi
  rw [getElem?_dropLast, if_pos hi]
  exact h.elements i (by omega)

variable {b b' : Buffer α}

theorem read_moveDown {position n : Nat} (h : moveDown position n b = some b') (k : Nat) :
    b'.read k = if position ≤ k ∧ k < position + n then b.read (k + 1)
    else b.read k := by
  induction n generalizing b' k with
  | zero =>
    cases h
    exact (if_neg (by omega)).symm
  | succ n ih =>
    rcases bind_eq_some_iff.mp h with ⟨c, hRounds, hLast⟩
    rcases bind_eq_some_iff.mp hLast with ⟨x, hx, hWrite⟩
    rw [ih hRounds, if_neg (by omega)] at hx
    rw [read_write hWrite, ih hRounds]
    by_cases hk : k = position + n
    · rw [if_pos hk, if_pos (by omega), hk, hx]
    rw [if_neg hk]
    by_cases hMoved : position ≤ k ∧ k < position + n
    · rw [if_pos hMoved, if_pos (by omega)]
    · rw [if_neg hMoved, if_neg (by omega)]

theorem Holds.remove [Inhabited α] (h : Holds v xs) {position : UInt64}
    (hRoom : position.toNat < xs.length → position.toNat + xs.length ≤ v.vectorBuffer.allocated) :
    ∃ v', remove v position = some v' ∧ Holds v' (xs.eraseIdx position.toNat) := by
  by_cases hPast : v.vectorSize ≤ position
  · refine ⟨v, if_pos hPast, ?_⟩
    rw [UInt64.le_iff_toNat_le, h.size] at hPast
    rw [eraseIdx_of_length_le hPast]
    exact h
  have hBelow : position.toNat < xs.length := by
    rw [UInt64.le_iff_toNat_le, h.size] at hPast
    omega
  have hInside := hRoom hBelow
  rcases write_some (h.inside hBelow) default with ⟨b, hWrite, hLength⟩
  have hPred := h.size_pred (Nat.zero_lt_of_lt hBelow)
  rcases moveDown_returns position.toNat (show position.toNat + (v.vectorSize - 1).toNat <
    b.allocated by omega) with ⟨b', hMove, hLength'⟩
  refine ⟨{ v with vectorSize := v.vectorSize - 1, vectorBuffer := b' }, ?_,
    h.fits.pred (by rw [h.size]; omega) (hLength'.trans hLength), h.memory, ?_, ?_⟩
  · rw [Vector.remove, if_neg hPast, hWrite, bind_some, hMove]
    rfl
  · rw [length_eraseIdx_of_lt hBelow]
    exact hPred
  · intro i hi
    rw [length_eraseIdx_of_lt hBelow] at hi
    rw [read_moveDown hMove, hPred, getElem?_eraseIdx]
    by_cases hBefore : i < position.toNat
    · rw [if_pos hBefore, if_neg (by omega), read_write hWrite, if_neg (by omega)]
      exact h.elements i (by omega)
    · rw [if_neg hBefore, if_pos (by omega), read_write hWrite, if_neg (by omega)]
      exact h.elements (i + 1) (by omega)

theorem read_swapEnds {j : Nat} (h : swapEnds i j b = some b') (k : Nat) :
    b'.read k = if i ≤ k ∧ k ≤ j then b.read (i + j - k) else b.read k := by
  induction j generalizing i b with
  | zero =>
    cases h
    split
    · rename_i hk
      rw [show i + 0 - k = k by omega]
    · rfl
  | succ j ih =>
    rw [swapEnds] at h
    split at h
    · rename_i hMore
      rcases bind_eq_some_iff.mp h with ⟨c, hc, h⟩
      rcases bind_eq_some_iff.mp h with ⟨d, hd, h⟩
      rcases bind_eq_some_iff.mp h with ⟨b₁, hFirst, h⟩
      rcases bind_eq_some_iff.mp h with ⟨b₂, hSecond, hRest⟩
      have hBoth : ∀ m, b₂.read m =
          if m = j + 1 then some c
          else if m = i then some d else b.read m := by
        intro m
        rw [read_write hSecond, read_write hFirst]
      rw [ih hRest, hBoth, hBoth]
      by_cases hEnd : k = j + 1
      · rw [if_neg (by omega), if_pos hEnd, if_pos (by omega), ← hc]
        congr 1
        omega
      by_cases hStart : k = i
      · rw [if_neg (by omega), if_neg hEnd, if_pos hStart, if_pos (by omega), ← hd]
        congr 1
        omega
      by_cases hIn : i ≤ k ∧ k ≤ j + 1
      · rw [if_pos (by omega), if_pos hIn, if_neg (by omega), if_neg (by omega)]
        congr 1
        omega
      · rw [if_neg (by omega), if_neg hIn, if_neg hEnd, if_neg hStart]
    cases h
    split
    · rename_i hk
      congr 1
      omega
    · rfl

theorem Holds.reverse (h : Holds v xs) : ∃ v', reverse v = some v' ∧ Holds v' xs.reverse := by
  by_cases hFew : v.vectorSize ≤ 1
  · refine ⟨v, if_pos hFew, ?_⟩
    rw [UInt64.le_iff_toNat_le, h.size, UInt64.toNat_one] at hFew
    have hSame : xs.reverse = xs := by
      match xs, hFew with
      | [], _ => rfl
      | [x], _ => rfl
    rw [hSame]
    exact h
  have hMany : 1 < xs.length := by
    rw [UInt64.le_iff_toNat_le, h.size, UInt64.toNat_one] at hFew
    omega
  have hPred := h.size_pred (Nat.zero_lt_of_lt hMany)
  have hSize := h.fits.size_le
  rw [h.size] at hSize
  rcases swapEnds_returns (i := 0) (show (v.vectorSize - 1).toNat <
    v.vectorBuffer.allocated by omega) with ⟨b, hSwap, hLength⟩
  refine ⟨{ v with vectorBuffer := b }, ?_, ⟨h.fits.size, ?_⟩, h.memory, ?_, ?_⟩
  · rw [Vector.reverse, if_neg hFew, hSwap]
    rfl
  · rw [hLength]
    exact h.fits.capacity
  · rw [length_reverse]
    exact h.size
  · intro i hi
    rw [length_reverse] at hi
    rw [read_swapEnds hSwap, hPred, if_pos (by omega), getElem?_reverse hi,
      show 0 + (xs.length - 1) - i = xs.length - 1 - i by omega]
    exact h.elements _ (by omega)

end Vector

inductive SequenceCall (α : Type)
| pushBack (value : α)
| popBack
| remove (position : UInt64)
| reverse
| reserve (capacity : UInt64)

namespace SequenceCall

variable {α : Type}

def perform [Inhabited α] (v : Vector α) : SequenceCall α → Option (Vector α)
| .pushBack value => v.pushBack value
| .popBack => some v.popBack
| .remove position => v.remove position
| .reverse => v.reverse
| .reserve capacity => v.reserve capacity

def onList (xs : List α) : SequenceCall α → List α
| .pushBack value => xs ++ [value]
| .popBack => xs.dropLast
| .remove position => xs.eraseIdx position.toNat
| .reverse => xs.reverse
| .reserve _ => xs

def Callable (v : Vector α) : SequenceCall α → Prop
| .pushBack _ =>
  v.vectorSize < v.vectorCapacity ∨ Allocatable (v.vectorCapacity.toNat + 5)
| .popBack => v.vectorSize ≠ 0
| .remove _ => True
| .reverse => True
| .reserve capacity =>
  v.vectorSize ≤ capacity ∧ Allocatable capacity.toNat

def touched (v : Vector α) : SequenceCall α → Nat
| .remove position => position.toNat + v.vectorSize.toNat
| _ => 0

def performWith [Inhabited α] (v : Vector α) (scratch : List α)
    (call : SequenceCall α) : Option (Vector α) :=
  (call.perform (v.withScratch scratch)).map Vector.withoutScratch

end SequenceCall

def SequenceStep {α : Type} [Inhabited α] (v : Vector α) (call : SequenceCall α)
    (v' : Vector α) : Prop :=
  call.Callable v ∧ ∃ scratch, call.touched v ≤ scratch.length ∧
      call.performWith v scratch = some v'

section Runs

variable {α : Type} [Inhabited α] {v v' : Vector α} {xs scratch : List α}
variable {call : SequenceCall α}

theorem Vector.Holds.performWith (h : v.Holds xs) (hCallable : call.Callable v)
    (hLong : call.touched v ≤ scratch.length) :
    ∃ v', call.performWith v scratch = some v' ∧ v'.Holds (call.onList xs) := by
  have hScratch := h.withScratch scratch
  have hPerform : ∃ v', call.perform (v.withScratch scratch) =
    some v' ∧ v'.Holds (call.onList xs) := by
    cases call with
    | pushBack value =>
      exact hScratch.pushBack hCallable value
    | popBack => exact ⟨_, rfl, hScratch.popBack hCallable⟩
    | remove position =>
      apply hScratch.remove
      intro hBelow
      rw [Vector.allocated_withScratch (Nat.zero_lt_of_lt (h.inside hBelow))]
      rw [SequenceCall.touched, h.size] at hLong
      omega
    | reverse => exact hScratch.reverse
    | reserve capacity =>
      rcases hScratch.reserve hCallable.1 hCallable.2 with ⟨b, hReserve, hHolds⟩
      exact ⟨_, hReserve, hHolds⟩
  rcases hPerform with ⟨v', hPerform, hHolds⟩
  refine ⟨v'.withoutScratch, ?_, hHolds.withoutScratch⟩
  rw [SequenceCall.performWith, hPerform]
  rfl

theorem Vector.Holds.step (h : v.Holds xs) (hStep : SequenceStep v call v') :
    v'.Holds (call.onList xs) := by
  rcases hStep with ⟨hCallable, scratch, hLong, hPerform⟩
  rcases h.performWith hCallable hLong with ⟨w, hw, hHolds⟩
  rw [hPerform] at hw
  cases hw
  exact hHolds

theorem Vector.Holds.read_removed (h : v.Holds xs) {position : UInt64}
    (hBelow : position.toNat < xs.length) (hMany : 2 ≤ xs.length)
    (hRemove : (SequenceCall.remove position).performWith v scratch = some v') {k : Nat}
    (hFits : position.toNat + xs.length ≤ v.vectorCapacity.toNat)
    (hk : k < v.vectorCapacity.toNat) : v'.vectorBuffer.read k = if position.toNat ≤ k ∧
    k + 1 < position.toNat + xs.length then v.vectorBuffer.read (k + 1)
    else v.vectorBuffer.read k := by
  rcases map_eq_some_iff.mp hRemove with ⟨w, hPerform, rfl⟩
  have hScratch := h.withScratch scratch
  have hInside : ¬ position ≥ (v.withScratch scratch).vectorSize := by
    rw [ge_iff_le, UInt64.le_iff_toNat_le, hScratch.size]
    omega
  have hPred := hScratch.size_pred (Nat.zero_lt_of_lt hBelow)
  rw [SequenceCall.perform, Vector.remove, if_neg hInside] at hPerform
  rcases bind_eq_some_iff.mp hPerform with ⟨b, hWrite, hMap⟩
  rcases map_eq_some_iff.mp hMap with ⟨b', hMove, rfl⟩
  rw [hPred] at hMove
  refine (Vector.read_withoutScratch (v := { v.withScratch scratch with
      vectorSize := _, vectorBuffer := b' }) hk).trans ?_
  show b'.read k = _
  rw [Vector.read_moveDown hMove]
  have hCapacity := h.fits.capacity
  by_cases hMoved : position.toNat ≤ k ∧ k + 1 < position.toNat + xs.length
  · rw [if_pos (by omega), if_pos hMoved, read_write hWrite, if_neg (by omega),
      Vector.read_withScratch (by omega)]
  · rw [if_neg (by omega), if_neg hMoved, read_write hWrite, if_neg (by omega),
      Vector.read_withScratch (by omega)]

theorem Vector.Holds.capacity_removed {position : UInt64}
    (hRemove : (SequenceCall.remove position).performWith v scratch = some v') :
    v'.vectorCapacity = v.vectorCapacity := by
  rcases map_eq_some_iff.mp hRemove with ⟨w, hPerform, rfl⟩
  rw [SequenceCall.perform, Vector.remove] at hPerform
  split at hPerform
  · cases hPerform
    rfl
  rcases bind_eq_some_iff.mp hPerform with ⟨b, _, hMap⟩
  rcases map_eq_some_iff.mp hMap with ⟨b', _, rfl⟩
  rfl

theorem holds_of_run {calls : List (SequenceCall α)}
    (hRun : Run SequenceStep ({} : Vector α) calls v) :
    v.Holds (calls.foldl SequenceCall.onList []) := by
  induction hRun with
  | nil => exact Vector.holds_empty
  | snoc _ hStep ih =>
    rw [foldl_append]
    exact ih.step hStep

theorem vector_implements_sequence {calls : List (SequenceCall α)}
    (hRun : Run SequenceStep ({} : Vector α) calls v) : v.vectorSize.toNat =
    (calls.foldl SequenceCall.onList []).length ∧
    (∀ i < v.vectorSize.toNat, v.vectorBuffer.read i = (calls.foldl SequenceCall.onList [])[i]?) ∧
    (∀ (call : SequenceCall α) (scratch : List α),
    call.Callable v → call.touched v ≤ scratch.length →
    ∃ v', call.performWith v scratch = some v') := by
  have hHolds := holds_of_run hRun
  refine ⟨hHolds.size, ?_, ?_⟩
  · intro i hi
    rw [hHolds.size] at hi
    exact hHolds.elements i hi
  intro call scratch hCallable hLong
  rcases hHolds.performWith hCallable hLong with ⟨v', hPerform, _⟩
  exact ⟨v', hPerform⟩

end Runs

theorem two_pushed_one_removed : ∃ v : Vector Nat, Run SequenceStep {}
    [.pushBack 7, .pushBack 8, .remove 0] v ∧ v.vectorSize.toNat = 1 ∧
    v.vectorBuffer.read 0 = some 8 := by
  have hRun : Run SequenceStep {} [.pushBack 7, .pushBack 8, .remove 0]
      (⟨1, 5, some [8, 8, 0, 0, 0]⟩ : Vector Nat) := by
    have hFirst : SequenceStep ({} : Vector Nat) (.pushBack 7) ⟨1, 5, some [7, 0, 0, 0, 0]⟩ :=
      ⟨Or.inr (show 0 + 5 + 32 ≤ 2 ^ 64 by decide), [], by decide, by decide⟩
    have hSecond : SequenceStep (⟨1, 5, some [7, 0, 0, 0, 0]⟩ : Vector Nat)
      (.pushBack 8) ⟨2, 5, some [7, 8, 0, 0, 0]⟩ :=
      ⟨Or.inl (by decide), [], by decide, by decide⟩
    have hRemove : SequenceStep (⟨2, 5, some [7, 8, 0, 0, 0]⟩ : Vector Nat)
      (.remove 0) ⟨1, 5, some [8, 8, 0, 0, 0]⟩ :=
      ⟨trivial, [3, 4], by decide, by decide⟩
    exact ((Run.nil.snoc hFirst).snoc hSecond).snoc hRemove
  have hResult := vector_implements_sequence hRun
  exact ⟨_, hRun, hResult.1, hResult.2.1 0 (by rw [hResult.1]; decide)⟩

end Fennix
