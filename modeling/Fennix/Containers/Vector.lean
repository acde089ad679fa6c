import Fennix.Library.Buffer
import Fennix.Library.Run

/-
  The growing array of the kernel.

  It is in order when the size is at most the capacity and the buffer has room for the capacity.
-/

namespace Fennix

open Option Buffer

structure Vector (α : Type) where
  vectorSize : UInt64 := 0
  vectorCapacity : UInt64 := 0
  vectorBuffer : Buffer α := none
deriving DecidableEq

namespace Vector

variable {α : Type} [Inhabited α]

def ofSize (size : UInt64) : Vector α where
  vectorSize := size
  vectorCapacity := size
  vectorBuffer := new size.toNat

def ofInitial (size : UInt64) (initial : α) : Option (Vector α) :=
  (eachBelow (fun i b => write b i initial) size.toNat (new size.toNat)).map
      (fun b => ⟨size, size, b⟩)

def ofVector (v : Vector α) : Option (Vector α) :=
  (v.vectorBuffer.copy (new v.vectorSize.toNat) v.vectorSize.toNat).map
      (fun b => ⟨v.vectorSize, v.vectorCapacity, b⟩)

/- `operator=`, which first deletes the own buffer. Then it does what the copy constructor does. -/
def assign (_ v : Vector α) : Option (Vector α) :=
  ofVector v

def assignSelf (v : Vector α) : Option (Vector α) :=
  ofVector { v with vectorBuffer := new v.vectorSize.toNat }

def moveDown (position : Nat) : Nat → Buffer α → Option (Buffer α) :=
  eachBelow (fun i b => (b.read (position + i + 1)).bind (b.write (position + i)))

def remove (v : Vector α) (position : UInt64) : Option (Vector α) :=
  if position ≥ v.vectorSize then some v
  else
    (v.vectorBuffer.write position.toNat default).bind
      (fun b => (moveDown position.toNat (v.vectorSize - 1).toNat b).map (fun b => { v with
              vectorSize := v.vectorSize - 1
              vectorBuffer := b }))

def reserve (v : Vector α) (capacity : UInt64) : Option (Vector α) :=
  let size :=
    if v.vectorBuffer = none then 0 else v.vectorSize
  let kept := if capacity < size then capacity else size
  (v.vectorBuffer.copy (new capacity.toNat) kept.toNat).map (fun b => ⟨size, capacity, b⟩)

def pushBack (v : Vector α) (value : α) : Option (Vector α) :=
  (if v.vectorSize ≥ v.vectorCapacity then
      v.reserve (v.vectorCapacity + 5)
    else some v).bind (fun v => (v.vectorBuffer.write v.vectorSize.toNat value).map
        (fun b => { v with vectorSize := v.vectorSize + 1, vectorBuffer := b }))

def popBack (v : Vector α) : Vector α :=
  { v with vectorSize := v.vectorSize - 1 }

def resize (v : Vector α) (size : UInt64) : Option (Vector α) :=
  (v.reserve size).map (fun v => { v with vectorSize := size })

def swapEnds : Nat → Nat → Buffer α → Option (Buffer α)
| _, 0, b => some b
| i, j + 1, b =>
  if i < j + 1 then
    (b.read i).bind (fun c => (b.read (j + 1)).bind (fun d => (b.write i d).bind (fun b =>
          (b.write (j + 1) c).bind (fun b => swapEnds (i + 1) j b))))
  else some b

def reverse (v : Vector α) : Option (Vector α) :=
  if v.vectorSize ≤ 1 then some v
  else
    (swapEnds 0 (v.vectorSize - 1).toNat v.vectorBuffer).map (fun b => { v with vectorBuffer := b })

def clear : Vector α := {}

end Vector

inductive VectorCall (α : Type)
| construct (v : Nat)
| constructSize (v : Nat) (size : UInt64)
| constructInitial (v : Nat) (size : UInt64) (initial : α)
| constructCopy (v w : Nat)
| assign (v w : Nat)
| pushBack (v : Nat) (value : α)
| popBack (v : Nat)
| remove (v : Nat) (position : UInt64)
| reserve (v : Nat) (capacity : UInt64)
| resize (v : Nat) (size : UInt64)
| reverse (v : Nat)
| clear (v : Nat)

namespace Vector

variable {α : Type}

abbrev Store (α : Type) :=
  Nat → Vector α

def effect [Inhabited α] (s : Store α) : VectorCall α → Nat × Option (Vector α)
| .construct v => (v, some {})
| .constructSize v size => (v, some (ofSize size))
| .constructInitial v size initial =>
  (v, ofInitial size initial)
| .constructCopy v w => (v, ofVector (s w))
| .assign v w =>
  (v, if v = w then assignSelf (s v)
    else assign (s v) (s w))
| .pushBack v value => (v, pushBack (s v) value)
| .popBack v => (v, some (popBack (s v)))
| .remove v position => (v, remove (s v) position)
| .reserve v capacity => (v, reserve (s v) capacity)
| .resize v size => (v, resize (s v) size)
| .reverse v => (v, reverse (s v))
| .clear v => (v, some clear)

def execute [Inhabited α] (s : Store α) (call : VectorCall α) : Option (Store α) :=
  (effect s call).2.map (fun vector => fun v => if v = (effect s call).1 then vector else s v)

structure Fits (v : Vector α) : Prop where
  size : v.vectorSize ≤ v.vectorCapacity
  capacity : v.vectorCapacity.toNat ≤ v.vectorBuffer.allocated

def Allowed (s : Store α) : VectorCall α → Prop
| .constructCopy _ w =>
  (s w).vectorCapacity = (s w).vectorSize
| .assign _ w =>
  (s w).vectorCapacity = (s w).vectorSize
| .pushBack v _ =>
  (s v).vectorSize < (s v).vectorCapacity ∨ (s v).vectorCapacity.toNat + 5 < 2 ^ 64
| .popBack v =>
  (s v).vectorSize ≠ 0 ∨ (s v).vectorCapacity.toNat = 2 ^ 64 - 1
| .remove v position =>
  (s v).vectorSize ≤ position ∨ position.toNat + (s v).vectorSize.toNat ≤
      (s v).vectorBuffer.allocated
| .reserve v capacity => (s v).vectorSize ≤ capacity
| _ => True

------ What each Operation keeps

section Operations

variable {v : Vector α} {b : Buffer α}

def Good (result : Option (Vector α)) : Prop :=
  ∃ v, result = some v ∧ Fits v

theorem good_some : Good (some v) ↔ Fits v := by
  constructor
  · rintro ⟨w, hEq, hFits⟩
    cases hEq
    exact hFits
  · exact fun hFits => ⟨v, rfl, hFits⟩

theorem not_good_none : ¬ Good (none : Option (Vector α)) := by
  rintro ⟨v, hEq, _⟩
  cases hEq

theorem Fits.size_le (h : Fits v) : v.vectorSize.toNat ≤ v.vectorBuffer.allocated :=
  Nat.le_trans (UInt64.le_iff_toNat_le.mp h.size) h.capacity

theorem fits_empty : Fits ({} : Vector α) :=
  ⟨UInt64.le_refl _, Nat.le_refl _⟩

private theorem toNat_pred {size : UInt64} (hSome : 0 < size.toNat) :
    (size - 1).toNat = size.toNat - 1 := by
  apply UInt64.toNat_sub_of_le
  rw [UInt64.le_iff_toNat_le, UInt64.toNat_one]
  exact hSome

theorem Fits.pred (h : Fits v) (hSome : 0 < v.vectorSize.toNat)
    (hLength : b.allocated = v.vectorBuffer.allocated) :
    Fits { v with vectorSize := v.vectorSize - 1, vectorBuffer := b } := by
  have hSize := UInt64.le_iff_toNat_le.mp h.size
  constructor
  · rw [UInt64.le_iff_toNat_le, toNat_pred hSome]
    exact Nat.le_trans (Nat.sub_le _ _) hSize
  · rw [hLength]
    exact h.capacity

theorem fits_popBack_iff (h : Fits v) : Fits (popBack v) ↔
    v.vectorSize ≠ 0 ∨ v.vectorCapacity.toNat = 2 ^ 64 - 1 := by
  by_cases hZero : v.vectorSize = 0
  · have hLast : (popBack v).vectorSize.toNat = 2 ^ 64 - 1 := by
      simp only [popBack, hZero]
      rfl
    have hBound := v.vectorCapacity.toNat_lt
    constructor
    · intro hFits
      have hSize := UInt64.le_iff_toNat_le.mp hFits.size
      rw [hLast] at hSize
      have hSame : (popBack v).vectorCapacity = v.vectorCapacity := rfl
      rw [hSame] at hSize
      exact .inr (by omega)
    rintro (hNot | hFull)
    · exact (hNot hZero).elim
    refine ⟨?_, h.capacity⟩
    rw [UInt64.le_iff_toNat_le, hLast]
    exact Nat.le_of_eq hFull.symm
  have hSome : 0 < v.vectorSize.toNat := by
    apply Nat.pos_of_ne_zero
    intro hNat
    exact hZero (UInt64.toNat_inj.mp hNat)
  exact ⟨fun _ => Or.inl hZero, fun _ => h.pred hSome rfl⟩

theorem swapEnds_returns {i j : Nat} (hj : j < b.allocated) : ∃ b', swapEnds i j b = some b' ∧
    b'.allocated = b.allocated := by
  induction j generalizing i b with
  | zero => exact ⟨b, rfl, rfl⟩
  | succ j ih =>
    rw [swapEnds]
    by_cases hMore : i < j + 1
    · have hi : i < b.allocated := by omega
      rcases read_some hi with ⟨c, hc⟩
      rcases read_some hj with ⟨d, hd⟩
      rcases write_some hi d with ⟨b₁, hFirst, hLength₁⟩
      rw [← hLength₁] at hj
      rcases write_some hj c with ⟨b₂, hSecond, hLength₂⟩
      rcases ih (show j < b₂.allocated by omega) with ⟨b', hRest, hLength⟩
      refine ⟨b', ?_, by omega⟩
      rw [if_pos hMore, hc, bind_some, hd, bind_some, hFirst, bind_some, hSecond]
      exact hRest
    · rw [if_neg hMore]
      exact ⟨b, rfl, rfl⟩

theorem good_reverse (h : Fits v) : Good (reverse v) := by
  rw [reverse]
  split
  · exact good_some.mpr h
  rename_i hMany
  rw [UInt64.le_iff_toNat_le, UInt64.toNat_one] at hMany
  have hSome : 0 < v.vectorSize.toNat := by omega
  have hSize := h.size_le
  have hLast : (v.vectorSize - 1).toNat < v.vectorBuffer.allocated := by
    rw [toNat_pred hSome]
    omega
  rcases swapEnds_returns (i := 0) hLast with ⟨b, hSwap, hLength⟩
  rw [hSwap]
  refine good_some.mpr ⟨h.size, ?_⟩
  rw [hLength]
  exact h.capacity

theorem moveDown_returns (position : Nat) {n : Nat} (hRoom : position + n < b.allocated) :
    ∃ b', moveDown position n b = some b' ∧ b'.allocated = b.allocated := by
  refine eachBelow_returns (P := fun c : Buffer α => c.allocated = b.allocated) ?_ rfl
  intro i hi c hc
  rcases read_some (show position + i + 1 < c.allocated by omega) with ⟨x, hx⟩
  rcases write_some (show position + i < c.allocated by omega) x with ⟨c', hWrite, hLength⟩
  refine ⟨c', ?_, hLength.trans hc⟩
  rw [hx]
  exact hWrite

theorem moveDown_fails (position : Nat) {n : Nat} (hRoom : b.allocated ≤ position + n)
    (hn : 0 < n) : moveDown position n b = none := by
  refine eachBelow_fails (P := fun c : Buffer α => c.allocated = b.allocated)
    (show n - 1 < n by omega) ?_ ?_ rfl
  · intro i c c' hc hMove
    rcases bind_eq_some_iff.mp hMove with ⟨x, _, hWrite⟩
    exact (allocated_write hWrite).trans hc
  intro c hc
  rw [read_none (by omega)]
  rfl

private theorem good_append {capacity : UInt64} (hRoom : v.vectorSize < capacity)
    (hBuffer : capacity.toNat ≤ b.allocated) (value : α) :
    Good ((b.write v.vectorSize.toNat value).map (fun b => (⟨v.vectorSize + 1, capacity, b⟩
    : Vector α))) := by
  rw [UInt64.lt_iff_toNat_lt] at hRoom
  rcases write_some (show v.vectorSize.toNat < b.allocated by omega) value with
    ⟨b', hWrite, hLength⟩
  have hBound := capacity.toNat_lt
  rw [hWrite]
  refine good_some.mpr ⟨?_, Nat.le_trans hBuffer (Nat.le_of_eq hLength.symm)⟩
  rw [UInt64.le_iff_toNat_le, UInt64.toNat_add, UInt64.toNat_one, Nat.mod_eq_of_lt (by omega)]
  exact hRoom

variable [Inhabited α]

theorem fits_ofSize (size : UInt64) : Fits (ofSize size : Vector α) :=
  ⟨UInt64.le_refl _, by simp [ofSize]⟩

theorem good_ofInitial (size : UInt64) (initial : α) : Good (ofInitial size initial) := by
  have hLoop : ∃ b, eachBelow (fun i b => write b i initial) size.toNat (new size.toNat) = some b ∧
      b.allocated = size.toNat := by
    refine eachBelow_returns (P := fun b : Buffer α =>
        b.allocated = size.toNat) ?_ allocated_new
    intro i hi b hb
    rcases write_some (show i < b.allocated by omega) initial with ⟨b', hWrite, hLength⟩
    exact ⟨b', hWrite, hLength.trans hb⟩
  rcases hLoop with ⟨b, hb, hLength⟩
  rw [ofInitial, hb]
  refine good_some.mpr ⟨UInt64.le_refl _, ?_⟩
  exact Nat.le_of_eq hLength.symm

theorem good_ofVector_iff (hSize : v.vectorSize ≤ v.vectorCapacity)
    (hBuffer : v.vectorSize.toNat ≤ v.vectorBuffer.allocated) :
    Good (ofVector v) ↔ v.vectorCapacity = v.vectorSize := by
  rcases copy_returns hBuffer (Nat.le_of_eq (allocated_new).symm) with ⟨b, hCopy, hLength⟩
  rw [allocated_new] at hLength
  have hResult : ofVector v = some ⟨v.vectorSize, v.vectorCapacity, b⟩ := by
    rw [ofVector, hCopy]
    rfl
  rw [hResult]
  constructor
  · intro hGood
    have hRoom := (good_some.mp hGood).capacity
    rw [hLength] at hRoom
    exact UInt64.le_antisymm (UInt64.le_iff_toNat_le.mpr hRoom) hSize
  intro hEq
  refine good_some.mpr ⟨hSize, Nat.le_of_eq ?_⟩
  rw [hLength, hEq]

theorem good_assignSelf_iff (h : Fits v) : Good (assignSelf v) ↔ v.vectorCapacity = v.vectorSize :=
  good_ofVector_iff h.size (Nat.le_of_eq allocated_new.symm)

theorem good_remove_iff (h : Fits v) (position : UInt64) : Good (remove v position) ↔
    v.vectorSize ≤ position ∨ position.toNat + v.vectorSize.toNat ≤ v.vectorBuffer.allocated := by
  rw [remove]
  split
  · rename_i hPast
    exact ⟨fun _ => Or.inl hPast, fun _ => good_some.mpr h⟩
  rename_i hInside
  rw [ge_iff_le] at hInside
  have hBelow : position.toNat < v.vectorSize.toNat := by
    rw [UInt64.le_iff_toNat_le] at hInside
    omega
  have hSize := h.size_le
  have hSome : 0 < v.vectorSize.toNat := by omega
  rcases write_some (show position.toNat < v.vectorBuffer.allocated by omega) default with
    ⟨b, hWrite, hLength⟩
  rw [hWrite, bind_some, toNat_pred hSome]
  rw [or_iff_right hInside]
  by_cases hRoom : position.toNat + v.vectorSize.toNat ≤ v.vectorBuffer.allocated
  · rcases moveDown_returns position.toNat (show position.toNat + (v.vectorSize.toNat - 1) <
      b.allocated by omega) with ⟨b', hMove, hLength'⟩
    rw [hMove]
    refine ⟨fun _ => hRoom, fun _ => good_some.mpr ?_⟩
    exact h.pred hSome (hLength'.trans hLength)
  rw [moveDown_fails position.toNat (show b.allocated ≤
    position.toNat + (v.vectorSize.toNat - 1) by omega) (by omega)]
  exact ⟨fun hGood => (not_good_none hGood).elim, fun h => (hRoom h).elim⟩

theorem reserve_eq (h : Fits v) (capacity : UInt64) :
    ∃ b, reserve v capacity = some ⟨v.vectorSize, capacity, b⟩ ∧ b.allocated = capacity.toNat := by
  have hSize := h.size_le
  have hSame : (if v.vectorBuffer = none then 0
      else v.vectorSize) = v.vectorSize := by
    split
    · rename_i hNull
      rw [hNull, allocated_none] at hSize
      have hZero : v.vectorSize.toNat = 0 := by omega
      exact (UInt64.toNat_inj.mp hZero).symm
    · rfl
  have hKept : (if capacity < v.vectorSize then capacity
      else v.vectorSize).toNat = min capacity.toNat v.vectorSize.toNat := by
    split
    · rename_i hLess
      rw [UInt64.lt_iff_toNat_lt] at hLess
      omega
    rename_i hLess
    rw [UInt64.lt_iff_toNat_lt] at hLess
    omega
  have hTarget : min capacity.toNat v.vectorSize.toNat ≤
    (new capacity.toNat : Buffer α).allocated := by
    rw [allocated_new]
    omega
  rcases copy_returns (Nat.le_trans (Nat.min_le_right _ _) hSize) hTarget with ⟨b, hCopy, hLength⟩
  refine ⟨b, ?_, by rw [hLength, allocated_new]⟩
  simp only [reserve, hSame, hKept, hCopy, map_some]

theorem good_reserve_iff (h : Fits v) (capacity : UInt64) :
    Good (reserve v capacity) ↔ v.vectorSize ≤ capacity := by
  rcases reserve_eq h capacity with ⟨b, hReserve, hLength⟩
  rw [hReserve, good_some]
  constructor
  · exact fun hFits => hFits.size
  · exact fun hSize => ⟨hSize, Nat.le_of_eq hLength.symm⟩

theorem good_resize (h : Fits v) (size : UInt64) : Good (resize v size) := by
  rcases reserve_eq h size with ⟨b, hReserve, hLength⟩
  rw [resize, hReserve]
  exact good_some.mpr ⟨UInt64.le_refl _, Nat.le_of_eq hLength.symm⟩

theorem good_pushBack_iff (h : Fits v) (value : α) : Good (pushBack v value) ↔
    v.vectorSize < v.vectorCapacity ∨ v.vectorCapacity.toNat + 5 < 2 ^ 64 := by
  have hSize := UInt64.le_iff_toNat_le.mp h.size
  have hBound := v.vectorCapacity.toNat_lt
  have hGrown : (v.vectorCapacity + 5).toNat = (v.vectorCapacity.toNat + 5) % 2 ^ 64 :=
    UInt64.toNat_add _ _
  rw [pushBack]
  split
  · rename_i hFull
    have hFull' := UInt64.le_iff_toNat_le.mp hFull
    rcases reserve_eq h (v.vectorCapacity + 5) with ⟨b, hReserve, hLength⟩
    rw [hReserve, bind_some]
    by_cases hWrap : v.vectorCapacity.toNat + 5 < 2 ^ 64
    · refine ⟨fun _ => Or.inr hWrap, fun _ => ?_⟩
      have hRoom : v.vectorSize < v.vectorCapacity + 5 := by
        rw [UInt64.lt_iff_toNat_lt]
        omega
      exact good_append hRoom (Nat.le_of_eq hLength.symm) value
    -- the new capacity has wrapped below the size
    rw [write_none (show b.allocated ≤ v.vectorSize.toNat by omega)]
    refine ⟨fun hGood => (not_good_none hGood).elim, ?_⟩
    rintro (hLess | hNot)
    · rw [UInt64.lt_iff_toNat_lt] at hLess
      omega
    · exact (hWrap hNot).elim
  rename_i hRoom
  have hLess : v.vectorSize < v.vectorCapacity := UInt64.not_le.mp hRoom
  rw [bind_some]
  exact ⟨fun _ => Or.inl hLess, fun _ => good_append hLess h.capacity value⟩

end Operations

def AllFit (s : Store α) : Prop :=
  ∀ v, Fits (s v)

theorem execute_allFit_iff [Inhabited α] {s : Store α} (h : AllFit s) (call : VectorCall α) :
    (∃ s', execute s call = some s' ∧ AllFit s') ↔ Good (effect s call).2 := by
  constructor
  · rintro ⟨s', hExecute, hFit⟩
    rcases map_eq_some_iff.mp hExecute with ⟨vector, hEffect, rfl⟩
    have hHere := hFit (effect s call).1
    dsimp only at hHere
    rw [if_pos rfl] at hHere
    exact ⟨vector, hEffect, hHere⟩
  rintro ⟨vector, hEffect, hHere⟩
  refine ⟨_, by rw [execute, hEffect]; rfl, ?_⟩
  intro v
  dsimp only
  split
  · exact hHere
  · exact h v

theorem execute_fits_iff [Inhabited α] {s : Store α} (h : AllFit s) (call : VectorCall α) :
    Allowed s call ↔ ∃ s', execute s call = some s' ∧ AllFit s' := by
  rw [execute_allFit_iff h]
  cases call with
  | construct v =>
    exact iff_of_true trivial (good_some.mpr fits_empty)
  | constructSize v size =>
    exact iff_of_true trivial (good_some.mpr (fits_ofSize size))
  | constructInitial v size initial =>
    exact iff_of_true trivial (good_ofInitial size initial)
  | constructCopy v w =>
    exact (good_ofVector_iff (h w).size (h w).size_le).symm
  | assign v w =>
    show _ ↔ Good (if v = w then _ else _)
    split
    · rename_i hSelf
      rw [hSelf]
      exact (good_assignSelf_iff (h w)).symm
    · exact (good_ofVector_iff (h w).size (h w).size_le).symm
  | pushBack v value =>
    exact (good_pushBack_iff (h v) value).symm
  | popBack v =>
    exact (good_some.trans (fits_popBack_iff (h v))).symm
  | remove v position =>
    exact (good_remove_iff (h v) position).symm
  | reserve v capacity =>
    exact (good_reserve_iff (h v) capacity).symm
  | resize v size =>
    exact iff_of_true trivial (good_resize (h v) size)
  | reverse v => exact iff_of_true trivial (good_reverse (h v))
  | clear v =>
    exact iff_of_true trivial (good_some.mpr fits_empty)

def Store.start : Store α :=
  fun _ => {}

theorem stays_fitting_iff [Inhabited α] (calls : List (VectorCall α)) :
    Stays execute AllFit Store.start calls ↔ Meets execute Allowed Store.start calls :=
  stays_iff_meets (fun _ call h => execute_fits_iff h call) (fun _ => fits_empty) calls

theorem copy_with_slack : ¬ Stays execute AllFit Store.start
    [.pushBack 0 7, .constructCopy 1 0, (.pushBack 1 8 : VectorCall Nat)] := by
  rintro ⟨_, s₁, hPush, _, s₂, hCopy, hFit, _⟩
  cases hPush
  cases hCopy
  have hRoom := (hFit 1).capacity
  revert hRoom
  decide

end Vector

end Fennix
