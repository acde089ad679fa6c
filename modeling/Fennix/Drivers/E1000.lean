import Mathlib.Data.List.Basic

/-
  The receive ring of the E1000 card, with the card and the driver at work side by side.

  The card stores a packet where its head stands unless the head meets the tail, and sets the
  descriptor's status once the data is there; a packet takes one descriptor. `Receive` hands over
  the packet of the current descriptor, clears the status and gives the descriptor back through the
  tail. Each of these is a step of its own, in any order.
-/

namespace Fennix

namespace E1000

def numRxDesc : Nat := 32

inductive Position where
| testing
| handing
| clearing
| telling
deriving DecidableEq

/- `arrived` and `delivered` are history: the packets stored and the ones handed over. -/
structure State (α : Type) where
  status : Nat → Bool
  data : Nat → Option α
  head : Nat
  tail : Nat
  storing : Bool
  rxCurrent : Nat
  position : Position
  arrived : List α
  delivered : List (Option α)

inductive Event (α : Type) where
| arrive (packet : α)
| writeBack
| receive

variable {α : Type}

def rxinit : State α where
  status := fun _ => false
  data := fun _ => none
  head := 0
  tail := numRxDesc - 1
  storing := false
  rxCurrent := 0
  position := .testing
  arrived := []
  delivered := []

/- The next access of `Receive`; a call that finds no packet leaves the next one to test again. -/
def receive (s : State α) : State α :=
  match s.position with
  | .testing => if s.status s.rxCurrent then { s with position := .handing } else s
  | .handing =>
    { s with delivered := s.delivered ++ [s.data s.rxCurrent], position := .clearing }
  | .clearing =>
    { s with status := Function.update s.status s.rxCurrent false, position := .telling }
  | .telling =>
    { s with
      rxCurrent := (s.rxCurrent + 1) % numRxDesc
      tail := s.rxCurrent
      position := .testing }

def step (s : State α) : Event α → State α
| .arrive packet =>
  if s.head = s.tail ∨ s.storing then s
  else { s with
    data := Function.update s.data s.head (some packet)
    arrived := s.arrived ++ [packet]
    storing := true }
| .writeBack =>
  if s.storing then { s with
    status := Function.update s.status s.head true
    head := (s.head + 1) % numRxDesc
    storing := false }
  else s
| .receive => receive s

def run (es : List (Event α)) : State α :=
  es.foldl step rxinit

------ The Ring

/-
  The driver has given back `done` descriptors and the card has written `full` back. The ones in
  between hold the packets in the order of their arrival, and they are never more than 31.
-/
structure Ringed (done full : Nat) (s : State α) : Prop where
  le : done ≤ full
  arrived : s.arrived.length = full + s.storing.toNat
  room : s.arrived.length ≤ done + 31
  head : s.head = full % 32
  rxCurrent : s.rxCurrent = done % 32
  tail : s.tail = (done + 31) % 32
  busy : s.position ≠ .testing → done < full
  status : ∀ k, done ≤ k → k < done + 32 →
    (s.status (k % 32) = true ↔ k < full ∧ ¬ (k = done ∧ s.position = .telling))
  data : ∀ k, done ≤ k → k < s.arrived.length → s.data (k % 32) = s.arrived[k]?
  delivered : s.delivered = (s.arrived.take
    (done + if s.position = .clearing ∨ s.position = .telling then 1 else 0)).map some

theorem ringed_rxinit : Ringed 0 0 (rxinit : State α) := by
  constructor <;> simp [rxinit, numRxDesc]

section Steps

variable {done full : Nat} {s : State α} (h : Ringed done full s)

include h

theorem Ringed.take_le : done + (if s.position = .clearing ∨ s.position = .telling then 1 else 0) ≤
    full := by
  have hLe := h.le
  split
  case isTrue hAt =>
    apply h.busy
    rintro hTesting
    simp [hTesting] at hAt
  case isFalse => exact hLe

theorem Ringed.length_delivered : s.delivered.length =
    done + if s.position = .clearing ∨ s.position = .telling then 1 else 0 := by
  rw [h.delivered, List.length_map, List.length_take, h.arrived]
  have hLe := h.take_le
  omega

theorem Ringed.arrive (packet : α) : Ringed done full (step s (.arrive packet)) := by
  rw [step]
  split
  case isTrue => exact h
  case isFalse hRoom =>
  have hStoring : s.storing = false := by simpa using mt Or.inr hRoom
  have hHead : s.head ≠ s.tail := mt Or.inl hRoom
  have hLength : s.arrived.length = full := by simpa [hStoring] using h.arrived
  have hLe := h.le
  have hMost := h.room
  rw [h.head, h.tail] at hHead
  refine { h with arrived := ?_, room := ?_, data := ?_, delivered := ?_ }
  · simp [hLength]
  · simp only [List.length_append, List.length_singleton]
    omega
  · intro k hLow hHigh
    simp only [List.length_append, List.length_singleton] at hHigh
    dsimp only
    by_cases hLast : k = full
    · simp [hLast, h.head, ← hLength]
    · have hOther : k % 32 ≠ s.head := by
        rw [h.head]
        omega
      rw [Function.update_of_ne hOther, h.data k hLow (by omega),
        List.getElem?_append_left (by omega)]
  · rw [List.take_append_of_le_length (hLength.symm ▸ h.take_le)]
    exact h.delivered

theorem Ringed.writeBack : ∃ full', Ringed done full' (step s .writeBack) := by
  rw [step]
  split
  case isFalse => exact ⟨full, h⟩
  case isTrue hStoring =>
  have hLength : s.arrived.length = full + 1 := by simpa [hStoring] using h.arrived
  have hLe := h.le
  have hMost := h.room
  have hBusy := h.busy
  refine ⟨full + 1, { h with
    le := ?_, arrived := ?_, head := ?_, busy := ?_, status := ?_ }⟩
  · omega
  · simpa using hLength
  · simp only [h.head, numRxDesc]
    omega
  · intro hAt
    exact Nat.lt_succ_of_lt (hBusy hAt)
  · intro k hLow hHigh
    dsimp only
    by_cases hLast : k = full
    · rw [hLast, ← h.head, Function.update_self]
      simp only [true_iff]
      refine ⟨Nat.lt_succ_self _, ?_⟩
      rintro ⟨hSame, hTelling⟩
      have hLess := hBusy (by simp [hTelling])
      omega
    · have hOther : k % 32 ≠ s.head := by
        rw [h.head]
        omega
      rw [Function.update_of_ne hOther, h.status k hLow hHigh]
      simp only [and_congr_left_iff]
      omega

theorem Ringed.receive : ∃ done', Ringed done' full (receive s) := by
  have hLe := h.le
  have hMost := h.room
  have hArrived := h.arrived
  have hStatus := h.status
  have hDelivered := h.delivered
  rw [E1000.receive]
  cases hAt : s.position with
  | testing =>
    simp only [hAt] at hStatus hDelivered ⊢
    split
    case isFalse => exact ⟨done, h⟩
    case isTrue hSet =>
      rw [h.rxCurrent, hStatus done (Nat.le_refl _) (by omega)] at hSet
      refine ⟨done, { h with busy := fun _ => hSet.1, status := ?_, delivered := ?_ }⟩
      · simpa using hStatus
      · simpa using hDelivered
  | handing =>
    have hLess := h.busy (by simp [hAt])
    simp only [hAt] at hStatus hDelivered ⊢
    refine ⟨done, { h with busy := fun _ => hLess, status := ?_, delivered := ?_ }⟩
    · simpa using hStatus
    · have hData := h.data done (Nat.le_refl _) (by omega)
      rw [hDelivered, h.rxCurrent, hData, if_pos (Or.inl rfl), if_neg (by decide),
        List.take_add_one, List.map_append, List.getElem?_eq_getElem (by omega)]
      rfl
  | clearing =>
    have hLess := h.busy (by simp [hAt])
    simp only [hAt] at hStatus hDelivered ⊢
    refine ⟨done, { h with busy := fun _ => hLess, status := ?_, delivered := ?_ }⟩
    · intro k hLow hHigh
      dsimp only
      by_cases hFirst : k = done
      · simp [hFirst, h.rxCurrent]
      · have hOther : k % 32 ≠ s.rxCurrent := by
          rw [h.rxCurrent]
          omega
        rw [Function.update_of_ne hOther, hStatus k hLow hHigh]
        simp [hFirst]
    · simpa using hDelivered
  | telling =>
    have hLess := h.busy (by simp [hAt])
    simp only [hAt] at hStatus hDelivered ⊢
    refine ⟨done + 1, { h with
      le := hLess, room := ?_, rxCurrent := ?_, tail := ?_, busy := ?_, status := ?_, data := ?_,
      delivered := ?_ }⟩
    · exact Nat.le_trans hMost (by omega)
    · simp only [h.rxCurrent, numRxDesc]
      omega
    · dsimp only
      rw [h.rxCurrent]
      omega
    · simp
    · intro k hLow hHigh
      by_cases hWrap : k = done + 32
      · have hClear := hStatus done (Nat.le_refl _) (by omega)
        rw [show k % 32 = done % 32 by omega, hClear]
        simp
        omega
      · rw [hStatus k (by omega) (by omega)]
        simp
        omega
    · exact fun k hLow hHigh => h.data k (by omega) hHigh
    · simpa using hDelivered

end Steps

theorem ringed_run (es : List (Event α)) : ∃ done full, Ringed done full (run es) := by
  suffices hAll : ∀ s : State α, (∃ done full, Ringed done full s) →
      ∃ done full, Ringed done full (es.foldl step s) from hAll _ ⟨0, 0, ringed_rxinit⟩
  induction es with
  | nil => exact fun _ h => h
  | cons e es ih =>
    rintro s ⟨done, full, h⟩
    apply ih
    cases e with
    | arrive packet => exact ⟨done, full, h.arrive packet⟩
    | writeBack => exact ⟨done, h.writeBack⟩
    | receive =>
      rcases h.receive with ⟨done', h'⟩
      exact ⟨done', full, h'⟩

/-
  Every packet is handed over once, in the order of arrival and as it was stored. A call returns
  only when all that was written back is handed over. At the driver's test, with no packet being
  stored, the card is out of room exactly if 31 of them wait.
-/
theorem packets_delivered_once (es : List (Event α)) :
    (run es).delivered <+: (run es).arrived.map some ∧
    ((run es).position = .testing → (run es).status (run es).rxCurrent = false →
    (run es).arrived.length = (run es).delivered.length + (run es).storing.toNat) ∧
    ((run es).position = .testing → (run es).storing = false →
    ((run es).head = (run es).tail ↔
      (run es).arrived.length = (run es).delivered.length + 31)) := by
  obtain ⟨done, full, h⟩ := ringed_run es
  have hArrived := h.arrived
  have hDelivered := h.length_delivered
  have hRoom := h.room
  have hLe := h.le
  refine ⟨?_, fun hTesting hClear => ?_, fun hTesting hStoring => ?_⟩
  · rw [h.delivered]
    exact (List.take_prefix _ _).map some
  · have hNone := h.status done (Nat.le_refl _) (by omega)
    rw [h.rxCurrent] at hClear
    simp [hClear, hTesting] at hNone hDelivered
    omega
  · rw [h.head, h.tail]
    simp [hTesting, hStoring] at hArrived hDelivered
    omega

end E1000

end Fennix
