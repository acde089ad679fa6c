import Fennix.Proc.Binary

/-
  Critical sections around a load.

  `Enter` stores the state of the interrupts in a new object and disables them; `Leave` restores the
  state and releases the object.
-/

namespace Fennix

open Option Function

structure CriticalSectionData where
  enableInterrupts : Bool
deriving DecidableEq, Repr

structure CriticalState where
  interruptsEnabled : Bool
  objects : Nat → Option CriticalSectionData
  next : Nat
  unused : ∀ a, next ≤ a → objects a = none

namespace CriticalState

def enter (c : CriticalState) : Nat × CriticalState :=
  (c.next,
    { interruptsEnabled := false
      objects := update c.objects c.next (some ⟨c.interruptsEnabled⟩)
      next := c.next + 1
      unused := by
        intro a ha
        rw [update_of_ne (by omega)]
        exact c.unused a (by omega) })

def leave (c : CriticalState) (data : Nat) : CriticalState :=
  { interruptsEnabled := c.interruptsEnabled || c.objects data = some ⟨true⟩
    objects := update c.objects data none
    next := c.next
    unused := by
      intro a ha
      rw [update_apply]
      split
      · rfl
      · exact c.unused a ha }

def around (c : CriticalState) : CriticalState :=
  c.enter.2.leave c.enter.1

def Released (c c' : CriticalState) : Prop :=
  ∀ a, c.objects a = none → c'.objects a = none

theorem leave_enter (c : CriticalState) :
    c.around.interruptsEnabled = c.interruptsEnabled ∧ c.around.objects = c.objects := by
  constructor
  · simp [around, enter, leave]
  · change update (update c.objects c.next _) c.next none = c.objects
    rw [update_idem, update_eq_self_iff, c.unused c.next (Nat.le_refl _)]

theorem leave_outer (c : CriticalState) :
    (c.enter.2.enter.2.leave c.enter.1).interruptsEnabled = c.interruptsEnabled ∧
    (c.enter.2.enter.2.leave c.enter.1).objects (c.next + 1) ≠ none := by
  constructor
  · simp [enter, leave]
  · simp [enter, leave]

end CriticalState

def getBinaryTypeCritical (fuel : Nat) (file : BinaryFile) (c : CriticalState)
    (s : LoadState) : Option (BinType × CriticalState × LoadState) :=
  (getBinaryType fuel file s).map (fun result => (result.1, c.enter.2, result.2))

def startTaskCritical (mode : TaskingMode) (c : CriticalState) : CriticalState :=
  match mode with
  | .multi => c.around.around
  | .mono | .none => c

def executeBinaryCritical (fuel : Nat) (files : CString → BinaryFile) (r : ExecuteRequest)
    (machine : TaskingMachine) (c : CriticalState) : Option (Executed × CriticalState) :=
  let (data, c) := c.enter
  (getBinaryTypeCritical fuel (files r.path) c ⟨machine.allocator, [], []⟩).bind (fun (_, c, _) =>
    (executeBinary fuel files r machine).map (fun executed =>
      let c := c.leave data
      (executed, if executed.success then startTaskCritical r.mode c else c)))

theorem startTaskCritical_balanced (mode : TaskingMode) (c : CriticalState) :
    (startTaskCritical mode c).interruptsEnabled = c.interruptsEnabled ∧
    (startTaskCritical mode c).objects = c.objects := by
  cases mode with
  | multi =>
    exact ⟨c.around.leave_enter.1.trans c.leave_enter.1,
      c.around.leave_enter.2.trans c.leave_enter.2⟩
  | mono => exact ⟨rfl, rfl⟩
  | none => exact ⟨rfl, rfl⟩

theorem critical_sections_unbalanced (fuel : Nat) (file : BinaryFile) (files : CString → BinaryFile)
    (r : ExecuteRequest) (machine : TaskingMachine) (c : CriticalState) (s : LoadState) :
    (∀ result ∈ getBinaryTypeCritical fuel file c s,
    (result.2.1.interruptsEnabled = c.interruptsEnabled ↔ c.interruptsEnabled = false) ∧
    ¬ c.Released result.2.1) ∧ ∀ result ∈ executeBinaryCritical fuel files r machine c,
    result.2.interruptsEnabled = c.interruptsEnabled ∧ ¬ c.Released result.2 := by
  constructor
  · intro result hResult
    rcases map_eq_some_iff.mp hResult with ⟨loaded, _, rfl⟩
    refine ⟨eq_comm, ?_⟩
    intro hReleased
    have hLeft := hReleased c.next (c.unused c.next (Nat.le_refl _))
    simp [CriticalState.enter] at hLeft
  intro result hResult
  rcases bind_eq_some_iff.mp hResult with ⟨⟨type, inner, s'⟩, hType, hRest⟩
  rcases map_eq_some_iff.mp hType with ⟨loaded, _, hInner⟩
  cases hInner
  rcases map_eq_some_iff.mp hRest with ⟨executed, _, rfl⟩
  rcases c.leave_outer with ⟨hInterrupts, hLeft⟩
  rcases startTaskCritical_balanced r.mode (c.enter.2.enter.2.leave c.enter.1) with
    ⟨hStarted, hObjects⟩
  have hUnused := c.unused (c.next + 1) (by omega)
  dsimp only
  split
  · refine ⟨hStarted.trans hInterrupts, fun hReleased => hLeft ?_⟩
    rw [← hObjects]
    exact hReleased _ hUnused
  · exact ⟨hInterrupts, fun hReleased => hLeft (hReleased _ hUnused)⟩

theorem missing_file_disables_interrupts :
    ∃ result, getBinaryTypeCritical 0 ⟨.notFound, .fsError, 0, [], by decide⟩
    ⟨true, fun _ => none, 0, fun _ _ => rfl⟩
    ⟨⟨fun _ => 0, ⟨2, 0⟩, 0, 65536, 65536, 0, 0, true⟩, [], []⟩ = some result ∧
    result.2.1.interruptsEnabled = false ∧ result.2.1.objects 0 = some ⟨true⟩ :=
  ⟨_, rfl, rfl, rfl⟩

end Fennix
