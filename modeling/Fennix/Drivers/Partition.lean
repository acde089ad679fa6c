import Fennix.Drivers.AHCI

/-
  Transfers on a partition.
-/

namespace Fennix

open Option

namespace AHCI

def FISRegH2D.sectorCount (fis : FISRegH2D) : Nat :=
  if fis.count.toNat = 0 then 65536 else fis.count.toNat

def Device.Ready (device : Device) : Prop :=
  ∃ n < spinLimit, device.taskFileData n &&& busyMask = 0

/- No write goes to a SATAPI port, and the device stops being busy before the port gives up. -/
def Port.Accepts (port : Port) (device : Device) (write : Bool) : Prop :=
  ¬ (port.portNumber = portTypeSATAPI ∧ write = true) ∧ device.Ready

theorem Device.spinReady_eq_iff (device : Device) (left spin : Nat) :
    device.spinReady left spin = spin + left ↔
    ∀ n < left, device.taskFileData (spin + n) &&& busyMask ≠ 0 := by
  induction left generalizing spin with
  | zero => simp [spinReady]
  | succ left ih =>
    rw [spinReady]
    by_cases hBusy : device.taskFileData spin &&& busyMask ≠ 0
    · rw [if_pos hBusy, show spin + (left + 1) = spin + 1 + left by omega, ih]
      constructor
      · rintro h (_ | n) hn
        · exact hBusy
        · rw [Nat.add_comm n 1, ← Nat.add_assoc]
          exact h n (by omega)
      intro h n hn
      rw [Nat.add_assoc, Nat.add_comm 1]
      exact h (n + 1) (by omega)
    rw [if_neg hBusy]
    refine iff_of_false (by omega) ?_
    exact fun h => hBusy (h 0 (Nat.succ_pos left))

theorem Device.ready_iff (device : Device) :
    device.Ready ↔ device.spinReady spinLimit 0 ≠ spinLimit := by
  have hSpin := device.spinReady_eq_iff spinLimit 0
  simp only [Nat.zero_add] at hSpin
  rw [Ne, hSpin, Ready]
  push Not
  exact Iff.rfl

namespace Port

variable {fuel : Nat} {device : Device} {sector : BitVec 64} {sectorCount : BitVec 32}
variable {buffer : BitVec 64} {write : Bool} (port : Port)

end Port

namespace Part

section Transfers

variable {write : Bool} {fuel : Nat} {part : Part} {device : Device}
variable {offset count buffer : BitVec 64}

def called (write : Bool) (fuel : Nat) (part : Part) (device : Device)
    (offset count buffer : BitVec 64) : Option Port.ReadWritten :=
  part.port.bind (fun port =>
    if offset + count > part.sectors then none
    else some
      (port.readWrite fuel device (part.startLBA + offset) (count.setWidth 32) buffer write))

theorem transfer_eq : transfer write fuel part device offset count buffer =
    match called write fuel part device offset count buffer with
    | none => (0, none)
    | some done => (count, done.issued) := by
  unfold transfer called
  cases part.port with
  | none => rfl
  | some port =>
    dsimp only [bind_some]
    split <;> rfl

structure Confined (part : Part) (result : BitVec 64 × Option HBACommand) : Prop where
  inside : ∀ c ∈ result.2, ∀ k < c.commandFIS.sectorCount,
    part.startLBA.toNat ≤ c.commandFIS.lba.toNat + k ∧
      c.commandFIS.lba.toNat + k < part.startLBA.toNat + part.sectors.toNat
  count : result.2.elim 0 (·.commandFIS.sectorCount) = result.1.toNat

end Transfers

end Part

def Device.DoneWithin (device : Device) (round rounds : Nat) : Prop :=
  ∃ n < rounds, device.commandIssue (round + n) = 0 ∧ ∀ j < n, device.commandIssue (round + j) ≠ 0 ∧
      device.interruptStatus (round + j) &&& taskFileError = 0

def Device.Answers (device : Device) : Prop :=
  (∃ n < spinLimit, device.taskFileData n &&& busyMask = 0) ∧
    device.DoneWithin 0 (11 * (waitLimit + 1))

theorem Device.doneWithin_succ (device : Device) (round rounds : Nat) :
    device.DoneWithin round (rounds + 1) ↔ device.commandIssue round = 0 ∨
    (device.commandIssue round ≠ 0 ∧ device.interruptStatus round &&& taskFileError = 0) ∧
    device.DoneWithin (round + 1) rounds := by
  constructor
  · rintro ⟨_ | n, hn, hDone, hBefore⟩
    · exact .inl hDone
    refine Or.inr ⟨hBefore 0 (Nat.succ_pos n), n, by omega, ?_, ?_⟩
    · rwa [Nat.add_assoc, Nat.add_comm 1]
    intro j hj
    rw [Nat.add_assoc, Nat.add_comm 1]
    exact hBefore (j + 1) (by omega)
  rintro (hDone | ⟨hFirst, n, hn, hDone, hBefore⟩)
  · exact ⟨0, by omega, hDone, fun j hj => absurd hj (Nat.not_lt_zero j)⟩
  refine ⟨n + 1, by omega, by rwa [← Nat.add_assoc, Nat.add_right_comm], ?_⟩
  rintro (_ | j) hj
  · exact hFirst
  · rw [Nat.add_comm j 1, ← Nat.add_assoc]
    exact hBefore j (by omega)

namespace Port

theorem awaitCompletion_iff (device : Device) {fuel spin tryCount : Nat} (round : Nat)
    (hSpin : spin ≤ waitLimit + 1) (hTry : tryCount ≤ 10)
    (hFuel : (11 - tryCount) * (waitLimit + 1) < fuel + spin) :
    awaitCompletion device fuel round spin tryCount = some true ↔
    device.DoneWithin round ((11 - tryCount) * (waitLimit + 1) - spin) := by
  induction fuel generalizing round spin tryCount with
  | zero =>
    have hOnce := Nat.le_mul_of_pos_left (waitLimit + 1) (show 0 < 11 - tryCount by omega)
    omega
  | succ fuel ih =>
    -- one round, after a wait that has been too long is over
    have hRound : ∀ spin tryCount, spin ≤ waitLimit → tryCount ≤ 10 →
      (11 - tryCount) * (waitLimit + 1) < fuel + 1 + spin →
      ((if device.commandIssue round = 0 then some true
          else if device.interruptStatus round &&& taskFileError ≠ 0 then some false
          else awaitCompletion device fuel (round + 1) (spin + 1) tryCount) = some true ↔
        device.DoneWithin round ((11 - tryCount) * (waitLimit + 1) - spin)) := by
      intro spin tryCount hSpin hTry hFuel
      have hOnce := Nat.le_mul_of_pos_left (waitLimit + 1) (show 0 < 11 - tryCount by omega)
      rw [show (11 - tryCount) * (waitLimit + 1) - spin =
        (11 - tryCount) * (waitLimit + 1) - (spin + 1) + 1 by omega, Device.doneWithin_succ,
        ← ih (round + 1) (by omega) hTry (by omega)]
      by_cases hDone : device.commandIssue round = 0
      · rw [if_pos hDone]
        exact iff_of_true rfl (.inl hDone)
      rw [if_neg hDone, or_iff_right hDone]
      by_cases hError : device.interruptStatus round &&& taskFileError = 0
      · rw [if_neg (not_not.mpr hError)]
        exact (and_iff_right ⟨hDone, hError⟩).symm
      · rw [if_pos hError]
        exact iff_of_false (by decide) (fun h => hError h.1.2)
    unfold awaitCompletion
    by_cases hLate : spin > waitLimit
    · simp only [hLate, decide_true, if_true, true_and]
      have hAll : spin = waitLimit + 1 := by omega
      by_cases hLast : tryCount + 1 > 10
      · rw [if_pos hLast, show tryCount = 10 by omega, hAll]
        refine iff_of_false (by decide) ?_
        rintro ⟨n, hn, _⟩
        omega
      rw [if_neg hLast]
      have hBudget : 11 - tryCount = 11 - (tryCount + 1) + 1 := by omega
      rw [hBudget, Nat.succ_mul] at hFuel ⊢
      rw [hRound 0 (tryCount + 1) (Nat.zero_le _) (by omega) (by omega), hAll,
        Nat.add_sub_cancel, Nat.sub_zero]
    · simp only [hLate, decide_false, Bool.false_eq_true, if_false, false_and]
      exact hRound spin tryCount (by omega) hTry hFuel

theorem readWrite_returned_iff {fuel : Nat} (port : Port) (device : Device) (sector : BitVec 64)
    (sectorCount : BitVec 32) (buffer : BitVec 64) (write : Bool)
    (hFuel : 11 * (waitLimit + 1) < fuel) :
    (port.readWrite fuel device sector sectorCount buffer write).returned = some true ↔
    ¬ (port.portNumber = portTypeSATAPI ∧ write = true) ∧ device.Answers := by
  unfold readWrite Device.Answers
  rw [← Device.Ready, device.ready_iff]
  split
  · rename_i hRefused
    exact iff_of_false (by decide) (fun h => h.1 hRefused)
  rename_i hAllowed
  split
  · rename_i hBusy
    exact iff_of_false (by decide) (fun h => h.2.1 hBusy)
  rename_i hReady
  rw [awaitCompletion_iff device 0 (Nat.zero_le _) (Nat.zero_le _) hFuel]
  simp only [Nat.sub_zero, hAllowed, Ne, hReady, not_false_eq_true, true_and]

end Port

namespace Part

structure ReportsErrors (returned count : BitVec 64) (call : Option Port.ReadWritten) : Prop where
  success : returned = count → count ≠ 0 → ∃ done ∈ call, done.returned = some true
  failure : ∀ done ∈ call, done.returned = some false → returned = 0

theorem transfer_reports_iff {write : Bool} {fuel : Nat} {part : Part} {device : Device}
    {offset count buffer : BitVec 64} (hFuel : 11 * (waitLimit + 1) < fuel) :
    ReportsErrors (transfer write fuel part device offset count buffer).1 count
    (called write fuel part device offset count buffer) ↔
    ∀ port ∈ part.port, ¬ offset + count > part.sectors → count = 0 ∨
    ¬ (port.portNumber = portTypeSATAPI ∧ write = true) ∧ device.Answers := by
  rw [transfer_eq]
  cases hPort : part.port with
  | none =>
    rw [called, hPort]
    refine iff_of_true ⟨?_, ?_⟩ ?_
    · exact fun hZero hCount => absurd hZero.symm hCount
    · exact fun done hDone => (not_mem_none done hDone).elim
    · exact fun port h => (not_mem_none port h).elim
  | some port =>
    have hReturned := Port.readWrite_returned_iff port device (part.startLBA + offset)
      (count.setWidth 32) buffer write hFuel
    rw [called, hPort, bind_some]
    by_cases hPast : offset + count > part.sectors
    · rw [if_pos hPast]
      refine iff_of_true ⟨?_, ?_⟩ ?_
      · exact fun hZero hCount => absurd hZero.symm hCount
      · exact fun done hDone => (not_mem_none done hDone).elim
      · exact fun _ _ hInside => absurd hPast hInside
    rw [if_neg hPast]
    dsimp only
    constructor
    · intro h other hOther _
      cases hOther
      rw [← hReturned]
      by_cases hCount : count = 0
      · exact .inl hCount
      rcases h.success rfl hCount with ⟨done, hDone, hTrue⟩
      cases hDone
      exact .inr hTrue
    intro h
    constructor
    · exact fun _ hCount => ⟨_, rfl, hReturned.mpr ((h port rfl hPast).resolve_left hCount)⟩
    intro done hDone hFalse
    cases hDone
    rcases h port rfl hPast with hCount | hRight
    · exact hCount
    · rw [hReturned.mpr hRight] at hFalse
      cases hFalse

theorem transfer_reports_iff_ready :
    ReportsErrors (transfer true 2000000000 ⟨2048, 100, some ⟨0⟩⟩ Port.readyDevice 0 8 0x5000).1 8
    (called true 2000000000 ⟨2048, 100, some ⟨0⟩⟩ Port.readyDevice 0 8 0x5000) :=
  (transfer_reports_iff (by decide)).mpr (by
    intro port hPort _
    cases hPort
    exact .inr ⟨by decide, ⟨0, by decide, rfl⟩, 0, by decide, rfl,
      fun j hj => absurd hj (Nat.not_lt_zero j)⟩)

theorem task_file_error_hidden :
    called false 1 ⟨2048, 100, some ⟨0⟩⟩ ⟨fun _ => 0, fun _ => 1, fun _ => taskFileError⟩ 0 8
    0x5000 = some ⟨some (command 2048 8 0x5000 false), some false⟩ ∧
    (Part.read 1 ⟨2048, 100, some ⟨0⟩⟩ ⟨fun _ => 0, fun _ => 1, fun _ => taskFileError⟩ 0 8
    0x5000).1 = 8 :=
  ⟨rfl, rfl⟩

end Part

end AHCI

end Fennix
