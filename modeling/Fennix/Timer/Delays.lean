import Fennix.Library.Word

/-
  Delays in four units.
-/

namespace Fennix

namespace Timer

inductive Request
| tscSleep (nanoseconds : Nat)
| hpetTicks (count : Nat)
| pitTicks (count : Nat)
deriving DecidableEq

structure Timers where
  apicTimer : Bool
  hpet : Bool
  pic : Bool
  clk : Nat
  clk_pos : 0 < clk
  clk_lt : clk < 2 ^ 32

def apictimerNwait (nanoseconds : Nat) : Request :=
  .tscSleep nanoseconds

def apictimerUwait (microseconds : Nat) : Request :=
  apictimerNwait (u64 (microseconds * 1000))

def apictimerMwait (miliseconds : Nat) : Request :=
  apictimerUwait (u64 (miliseconds * 1000))

def apictimerWait (seconds : Nat) : Request :=
  apictimerMwait (u64 (seconds * 1000))

def pitWait (miliseconds : Nat) : Request :=
  -- the parameter has 32 bits
  .pitTicks ((miliseconds % 2 ^ 32 + 1) % 2 ^ 32)

namespace Timers

variable (t : Timers)

def hpetUwait (microseconds : Nat) : Request :=
  .hpetTicks (u64 (microseconds * 1000000000) / t.clk)

def hpetMwait (miliseconds : Nat) : Request :=
  t.hpetUwait (u64 (miliseconds * 10000))

def hpetWait (seconds : Nat) : Request :=
  t.hpetUwait (u64 (seconds * 1000000))

def nsleep (nanoseconds : Nat) : Request :=
  if t.apicTimer then apictimerNwait nanoseconds
  else if t.hpet then t.hpetUwait nanoseconds
  else if t.pic then pitWait (nanoseconds / 1000)
  else .tscSleep nanoseconds

def usleep (microseconds : Nat) : Request :=
  if t.apicTimer then apictimerUwait microseconds
  else if t.hpet then t.hpetUwait microseconds
  else if t.pic then pitWait (microseconds / 1000)
  else t.nsleep (u64 (microseconds * 1000))

def msleep (miliseconds : Nat) : Request :=
  if t.apicTimer then apictimerMwait miliseconds
  else if t.hpet then t.hpetMwait miliseconds
  else if t.pic then pitWait miliseconds
  else t.usleep (u64 (miliseconds * 1000))

def sleep (seconds : Nat) : Request :=
  if t.apicTimer then apictimerWait seconds
  else if t.hpet then t.hpetWait seconds
  else if t.pic then pitWait (u64 (seconds * 1000))
  else t.msleep (u64 (seconds * 1000000))

def Fits (s : Nat) : Prop :=
  if t.apicTimer then 1000000000 * s < 2 ^ 64
  else if t.hpet then 1000000000000000000 * s < 2 ^ 64
  else if t.pic then 1000000 * s + 1 < 2 ^ 32
  else 1000000000000 * s < 2 ^ 64

def Agree (s : Nat) : Prop :=
  t.msleep (1000 * s) = t.sleep s ∧ t.usleep (1000000 * s) = t.sleep s ∧
    t.nsleep (1000000000 * s) = t.sleep s

end Timers

theorem pitWait_of_lt {n : Nat} (h : n + 1 < 2 ^ 32) : pitWait n = .pitTicks (n + 1) := by
  have hn : n % 2 ^ 32 = n := Nat.mod_eq_of_lt (by omega)
  rw [pitWait, hn, Nat.mod_eq_of_lt h]

theorem div_lt_tenfold {a c : Nat} (hc : 0 < c) (hSome : c ≤ a) : a / c < 10 * a / c := by
  have hOne : 0 < a / c := Nat.div_pos hSome hc
  have hTen := Nat.mul_div_le_mul_div_assoc 10 a c
  omega

theorem delays_agree_iff (t : Timers) (s : Nat) (hFits : t.Fits s) :
    t.Agree s ↔ t.apicTimer = true ∨ s = 0 := by
  unfold Timers.Fits at hFits
  unfold Timers.Agree Timers.sleep Timers.msleep Timers.usleep Timers.nsleep
  cases hApic : t.apicTimer with
  | true =>
    simp only [hApic, if_true] at hFits ⊢
    simp (disch := omega) only [apictimerWait, apictimerMwait, apictimerUwait, apictimerNwait,
      u64_of_lt, Request.tscSleep.injEq, true_or, iff_true]
    omega
  | false =>
    simp only [hApic, Bool.false_eq_true, if_false, false_or] at hFits ⊢
    cases hHpet : t.hpet with
    | true =>
      simp only [hHpet, if_true] at hFits ⊢
      simp (disch := omega) only [Timers.hpetWait, Timers.hpetMwait, Timers.hpetUwait, u64_of_lt,
        Request.hpetTicks.injEq]
      constructor
      · rintro ⟨hMili, _⟩
        by_contra hSome
        have hLow := t.clk_lt
        have hMore := div_lt_tenfold (a := s * 1000000 * 1000000000) t.clk_pos (by omega)
        rw [show 1000 * s * 10000 * 1000000000 = 10 * (s * 1000000 * 1000000000) by omega] at hMili
        omega
      · rintro rfl
        simp
    | false =>
      simp only [hHpet, Bool.false_eq_true, if_false] at hFits ⊢
      cases hPic : t.pic with
      | true =>
        simp only [hPic, if_true] at hFits ⊢
        rw [u64_of_lt (by omega), show 1000000 * s / 1000 = 1000 * s by omega,
          show 1000000000 * s / 1000 = 1000000 * s by omega, Nat.mul_comm s]
        simp (disch := omega) only [pitWait_of_lt, Request.pitTicks.injEq, true_and]
        omega
      | false =>
        simp only [hPic, Bool.false_eq_true, if_false] at hFits ⊢
        simp (disch := omega) only [u64_of_lt, Request.tscSleep.injEq]
        omega

def coarse : Timers := ⟨false, true, false, 10000000, by decide, by decide⟩

theorem second_tenfold : coarse.sleep 1 = .hpetTicks 100000000 ∧
    coarse.msleep 1000 = .hpetTicks 1000000000 := by
  unfold Timers.sleep Timers.msleep Timers.hpetWait Timers.hpetMwait Timers.hpetUwait u64 coarse
  decide

theorem delays_agree_iff_coarse : coarse.Fits 1 ∧ ¬ coarse.Agree 1 := by
  refine ⟨by unfold Timers.Fits coarse; decide, ?_⟩
  rw [delays_agree_iff coarse 1 (by unfold Timers.Fits coarse; decide)]
  decide

end Timer

end Fennix
