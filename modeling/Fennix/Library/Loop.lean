import Mathlib.Data.BitVec

/-
  Loops that count up in 64 bits.

  The loop runs while its variable is below `stop` and adds `step` after each round.
-/

variable {σ : Type}

def loopUp (step stop : BitVec 64) (body : BitVec 64 → σ → Option σ) :
    (fuel : Nat) → BitVec 64 → σ → Option σ
| 0, _, _ => none
| fuel + 1, t, s =>
  if t < stop then
    (body t s).bind (fun s => loopUp step stop body fuel (t + step) s)
  else some s

variable {step stop t : BitVec 64} {body : BitVec 64 → σ → Option σ} {fuel : Nat} {s s' : σ}

theorem loopUp_invariant {P : BitVec 64 → σ → Prop}
    (hBody : ∀ t s s', P t s → t < stop → body t s = some s' → P (t + step) s') (hStart : P t s)
    (hLoop : loopUp step stop body fuel t s = some s') : ∃ last, ¬ last < stop ∧ P last s' := by
  induction fuel generalizing t s with
  | zero => cases hLoop
  | succ fuel ih =>
    rw [loopUp] at hLoop
    split at hLoop
    · rename_i hBelow
      rcases Option.bind_eq_some_iff.mp hLoop with ⟨s₁, hRound, hRest⟩
      exact ih (hBody t s s₁ hStart hBelow hRound) hRest
    rename_i hEnd
    cases hLoop
    exact ⟨t, hEnd, hStart⟩

theorem loopUp_returned (hStep : step.toNat ∣ 2 ^ 64)
    (hLoop : loopUp step stop body fuel t s = some s') : ∃ last, ¬ last < stop ∧
    last.toNat % step.toNat = t.toNat % step.toNat := by
  refine loopUp_invariant (P := fun (last : BitVec 64) _ =>
      last.toNat % step.toNat = t.toNat % step.toNat)
    ?_ rfl hLoop
  intro last _ _ hSame _ _
  rw [BitVec.toNat_add, Nat.mod_mod_of_dvd _ hStep, Nat.add_mod_right]
  exact hSame

theorem loopUp_invariant_up {P : BitVec 64 → σ → Prop} (hStep : step.toNat ∣ 2 ^ 64)
    (hBody : ∀ t' s s', t.toNat ≤ t'.toNat → t'.toNat % step.toNat = t.toNat % step.toNat →
    (t' + step).toNat = t'.toNat + step.toNat →
    P t' s → t' < stop → body t' s = some s' → P (t' + step) s') (hStart : P t s)
    (hLoop : loopUp step stop body fuel t s = some s') :
    ∃ last, ¬ last < stop ∧ t.toNat ≤ last.toNat ∧ last.toNat % step.toNat = t.toNat % step.toNat ∧
    P last s' := by
  rcases loopUp_returned hStep hLoop with ⟨w, hPast, hSame⟩
  refine loopUp_invariant (P := fun t' s => t.toNat ≤ t'.toNat ∧
      t'.toNat % step.toNat = t.toNat % step.toNat ∧ P t' s) ?_ ⟨Nat.le_refl _, rfl, hStart⟩ hLoop
  rintro t' s s' ⟨hLow, hHere, hP⟩ hBelow hRound
  have hBefore : t'.toNat < w.toNat := Nat.lt_of_lt_of_le hBelow (Nat.not_lt.mp hPast)
  have hWhole : step.toNat ∣ w.toNat - t'.toNat := (Nat.modEq_iff_dvd' (Nat.le_of_lt hBefore)).mp
    (hHere.trans hSame.symm)
  have hRoom := Nat.le_of_dvd (by omega) hWhole
  have hLimit := w.isLt
  have hNext : (t' + step).toNat = t'.toNat + step.toNat := by
    rw [BitVec.toNat_add]
    exact Nat.mod_eq_of_lt (by omega)
  refine ⟨by omega, ?_, hBody t' s s' hLow hHere hNext hP hBelow hRound⟩
  rw [hNext, Nat.add_mod_right]
  exact hHere

theorem loopUp_keeps {P : σ → Prop} (hStep : step.toNat ∣ 2 ^ 64)
    (hBody : ∀ t' s s', t ≤ t' → t' < stop → P s → body t' s = some s' → P s') (hStart : P s)
    (hLoop : loopUp step stop body fuel t s = some s') : P s' := by
  have hEnd := loopUp_invariant_up (P := fun _ s => P s) hStep ?_ hStart hLoop
  · rcases hEnd with ⟨_, _, _, _, hLast⟩
    exact hLast
  · intro t' s s' hLow _ _ hBefore hBelow hRound
    exact hBody t' s s' (BitVec.le_def.mpr hLow) hBelow hBefore hRound

theorem loopUp_lockstep {R : σ → σ → Prop}
    (hBody : ∀ t x y x', R x y → body t x = some x' → ∃ y', body t y = some y' ∧ R x' y')
    {x x' y : σ} (hStart : R x y) (hLoop : loopUp step stop body fuel t x = some x') :
    ∃ y', loopUp step stop body fuel t y = some y' ∧ R x' y' := by
  induction fuel generalizing t x y with
  | zero => cases hLoop
  | succ fuel ih =>
    rw [loopUp] at hLoop ⊢
    split at hLoop
    · rename_i hBelow
      rcases Option.bind_eq_some_iff.mp hLoop with ⟨x₁, hRound, hRest⟩
      rcases hBody t x y x₁ hStart hRound with ⟨y₁, hAlike, hNext⟩
      rcases ih hNext hRest with ⟨y', hAgain, hLast⟩
      refine ⟨y', ?_, hLast⟩
      rw [if_pos hBelow, hAlike]
      exact hAgain
    rename_i hEnd
    cases hLoop
    exact ⟨y, if_neg hEnd, hStart⟩

theorem loopUp_returns (step : BitVec 64) {P : Nat → σ → Prop}
    (hBody : ∀ n t s, P (n + 1) s → ∃ s', body t s = some s' ∧ P n s') {n : Nat} (hFuel : n < fuel)
    (hRounds : stop.toNat ≤ t.toNat + n * step.toNat) (hFit : stop.toNat + step.toNat ≤ 2 ^ 64)
    (hStart : P n s) : ∃ k s', loopUp step stop body fuel t s = some s' ∧ P k s' := by
  induction fuel generalizing t s n with
  | zero => omega
  | succ fuel ih =>
    rw [loopUp]
    by_cases hBelow : t < stop
    · rw [if_pos hBelow]
      have hLess : t.toNat < stop.toNat := hBelow
      have hNext : (t + step).toNat = t.toNat + step.toNat := by
        rw [BitVec.toNat_add]
        exact Nat.mod_eq_of_lt (by omega)
      cases n with
      | zero => omega
      | succ n =>
        rcases hBody n t s hStart with ⟨s₁, hRound, hRest⟩
        rw [hRound]
        refine ih (by omega) ?_ hRest
        rw [hNext, Nat.add_assoc]
        rw [Nat.succ_mul, Nat.add_comm _ step.toNat] at hRounds
        exact hRounds
    · rw [if_neg hBelow]
      exact ⟨n, s, rfl, hStart⟩

theorem foldlM_invariant {α : Type} {f : σ → α → Option σ} {P : σ → Prop} {l : List α}
    (hBody : ∀ a ∈ l, ∀ s s', P s → f s a = some s' → P s') (hStart : P s)
    (hFold : l.foldlM f s = some s') : P s' := by
  induction l generalizing s with
  | nil =>
    cases hFold
    exact hStart
  | cons a l ih =>
    rw [List.foldlM_cons] at hFold
    rcases Option.bind_eq_some_iff.mp hFold with ⟨s₁, hRound, hRest⟩
    refine ih ?_ ?_ hRest
    · intro b hb
      exact hBody b (List.mem_cons_of_mem a hb)
    · exact hBody a List.mem_cons_self s s₁ hStart hRound
