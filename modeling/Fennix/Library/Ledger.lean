import Mathlib.Tactic.Common

/-
  Time shared by many, with one owner at a time.
-/

structure TimeLedger (κ : Type) where
  clock : Nat
  held : κ → Nat
  waited : κ → Nat

namespace TimeLedger

variable {κ : Type} [DecidableEq κ]

def advance (l : TimeLedger κ) (owner : κ) (now : Nat) : TimeLedger κ where
  clock := now
  held := fun k =>
    if k = owner then l.held k + (now - l.clock)
    else l.held k
  waited := fun k =>
    if k = owner then l.waited k
    else l.waited k + (now - l.clock)

def enter (l : TimeLedger κ) (k : κ) : TimeLedger κ where
  clock := l.clock
  held := fun j => if j = k then 0 else l.held j
  waited := fun j => if j = k then 0 else l.waited j

def Since (l : TimeLedger κ) (k : κ) (birth : Nat) : Prop :=
  l.held k + l.waited k + birth = l.clock

variable {l : TimeLedger κ} {k j owner : κ} {now birth : Nat}

theorem Since.advance (h : l.Since k birth) (hNow : l.clock ≤ now) (owner : κ) :
    (l.advance owner now).Since k birth := by
  unfold Since at h ⊢
  simp only [TimeLedger.advance]
  split <;> omega

theorem Since.enter (h : l.Since k birth) (hOther : k ≠ j) : (l.enter j).Since k birth := by
  unfold Since at h ⊢
  simp only [TimeLedger.enter, if_neg hOther]
  exact h

theorem since_enter (l : TimeLedger κ) (k : κ) : (l.enter k).Since k l.clock := by
  unfold Since
  simp [TimeLedger.enter]

theorem held_le_advance (l : TimeLedger κ) (owner : κ) (now : Nat) (k : κ) :
    l.held k ≤ (l.advance owner now).held k := by
  simp only [advance]
  split <;> omega

theorem held_enter (l : TimeLedger κ) (hOther : k ≠ j) : (l.enter j).held k = l.held k :=
  if_neg hOther

end TimeLedger
