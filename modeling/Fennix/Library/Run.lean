import Mathlib.Data.List.Induction

/-
  Finite runs of a labelled transition system.

  A run lists the labels of its steps in the order they were taken.
-/

inductive Run {σ ε : Type} (step : σ → ε → σ → Prop) (start : σ) : List ε → σ → Prop
| nil : Run step start [] start
| snoc {es : List ε} {s s' : σ} {e : ε} :
    Run step start es s → step s e s' → Run step start (es ++ [e]) s'

namespace Run

variable {σ ε : Type} {step : σ → ε → σ → Prop} {start : σ}

theorem invariant {P : σ → Prop} (hStart : P start) (hStep : ∀ s e s', P s → step s e s' → P s')
    {es : List ε} {s : σ} (hRun : Run step start es s) : P s := by
  induction hRun with
  | nil => exact hStart
  | snoc _ hLast ih => exact hStep _ _ _ ih hLast

end Run

theorem prefixes_iff {ε : Type} {P : List ε → Prop} {Keeps : List ε → ε → Prop}
    (hStep : ∀ before e, P before → (P (before ++ [e]) ↔ Keeps before e)) (es : List ε) :
    (∀ before, before <+: es → P before) ↔
    P [] ∧ ∀ before e, before ++ [e] <+: es → Keeps before e := by
  have hLess : ∀ {before : List ε} {e : ε}, before ++ [e] <+: es → before <+: es :=
    fun hMore => (List.prefix_append _ _).trans hMore
  constructor
  · intro hAll
    refine ⟨hAll [] List.nil_prefix, fun before e hMore => ?_⟩
    exact (hStep before e (hAll before (hLess hMore))).mp (hAll _ hMore)
  rintro ⟨hStart, hKeeps⟩ before
  induction before using List.reverseRecOn with
  | nil => exact fun _ => hStart
  | append_singleton before e ih =>
    intro hMore
    exact (hStep before e (ih (hLess hMore))).mpr (hKeeps before e hMore)

section StayGood

variable {σ ε : Type}

def Stays (execute : σ → ε → Option σ) (good : σ → Prop) : σ → List ε → Prop
| s, [] => good s
| s, e :: es =>
  good s ∧ ∃ s', execute s e = some s' ∧ Stays execute good s' es

def Meets (execute : σ → ε → Option σ) (condition : σ → ε → Prop) : σ → List ε → Prop
| _, [] => True
| s, e :: es =>
  condition s e ∧ ∀ s', execute s e = some s' → Meets execute condition s' es

def Returns (execute : σ → ε → Option σ) (s : σ) (e : ε) : Prop :=
  (execute s e).isSome

instance (execute : σ → ε → Option σ) (s : σ) (e : ε) : Decidable (Returns execute s e) :=
  inferInstanceAs (Decidable (_ = true))

variable {execute : σ → ε → Option σ} {good : σ → Prop} {valid condition other : σ → ε → Prop}
variable {s : σ}

instance Meets.decidable [∀ s e, Decidable (condition s e)] : (s : σ) → (es : List ε) →
      Decidable (Meets execute condition s es)
| _, [] => isTrue trivial
| s, e :: es =>
  match hExecute : execute s e with
  | none =>
    decidable_of_iff (condition s e) ⟨fun h => ⟨h, fun s' hSome => by
          rw [hExecute] at hSome
          cases hSome⟩,
        fun h => h.1⟩
  | some t =>
    have := Meets.decidable t es
    decidable_of_iff (condition s e ∧ Meets execute condition t es)
      ⟨fun h => ⟨h.1, fun s' hSome => by
          rw [hExecute] at hSome
          cases hSome
          exact h.2⟩,
        fun h => ⟨h.1, h.2 t hExecute⟩⟩

theorem Stays.at_start {es : List ε} (h : Stays execute good s es) : good s := by
  cases es with
  | nil => exact h
  | cons _ _ => exact h.1

theorem meets_true (es : List ε) : Meets execute (fun _ _ => True) s es := by
  induction es generalizing s with
  | nil => trivial
  | cons e es ih => exact ⟨trivial, fun _ _ => ih⟩

theorem stays_iff_meets_of_valid
    (hStep : ∀ s e, good s → valid s e → (condition s e ↔ ∃ s', execute s e = some s' ∧ good s'))
    (hGood : good s) {es : List ε} (hValid : Meets execute valid s es) :
    Stays execute good s es ↔ Meets execute condition s es := by
  induction es generalizing s with
  | nil => exact ⟨fun _ => trivial, fun _ => hGood⟩
  | cons e es ih =>
    rcases hValid with ⟨hHere, hLater⟩
    constructor
    · rintro ⟨_, s', hExecute, hRest⟩
      refine ⟨(hStep s e hGood hHere).mpr ⟨s', hExecute, hRest.at_start⟩, ?_⟩
      intro t hAgain
      rw [hExecute] at hAgain
      cases hAgain
      exact (ih hRest.at_start (hLater s' hExecute)).mp hRest
    rintro ⟨hCondition, hRest⟩
    rcases (hStep s e hGood hHere).mp hCondition with ⟨s', hExecute, hGood'⟩
    exact ⟨hGood, s', hExecute, (ih hGood' (hLater s' hExecute)).mpr (hRest s' hExecute)⟩

theorem stays_iff_meets
    (hStep : ∀ s e, good s → (condition s e ↔ ∃ s', execute s e = some s' ∧ good s'))
    (hGood : good s) (es : List ε) : Stays execute good s es ↔ Meets execute condition s es :=
  stays_iff_meets_of_valid (fun s e hGood _ => hStep s e hGood) hGood (meets_true es)

theorem Meets.of_stays (hStep : ∀ s e, good s → valid s e → condition s e → other s e) {es : List ε}
    (hStays : Stays execute good s es) (hValid : Meets execute valid s es)
    (hMeets : Meets execute condition s es) : Meets execute other s es := by
  induction es generalizing s with
  | nil => trivial
  | cons e es ih =>
    rcases hStays with ⟨hGood, s', hExecute, hRest⟩
    refine ⟨hStep s e hGood hValid.1 hMeets.1, ?_⟩
    intro t hAgain
    rw [hExecute] at hAgain
    cases hAgain
    exact ih hRest (hValid.2 s' hExecute) (hMeets.2 s' hExecute)

variable {inv : σ → Prop}

theorem stays_and_iff (hInv : ∀ s e s', inv s → execute s e = some s' → inv s') (hStart : inv s)
    (es : List ε) : Stays execute (fun s => inv s ∧ good s) s es ↔ Stays execute good s es := by
  induction es generalizing s with
  | nil => exact and_iff_right hStart
  | cons e es ih =>
    constructor
    · rintro ⟨hGood, s', hExecute, hRest⟩
      exact ⟨hGood.2, s', hExecute, (ih (hInv s e s' hStart hExecute)).mp hRest⟩
    · rintro ⟨hGood, s', hExecute, hRest⟩
      exact ⟨⟨hStart, hGood⟩, s', hExecute, (ih (hInv s e s' hStart hExecute)).mpr hRest⟩
variable {allowed : ε → Prop}

theorem meets_iff_forall {es : List ε} (hReturns : Meets execute (Returns execute) s es) :
    Meets execute (fun _ e => allowed e) s es ↔ ∀ e ∈ es, allowed e := by
  induction es generalizing s with
  | nil =>
    exact iff_of_true trivial (fun e he => (List.not_mem_nil he).elim)
  | cons e es ih =>
    rcases hReturns with ⟨hHere, hLater⟩
    rcases Option.isSome_iff_exists.mp hHere with ⟨s', hExecute⟩
    rw [List.forall_mem_cons, ← ih (hLater s' hExecute)]
    constructor
    · rintro ⟨hAllowed, hRest⟩
      exact ⟨hAllowed, hRest s' hExecute⟩
    rintro ⟨hAllowed, hRest⟩
    refine ⟨hAllowed, ?_⟩
    intro t hAgain
    rw [hExecute] at hAgain
    cases hAgain
    exact hRest

theorem stays_iff_forall_of_invariant (hInv : ∀ s e s', inv s → execute s e = some s' → inv s')
    (hStep : ∀ s e s', inv s → good s → execute s e = some s' → (allowed e ↔ good s'))
    (hStart : inv s) (hGood : good s) {es : List ε}
    (hReturns : Meets execute (Returns execute) s es) :
    Stays execute good s es ↔ ∀ e ∈ es, allowed e := by
  rw [← stays_and_iff hInv hStart, ← meets_iff_forall hReturns]
  refine stays_iff_meets_of_valid ?_ ⟨hStart, hGood⟩ hReturns
  intro s e hs hHere
  rcases Option.isSome_iff_exists.mp hHere with ⟨s', hExecute⟩
  rw [hStep s e s' hs.1 hs.2 hExecute]
  constructor
  · intro hGood'
    exact ⟨s', hExecute, hInv s e s' hs.1 hExecute, hGood'⟩
  rintro ⟨t, hAgain, _, hGood'⟩
  rw [hExecute] at hAgain
  cases hAgain
  exact hGood'

theorem meets_iff_forall_of_invariant (inv : σ → Prop)
    (hStep : ∀ s e, inv s → (condition s e ↔ allowed e))
    (hKeep : ∀ s e, inv s → allowed e → ∃ s', execute s e = some s' ∧ inv s') (hStart : inv s)
    (es : List ε) : Meets execute condition s es ↔ ∀ e ∈ es, allowed e := by
  induction es generalizing s with
  | nil =>
    exact iff_of_true trivial (fun e he => (List.not_mem_nil he).elim)
  | cons e es ih =>
    rw [List.forall_mem_cons, ← hStep s e hStart]
    refine and_congr_right ?_
    intro hHere
    rcases hKeep s e hStart ((hStep s e hStart).mp hHere) with ⟨s', hExecute, hInv⟩
    rw [← ih hInv]
    constructor
    · exact fun hRest => hRest s' hExecute
    intro hRest t hAgain
    rw [hExecute] at hAgain
    cases hAgain
    exact hRest

end StayGood

section Static

variable {σ ε β : Type}

def executes (execute : σ → ε → Option σ) (s : σ) (es : List ε) : Option σ :=
  es.foldlM execute s

theorem executes_snoc (execute : σ → ε → Option σ) (s : σ) (es : List ε) (e : ε) :
    executes execute s (es ++ [e]) = (executes execute s es).bind (fun t => execute t e) := by
  rw [executes, List.foldlM_append]
  simp [executes]

def FirstAt (execute : σ → ε → Option σ) (p : ε → Bool) (start : σ) (es : List ε) (t : σ)
    (e : ε) : Prop :=
  ∃ before after, es = before ++ e :: after ∧ (∀ a ∈ before, p a = false) ∧ p e = true ∧
    executes execute start before = some t

section Once

variable {execute : σ → ε → Option σ} {p : ε → Bool} {start t u : σ} {es : List ε} {e d : ε}

section

variable (h : FirstAt execute p start es t e)

include h

theorem FirstAt.snoc (d : ε) : FirstAt execute p start (es ++ [d]) t e := by
  rcases h with ⟨before, after, hEs, hNone, he, hRun⟩
  refine ⟨before, after ++ [d], ?_, hNone, he, hRun⟩
  rw [hEs, List.append_assoc, List.cons_append]

theorem FirstAt.unique (h' : FirstAt execute p start es u d) : t = u ∧ e = d := by
  rcases h with ⟨before, after, hEs, hNone, he, hRun⟩
  rcases h' with ⟨before', after', hEs', hNone', hd, hRun'⟩
  rw [hEs] at hEs'
  rcases List.append_eq_append_iff.mp hEs' with ⟨middle, rfl, hRest⟩ | ⟨middle, rfl, hRest⟩
  · cases middle with
    | nil =>
      cases hRest
      rw [List.append_nil, hRun] at hRun'
      cases hRun'
      exact ⟨rfl, rfl⟩
    | cons a middle =>
      cases hRest
      have hFalse := hNone' e (by simp)
      rw [he] at hFalse
      cases hFalse
  cases middle with
  | nil =>
    cases hRest
    rw [List.append_nil, hRun'] at hRun
    cases hRun
    exact ⟨rfl, rfl⟩
  | cons a middle =>
    cases hRest
    have hFalse := hNone d (by simp)
    rw [hd] at hFalse
    cases hFalse

theorem FirstAt.forall_iff {P : σ → ε → Prop} :
    (∀ u d, FirstAt execute p start es u d → P u d) ↔ P t e := by
  constructor
  · exact fun hAll => hAll t e h
  intro hHere u d h'
  rcases h.unique h' with ⟨rfl, rfl⟩
  exact hHere

theorem FirstAt.not_none (hNone : ∀ a ∈ es, p a = false) : False := by
  rcases h with ⟨before, after, hEs, _, he, _⟩
  have hFalse := hNone e (by simp [hEs])
  rw [he] at hFalse
  cases hFalse

end

section

variable (cell : σ → Option β) (value : σ → ε → β) (hStart : cell start = none)
  (hKeep : ∀ s e s', execute s e = some s' → p e = false → cell s' = cell s)
  (hSet : ∀ s e s', execute s e = some s' →
    p e = true → cell s' = some ((cell s).getD (value s e))) {s : σ}
  (hRun : executes execute start es = some s)

include hStart hKeep hSet hRun

theorem once_cases : (cell s = none ∧ ∀ e ∈ es, p e = false) ∨
    ∃ t e, FirstAt execute p start es t e ∧ cell s = some (value t e) := by
  induction es using List.reverseRecOn generalizing s with
  | nil =>
    cases hRun
    exact .inl ⟨hStart, fun _ h => (List.not_mem_nil h).elim⟩
  | append_singleton es e ih =>
    rw [executes_snoc] at hRun
    rcases Option.bind_eq_some_iff.mp hRun with ⟨t, hBefore, hLast⟩
    rcases ih hBefore with ⟨hNone, hOther⟩ | ⟨u, d, hFirst, hCell⟩
    · cases he : p e with
      | false =>
        refine Or.inl ⟨?_, ?_⟩
        · rw [hKeep t e s hLast he, hNone]
        intro a ha
        rcases List.mem_append.mp ha with ha | ha
        · exact hOther a ha
        · rw [List.mem_singleton.mp ha, he]
      | true =>
        refine Or.inr ⟨t, e, ⟨es, [], rfl, hOther, he, hBefore⟩, ?_⟩
        rw [hSet t e s hLast he, hNone]
        rfl
    refine Or.inr ⟨u, d, hFirst.snoc e, ?_⟩
    cases he : p e with
    | false => rw [hKeep t e s hLast he, hCell]
    | true =>
      rw [hSet t e s hLast he, hCell]
      rfl

/- A cell that is set once agrees with `x` exactly when the event that set it gave `x`. -/
theorem once_iff (x : β) : (cell s).getD x = x ↔
    ∀ t e, FirstAt execute p start es t e → value t e = x := by
  rcases once_cases cell value hStart hKeep hSet hRun with
    ⟨hNone, hOther⟩ | ⟨t, e, hFirst, hSome⟩
  · refine iff_of_true (by rw [hNone]; rfl) ?_
    intro t e hFirst
    exact (hFirst.not_none hOther).elim
  rw [hSome, Option.getD_some]
  exact (hFirst.forall_iff (P := fun t e => value t e = x)).symm

end

end Once

end Static
