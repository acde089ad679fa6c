import Mathlib.Tactic.Common

/-
  Events passed to registered handlers.

  The handlers are asked one after the other whether they want the event.
-/

variable {ε σ α β : Type}

structure Call (ε σ α : Type) where
  event : ε
  args : α
  before : σ
  after : σ
  reply : Bool

def callsTo (wants : ε → σ → Bool) (args : σ → α) (invoke : ε → α → σ → σ × Bool) :
    List ε → σ → List (Call ε σ α)
| [], _ => []
| e :: es, s =>
  if wants e s then
    let result := invoke e (args s) s
    ⟨e, args s, s, result.1, result.2⟩ :: callsTo wants args invoke es result.1
  else callsTo wants args invoke es s

def stateAfter (s : σ) : List (Call ε σ α) → σ
| [] => s
| c :: cs => stateAfter c.after cs

variable {wants : ε → σ → Bool} {args : σ → α} {invoke : ε → α → σ → σ × Bool}
variable {es : List ε} {s : σ}

theorem callsTo_events_of_invariant (inv : σ → Prop) (wanted : ε → Bool)
    (hKeep : ∀ e ∈ es, ∀ a s, inv s → inv (invoke e a s).1)
    (hWants : ∀ e s, inv s → wants e s = wanted e) (hStart : inv s) :
    (callsTo wants args invoke es s).map Call.event = es.filter wanted := by
  induction es generalizing s with
  | nil => rfl
  | cons e es ih =>
    have hRest : ∀ d ∈ es, ∀ a s, inv s → inv (invoke d a s).1 :=
      fun d hd => hKeep d (List.mem_cons_of_mem e hd)
    rw [callsTo, hWants e s hStart, List.filter_cons]
    by_cases he : wanted e = true
    · have hNext := hKeep e List.mem_cons_self (args s) s hStart
      rw [if_pos he, if_pos he, List.map_cons, ih hRest hNext]
    · rw [if_neg he, if_neg he, ih hRest hStart]

theorem callsTo_events (wanted : ε → Bool) (hWants : ∀ e s, wants e s = wanted e) (es : List ε)
    (s : σ) : (callsTo wants args invoke es s).map Call.event = es.filter wanted :=
  callsTo_events_of_invariant (fun _ => True) wanted
    (fun _ _ _ _ _ => trivial) (fun e s _ => hWants e s) trivial

theorem callsTo_skip (es fs : List ε) (s : σ) (hSkip : ∀ e ∈ es, ∀ s, wants e s = false) :
    callsTo wants args invoke (es ++ fs) s = callsTo wants args invoke fs s := by
  induction es with
  | nil => rfl
  | cons e es ih =>
    rw [List.cons_append, callsTo, hSkip e List.mem_cons_self s]
    exact ih (fun d hd => hSkip d (List.mem_cons_of_mem e hd))

theorem callsTo_none (es : List ε) (s : σ) (hSkip : ∀ e ∈ es, ∀ s, wants e s = false) :
    callsTo wants args invoke es s = [] := by
  rw [← List.append_nil es, callsTo_skip es [] s hSkip]
  rfl

theorem callsTo_only (es fs : List ε) (e : ε) (s : σ)
    (hSkip : ∀ d ∈ es ++ fs, ∀ s, wants d s = false) : callsTo wants args invoke (es ++ e :: fs) s =
    if wants e s then [⟨e, args s, s, (invoke e (args s) s).1, (invoke e (args s) s).2⟩]
    else [] := by
  have hBefore : ∀ d ∈ es, ∀ s, wants d s = false :=
    fun d hd => hSkip d (List.mem_append_left fs hd)
  have hBehind : ∀ d ∈ fs, ∀ s, wants d s = false :=
    fun d hd => hSkip d (List.mem_append_right es hd)
  rw [callsTo_skip es (e :: fs) s hBefore, callsTo]
  by_cases he : wants e s = true
  · simp only [if_pos he]
    rw [callsTo_none fs _ hBehind]
  · rw [if_neg he, if_neg he, callsTo_none fs s hBehind]

variable {c : Call ε σ α}

theorem callsTo_wanted (hc : c ∈ callsTo wants args invoke es s) :
    c.event ∈ es ∧ wants c.event c.before = true ∧ c.args = args c.before := by
  induction es generalizing s with
  | nil => cases hc
  | cons e es ih =>
    rw [callsTo] at hc
    split at hc
    · rename_i hWants
      rcases List.mem_cons.mp hc with rfl | hRest
      · exact ⟨List.mem_cons_self, hWants, rfl⟩
      · rcases ih hRest with ⟨hMem, hOthers⟩
        exact ⟨List.mem_cons_of_mem e hMem, hOthers⟩
    · rcases ih hc with ⟨hMem, hOthers⟩
      exact ⟨List.mem_cons_of_mem e hMem, hOthers⟩

theorem callsTo_observed {pre post : List (Call ε σ α)} (observe : σ → β)
    (hCalls : callsTo wants args invoke es s = pre ++ c :: post)
    (hKeep : ∀ b ∈ pre, observe b.after = observe b.before) : observe c.before = observe s := by
  induction es generalizing s pre with
  | nil => simp [callsTo] at hCalls
  | cons e es ih =>
    rw [callsTo] at hCalls
    split at hCalls
    · cases pre with
      | nil =>
        rw [List.nil_append, List.cons.injEq] at hCalls
        rw [← hCalls.1]
      | cons b pre =>
        rw [List.cons_append, List.cons.injEq] at hCalls
        have hRest := ih hCalls.2 (fun d hd => hKeep d (List.mem_cons_of_mem b hd))
        have hFirst := hKeep b List.mem_cons_self
        rw [← hCalls.1] at hFirst
        exact hRest.trans hFirst
    · exact ih hCalls hKeep
