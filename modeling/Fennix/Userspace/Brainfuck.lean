import Mathlib.Tactic.Common

/-
  The brainfuck interpreter.

  The interpreter has no table of brackets: at `[` with a zero cell and at `]` with another one it
  scans the program for the matching bracket, forwards or backwards, counting the brackets between.
-/

------ The Machine

namespace Fennix

open List Function

/- What the interpreter does not check: the tape, the input and the program text may be left. -/
inductive BfFault where
| tape
| input
| program
deriving DecidableEq, Repr

structure BfState where
  ptr : Nat
  tape : Nat → BitVec 8
  input : List (BitVec 8)
  output : List (BitVec 8)

namespace BfState

def start (input : List (BitVec 8)) : BfState :=
  ⟨500, fun _ => 0, input, []⟩

def cell (s : BfState) : BitVec 8 :=
  s.tape s.ptr

def setCell (s : BfState) (value : BitVec 8) : BfState :=
  { s with tape := update s.tape s.ptr value }

def newline (s : BfState) : BfState :=
  { s with output := s.output ++ [10] }

def perform (s : BfState) (command : Char) : Except BfFault BfState :=
  match command with
  | '>' => if s.ptr + 1 < 1001 then .ok { s with ptr := s.ptr + 1 } else .error .tape
  | '<' => if 0 < s.ptr then .ok { s with ptr := s.ptr - 1 } else .error .tape
  | '+' => .ok (s.setCell (s.cell + 1))
  | '-' => .ok (s.setCell (s.cell - 1))
  | '.' => .ok { s with output := s.output ++ [s.cell] }
  | ',' =>
    match s.input with
    | [] => .error .input
    | c :: rest => .ok { s.setCell c with input := rest }
  | _ => .ok s

end BfState

------ The Interpreter

/- The text around the data pointer: the characters before it, the last one first, and those from
it on with the terminator. -/
structure BfText where
  before : List Char
  after : List Char

/- The bracket loops: characters are passed until the flag is zero, if it ever is. -/
def scanBrackets (up down : Char) : (data passed : List Char) → (bracketFlag : Nat) →
    Option (List Char × List Char)
| data, passed, 0 => some (data, passed)
| [], _, _ + 1 => none
| c :: data, passed, flag + 1 =>
  scanBrackets up down data (c :: passed)
    (if c = up then flag + 2 else if c = down then flag else flag + 1)

def bfStep (text : BfText) (s : BfState) : (BfText × BfState) ⊕ Except BfFault BfState :=
  match text.after with
  | [] => .inr (.error .program)
  | command :: rest =>
    let next : BfText := ⟨command :: text.before, rest⟩
    if command = '\x00' then .inr (.ok s.newline)
    else if command = '[' then
      if s.cell = 0 then
        match scanBrackets '[' ']' rest next.before 1 with
        | none => .inr (.error .program)
        | some (after, before) => .inl (⟨before, after⟩, s)
      else .inl (next, s)
    else if command = ']' then
      if s.cell ≠ 0 then
        -- the scan starts before this bracket and ends at the matching one
        match scanBrackets ']' '[' text.before text.after 1 with
        | none => .inr (.error .program)
        | some (before, after) => .inl (⟨before, after⟩, s)
      else .inl (next, s)
    else
      match s.perform command with
      | .error fault => .inr (.error fault)
      | .ok s' => .inl (next, s')

def bfRun : (fuel : Nat) → BfText → BfState → Option (Except BfFault BfState)
| 0, _, _ => none
| fuel + 1, text, s =>
  match bfStep text s with
  | .inl (text', s') => bfRun fuel text' s'
  | .inr result => some result

def brainfuck (fuel : Nat) (data : List Char) (input : List (BitVec 8)) :
    Option (Except BfFault BfState) :=
  bfRun fuel ⟨[], data ++ ['\x00']⟩ (BfState.start input)

------ Structured Programs

abbrev BfCommand :=
  {c : Char // c ≠ '[' ∧ c ≠ ']' ∧ c ≠ '\x00'}

inductive BfProgram where
| nil
| act (command : BfCommand) (rest : BfProgram)
| loop (body rest : BfProgram)

namespace BfProgram

def text : BfProgram → List Char
| nil => []
| act command rest => command.val :: rest.text
| loop body rest => '[' :: (body.text ++ ']' :: rest.text)

/- The big-step meaning; a fault ends the program. -/
inductive Eval : BfProgram → BfState → Except BfFault BfState → Prop
| nil (s) : Eval nil s (.ok s)
| act {c rest s s' r} (hPerform : s.perform c.val = .ok s') (hRest : Eval rest s' r) :
  Eval (act c rest) s r
| actFault {c rest s fault} (hPerform : s.perform c.val = .error fault) :
  Eval (act c rest) s (.error fault)
| done {body rest s r} (hCell : s.cell = 0) (hRest : Eval rest s r) : Eval (loop body rest) s r
| again {body rest s s' r} (hCell : s.cell ≠ 0) (hBody : Eval body s (.ok s'))
  (hLoop : Eval (loop body rest) s' r) : Eval (loop body rest) s r
| bodyFault {body rest s fault} (hCell : s.cell ≠ 0) (hBody : Eval body s (.error fault)) :
  Eval (loop body rest) s (.error fault)

end BfProgram

def balanced : (n : Nat) → List Char → Bool
| n, [] => n == 0
| n, c :: text =>
  if c = '[' then balanced (n + 1) text
  else if c = ']' then 0 < n && balanced (n - 1) text
  else balanced n text

------ Matching Brackets

namespace BfProgram

variable (body q : BfProgram) (pre post : List Char)

theorem loop_append :
    (loop body q).text ++ post = '[' :: (body.text ++ ']' :: (q.text ++ post)) := by
  simp [text]

theorem loop_reverse : (loop body q).text.reverse ++ pre =
    q.text.reverse ++ ']' :: (body.text.reverse ++ '[' :: pre) := by
  simp [text]

theorem scan_text (p : BfProgram) (flag : Nat) (rest passed : List Char) :
    scanBrackets '[' ']' (p.text ++ rest) passed (flag + 1) =
    scanBrackets '[' ']' rest (p.text.reverse ++ passed) (flag + 1) := by
  induction p generalizing flag rest passed with
  | nil => rfl
  | act c q ih =>
    rw [text, cons_append, scanBrackets, if_neg c.property.1, if_neg c.property.2.1, ih]
    simp
  | loop body q ihBody ihRest =>
    rw [loop_append, scanBrackets, if_pos rfl, ihBody, scanBrackets, if_neg (by decide),
      if_pos rfl, ihRest, loop_reverse]

theorem scan_text_reverse (p : BfProgram) (flag : Nat) (rest passed : List Char) :
    scanBrackets ']' '[' (p.text.reverse ++ rest) passed (flag + 1) =
    scanBrackets ']' '[' rest (p.text ++ passed) (flag + 1) := by
  induction p generalizing flag rest passed with
  | nil => rfl
  | act c q ih =>
    rw [text, reverse_cons, append_assoc, ih, singleton_append, scanBrackets,
      if_neg c.property.2.1, if_neg c.property.1]
    rfl
  | loop body q ihBody ihRest =>
    rw [loop_reverse, ihRest, scanBrackets, if_pos rfl, ihBody, scanBrackets, if_neg (by decide),
      if_pos rfl, loop_append]

end BfProgram

theorem exists_program (text : List Char) (hText : '\x00' ∉ text) (n : Nat)
    (hBalanced : balanced n text = true) : ∃ (p : BfProgram) (rest : List Char),
    text = p.text ++ rest ∧ (n = 0 ∧ rest = [] ∨
      ∃ k rest', n = k + 1 ∧ rest = ']' :: rest' ∧ balanced k rest' = true) := by
  induction hLength : text.length using Nat.strongRecOn generalizing text n with
  | ind len ih =>
    rcases text with _ | ⟨c, text⟩
    · have hZero : n = 0 := by simpa [balanced] using hBalanced
      exact ⟨.nil, [], rfl, Or.inl ⟨hZero, rfl⟩⟩
    rw [length_cons] at hLength
    rw [mem_cons, not_or] at hText
    rw [balanced] at hBalanced
    split_ifs at hBalanced with hOpen hClose
    · rcases ih text.length (by omega) text hText.2 (n + 1) hBalanced rfl with
        ⟨body, _, rfl, ⟨hZero, _⟩ | ⟨k, rest, hk, rfl, hRest⟩⟩
      · omega
      have hLevel : k = n := by omega
      subst hLevel
      rw [length_append, length_cons] at hLength
      have hNul : '\x00' ∉ rest := fun h => hText.2 (by simp [h])
      rcases ih rest.length (by omega) rest hNul k hRest rfl with ⟨q, tail, rfl, hTail⟩
      exact ⟨.loop body q, tail, by simp [BfProgram.text, hOpen], hTail⟩
    · simp only [Bool.and_eq_true, decide_eq_true_eq] at hBalanced
      exact ⟨.nil, c :: text, rfl,
        Or.inr ⟨n - 1, text, by omega, by rw [hClose], hBalanced.2⟩⟩
    · rcases ih text.length (by omega) text hText.2 n hBalanced rfl with ⟨q, rest, rfl, hRest⟩
      exact ⟨.act ⟨c, hOpen, hClose, fun h => hText.1 h.symm⟩ q, rest, rfl, hRest⟩

------ Single Steps

section

variable {pre post : List Char} {s : BfState} (body : BfProgram)

theorem bfStep_end : bfStep ⟨pre, ['\x00']⟩ s = .inr (.ok s.newline) := by
  simp [bfStep]

theorem bfStep_act (c : BfCommand) :
    bfStep ⟨pre, c.val :: post⟩ s =
    match s.perform c.val with
    | .error fault => .inr (.error fault)
    | .ok s' => .inl (⟨c.val :: pre, post⟩, s') := by
  rw [bfStep]
  dsimp only
  rw [if_neg c.property.2.2, if_neg c.property.1, if_neg c.property.2.1]

theorem bfStep_enter (hCell : s.cell ≠ 0) :
    bfStep ⟨pre, '[' :: post⟩ s = .inl (⟨'[' :: pre, post⟩, s) := by
  rw [bfStep]
  dsimp only
  rw [if_neg (by decide), if_pos rfl, if_neg hCell]

theorem bfStep_leave (hCell : s.cell = 0) :
    bfStep ⟨pre, ']' :: post⟩ s = .inl (⟨']' :: pre, post⟩, s) := by
  simp [bfStep, hCell]

theorem bfStep_skip (hCell : s.cell = 0) :
    bfStep ⟨pre, '[' :: (body.text ++ ']' :: post)⟩ s =
    .inl (⟨']' :: (body.text.reverse ++ '[' :: pre), post⟩, s) := by
  simp [bfStep, hCell, body.scan_text 0, scanBrackets]

theorem bfStep_repeat (hCell : s.cell ≠ 0) :
    bfStep ⟨body.text.reverse ++ '[' :: pre, ']' :: post⟩ s =
    .inl (⟨pre, '[' :: (body.text ++ ']' :: post)⟩, s) := by
  rw [bfStep]
  dsimp only
  rw [if_neg (by decide), if_neg (by decide), if_pos rfl, if_pos hCell, body.scan_text_reverse 0,
    scanBrackets, if_neg (by decide), if_pos rfl, scanBrackets]

end

section

variable {pre post : List Char} {text text' : BfText} {fuel : Nat} {s s' : BfState}
  {r r' : Except BfFault BfState} {p : BfProgram}

theorem bfRun_next (h : bfStep text s = .inl (text', s')) :
    bfRun (fuel + 1) text s = bfRun fuel text' s' := by
  rw [bfRun, h]

theorem bfRun_halt (h : bfStep text s = .inr r) : bfRun (fuel + 1) text s = some r := by
  rw [bfRun, h]

def Continues (fuel : Nat) (text : BfText) (r : Except BfFault BfState) :
    Except BfFault BfState → Prop
| .error fault => r = .error fault
| .ok s => ∃ fuel', fuel' ≤ fuel ∧ bfRun fuel' text s = some r

theorem Continues.mono {fuel' : Nat} (h : Continues fuel text r r') (hLe : fuel ≤ fuel') :
    Continues fuel' text r r' := by
  cases r' with
  | error fault => exact h
  | ok s =>
    rcases h with ⟨k, hk, hRun⟩
    exact ⟨k, Nat.le_trans hk hLe, hRun⟩

theorem eval_of_run (fuel : Nat) (p : BfProgram)
    (hRun : bfRun fuel ⟨pre, p.text ++ post⟩ s = some r) :
    ∃ r', p.Eval s r' ∧ Continues fuel ⟨p.text.reverse ++ pre, post⟩ r r' := by
  induction fuel using Nat.strongRecOn generalizing p pre post s with
  | ind fuel ih =>
    rcases fuel with _ | fuel
    · cases hRun
    cases p with
    | nil => exact ⟨.ok s, .nil s, fuel + 1, Nat.le_refl _, hRun⟩
    | act c q =>
      have hStep : bfStep ⟨pre, c.val :: (q.text ++ post)⟩ s = _ := bfStep_act c
      rw [BfProgram.text, cons_append] at hRun
      cases hPerform : s.perform c.val with
      | error fault =>
        rw [hPerform] at hStep
        rw [bfRun_halt hStep] at hRun
        exact ⟨.error fault, .actFault hPerform, (Option.some.inj hRun).symm⟩
      | ok s' =>
        rw [hPerform] at hStep
        rw [bfRun_next hStep] at hRun
        rcases ih fuel (Nat.lt_succ_self _) q hRun with ⟨r', hEval, hCont⟩
        rw [BfProgram.text, reverse_cons, append_assoc]
        exact ⟨r', .act hPerform hEval, hCont.mono (Nat.le_succ _)⟩
    | loop body q =>
      rw [BfProgram.loop_append] at hRun
      rw [BfProgram.loop_reverse]
      by_cases hCell : s.cell = 0
      · rw [bfRun_next (bfStep_skip body hCell)] at hRun
        rcases ih fuel (Nat.lt_succ_self _) q hRun with ⟨r', hEval, hCont⟩
        exact ⟨r', .done hCell hEval, hCont.mono (Nat.le_succ _)⟩
      rw [bfRun_next (bfStep_enter hCell)] at hRun
      rcases ih fuel (Nat.lt_succ_self _) body hRun with ⟨r₁, hBody, hCont⟩
      cases r₁ with
      | error fault => exact ⟨.error fault, .bodyFault hCell hBody, hCont⟩
      | ok s₁ =>
        -- at the closing bracket
        rcases hCont with ⟨_ | k, hk, hClose⟩
        · cases hClose
        by_cases hAgain : s₁.cell = 0
        · rw [bfRun_next (bfStep_leave hAgain)] at hClose
          rcases ih k (by omega) q hClose with ⟨r', hEval, hCont⟩
          exact ⟨r', .again hCell hBody (.done hAgain hEval), hCont.mono (by omega)⟩
        rw [bfRun_next (bfStep_repeat body hAgain), ← BfProgram.loop_append] at hClose
        rcases ih k (by omega) (.loop body q) hClose with ⟨r', hEval, hCont⟩
        rw [BfProgram.loop_reverse] at hCont
        exact ⟨r', .again hCell hBody hEval, hCont.mono (by omega)⟩

theorem run_from_close (body : BfProgram)
    (hRun : bfRun fuel ⟨pre, '[' :: (body.text ++ ']' :: post)⟩ s = some r) :
    ∃ fuel, bfRun fuel ⟨body.text.reverse ++ '[' :: pre, ']' :: post⟩ s = some r := by
  by_cases hCell : s.cell = 0
  · rcases fuel with _ | fuel
    · cases hRun
    rw [bfRun_next (bfStep_skip body hCell)] at hRun
    exact ⟨fuel + 1, (bfRun_next (bfStep_leave hCell)).trans hRun⟩
  · exact ⟨fuel + 1, (bfRun_next (bfStep_repeat body hCell)).trans hRun⟩

theorem run_of_eval (hEval : p.Eval s r') (pre post : List Char)
    (hCont : ∃ fuel, Continues fuel ⟨p.text.reverse ++ pre, post⟩ r r') :
    ∃ fuel, bfRun fuel ⟨pre, p.text ++ post⟩ s = some r := by
  induction hEval generalizing pre post with
  | nil s =>
    rcases hCont with ⟨_, fuel, _, hRun⟩
    exact ⟨fuel, hRun⟩
  | @act c q s s' r' hPerform hRest ih =>
    have hStep : bfStep ⟨pre, c.val :: (q.text ++ post)⟩ s = _ := bfStep_act c
    rw [hPerform] at hStep
    rw [BfProgram.text, reverse_cons, append_assoc] at hCont
    rcases ih (c.val :: pre) post hCont with ⟨fuel, hRun⟩
    exact ⟨fuel + 1, (bfRun_next hStep).trans hRun⟩
  | @actFault c q s fault hPerform =>
    have hStep : bfStep ⟨pre, c.val :: (q.text ++ post)⟩ s = _ := bfStep_act c
    rw [hPerform] at hStep
    rcases hCont with ⟨_, hFault⟩
    rw [hFault]
    exact ⟨1, bfRun_halt hStep⟩
  | @done body q s r' hCell hRest ih =>
    rw [BfProgram.loop_reverse] at hCont
    rw [BfProgram.loop_append]
    rcases ih _ post hCont with ⟨fuel, hRun⟩
    exact ⟨fuel + 1, (bfRun_next (bfStep_skip body hCell)).trans hRun⟩
  | @again body q s s₁ r' hCell hBody hLoop ihBody ihLoop =>
    rcases ihLoop pre post hCont with ⟨fuel, hBack⟩
    rw [BfProgram.loop_append] at hBack ⊢
    rcases run_from_close body hBack with ⟨fuel', hClose⟩
    rcases ihBody ('[' :: pre) (']' :: (q.text ++ post)) ⟨fuel', fuel', Nat.le_refl _, hClose⟩ with
      ⟨fuel'', hRun⟩
    exact ⟨fuel'' + 1, (bfRun_next (bfStep_enter hCell)).trans hRun⟩
  | @bodyFault body q s fault hCell hBody ih =>
    rw [BfProgram.loop_append]
    rcases ih ('[' :: pre) (']' :: (q.text ++ post)) hCont with ⟨fuel, hRun⟩
    exact ⟨fuel + 1, (bfRun_next (bfStep_enter hCell)).trans hRun⟩

theorem perform_ne_program (s : BfState) (c : Char) : s.perform c ≠ .error .program := by
  unfold BfState.perform
  split
  all_goals try split
  all_goals simp

theorem eval_ne_program (hEval : p.Eval s r) : r ≠ .error .program := by
  induction hEval with
  | nil s => simp
  | act _ _ ih => exact ih
  | @actFault c q s fault hPerform =>
    rintro ⟨⟩
    exact perform_ne_program s c.val hPerform
  | done _ _ ih => exact ih
  | again _ _ _ _ ih => exact ih
  | bodyFault _ _ ih => exact ih

theorem brainfuck_iff (input : List (BitVec 8)) :
    (∃ fuel, brainfuck fuel p.text input = some r) ↔
    ∃ r', p.Eval (.start input) r' ∧ r = r'.map BfState.newline := by
  constructor
  · rintro ⟨fuel, hRun⟩
    rcases eval_of_run fuel p hRun with ⟨r', hEval, hCont⟩
    refine ⟨r', hEval, ?_⟩
    cases r' with
    | error fault => exact hCont
    | ok s =>
      rcases hCont with ⟨_ | k, _, hEnd⟩
      · cases hEnd
      rw [bfRun_halt bfStep_end] at hEnd
      exact (Option.some.inj hEnd).symm
  rintro ⟨r', hEval, rfl⟩
  apply run_of_eval hEval [] ['\x00']
  cases r' with
  | error fault => exact ⟨0, rfl⟩
  | ok s => exact ⟨1, 1, Nat.le_refl 1, bfRun_halt bfStep_end⟩

end

theorem brainfuck_refines (text : List Char) (hText : '\x00' ∉ text)
    (hBalanced : balanced 0 text = true) : (∃ p : BfProgram, p.text = text) ∧
    ∀ p : BfProgram, p.text = text → ∀ input,
      (∀ r, (∃ fuel, brainfuck fuel text input = some r) ↔
        ∃ r', p.Eval (.start input) r' ∧ r = r'.map BfState.newline) ∧
      ∀ fuel, brainfuck fuel text input ≠ some (.error .program) := by
  refine ⟨?_, ?_⟩
  · rcases exists_program text hText 0 hBalanced with ⟨p, rest, hEq, ⟨_, rfl⟩ | ⟨k, _, hk, _⟩⟩
    · exact ⟨p, by rw [hEq, append_nil]⟩
    · omega
  rintro p rfl input
  refine ⟨fun r => brainfuck_iff input, fun fuel hRun => ?_⟩
  rcases (brainfuck_iff input).mp ⟨fuel, hRun⟩ with ⟨r', hEval, hFault⟩
  cases r' with
  | error fault => exact eval_ne_program hEval hFault.symm
  | ok s =>
    cases hFault

theorem brainfuck_refines_cat : ∃ p : BfProgram, p.text = [',', '[', '.', ',', ']'] :=
  (brainfuck_refines [',', '[', '.', ',', ']'] (by decide) (by decide)).1

end Fennix
