import Fennix.Library.Memory

/-
  The tokenizer of the C library.

  `strtok` cuts a string in place and keeps the address behind the cut in a static pointer, null
  before the first call.
-/

namespace Fennix

namespace Libc

open List

def isdelim (c : BitVec 8) : List (BitVec 8) → Bool
| [] => false
| d :: delim => if d = 0 then false else if c = d then true else isdelim c delim

structure Tokenizer where
  memory : Memory
  src1 : Nat

def skipDelims (delim : List (BitVec 8)) (m : Memory) : (fuel src : Nat) → Option (Option Nat)
| 0, _ => none
| fuel + 1, src =>
  if isdelim (m src) delim then skipDelims delim m fuel (src + 1)
  else if m src = 0 then some none
  else some (some src)

def cutToken (delim : List (BitVec 8)) (m : Memory) : (fuel src : Nat) → Option Tokenizer
| 0, _ => none
| fuel + 1, src =>
  if m src = 0 then some ⟨m, src⟩
  else if isdelim (m src) delim then some ⟨m.write src 0, src + 1⟩
  else cutToken delim m fuel (src + 1)

def strtok (fuel : Nat) (delim : List (BitVec 8)) (s : Tokenizer) (src : Nat) :
    Option (Nat × Tokenizer) :=
  let src := if src = 0 then s.src1 else src
  if src = 0 then some (0, s)
  else do
    match ← skipDelims delim s.memory fuel src with
    | none => some (0, s)
    | some ret =>
      let cut ← cutToken delim s.memory fuel ret
      some (ret, cut)

def strtokCall (fuel : Nat) (delim : List (BitVec 8)) :
    (n : Nat) → Tokenizer → (src : Nat) → Option (Nat × Tokenizer)
| 0, s, src => strtok fuel delim s src
| n + 1, s, src => do
  let (_, s') ← strtok fuel delim s src
  strtokCall fuel delim n s' 0

------ Strings and Tokens

def StringAt (m : Memory) : Nat → List (BitVec 8) → Prop
| a, [] => m a = 0
| a, c :: text => m a = c ∧ c ≠ 0 ∧ StringAt m (a + 1) text

/- The maximal non-empty runs of characters that are no delimiters. -/
def tokens (delim text : List (BitVec 8)) : List (List (BitVec 8)) :=
  (text.splitOnP (isdelim · delim)).filter (· ≠ [])

def Answers (fuel : Nat) (delim text : List (BitVec 8)) (s : Tokenizer) (src n : Nat) : Prop :=
  ∃ ret s', strtokCall fuel delim n s src = some (ret, s') ∧
    match (tokens delim text)[n]? with
    | some token => ret ≠ 0 ∧ StringAt s'.memory ret token
    | none => ret = 0

variable {delim text : List (BitVec 8)} {m m' : Memory} {a fuel : Nat} {c : BitVec 8}

theorem isdelim_zero (delim : List (BitVec 8)) : isdelim 0 delim = false := by
  induction delim with
  | nil => rfl
  | cons d delim ih =>
    rw [isdelim]
    split_ifs with hEnd hSame
    · rfl
    · exact absurd hSame.symm hEnd
    · exact ih

theorem tokens_delim (h : isdelim c delim = true) :
    tokens delim (c :: text) = tokens delim text := by
  have hSplit := splitOnP_append_cons (p := (isdelim · delim)) [] text h
  rw [nil_append] at hSplit
  rw [tokens, hSplit]
  simp [tokens]

theorem tokens_single {token : List (BitVec 8)} (hToken : ∀ c ∈ token, isdelim c delim = false)
    (hSome : token ≠ []) : tokens delim token = [token] := by
  rw [tokens, splitOnP_eq_singleton hToken]
  simp [hSome]

theorem tokens_run {token : List (BitVec 8)} (hToken : ∀ c ∈ token, isdelim c delim = false)
    (hSome : token ≠ []) (h : isdelim c delim = true) :
    tokens delim (token ++ c :: text) = token :: tokens delim text := by
  rw [tokens, splitOnP_append_cons token text h, filter_append]
  change tokens delim token ++ tokens delim text = _
  rw [tokens_single hToken hSome]
  rfl

theorem StringAt.of_agree (hText : StringAt m a text) (h : ∀ x, a ≤ x → m' x = m x) :
    StringAt m' a text := by
  induction text generalizing a with
  | nil => exact (h a (Nat.le_refl a)).trans hText
  | cons c text ih =>
    rcases hText with ⟨hChar, hNe, hRest⟩
    refine ⟨(h a (Nat.le_refl a)).trans hChar, hNe, ih hRest fun x hx => h x (by omega)⟩

theorem skipDelims_eq (delim : List (BitVec 8)) (hText : StringAt m a text)
    (hFuel : text.length < fuel) :
    (skipDelims delim m fuel a = some none ∧ tokens delim text = []) ∨
    ∃ start c rest, skipDelims delim m fuel a = some (some start) ∧ a ≤ start ∧
    StringAt m start (c :: rest) ∧ isdelim c delim = false ∧ rest.length < text.length ∧
    tokens delim text = tokens delim (c :: rest) := by
  induction text generalizing a fuel with
  | nil =>
    left
    rcases fuel with _ | fuel
    · exact absurd hFuel (Nat.not_lt_zero _)
    change m a = 0 at hText
    rw [skipDelims, hText, isdelim_zero]
    exact ⟨rfl, rfl⟩
  | cons c text ih =>
    rcases hText with ⟨hChar, hNe, hRest⟩
    rw [length_cons] at hFuel
    rcases fuel with _ | fuel
    · omega
    have hLess : text.length < fuel := by omega
    rw [skipDelims, hChar]
    by_cases hDelim : isdelim c delim = true
    · rw [if_pos hDelim, tokens_delim hDelim]
      rcases ih hRest hLess with
        hNone | ⟨start, c', rest, hEq, hLe, hAt, hToken, hLength, hSame⟩
      · exact .inl hNone
      · exact .inr ⟨start, c', rest, hEq, by omega, hAt, hToken, by simpa using by omega, hSame⟩
    rw [if_neg hDelim, if_neg hNe]
    exact .inr ⟨a, c, text, rfl, Nat.le_refl a, ⟨hChar, hNe, hRest⟩,
      Bool.eq_false_iff.mpr hDelim, Nat.lt_succ_self _, rfl⟩

theorem cutToken_eq (delim : List (BitVec 8)) (hText : StringAt m a text)
    (hFuel : text.length < fuel) :
    ∃ s' token rest, cutToken delim m fuel a = some s' ∧ a ≤ s'.src1 ∧
    (∀ x < a, s'.memory x = m x) ∧ StringAt s'.memory a token ∧
    StringAt s'.memory s'.src1 rest ∧ (∀ c ∈ token, isdelim c delim = false) ∧
    (text = token ∧ rest = [] ∨ ∃ c, isdelim c delim = true ∧ text = token ++ c :: rest) := by
  induction text generalizing a fuel with
  | nil =>
    rcases fuel with _ | fuel
    · exact absurd hFuel (Nat.not_lt_zero _)
    change m a = 0 at hText
    rw [cutToken, if_pos hText]
    exact ⟨⟨m, a⟩, [], [], rfl, Nat.le_refl a, fun _ _ => rfl, hText, hText, by simp,
      Or.inl ⟨rfl, rfl⟩⟩
  | cons c text ih =>
    rcases hText with ⟨hChar, hNe, hRest⟩
    rw [length_cons] at hFuel
    rcases fuel with _ | fuel
    · omega
    have hLess : text.length < fuel := by omega
    rw [cutToken, hChar, if_neg hNe]
    by_cases hDelim : isdelim c delim = true
    · rw [if_pos hDelim]
      refine ⟨⟨m.write a 0, a + 1⟩, [], text, rfl, Nat.le_succ a, fun x hx => ?_, ?_, ?_, by simp,
        Or.inr ⟨c, hDelim, rfl⟩⟩
      · exact m.write_other _ (by omega)
      · exact m.write_same a 0
      · exact hRest.of_agree fun x hx => m.write_other _ (by omega)
    rw [if_neg hDelim]
    rcases ih hRest hLess with
      ⟨s', token, rest, hEq, hLe, hBelow, hToken, hAt, hRun, hSplit⟩
    refine ⟨s', c :: token, rest, hEq, by omega, fun x hx => hBelow x (by omega),
      ⟨(hBelow a (Nat.lt_succ_self a)).trans hChar, hNe, hToken⟩, hAt, ?_, ?_⟩
    · rw [forall_mem_cons]
      exact ⟨Bool.eq_false_iff.mpr hDelim, hRun⟩
    rcases hSplit with ⟨rfl, rfl⟩ | ⟨d, hd, rfl⟩
    · exact .inl ⟨rfl, rfl⟩
    · exact .inr ⟨d, hd, rfl⟩

def GoesOn (s : Tokenizer) (src : Nat) (text : List (BitVec 8)) : Prop :=
  let a := if src = 0 then s.src1 else src
  if a = 0 then text = [] else StringAt s.memory a text

theorem strtok_eq (delim : List (BitVec 8)) {s : Tokenizer} {src : Nat} (hText : GoesOn s src text)
    (hFuel : text.length < fuel) :
    (strtok fuel delim s src = some (0, s) ∧ tokens delim text = []) ∨
    ∃ ret s' token rest, strtok fuel delim s src = some (ret, s') ∧ ret ≠ 0 ∧
    StringAt s'.memory ret token ∧ GoesOn s' 0 rest ∧ rest.length < fuel ∧
    tokens delim text = token :: tokens delim rest := by
  rw [strtok]
  unfold GoesOn at hText
  generalize (if src = 0 then s.src1 else src) = a at hText ⊢
  dsimp only at hText ⊢
  by_cases ha : a = 0
  · rw [if_pos ha] at hText ⊢
    exact .inl ⟨rfl, by rw [hText]; rfl⟩
  rw [if_neg ha] at hText ⊢
  rcases skipDelims_eq delim hText hFuel with
    ⟨hEq, hNone⟩ | ⟨start, c, tail, hEq, hLe, hAt, hChar, hLength, hSame⟩
  · left
    rw [hEq]
    exact ⟨rfl, hNone⟩
  right
  have hTail : (c :: tail).length < fuel := by
    rw [length_cons]
    omega
  rcases cutToken_eq delim hAt hTail with
    ⟨s', token, rest, hCut, hSrc1, _, hToken, hRest, hRun, hSplit⟩
  refine ⟨start, s', token, rest, ?_, by omega, hToken, ?_, ?_, ?_⟩
  · rw [hEq]
    change (do let cut ← cutToken delim s.memory fuel start; some (start, cut)) = _
    rw [hCut]
    rfl
  · rw [GoesOn, if_pos rfl, if_neg (by omega)]
    exact hRest
  · rcases hSplit with ⟨_, rfl⟩ | ⟨d, _, hText⟩
    · exact Nat.lt_of_le_of_lt (Nat.zero_le _) hFuel
    have hParts := congrArg length hText
    rw [length_append, length_cons, length_cons] at hParts
    omega
  · have hSome : token ≠ [] := by
      rintro rfl
      rcases hSplit with ⟨hEmpty, _⟩ | ⟨d, hd, hHead⟩
      · exact absurd hEmpty (cons_ne_nil c tail)
      rw [nil_append, cons.injEq] at hHead
      rw [hHead.1, hd] at hChar
      exact Bool.noConfusion hChar
    rw [hSame]
    rcases hSplit with ⟨hWhole, rfl⟩ | ⟨d, hd, hText⟩
    · rw [hWhole, tokens_single hRun hSome]
      rfl
    · rw [hText, tokens_run hRun hSome hd]

variable {s s' : Tokenizer} {src ret n : Nat}

theorem strtokCall_succ (h : strtok fuel delim s src = some (ret, s')) :
    strtokCall fuel delim (n + 1) s src = strtokCall fuel delim n s' 0 := by
  rw [strtokCall, h]
  rfl

theorem Answers.succ {token rest : List (BitVec 8)} (h : strtok fuel delim s src = some (ret, s'))
    (hTokens : tokens delim text = token :: tokens delim rest) :
    Answers fuel delim text s src (n + 1) ↔ Answers fuel delim rest s' 0 n := by
  rw [Answers, Answers, strtokCall_succ h, hTokens]
  rfl

theorem answers_null (delim : List (BitVec 8)) (hText : GoesOn s 0 text)
    (hFuel : text.length < fuel) (n : Nat) : Answers fuel delim text s 0 n := by
  induction n generalizing s text with
  | zero =>
    rcases strtok_eq delim hText hFuel with
      ⟨hEq, hNone⟩ | ⟨ret, s', token, rest, hEq, hRet, hToken, _, _, hTokens⟩
    · exact ⟨0, s, hEq, by rw [hNone]; rfl⟩
    · exact ⟨ret, s', hEq, by rw [hTokens]; exact ⟨hRet, hToken⟩⟩
  | succ n ih =>
    rcases strtok_eq delim hText hFuel with
      ⟨hEq, hNone⟩ | ⟨ret, s', token, rest, hEq, _, _, hRest, hShort, hTokens⟩
    · rcases ih hText hFuel with ⟨ret, s', hCall, hAnswer⟩
      refine ⟨ret, s', (strtokCall_succ hEq).trans hCall, ?_⟩
      rw [hNone] at hAnswer ⊢
      exact hAnswer
    · exact (Answers.succ hEq hTokens).mpr (ih hRest hShort)

theorem strtok_tokens_iff (delim text left : List (BitVec 8)) (s : Tokenizer) (a fuel : Nat)
    (ha : a ≠ 0) (hText : StringAt s.memory a text) (hLeft : GoesOn s 0 left)
    (hFuel : text.length < fuel ∧ left.length < fuel) :
    (∀ n, Answers fuel delim text s a n) ↔ tokens delim text ≠ [] ∨ tokens delim left = [] := by
  have hFirst : GoesOn s a text := by
    rw [GoesOn, if_neg ha, if_neg ha]
    exact hText
  rcases strtok_eq delim hFirst hFuel.1 with
    ⟨hEq, hNone⟩ | ⟨ret, s', token, rest, hEq, hRet, hToken, hRest, hShort, hTokens⟩
  swap
  · refine iff_of_true (fun n => ?_) (.inl (by simp [hTokens]))
    rcases n with _ | n
    · exact ⟨ret, s', hEq, by rw [hTokens]; exact ⟨hRet, hToken⟩⟩
    · exact (Answers.succ hEq hTokens).mpr (answers_null delim hRest hShort n)
  -- the static pointer is what it was before the call
  have hAnswers : ∀ n, Answers fuel delim text s a n ↔
      ∃ s', strtokCall fuel delim n s a = some (0, s') := by
    intro n
    simp [Answers, hNone]
  have hOld := answers_null delim hLeft hFuel.2
  constructor
  · intro h
    right
    rcases (hAnswers 1).mp (h 1) with ⟨s', hNull⟩
    rw [strtokCall_succ hEq] at hNull
    rcases hOld 0 with ⟨ret, s'', hCall, hAnswer⟩
    rw [hNull] at hCall
    rcases hTokens : tokens delim left with _ | ⟨token, more⟩
    · rfl
    rw [hTokens] at hAnswer
    cases hCall
    exact absurd rfl hAnswer.1
  intro h n
  have hDelims := h.resolve_left (not_not_intro hNone)
  rw [hAnswers]
  rcases n with _ | n
  · exact ⟨s, hEq⟩
  rcases hOld n with ⟨ret, s', hCall, hAnswer⟩
  rw [hDelims] at hAnswer
  change ret = 0 at hAnswer
  rw [strtokCall_succ hEq, hCall, hAnswer]
  exact ⟨s', rfl⟩

def twoStrings (x : Nat) : BitVec 8 :=
  [0, 97, 44, 98, 0, 0, 0, 0, 0, 0, 44, 0].getD x 0

theorem strtok_tokens_iff_second : Answers 9 [44] [97, 44, 98] ⟨twoStrings, 0⟩ 1 1 :=
  (strtok_tokens_iff [44] [97, 44, 98] [] ⟨twoStrings, 0⟩ 1 9 (by decide)
    (by simp [StringAt, twoStrings]) rfl (by decide)).mpr (.inr rfl) 1

theorem strtok_goes_back : tokens [44] [44] = [] ∧ (do
    let (_, s) ← strtok 9 [44] ⟨twoStrings, 0⟩ 1
    let (first, s) ← strtok 9 [44] s 10
    let (second, _) ← strtok 9 [44] s 0
    some (first, second)) = some (0, 3) := by
  decide

end Libc

end Fennix
