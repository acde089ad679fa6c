import Fennix.Library.Run

/-
  The line editor of the shell.

  A write outside of its array ends a run here. Enter hands the line to `ParseBuffer`, whose command
  `cd` writes to it in place. The other commands only cut off spaces at its end.
-/

namespace Fennix

open List

def scAsciiLow : List Char :=
  "??1234567890-=??qwertyuiop[]??asdfghjkl;'`?\\zxcvbnm,./??? ".toList

def scAsciiHigh : List Char :=
  "??!@#$%^&*()_+??QWERTYUIOP\x7b\x7d??ASDFGHJKL;\"~?|ZXCVBNM<>???? ".toList

/- The key of a scan code, which is 0 if there is none, and `scparse__shiftkey`. -/
def getLetterFromScanCode (shiftkey : Bool) (scanCode : BitVec 8) : BitVec 8 × Bool :=
  if scanCode &&& 0x80 ≠ 0 then
    if scanCode = 0xAA ∨ scanCode = 0xB6 then (0, true) else (0, shiftkey)
  else if scanCode = 0x1C then (0x0A, shiftkey)
  else if scanCode = 0x2A ∨ scanCode = 0x36 then (0, false)
  else if scanCode = 0x0E then (scanCode, shiftkey)
  else if scanCode > 0x39 then (0, shiftkey)
  else
    let letters := if shiftkey then scAsciiLow else scAsciiHigh
    (BitVec.ofNat 8 (letters.getD scanCode.toNat '?').toNat, shiftkey)

abbrev Line := List (BitVec 8)

def edit (line : Line) (backspacelimit : Int) (key : BitVec 8) : Option (Line × Int) :=
  if key = 0x0E then
    if backspacelimit > 0 then
      if line = [] then none else some (line.dropLast, backspacelimit - 1)
    else some (line, backspacelimit)
  else if line.length + 1 < 1024 then some (line ++ [key], backspacelimit + 1)
  else none

def Counted (line : Line) (backspacelimit : Int) : Prop :=
  backspacelimit = line.length ∧ line.length < 1024

theorem edit_cases {line : Line} {limit : Int} (key : BitVec 8) (h : Counted line limit) :
    edit line limit key = none ∧ key ≠ 0x0E ∧ 1023 ≤ line.length ∨
    ∃ r, edit line limit key = some r ∧ Counted r.1 r.2 ∧ (key = 0x0E ∨ line.length < 1023) ∧
    r.1.length ≤ line.length + if key = 0x0E then 0 else 1 := by
  rcases h with ⟨rfl, hRoom⟩
  unfold edit Counted
  by_cases hBack : key = 0x0E
  · rw [if_pos hBack, if_pos hBack]
    by_cases hSome : line = []
    · subst hSome
      exact .inr ⟨_, rfl, ⟨rfl, hRoom⟩, Or.inl hBack, Nat.le_refl _⟩
    have hPos := length_pos_iff.mpr hSome
    rw [if_pos (by omega), if_neg hSome]
    refine Or.inr ⟨_, rfl, ?_, Or.inl hBack, ?_⟩
    · simp only [length_dropLast]
      omega
    · simp only [length_dropLast]
      omega
  rw [if_neg hBack, if_neg hBack]
  by_cases hFull : line.length + 1 < 1024
  · rw [if_pos hFull]
    exact .inr ⟨_, rfl, by simp; omega, Or.inr (by omega), by simp⟩
  · rw [if_neg hFull]
    exact .inl ⟨rfl, hBack, by omega⟩

structure Shell where
  keyBuffer : Line
  backspacelimit : Int
  historyBuffer : Int → Line
  historyIndex : Int
  shiftkey : Bool

namespace Shell

def start : Shell :=
  ⟨[], 0, fun _ => [], 0, false⟩

------ The Command `cd`

def ascii (text : String) : Line :=
  text.toList.map (fun c => BitVec.ofNat 8 c.toNat)

def isspace (c : BitVec 8) : Bool :=
  c == 0x20 || c == 0x09 || c == 0x0D || c == 0x0A || c == 0x0C || c == 0x0B

/- `isempty_1` -/
def isempty (text : Line) : Bool :=
  text.all isspace

/- How many spaces `trimwhitespace` skips, and the text without those at its end. -/
def trimwhitespace (text : Line) : Nat × Line :=
  ((text.takeWhile (· = 0x20)).length,
    ((text.dropWhile (· = 0x20)).reverse.dropWhile (· = 0x20)).reverse)

/- What is put in the place of `~`; `opens` tells whether the directory of the user opens. -/
def home (user : Line) (opens : Bool) : Line :=
  if opens then ascii "/home/" ++ user else ascii "/home/default"

/-
  One past the last byte of the line that `cd` copies a text to, or 0. The copies start at the
  argument and end with a zero.
-/
def cdEnd (user : Line) (opens : Bool) (line : Line) : Nat :=
  let arg := trimwhitespace (line.drop 2)
  let first := 2 + arg.1
  if arg.2 = ascii "~" then
    first + (home user opens).length + 1
  else if isempty arg.2 then first + (ascii "/").length + 1
  else 0

def parseBuffer (user : Line) (opens : Bool) (line : Line) : Option Unit :=
  if line.take 2 = ascii "cd" then
    if cdEnd user opens line ≤ 1024 then some () else none
  else some ()

------ The Loop

def erase (s : Shell) : Shell :=
  { s with keyBuffer := [], backspacelimit := s.backspacelimit - s.keyBuffer.length }

def fetch (s : Shell) (index : Int) : Option Shell :=
  if (s.historyBuffer index).length < 1024 then
    some { s with keyBuffer := s.historyBuffer index, historyIndex := index }
  else none

def arrows (s : Shell) (scanCode : BitVec 8) : Option Shell :=
  if scanCode = 0x48 then
    if s.historyIndex > 0 then s.erase.fetch (s.historyIndex - 1) else some s.erase
  else if scanCode = 0x50 then
    if s.historyIndex < 0 then s.erase.fetch (s.historyIndex + 1) else some s.erase
  else some s

variable (user : Line)

def enter (opens : Bool) (s : Shell) : Option Shell :=
  if 0 ≤ s.historyIndex ∧ s.historyIndex < 1024 ∧ s.keyBuffer.length < 1024 then
    (parseBuffer user opens s.keyBuffer).map (fun _ =>
      { s with
        keyBuffer := []
        backspacelimit := 0
        historyBuffer := fun i => if i = s.historyIndex then s.keyBuffer else s.historyBuffer i
        historyIndex := s.historyIndex + 1 })
  else none

def press (opens : Bool) (s : Shell) (key : BitVec 8) : Option Shell :=
  if key = 0 then some s
  else if key = 0x0A then s.enter user opens
  else (edit s.keyBuffer s.backspacelimit key).map (fun r =>
    { s with keyBuffer := r.1, backspacelimit := r.2 })

/- One key: its scan code, and whether the directory of the user opens at that time. -/
def execute (s : Shell) (event : BitVec 8 × Bool) : Option Shell :=
  if event.1 ∈ [0x0F, 0x1D, 0x38, 0x9D, 0xB8] then some s
  else
    (s.arrows event.1).bind (fun s =>
      let letter := getLetterFromScanCode s.shiftkey event.1
      { s with shiftkey := letter.2 }.press user event.2 letter.1)

def Edited (s : Shell) : Prop :=
  Counted s.keyBuffer s.backspacelimit ∧ 0 ≤ s.historyIndex ∧ s.historyIndex < 1024

/-
  There is room for a key: for Enter in the history and, if the line is a `cd`, for what is copied
  to its argument; for a letter in the line.
-/
def Room (opens : Bool) (s : Shell) (key : BitVec 8) : Prop :=
  (key = 0x0A → s.historyIndex < 1023 ∧
    (s.keyBuffer.take 2 = ascii "cd" → cdEnd user opens s.keyBuffer ≤ 1024)) ∧
    (key ≠ 0 → key ≠ 0x0A → key ≠ 0x0E → s.keyBuffer.length < 1023)

/- Up recalls an empty line or none at all, and there is room for the key. -/
def Sound (s : Shell) (event : BitVec 8 × Bool) : Prop :=
  event.1 ∈ [0x0F, 0x1D, 0x38, 0x9D, 0xB8] ∨
    (event.1 = 0x48 → 0 < s.historyIndex → s.historyBuffer (s.historyIndex - 1) = []) ∧
    s.Room user event.2 (getLetterFromScanCode s.shiftkey event.1).1

variable {s : Shell} {user}

theorem press_iff (opens : Bool) (key : BitVec 8) (h : s.Edited) :
    s.Room user opens key ↔ ∃ s', s.press user opens key = some s' ∧ s'.Edited := by
  rcases h with ⟨hCounted, hLow, hHigh⟩
  unfold press Room
  by_cases hNone : key = 0
  · subst hNone
    refine iff_of_true ⟨fun h => ?_, fun h => (h rfl).elim⟩ ⟨s, rfl, hCounted, hLow, hHigh⟩
    cases h
  rw [if_neg hNone]
  by_cases hEnter : key = 0x0A
  · rw [if_pos hEnter, enter, if_pos ⟨hLow, hHigh, hCounted.2⟩, parseBuffer]
    subst hEnter
    by_cases hCd : s.keyBuffer.take 2 = ascii "cd"
    · by_cases hFits : cdEnd user opens s.keyBuffer ≤ 1024
      · simp [hCd, hFits, Edited, Counted]
        omega
      · simp [hCd, hFits]
    · simp [hCd, Edited, Counted]
      omega
  rw [if_neg hEnter]
  rcases edit_cases key hCounted with ⟨hFull, hLetter, hLength⟩ | ⟨r, hEdit, hr, hRoom, _⟩
  · rw [hFull]
    refine iff_of_false (fun h => ?_) (fun ⟨_, hSome, _⟩ => by cases hSome)
    exact absurd (h.2 hNone hEnter hLetter) (by omega)
  rw [hEdit]
  exact iff_of_true ⟨fun h => (hEnter h).elim, fun _ _ h => hRoom.resolve_left h⟩
    ⟨_, rfl, hr, hLow, hHigh⟩

theorem Edited.erase (h : s.Edited) : s.erase.Edited := by
  refine ⟨?_, h.2⟩
  simp [Shell.erase, Counted, h.1.1]

theorem fetch_iff (h : s.Edited) (hSome : 0 < s.historyIndex) :
    s.historyBuffer (s.historyIndex - 1) = [] ↔
    ∃ s', s.erase.fetch (s.historyIndex - 1) = some s' ∧ s'.Edited := by
  rcases h with ⟨⟨hLimit, hRoom⟩, hLow, hHigh⟩
  unfold fetch erase
  constructor
  · intro hLine
    rw [hLine]
    exact ⟨_, if_pos (by decide), ⟨by simp [hLimit], by simp⟩, by dsimp only; omega⟩
  rintro ⟨s', hReturns, hEdited⟩
  split at hReturns
  · cases hReturns
    have hCounted : s.backspacelimit - s.keyBuffer.length =
      (s.historyBuffer (s.historyIndex - 1)).length := hEdited.1.1
    exact length_eq_zero_iff.mp (by omega)
  · cases hReturns

theorem execute_iff (event : BitVec 8 × Bool) (h : s.Edited) :
    s.Sound user event ↔ ∃ s', s.execute user event = some s' ∧ s'.Edited := by
  rcases event with ⟨scanCode, opens⟩
  have hNothing : s.Room user opens 0 := (press_iff opens 0 h).mpr ⟨s, rfl, h⟩
  have hUpKey : ∀ b, getLetterFromScanCode b 0x48 = (0, b) := by decide
  have hDownKey : ∀ b, getLetterFromScanCode b 0x50 = (0, b) := by decide
  unfold Sound execute arrows
  dsimp only
  by_cases hIgnored : scanCode ∈ [0x0F, 0x1D, 0x38, 0x9D, 0xB8]
  · rw [if_pos hIgnored]
    exact iff_of_true (.inl hIgnored) ⟨s, rfl, h⟩
  rw [if_neg hIgnored, or_iff_right hIgnored]
  by_cases hUp : scanCode = 0x48
  · subst hUp
    simp only [hUpKey, if_true, forall_const, hNothing, and_true]
    by_cases hSome : 0 < s.historyIndex
    · simp only [hSome, forall_const, fetch_iff h hSome]
      cases s.erase.fetch (s.historyIndex - 1) with
      | none => exact Iff.rfl
      | some s' => exact Iff.rfl
    · rw [if_neg hSome]
      exact iff_of_true (fun h => (hSome h).elim) ⟨_, rfl, h.erase⟩
  rw [if_neg hUp, and_iff_right (fun h => (hUp h).elim)]
  by_cases hDown : scanCode = 0x50
  · subst hDown
    simp only [hDownKey, if_true, hNothing, true_iff, if_neg (Int.not_lt.mpr h.2.1)]
    exact ⟨_, rfl, h.erase⟩
  rw [if_neg hDown]
  exact press_iff (s := { s with shiftkey := (getLetterFromScanCode s.shiftkey scanCode).2 })
    opens _ h

theorem stays_edited_iff (user : Line) (events : List (BitVec 8 × Bool)) :
    Stays (execute user) Edited start events ↔ Meets (execute user) (Sound user) start events :=
  stays_iff_meets (fun _ e h => execute_iff e h) ⟨⟨rfl, by decide⟩, by decide⟩ events

theorem recalled_line_uncounted :
    (executes (execute []) start [(0x1E, false), (0x1C, false), (0x48, false)]).map
    (fun s => (s.backspacelimit, s.keyBuffer.length)) = some (0, 1) := by
  decide +kernel

/- `cd` and 1021 spaces fill the buffer, and the zero behind the copied `/` falls behind it. -/
example : parseBuffer [] false (ascii "cd" ++ replicate 1021 0x20) = none := by
  decide +kernel

end Shell

end Fennix
