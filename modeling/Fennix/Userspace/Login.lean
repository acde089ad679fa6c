import Fennix.Userspace.Shell
import Mathlib.Data.List.Infix

/-
  The prompts for the name and the password.
-/

namespace Fennix

open List Option

namespace Login

def rejected : List (BitVec 8) :=
  " !@#$%^&*()_+`~|/\\\"'<>?-=;:\x7b\x7d[]".toList.map (fun c => BitVec.ofNat 8 c.toNat)

def hasIllegalCharacter (line : Line) : BitVec 8 :=
  (line.find? rejected.contains).getD 0

structure ValidName (name : Line) : Prop where
  length_pos : 1 ≤ name.length
  length_le : name.length ≤ 16
  not_space : ∃ c ∈ name, Shell.isspace c = false
  allowed : ∀ c ∈ name, c ∉ rejected

theorem hasIllegalCharacter_eq_zero {line : Line} (h : hasIllegalCharacter line = 0) :
    ∀ c ∈ line, c ∉ rejected := by
  intro c hMember hRejected
  unfold hasIllegalCharacter at h
  cases hFind : line.find? rejected.contains with
  | none => exact absurd (find?_eq_none.mp hFind c hMember) (by simpa using hRejected)
  | some d =>
    have hFound : d ∈ rejected := by simpa using find?_some hFind
    have hZero : (0 : BitVec 8) ∉ rejected := by decide +kernel
    rw [hFind, getD_some] at h
    exact hZero (h ▸ hFound)

end Login

inductive Prompt
| name
| password
| returned
deriving DecidableEq

structure Login where
  prompt : Prompt
  usrbuf : Line
  pwdbuf : Line
  backspacelimit : Int
  shiftkey : Bool

namespace Login

def start (shiftkey : Bool) : Login :=
  ⟨.name, [], [], 0, shiftkey⟩

def entered (s : Login) : Login :=
  if s.usrbuf.length > 16 ∨ Shell.isempty s.usrbuf ∨ hasIllegalCharacter s.usrbuf ≠ 0 then
    { s with usrbuf := [], pwdbuf := [], backspacelimit := 0 }
  else { s with prompt := .password, backspacelimit := 0 }

def press (s : Login) (key : BitVec 8) : Option Login :=
  if key = 0 then some s
  else
    match s.prompt with
    | .name =>
      if key = 0x0A then some s.entered
      else (edit s.usrbuf s.backspacelimit key).map (fun r =>
        { s with usrbuf := r.1, backspacelimit := r.2 })
    | .password =>
      if key = 0x0A then some { s with prompt := .returned }
      else (edit s.pwdbuf s.backspacelimit key).map (fun r =>
        { s with pwdbuf := r.1, backspacelimit := r.2 })
    | .returned => some s

def execute (s : Login) (scanCode : BitVec 8) : Option Login :=
  let letter := getLetterFromScanCode s.shiftkey scanCode
  if s.prompt = .returned then some s else { s with shiftkey := letter.2 }.press letter.1

def buffer (s : Login) : Line :=
  match s.prompt with
  | .name => s.usrbuf
  | _ => s.pwdbuf

def count (n : Nat) (key : BitVec 8) : Nat :=
  if key = 0 then n else if key = 0x0A then 0 else if key = 0x0E then n else n + 1

def typed (codes : List (BitVec 8)) : Nat :=
  codes.foldl (fun n scanCode => count n (getLetterFromScanCode true scanCode).1) 0

theorem count_shiftkey (shiftkey : Bool) (scanCode : BitVec 8) (n : Nat) :
    count n (getLetterFromScanCode shiftkey scanCode).1 =
    count n (getLetterFromScanCode true scanCode).1 := by
  have hKinds : ∀ b scanCode,
      let key := (getLetterFromScanCode b scanCode).1
      let key' := (getLetterFromScanCode true scanCode).1
      (key = 0 ↔ key' = 0) ∧ (key = 0x0A ↔ key' = 0x0A) ∧ (key = 0x0E ↔ key' = 0x0E) := by
    decide +kernel
  rcases hKinds shiftkey scanCode with ⟨hNone, hEnter, hBack⟩
  simp only [count, hNone, hEnter, hBack]

theorem typed_snoc (codes : List (BitVec 8)) (shiftkey : Bool) (scanCode : BitVec 8) :
    typed (codes ++ [scanCode]) =
    count (typed codes) (getLetterFromScanCode shiftkey scanCode).1 := by
  rw [count_shiftkey, typed, foldl_append]
  rfl

structure Awaits (n : Nat) (s : Login) : Prop where
  counted : s.backspacelimit = s.buffer.length
  typed_le : s.prompt ≠ .returned → s.buffer.length ≤ n
  clean : s.prompt = .name → s.pwdbuf = []
  valid : s.prompt ≠ .name → ValidName s.usrbuf

namespace Awaits

variable {n : Nat} {s : Login}

theorem start (shiftkey : Bool) : Awaits 0 (start shiftkey) :=
  ⟨rfl, fun _ => Nat.le_refl _, fun _ => rfl, fun h => (h rfl).elim⟩

theorem entered (h : Awaits n s) (hName : s.prompt = .name) : Awaits 0 s.entered := by
  unfold Login.entered
  split
  · exact ⟨by simp [buffer, hName], by simp [buffer, hName], fun _ => rfl,
      fun hOther => (hOther hName).elim⟩
  rename_i hTests
  simp only [not_or, Nat.not_lt, Shell.isempty, List.all_eq_true, not_forall] at hTests
  rcases hTests with ⟨hShort, ⟨c, hMember, hSpace⟩, hAllowed⟩
  refine ⟨by simp [buffer, h.clean hName], by simp [buffer, h.clean hName], by simp,
    fun _ => ⟨length_pos_of_mem hMember, hShort, ⟨c, hMember, by simpa using hSpace⟩, ?_⟩⟩
  exact hasIllegalCharacter_eq_zero (not_not.mp hAllowed)

theorem press {key : BitVec 8} (h : Awaits n s) (hHere : s.prompt ≠ .returned)
    (hTyped : count n key < 1024) : ∃ s', s.press key = some s' ∧ Awaits (count n key) s' := by
  unfold Login.press
  unfold count at hTyped ⊢
  by_cases hNone : key = 0
  · rw [if_pos hNone, if_pos hNone]
    exact ⟨s, rfl, h⟩
  rw [if_neg hNone] at hTyped
  rw [if_neg hNone, if_neg hNone]
  by_cases hEnter : key = 0x0A
  · simp only [if_pos hEnter]
    rcases s with ⟨_ | _ | _, _⟩
    · exact ⟨_, rfl, h.entered rfl⟩
    · exact ⟨_, rfl, h.counted, fun hHere => (hHere rfl).elim, nofun, fun _ => h.valid nofun⟩
    · exact (hHere rfl).elim
  rw [if_neg hEnter] at hTyped
  simp only [if_neg hEnter]
  have hLe := h.typed_le hHere
  have hCounted : Counted s.buffer s.backspacelimit :=
    ⟨h.counted, by split at hTyped <;> omega⟩
  -- no letter is typed into a full array
  rcases edit_cases key hCounted with ⟨_, hLetter, hFull⟩ | ⟨r, hEdit, hr, _, hLength⟩
  · rw [if_neg hLetter] at hTyped
    omega
  have hMore : r.1.length ≤ if key = 0x0E then n else n + 1 := by
    split at hLength <;> rename_i hBack
    · rw [if_pos hBack]
      omega
    · rw [if_neg hBack]
      omega
  rcases s with ⟨_ | _ | _, _⟩
  · exact ⟨_, congrArg (Option.map _) hEdit, hr.1, fun _ => hMore, h.clean,
      fun hOther => (hOther rfl).elim⟩
  · exact ⟨_, congrArg (Option.map _) hEdit, hr.1, fun _ => hMore, nofun, h.valid⟩
  · exact (hHere rfl).elim

end Awaits

theorem name_valid (shiftkey : Bool) (codes : List (BitVec 8))
    (hTyped : ∀ before, before <+: codes → typed before < 1024) (before : List (BitVec 8))
    (hBefore : before <+: codes) : ∃ s, executes execute (start shiftkey) before = some s ∧
    s.backspacelimit = s.buffer.length ∧ (s.prompt = .returned → ValidName s.usrbuf) := by
  have hAwaits : ∃ s, executes execute (start shiftkey) before = some s ∧
    Awaits (typed before) s := by
    induction before using reverseRecOn with
    | nil => exact ⟨_, rfl, .start shiftkey⟩
    | append_singleton before scanCode ih =>
      rcases ih ((prefix_append _ _).trans hBefore) with ⟨s, hRun, h⟩
      have hNext := hTyped _ hBefore
      rw [typed_snoc before s.shiftkey] at hNext ⊢
      rw [executes_snoc, hRun, bind_some, execute]
      by_cases hReturned : s.prompt = .returned
      · exact ⟨s, if_pos hReturned, h.counted, fun hHere => (hHere hReturned).elim, h.clean,
          h.valid⟩
      · rw [if_neg hReturned]
        exact Awaits.press ⟨h.counted, h.typed_le, h.clean, h.valid⟩ hReturned hNext
  rcases hAwaits with ⟨s, hRun, h⟩
  exact ⟨s, hRun, h.counted, fun hReturned => h.valid (by simp [hReturned])⟩

theorem name_valid_short :
    let codes := [0x1E, 0x30, 0x0E, 0x1C, 0x10, 0x1C]
    (∀ before, before <+: codes → typed before < 1024) ∧
    ∃ s, executes execute (start true) codes = some s ∧ s.backspacelimit = s.buffer.length ∧
      (s.prompt = .returned → ValidName s.usrbuf) := by
  have hTyped : ∀ before, before <+: [0x1E, 0x30, 0x0E, 0x1C, 0x10, 0x1C] →
    typed before < 1024 := by
    simp only [← mem_inits]
    decide +kernel
  exact ⟨hTyped, name_valid true _ hTyped _ (prefix_refl _)⟩

end Login

end Fennix
