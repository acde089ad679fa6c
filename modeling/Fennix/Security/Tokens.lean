import Fennix.Tasking.Task
import Mathlib.Data.List.Induction

/-
  Security tokens.

  A process or thread gets a token when it is created, and then the kernel says how far the token is
  trusted.
-/

namespace Fennix

open List

inductive TokenTrustLevel
| unknownTrustLevel
| untrusted
| trusted
| trustedByKernel
deriving DecidableEq

structure TokenData where
  token : UInt64
  trustLevel : TokenTrustLevel
  ownerID : UInt64
  process : Bool
deriving DecidableEq

def TokenData.initial (token : UInt64) : TokenData :=
  ⟨token, .unknownTrustLevel, 0, false⟩

def createToken (tokens : List TokenData) (token : UInt64) : List TokenData :=
  tokens ++ [.initial token]

/-
  The loop over `Tokens` from some element on: the tokens after it, and the variable of the loop.
-/
def trustEach (tokens : List TokenData) (token : UInt64) (process : Bool) (id : UInt64)
    (level : TokenTrustLevel) : List TokenData → Option TokenData →
      List TokenData × Option TokenData
| [], var => (tokens, var)
| data :: rest, _ =>
  -- `auto var` is a copy of the element
  let var := data
  if var.token = token then
    (tokens, some { var with trustLevel := level, ownerID := id, process := process })
  else
    trustEach tokens token process id level rest (some var)

def trustToken (tokens : List TokenData) (token : UInt64) (process : Bool) (id : UInt64)
    (level : TokenTrustLevel) : List TokenData :=
  (trustEach tokens token process id level tokens none).1

inductive TokenCall
| createToken (token : UInt64)
| trustToken (token : UInt64) (process : Bool) (id : UInt64) (level : TokenTrustLevel)
deriving DecidableEq

def TokenCall.execute (tokens : List TokenData) : TokenCall → List TokenData
| .createToken token => Fennix.createToken tokens token
| .trustToken token process id level =>
  Fennix.trustToken tokens token process id level

def afterCalls (calls : List TokenCall) : List TokenData :=
  calls.foldl TokenCall.execute []

------ The Tokens of Tasks

def createProcessToken (elevation : CBElevation) (id token : UInt64) : List TokenCall :=
  .createToken token ::
    if elevation = .idle ∨ elevation = .kernel ∨ elevation = .system then
      [.trustToken token true id .trustedByKernel]
    else []

def createThreadToken (elevation : CBElevation) (id token : UInt64) : List TokenCall :=
  .createToken token ::
    match elevation with
    | .system | .idle | .kernel =>
      [.trustToken token false id .trustedByKernel]
    | .user => [.trustToken token false id .untrusted]
    | .unknownElevation => []

inductive TaskCreation
| process (elevation : CBElevation) (id token : UInt64)
| thread (elevation : CBElevation) (id token : UInt64)

def TaskCreation.tokenCalls : TaskCreation → List TokenCall
| .process elevation id token =>
  createProcessToken elevation id token
| .thread elevation id token =>
  createThreadToken elevation id token

def TaskCreation.Trusts : TaskCreation → Prop
| .process elevation _ _ =>
  elevation = .idle ∨ elevation = .kernel ∨ elevation = .system
| .thread elevation _ _ => elevation ≠ .unknownElevation

------ What Is Stored

section

variable (tokens : List TokenData) (token : UInt64) (process : Bool) (id : UInt64)
variable (level : TokenTrustLevel)

theorem trustEach_fst (rest : List TokenData) (var : Option TokenData) :
    (trustEach tokens token process id level rest var).1 = tokens := by
  induction rest generalizing var with
  | nil => rfl
  | cons data rest ih =>
    simp only [trustEach]
    split
    · rfl
    · exact ih (some data)

theorem trustToken_eq : trustToken tokens token process id level = tokens :=
  trustEach_fst tokens token process id level tokens none

end

variable {data : TokenData}

theorem mem_afterCalls {calls : List TokenCall} : data ∈ afterCalls calls ↔
    .createToken data.token ∈ calls ∧ data = .initial data.token := by
  induction calls using reverseRecOn with
  | nil => simp [afterCalls]
  | append_singleton calls call ih =>
    have hLast : afterCalls (calls ++ [call]) = call.execute (afterCalls calls) := foldl_append
    rw [hLast]
    cases call with
    | createToken token =>
      rw [TokenCall.execute, createToken, mem_append, ih, mem_append, mem_singleton, mem_singleton]
      constructor
      · rintro (⟨hOld, hData⟩ | hData)
        · exact ⟨Or.inl hOld, hData⟩
        · rw [hData]
          exact ⟨Or.inr rfl, rfl⟩
      rintro ⟨hOld | hNew, hData⟩
      · exact .inl ⟨hOld, hData⟩
      · cases hNew
        exact .inr hData
    | trustToken token process id level =>
      rw [TokenCall.execute, trustToken_eq, ih]
      simp

def LastTrust (calls : List TokenCall) (token : UInt64) (process : Bool) (id : UInt64)
    (level : TokenTrustLevel) : Prop :=
  ∃ before after, calls = before ++ .trustToken token process id level :: after ∧
      .createToken token ∈ before ∧
      ∀ process' id' level', .trustToken token process' id' level' ∉ after

/-
  The data are those of the last call about the token, and those of a new token if there was none.
-/
def Sticks (calls : List TokenCall) (data : TokenData) : Prop :=
  (∀ process id level, LastTrust calls data.token process id level →
      data = ⟨data.token, level, id, process⟩) ∧
  ((∀ process id level, ¬ LastTrust calls data.token process id level) → data = .initial data.token)

section Calls

variable {calls : List TokenCall} {token id : UInt64} {process : Bool} {level : TokenTrustLevel}

theorem LastTrust.initial (hLast : LastTrust calls token process id level)
    (hSticks : ∀ data ∈ afterCalls calls, Sticks calls data) :
    process = false ∧ id = 0 ∧ level = .unknownTrustLevel := by
  have hIn : TokenData.initial token ∈ afterCalls calls := by
    rcases hLast with ⟨before, after, hCalls, hCreated, _⟩
    rw [mem_afterCalls, hCalls]
    exact ⟨mem_append_left _ hCreated, rfl⟩
  have hData := (hSticks _ hIn).1 process id level hLast
  cases hData
  exact ⟨rfl, rfl, rfl⟩

theorem sticks_of_initial
    (hInitial : ∀ token process id level, LastTrust calls token process id level →
    process = false ∧ id = 0 ∧ level = .unknownTrustLevel)
    (hIn : data ∈ afterCalls calls) : Sticks calls data := by
  have hData := (mem_afterCalls.mp hIn).2
  refine ⟨?_, fun _ => hData⟩
  intro process id level hLast
  rcases hInitial _ _ _ _ hLast with ⟨rfl, rfl, rfl⟩
  exact hData

theorem trust_sticks_iff (calls : List TokenCall) : (∀ data ∈ afterCalls calls, Sticks calls data) ↔
    ∀ token process id level, LastTrust calls token process id level → process = false ∧ id = 0 ∧
    level = .unknownTrustLevel := by
  constructor
  · intro hSticks token process id level hLast
    exact hLast.initial hSticks
  · intro hInitial data hIn
    exact sticks_of_initial hInitial hIn

end Calls

theorem kernel_process_not_trusted : ¬ ∀ data ∈ afterCalls (createProcessToken .kernel 1 7),
    Sticks (createProcessToken .kernel 1 7) data := by
  intro hSticks
  have hData := (hSticks (.initial 7) (by decide)).1 true 1 .trustedByKernel
    ⟨[.createToken 7], [], rfl, by decide, by simp⟩
  revert hData
  decide

theorem exists_lastTrust {before : List TokenCall} {token : UInt64}
    (hCreated : .createToken token ∈ before) (after : List TokenCall) (process : Bool) (id : UInt64)
    (level : TokenTrustLevel) : ∃ process' id' level',
    LastTrust (before ++ .trustToken token process id level :: after)
    token process' id' level' := by
  induction after using reverseRecOn with
  | nil =>
    exact ⟨process, id, level, before, [], rfl, hCreated, fun _ _ _ => not_mem_nil⟩
  | append_singleton after call ih =>
    rcases ih with ⟨process', id', level', before', after', hCalls, hCreated', hNo⟩
    -- the new call is the last one, or changes nothing
    by_cases hCall : ∃ p i l, call = .trustToken token p i l
    · rcases hCall with ⟨p, i, l, rfl⟩
      exact ⟨p, i, l, before ++ .trustToken token process id level :: after, [],
        by simp, mem_append_left _ hCreated, fun _ _ _ => not_mem_nil⟩
    refine ⟨process', id', level', before', after' ++ [call], ?_, hCreated', ?_⟩
    · rw [← cons_append, ← append_assoc, hCalls, append_assoc, cons_append]
    intro p i l hIn
    rcases mem_append.mp hIn with hOld | hNew
    · exact hNo p i l hOld
    · exact hCall ⟨p, i, l, (mem_singleton.mp hNew).symm⟩

variable {creation : TaskCreation}

theorem TaskCreation.trust_mem {token : UInt64} {process : Bool} {id : UInt64}
    {level : TokenTrustLevel} (hIn : .trustToken token process id level ∈ creation.tokenCalls) :
    creation.Trusts ∧ level ≠ .unknownTrustLevel := by
  cases creation with
  | process elevation i t =>
    cases elevation <;> simp_all [tokenCalls, createProcessToken, Trusts]
  | thread elevation i t =>
    cases elevation <;> simp_all [tokenCalls, createThreadToken, Trusts]

theorem TaskCreation.Trusts.calls_eq (hTrusts : creation.Trusts) :
    ∃ token process id level, creation.tokenCalls =
    [.createToken token, .trustToken token process id level] := by
  cases creation with
  | process elevation id token =>
    refine ⟨token, true, id, .trustedByKernel, ?_⟩
    rw [Trusts] at hTrusts
    rw [tokenCalls, createProcessToken, if_pos hTrusts]
  | thread elevation id token =>
    cases elevation with
    | unknownElevation => exact (hTrusts rfl).elim
    | kernel | system | idle =>
      exact ⟨token, false, id, .trustedByKernel, rfl⟩
    | user => exact ⟨token, false, id, .untrusted, rfl⟩

theorem created_tokens_stick_iff (creations : List TaskCreation) :
    (∀ data ∈ afterCalls (creations.flatMap (·.tokenCalls)),
    Sticks (creations.flatMap (·.tokenCalls)) data) ↔
    ∀ creation ∈ creations, ¬ creation.Trusts := by
  constructor
  · intro hSticks creation hIn hTrusts
    rcases append_of_mem hIn with ⟨xs, ys, rfl⟩
    rcases hTrusts.calls_eq with ⟨token, process, id, level, hCalls⟩
    have hList : (xs ++ creation :: ys).flatMap (·.tokenCalls) = (xs.flatMap (·.tokenCalls) ++
      [.createToken token]) ++
      .trustToken token process id level :: ys.flatMap (·.tokenCalls) := by
      simp [hCalls]
    have hCreated : .createToken token ∈ xs.flatMap (·.tokenCalls) ++ [.createToken token] :=
      mem_append_right _ (mem_singleton_self _)
    have hSome := exists_lastTrust hCreated (ys.flatMap (·.tokenCalls)) process id level
    rw [← hList] at hSome
    rcases hSome with ⟨process', id', level', hLast⟩
    have hUnknown := (hLast.initial hSticks).2.2
    rcases hLast with ⟨before, after, hSplit, _, _⟩
    have hMember : .trustToken token process' id' level' ∈
      (xs ++ creation :: ys).flatMap (·.tokenCalls) := by
      rw [hSplit]
      simp
    rcases mem_flatMap.mp hMember with ⟨c, _, hCall⟩
    exact (TaskCreation.trust_mem hCall).2 hUnknown
  intro hNone data hData
  refine sticks_of_initial ?_ hData
  rintro token process id level ⟨before, after, hSplit, _, _⟩
  have hMember : .trustToken token process id level ∈ creations.flatMap (·.tokenCalls) := by
    rw [hSplit]
    simp
  rcases mem_flatMap.mp hMember with ⟨c, hc, hCall⟩
  exact (hNone c hc (TaskCreation.trust_mem hCall).1).elim

end Fennix
