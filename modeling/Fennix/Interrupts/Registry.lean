import Fennix.Library.Run
import Fennix.Library.Buffer

/-
  The registry of interrupt handlers.

  One table has the handler of each of the 256 vectors, the other one a flag for each vector that is
  taken.
-/

namespace Fennix

open List Option Function

def IRQ0 : UInt32 := 0x20

def IRQ18 : UInt32 := 0x32

def IRQ223 : UInt32 := 0xFF

/- The two tables, and the lines that the APIC was told to redirect. -/
structure InterruptTables (H : Type) where
  mainRegisteredInterrupts : Table 256 (Option H)
  registeredInterrupts : Table 255 Bool
  redirected : List UInt32

namespace InterruptTables

variable {H : Type}

def start : InterruptTables H where
  mainRegisteredInterrupts := fun _ => none
  registeredInterrupts := fun _ => false
  redirected := []

def mainVector (vector : UInt32) : Fin 256 :=
  Fin.ofNat 256 vector.toNat

def mainRegisterInterrupt (s : InterruptTables H) (vector : UInt32)
    (handle : H) : InterruptTables H :=
  { s with
    mainRegisteredInterrupts :=
      update s.mainRegisteredInterrupts (mainVector vector) (some handle) }

def mainUnregisterInterrupt (s : InterruptTables H) (vector : UInt32) : InterruptTables H :=
  { s with
    mainRegisteredInterrupts :=
      update s.mainRegisteredInterrupts (mainVector vector) none }

def setTaken (s : InterruptTables H) (vector : UInt32)
    (taken : Bool) : Option (InterruptTables H) :=
  (s.registeredInterrupts.store vector.toNat taken).map (fun registered =>
      { s with registeredInterrupts := registered })

def redirectIRQ (s : InterruptTables H) (line : UInt32) : InterruptTables H :=
  { s with redirected := s.redirected ++ [line] }

def firstUntaken (s : InterruptTables H) : List Nat → Option (Option Nat)
| [] => some none
| i :: rest => do
    let taken ← s.registeredInterrupts.load i
    if taken then firstUntaken s rest else some (some i)

def registerInterrupt (s : InterruptTables H)
    (handler : H) : Option (UInt32 × InterruptTables H) := do
  let found ← s.firstUntaken (range' IRQ18.toNat (IRQ223.toNat - IRQ18.toNat))
  match found with
  | some i =>
    let vector := UInt32.ofNat i
    let s ← s.setTaken vector true
    some (vector, (s.mainRegisterInterrupt vector handler).redirectIRQ (vector - IRQ0))
  | none => some (0xFFFFFFFF, s)

def registerInterruptAt (s : InterruptTables H) (handler : H) (vector : UInt32)
    (override redirect : Bool) (redirectVector : UInt32) : Option (Bool × InterruptTables H) :=
  if override = false ∧ (vector < IRQ18 ∨ vector > IRQ223) then
    some (false, s)
  else do
    let taken ← s.registeredInterrupts.load vector.toNat
    if taken = false ∨ override = true then
      let s ← s.setTaken vector true
      let s := s.mainRegisterInterrupt vector handler
      some (true,
        if redirect then
          s.redirectIRQ (if redirectVector = 0xDEADBEEF then
              vector - IRQ0
            else redirectVector)
        else s)
    else some (false, s)

def unregisterInterrupt (s : InterruptTables H)
    (vector : UInt32) : Option (Bool × InterruptTables H) :=
  if vector < IRQ18 ∨ vector > IRQ223 then some (false, s)
  else do
    let s ← s.setTaken vector false
    some (true, s.mainUnregisterInterrupt vector)

inductive InterruptCall (H : Type) where
| automatic (handler : H)
| explicit (handler : H) (vector : UInt32) (override redirect : Bool) (redirectVector : UInt32)
| unregister (vector : UInt32)

def execute (s : InterruptTables H) : InterruptCall H → Option (InterruptTables H)
| .automatic handler =>
  (s.registerInterrupt handler).map Prod.snd
| .explicit handler vector override redirect redirectVector =>
    (s.registerInterruptAt handler vector override redirect redirectVector).map Prod.snd
| .unregister vector =>
  (s.unregisterInterrupt vector).map Prod.snd

------ What a Call Has to Keep

/- A vector is taken if and only if it has a handler. -/
structure Agree (s : InterruptTables H) : Prop where
  taken : ∀ v : Fin 255, s.registeredInterrupts v = true ↔
      s.mainRegisteredInterrupts v.castSucc ≠ none
  last : s.mainRegisteredInterrupts (Fin.last 255) = none

def InterruptCall.replaces : InterruptCall H → Bool
| .automatic _ => false
| .explicit _ _ override _ _ => override
| .unregister _ => true

/- The call stays inside the tables and leaves them in agreement. -/
structure Kept (s : InterruptTables H) (call : InterruptCall H)
    (s' : InterruptTables H) : Prop where
  agree : Agree s'
  handlers : call.replaces = false → ∀ v, s.mainRegisteredInterrupts v ≠ none →
      s'.mainRegisteredInterrupts v = s.mainRegisteredInterrupts v
  chosen : ∀ handler vector, call = .automatic handler →
      s.registerInterrupt handler = some (vector, s') → vector = 0xFFFFFFFF ∨
          ∃ v : Fin 256, vector.toNat = v ∧ s.mainRegisteredInterrupts v = none

def KeptBy (s : InterruptTables H) (call : InterruptCall H) : Prop :=
  ∃ s', execute s call = some s' ∧ Kept s call s'

def InterruptCall.Allowed : InterruptCall H → Prop
| .automatic _ => True
| .explicit _ vector override _ _ =>
  if override then vector < 255 else vector ≠ 255
| .unregister vector => vector ≠ 255

variable {s s' : InterruptTables H} {handler : H} {vector : UInt32}

theorem agree_start : Agree (start : InterruptTables H) where
  taken := by
    intro v
    exact iff_of_false Bool.false_ne_true (fun h => h rfl)
  last := rfl

theorem mainVector_eq (h : vector.toNat < 255) : mainVector vector =
    (⟨vector.toNat, h⟩ : Fin 255).castSucc := by
  apply Fin.ext
  exact Nat.mod_eq_of_lt (by omega)

theorem Agree.update {taken : Bool} {value : Option H} (hAgree : Agree s) (v : Fin 255)
    (hValue : taken = true ↔ value ≠ none) (redirected : List UInt32) : Agree
    ⟨update s.mainRegisteredInterrupts v.castSucc value,
    update s.registeredInterrupts v taken, redirected⟩ where
  taken := by
    intro w
    dsimp only
    by_cases hw : w = v
    · rw [hw, update_self, update_self]
      exact hValue
    · rw [update_of_ne hw, update_of_ne (fun h => hw (Fin.castSucc_inj.mp h))]
      exact hAgree.taken w
  last := by
    dsimp only
    rw [update_of_ne (Fin.ne_of_gt (Fin.castSucc_lt_last v))]
    exact hAgree.last

theorem Agree.untaken (hAgree : Agree s) {v : Fin 255} (h : s.registeredInterrupts v = false) :
    s.mainRegisteredInterrupts v.castSucc = none := by
  by_contra hSome
  rw [(hAgree.taken v).mpr hSome] at h
  cases h

theorem setTaken_of_lt (taken : Bool) (h : vector.toNat < 255) :
    s.setTaken vector taken = some { s with
    registeredInterrupts :=
          update s.registeredInterrupts ⟨vector.toNat, h⟩ taken } := by
  rw [setTaken, Table.store_of_lt h, map_some]

------ The Three Calls

theorem firstUntaken_returns (s : InterruptTables H) {vectors : List Nat}
    (hInside : ∀ i ∈ vectors, i < 255) : ∃ found, s.firstUntaken vectors = some found ∧
    ∀ i, found = some i → ∃ h : i < 255, s.registeredInterrupts ⟨i, h⟩ = false := by
  induction vectors with
  | nil => exact ⟨none, rfl, fun i h => by cases h⟩
  | cons i rest ih =>
    have hLt : i < 255 := hInside i mem_cons_self
    rw [firstUntaken, Table.load_of_lt hLt]
    cases hTaken : s.registeredInterrupts ⟨i, hLt⟩ with
    | true =>
      exact ih (fun j hj => hInside j (mem_cons_of_mem i hj))
    | false =>
      refine ⟨some i, rfl, ?_⟩
      rintro j hj
      cases hj
      exact ⟨hLt, hTaken⟩

theorem registerInterrupt_cases (hAgree : Agree s) (handler : H) :
    s.registerInterrupt handler = some (0xFFFFFFFF, s) ∨ ∃ v : Fin 255,
    s.mainRegisteredInterrupts v.castSucc = none ∧ s.registerInterrupt handler =
    some (UInt32.ofNat v, ⟨update s.mainRegisteredInterrupts
    v.castSucc (some handler), update s.registeredInterrupts v true,
    s.redirected ++ [UInt32.ofNat v - IRQ0]⟩) := by
  have hInside : ∀ i ∈ range' IRQ18.toNat (IRQ223.toNat - IRQ18.toNat), i < 255 := by
    intro i hi
    have hRange := (mem_range'_1.mp hi).2
    have hEnd : IRQ18.toNat + (IRQ223.toNat - IRQ18.toNat) = 255 := by decide
    omega
  rcases s.firstUntaken_returns hInside with ⟨_ | i, hFirst, hFound⟩
  · refine Or.inl ?_
    rw [registerInterrupt, hFirst]
    rfl
  refine Or.inr ?_
  rcases hFound i rfl with ⟨hLt, hUntaken⟩
  have hNat : (UInt32.ofNat i).toNat = i := Nat.mod_eq_of_lt (by omega)
  have hVector : (UInt32.ofNat i).toNat < 255 := by omega
  have hSame : (⟨(UInt32.ofNat i).toNat, hVector⟩ : Fin 255) = ⟨i, hLt⟩ := Fin.ext hNat
  refine ⟨⟨i, hLt⟩, hAgree.untaken hUntaken, ?_⟩
  simp only [registerInterrupt, hFirst, setTaken_of_lt true hVector, mainRegisterInterrupt,
    redirectIRQ, mainVector_eq hVector, hSame, bind_eq_bind, bind_some]

theorem registerInterruptAt_of_lt (h : vector.toNat < 255) (handler : H) (override redirect : Bool)
    (redirectVector : UInt32) : s.registerInterruptAt handler vector override redirect
    redirectVector = if override = false ∧
    (vector < IRQ18 ∨ vector > IRQ223 ∨ s.registeredInterrupts ⟨vector.toNat, h⟩ = true)
    then some (false, s)
    else some (true, ⟨update s.mainRegisteredInterrupts
    (⟨vector.toNat, h⟩ : Fin 255).castSucc (some handler),
    update s.registeredInterrupts ⟨vector.toNat, h⟩ true, if redirect then
    s.redirected ++ [if redirectVector = 0xDEADBEEF then vector - IRQ0 else redirectVector]
    else s.redirected⟩) := by
  unfold registerInterruptAt
  rw [Table.load_of_lt h, setTaken_of_lt true h]
  cases override with
  | true =>
    cases redirect <;>
      simp [mainRegisterInterrupt, redirectIRQ, mainVector_eq h]
  | false =>
    cases hTaken : s.registeredInterrupts ⟨vector.toNat, h⟩ with
    | true => simp
    | false =>
      cases redirect <;>
        simp [mainRegisterInterrupt, redirectIRQ, mainVector_eq h]

theorem not_lt_IRQ18 (h : 255 ≤ vector.toNat) : ¬ vector < IRQ18 := by
  rw [UInt32.lt_iff_toNat_lt]
  exact Nat.not_lt.mpr (Nat.le_trans (by decide) h)

theorem registerInterruptAt_of_le (h : 255 ≤ vector.toNat) (handler : H) (override redirect : Bool)
    (redirectVector : UInt32) : s.registerInterruptAt handler vector override redirect
    redirectVector = if override = false ∧ vector > IRQ223 then some (false, s) else none := by
  have hLow := not_lt_IRQ18 h
  unfold registerInterruptAt
  simp only [hLow, false_or, Table.load_of_le h, bind_eq_bind, bind_none]

theorem unregisterInterrupt_of_lt (h : vector.toNat < 255) : s.unregisterInterrupt vector =
    if vector < IRQ18 ∨ vector > IRQ223 then some (false, s)
    else some (true, ⟨update s.mainRegisteredInterrupts
    (⟨vector.toNat, h⟩ : Fin 255).castSucc none, update s.registeredInterrupts
    ⟨vector.toNat, h⟩ false, s.redirected⟩) := by
  simp only [unregisterInterrupt, setTaken_of_lt false h, mainUnregisterInterrupt, mainVector_eq h,
    bind_eq_bind, bind_some]

theorem unregisterInterrupt_of_le (h : 255 ≤ vector.toNat) : s.unregisterInterrupt vector =
    if vector > IRQ223 then some (false, s) else none := by
  have hLow := not_lt_IRQ18 h
  simp only [unregisterInterrupt, hLow, false_or, setTaken, Table.store_of_le h, map_none,
    bind_eq_bind, bind_none]

theorem Kept.refl {call : InterruptCall H} (hAgree : Agree s)
    (hCall : ∀ handler, call ≠ .automatic handler) : Kept s call s where
  agree := hAgree
  handlers := fun _ _ _ => rfl
  chosen := fun handler _ h => (hCall handler h).elim

theorem handlers_update {v : Fin 256} {value : Option H}
    (hNone : s.mainRegisteredInterrupts v = none) (w : Fin 256)
    (hSome : s.mainRegisteredInterrupts w ≠ none) :
    update s.mainRegisteredInterrupts v value w = s.mainRegisteredInterrupts w := by
  apply update_of_ne
  rintro rfl
  exact hSome hNone

theorem keptBy_automatic (hAgree : Agree s) (handler : H) : KeptBy s (.automatic handler) := by
  rcases registerInterrupt_cases hAgree handler with hNone | ⟨v, hFree, hSome⟩
  · refine ⟨s, by rw [execute, hNone]; rfl, hAgree, fun _ _ _ => rfl, ?_⟩
    rintro handler' vector hCall hResult
    cases hCall
    rw [hNone] at hResult
    cases hResult
    exact .inl rfl
  refine ⟨_, by rw [execute, hSome]; rfl, hAgree.update v (by simp) _,
    fun _ w hw => handlers_update hFree w hw, ?_⟩
  rintro handler' vector hCall hResult
  cases hCall
  rw [hSome] at hResult
  cases hResult
  refine Or.inr ⟨v.castSucc, ?_, hFree⟩
  exact Nat.mod_eq_of_lt (by omega)

theorem ne_last_iff : vector ≠ 255 ↔ vector.toNat < 255 ∨ vector > IRQ223 := by
  have hEnd : (255 : UInt32).toNat = 255 := rfl
  have hLast : IRQ223.toNat = 255 := rfl
  rw [ne_eq, ← UInt32.toNat_inj, gt_iff_lt, UInt32.lt_iff_toNat_lt, hEnd, hLast]
  omega

theorem allowed_explicit_iff {override redirect : Bool} {redirectVector : UInt32} :
    InterruptCall.Allowed (.explicit handler vector override redirect redirectVector) ↔
    vector.toNat < 255 ∨ override = false ∧ vector > IRQ223 := by
  cases override with
  | true =>
    rw [or_iff_left (fun h => by cases h.1)]
    exact UInt32.lt_iff_toNat_lt
  | false =>
    rw [eq_self, true_and]
    exact ne_last_iff

theorem keptBy_explicit (hAgree : Agree s) (h : vector.toNat < 255) (handler : H)
    (override redirect : Bool) (redirectVector : UInt32) :
    KeptBy s (.explicit handler vector override redirect redirectVector) := by
  have hResult := registerInterruptAt_of_lt (s := s) h handler override redirect redirectVector
  split at hResult
  · exact ⟨s, by rw [execute, hResult]; rfl, .refl hAgree (fun _ hCall => by cases hCall)⟩
  rename_i hPass
  refine ⟨_, by rw [execute, hResult]; rfl, hAgree.update _ (by simp) _, ?_,
    fun _ _ hCall => by cases hCall⟩
  intro hOverride w hw
  refine handlers_update (hAgree.untaken ?_) w hw
  rw [← Bool.not_eq_true]
  exact fun hTaken => hPass ⟨hOverride, Or.inr (.inr hTaken)⟩

theorem keptBy_explicit_iff (hAgree : Agree s) (handler : H) (vector : UInt32)
    (override redirect : Bool) (redirectVector : UInt32) :
    KeptBy s (.explicit handler vector override redirect redirectVector) ↔
    InterruptCall.Allowed (.explicit handler vector override redirect redirectVector) := by
  rw [allowed_explicit_iff]
  by_cases h : vector.toNat < 255
  · exact iff_of_true (keptBy_explicit hAgree h handler override redirect redirectVector) (.inl h)
  rw [or_iff_right h]
  have hResult := registerInterruptAt_of_le (s := s) (Nat.not_lt.mp h) handler override redirect
    redirectVector
  split at hResult
  · rename_i hRefused
    exact iff_of_true ⟨s, by rw [execute, hResult]; rfl,
        .refl hAgree (fun _ hCall => by cases hCall)⟩ hRefused
  rename_i hOutside
  refine iff_of_false ?_ hOutside
  rintro ⟨s', hExecute, _⟩
  rw [execute, hResult] at hExecute
  cases hExecute

theorem keptBy_unregister_iff (hAgree : Agree s) (vector : UInt32) : KeptBy s (.unregister vector) ↔
    InterruptCall.Allowed (.unregister vector : InterruptCall H) := by
  have hRefl : Kept s (.unregister vector) s := .refl hAgree (fun _ hCall => by cases hCall)
  refine Iff.trans ?_ ne_last_iff.symm
  by_cases h : vector.toNat < 255
  · refine iff_of_true ?_ (.inl h)
    have hResult := unregisterInterrupt_of_lt (s := s) h
    split at hResult
    · exact ⟨s, by rw [execute, hResult]; rfl, hRefl⟩
    · refine ⟨_, by rw [execute, hResult]; rfl, hAgree.update _ (by simp) _,
        (fun hReplaces => by cases hReplaces), (fun _ _ hCall => by cases hCall)⟩
  rw [or_iff_right h]
  have hResult := unregisterInterrupt_of_le (s := s) (Nat.not_lt.mp h)
  split at hResult
  · rename_i hRefused
    exact iff_of_true ⟨s, by rw [execute, hResult]; rfl, hRefl⟩ hRefused
  rename_i hOutside
  refine iff_of_false ?_ hOutside
  rintro ⟨s', hExecute, _⟩
  rw [execute, hResult] at hExecute
  cases hExecute

theorem keptBy_iff (hAgree : Agree s) (call : InterruptCall H) : KeptBy s call ↔ call.Allowed := by
  cases call with
  | automatic handler =>
    exact iff_of_true (keptBy_automatic hAgree handler) trivial
  | explicit handler vector override redirect redirectVector =>
      exact keptBy_explicit_iff hAgree handler vector override redirect redirectVector
  | unregister vector =>
    exact keptBy_unregister_iff hAgree vector

theorem registry_kept_iff (calls : List (InterruptCall H)) : Meets execute KeptBy start calls ↔
    ∀ call ∈ calls, call.Allowed := by
  refine meets_iff_forall_of_invariant Agree (fun _ call hAgree => keptBy_iff hAgree call) ?_
    agree_start calls
  intro s call hAgree hAllowed
  rcases (keptBy_iff hAgree call).mpr hAllowed with ⟨s', hExecute, hKept⟩
  exact ⟨s', hExecute, hKept.agree⟩

theorem last_vector_outside : ¬ Meets execute KeptBy (start : InterruptTables Unit)
    [.explicit () 255 false false 0xDEADBEEF] := by
  rintro ⟨⟨s', hExecute, _⟩, _⟩
  cases hExecute

end InterruptTables

end Fennix
