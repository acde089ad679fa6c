import Fennix.Library.Count

/-
  Tables with linear probing.

  A table has `n` slots, each empty or with an entry.
-/

def seek (n : Nat) (stop : Nat → Bool) : (fuel : Nat) → Nat → Option Nat
| 0, _ => none
| fuel + 1, index =>
  if stop index then some index
  else seek n stop fuel ((index + 1) % n)

def lookup {α : Type} (n : Nat) (table : Nat → Option α) (p : α → Bool) :
    (rounds : Nat) → Nat → Option α
| 0, _ => none
| rounds + 1, index =>
  match table index with
  | none => none
  | some a =>
    if p a then some a
    else lookup n table p rounds ((index + 1) % n)

variable {fuel i rounds : Nat}

section Search

variable {α : Type} {n start d : Nat} {stop : Nat → Bool} {table : Nat → Option α} {p : α → Bool}

private theorem slot_succ (start d n : Nat) :
    ((start + 1) % n + d) % n = (start + (d + 1)) % n := by
  rw [Nat.mod_add_mod, Nat.add_assoc, Nat.add_comm 1 d]

theorem seek_first (hStart : start < n) (hFuel : d < fuel) (hStop : stop ((start + d) % n) = true)
    (hBefore : ∀ e < d, stop ((start + e) % n) = false) :
    seek n stop fuel start = some ((start + d) % n) := by
  induction d generalizing start fuel with
  | zero =>
    cases fuel with
    | zero => omega
    | succ fuel =>
      have hSame : (start + 0) % n = start := Nat.mod_eq_of_lt hStart
      rw [hSame] at hStop ⊢
      rw [seek, if_pos hStop]
  | succ d ih =>
    cases fuel with
    | zero => omega
    | succ fuel =>
      have hHere := hBefore 0 (by omega)
      rw [Nat.add_zero, Nat.mod_eq_of_lt hStart] at hHere
      rw [seek, hHere, ← slot_succ start d n]
      simp only [Bool.false_eq_true, if_false]
      apply ih (Nat.mod_lt _ (by omega)) (by omega)
      · rw [slot_succ]
        exact hStop
      intro e he
      rw [slot_succ]
      exact hBefore (e + 1) (by omega)

theorem seek_mono {fuel' : Nat} (hSeek : seek n stop fuel start = some i) (hFuel : fuel ≤ fuel') :
    seek n stop fuel' start = some i := by
  induction fuel generalizing fuel' start with
  | zero => cases hSeek
  | succ fuel ih =>
    cases fuel' with
    | zero => omega
    | succ fuel' =>
      rw [seek] at hSeek ⊢
      split at hSeek
      · rename_i hStop
        rw [if_pos hStop]
        exact hSeek
      rename_i hStop
      rw [if_neg hStop]
      exact ih hSeek (by omega)

theorem seek_none (hNone : ∀ i < n, stop i = false) (hStart : start < n) (fuel : Nat) :
    seek n stop fuel start = none := by
  induction fuel generalizing start with
  | zero => rfl
  | succ fuel ih =>
    rw [seek, hNone start hStart]
    exact ih (Nat.mod_lt _ (by omega))

theorem exists_first (hStop : stop ((start + d) % n) = true) :
    ∃ e ≤ d, stop ((start + e) % n) = true ∧ ∀ e' < e, stop ((start + e') % n) = false := by
  have hSome : ∃ e, stop ((start + e) % n) = true := ⟨d, hStop⟩
  refine ⟨Nat.find hSome, Nat.find_min' hSome hStop, Nat.find_spec hSome, ?_⟩
  intro e he
  exact Bool.eq_false_iff.mpr (Nat.find_min hSome he)

theorem exists_distance (hStart : start < n) (hi : i < n) : ∃ d < n, i = (start + d) % n := by
  by_cases hLe : start ≤ i
  · refine ⟨i - start, by omega, ?_⟩
    rw [Nat.add_sub_cancel' hLe, Nat.mod_eq_of_lt hi]
  refine ⟨i + n - start, by omega, ?_⟩
  have hSum : start + (i + n - start) = i + n := by omega
  rw [hSum, Nat.add_mod_right, Nat.mod_eq_of_lt hi]

theorem lookup_found {a : α} (hStart : start < n) (hRounds : d < rounds)
    (hHere : table ((start + d) % n) = some a) (hGood : p a = true)
    (hBefore : ∀ e < d, ∃ b, table ((start + e) % n) = some b ∧ p b = false) :
    lookup n table p rounds start = some a := by
  induction d generalizing start rounds with
  | zero =>
    cases rounds with
    | zero => omega
    | succ rounds =>
      rw [Nat.add_zero, Nat.mod_eq_of_lt hStart] at hHere
      simp only [lookup, hHere, hGood, if_true]
  | succ d ih =>
    cases rounds with
    | zero => omega
    | succ rounds =>
      rcases hBefore 0 (by omega) with ⟨b, hb, hBad⟩
      rw [Nat.add_zero, Nat.mod_eq_of_lt hStart] at hb
      simp only [lookup, hb, hBad, Bool.false_eq_true, if_false]
      apply ih (Nat.mod_lt _ (by omega)) (by omega)
      · rw [slot_succ]
        exact hHere
      intro e he
      rw [slot_succ]
      exact hBefore (e + 1) (by omega)

theorem lookup_none (hNone : ∀ i < n, ∀ a, table i = some a → p a = false) (hStart : start < n)
    (rounds : Nat) : lookup n table p rounds start = none := by
  induction rounds generalizing start with
  | zero => rfl
  | succ rounds ih =>
    cases hHere : table start with
    | none => simp only [lookup, hHere]
    | some a =>
      simp only [lookup, hHere, hNone start hStart a hHere, Bool.false_eq_true, if_false]
      exact ih (Nat.mod_lt _ (by omega))

end Search

section Tables

variable {α κ : Type}

def Probed (n : Nat) (home : κ → Nat) (key : α → κ) (table : Nat → Option α) : Prop :=
  ∀ i < n, ∀ a, table i = some a → ∃ d < n, i = (home (key a) + d) % n ∧ ∀ e < d, ∃ b,
        table ((home (key a) + e) % n) = some b ∧ key b ≠ key a

structure Represents (n : Nat) (home : κ → Nat) (key : α → κ) (table : Nat → Option α)
    (map : κ → Option α) : Prop where
  probed : Probed n home key table
  keyed : ∀ k a, map k = some a → key a = k
  entries : ∀ a, (∃ i < n, table i = some a) ↔ map (key a) = some a

def occupied {α : Type} (n : Nat) (table : Nat → Option α) : Nat :=
  Nat.count (fun i => (table i).isSome) n

theorem occupied_empty (n : Nat) : occupied n (fun _ => (none : Option α)) = 0 := by
  simp [occupied]

def putAt (table : Nat → Option α) (slot : Nat) (a : α) : Nat → Option α :=
  fun i => if i = slot then some a else table i

variable {n : Nat} {home : κ → Nat} {key : α → κ} {table : Nat → Option α} {map : κ → Option α}

theorem Represents.empty : Represents n home key (fun _ => none) (fun _ => none) where
  probed := fun _ _ _ h => by cases h
  keyed := fun _ _ h => by cases h
  entries := by
    intro a
    constructor
    · rintro ⟨_, _, h⟩
      cases h
    · intro h
      cases h

namespace Represents

variable {a : α} {d : Nat}

structure Place (n : Nat) (home : κ → Nat) (key : α → κ) (table : Nat → Option α) (k : κ)
    (d : Nat) : Prop where
  near : d < n
  here : ∀ b, table ((home k + d) % n) = some b → key b = k
  before : ∀ e < d, ∃ b, table ((home k + e) % n) = some b ∧ key b ≠ k

variable {j : Nat} {b : α}

theorem other_key (h : Represents n home key table map) (hPlace : Place n home key table (key a) d)
    (hj : j < n) (hNe : j ≠ (home (key a) + d) % n) (hb : table j = some b) : key b ≠ key a := by
  intro hKey
  rcases h.probed j hj b hb with ⟨e, _, he, hBefore⟩
  rw [hKey] at he hBefore
  rcases Nat.lt_trichotomy e d with hLt | hEq | hGt
  · rcases hPlace.before e hLt with ⟨c, hc, hOther⟩
    rw [← he, hb] at hc
    cases hc
    exact hOther hKey
  · rw [hEq] at he
    exact hNe he
  · rcases hBefore d hGt with ⟨c, hc, hOther⟩
    exact hOther (hPlace.here c hc)
variable {k : κ}

theorem Place.seek {stop : Nat → Bool} (hPlace : Place n home key table k d) (hHome : home k < n)
    (hFuel : n ≤ fuel) (hStop : ∀ i < n, stop i = true ↔ ∀ b, table i = some b → key b = k) :
    seek n stop fuel (home k) = some ((home k + d) % n) := by
  have hSlot : ∀ e, (home k + e) % n < n := fun _ => Nat.mod_lt _ (by omega)
  have hNear := hPlace.near
  apply seek_first hHome (by omega)
  · exact (hStop _ (hSlot d)).mpr hPlace.here
  intro e he
  rcases hPlace.before e he with ⟨b, hb, hOther⟩
  rw [← Bool.not_eq_true, hStop _ (hSlot e)]
  intro hSame
  exact hOther (hSame b hb)

variable {c : α}

section

variable (h : Represents n home key table map)

include h

theorem place_none_iff (hPlace : Place n home key table (key a) d) :
    table ((home (key a) + d) % n) = none ↔ map (key a) = none := by
  have hSlot : (home (key a) + d) % n < n := Nat.mod_lt _ (by
      have := hPlace.near
      omega)
  constructor
  · intro hEmpty
    by_contra hOld
    rcases Option.ne_none_iff_exists'.mp hOld with ⟨b, hb⟩
    have hKey := h.keyed _ b hb
    rw [← hKey] at hb
    rcases (h.entries b).mpr hb with ⟨i, hi, hAt⟩
    refine h.other_key hPlace hi ?_ hAt hKey
    intro hSame
    rw [hSame, hEmpty] at hAt
    cases hAt
  intro hNew
  by_contra hFull
  rcases Option.ne_none_iff_exists'.mp hFull with ⟨b, hb⟩
  have hIn := (h.entries b).mp ⟨_, hSlot, hb⟩
  rw [hPlace.here b hb, hNew] at hIn
  cases hIn

theorem occupied_put (hPlace : Place n home key table (key a) d) :
    occupied n (putAt table ((home (key a) + d) % n) a) =
    if map (key a) = none then occupied n table + 1 else occupied n table := by
  have hSlot : (home (key a) + d) % n < n := Nat.mod_lt _ (by
      have := hPlace.near
      omega)
  split
  · rename_i hNew
    apply count_eq_succ_of_remove hSlot
    · simp [putAt]
    · simp [(h.place_none_iff hPlace).mpr hNew]
    · intro i hi
      simp [putAt, hi]
  rename_i hOld
  apply count_eq_of_iff
  intro i _
  by_cases hi : i = (home (key a) + d) % n
  · rw [← h.place_none_iff hPlace, ← hi] at hOld
    simp [putAt, hi.symm, Option.isSome_iff_ne_none, hOld]
  · simp [putAt, hi]

theorem slot_unique (hi : i < n) (hj : j < n) (hb : table i = some b) (hc : table j = some c)
    (hKey : key b = key c) : i = j := by
  rcases h.probed i hi b hb with ⟨d, hd, hAt, hBefore⟩
  rw [hAt] at hb ⊢
  by_contra hNe
  refine h.other_key ⟨hd, ?_, hBefore⟩ hj (Ne.symm hNe) hc hKey.symm
  intro b' hb'
  rw [hb] at hb'
  cases hb'
  rfl

end

variable [DecidableEq κ]

theorem putInto (h : Represents n home key table map) (hNear : d < n)
    (hBefore : ∀ e < d, ∃ b, table ((home (key a) + e) % n) = some b ∧ key b ≠ key a ∧
    (home (key a) + e) % n ≠ (home (key a) + d) % n)
    (hOther : ∀ j < n, j ≠ (home (key a) + d) % n → ∀ b, table j = some b → key b ≠ key a) :
    Represents n home key (putAt table ((home (key a) + d) % n) a)
    (fun k => if k = key a then some a
      else if (table ((home (key a) + d) % n)).map key = some k then none else map k) := by
  have hSlot : (home (key a) + d) % n < n := Nat.mod_lt _ (by omega)
  constructor
  · intro i hi b hb
    by_cases hHome : i = (home (key a) + d) % n
    · rw [putAt, if_pos hHome] at hb
      cases hb
      refine ⟨d, hNear, hHome, ?_⟩
      intro e he
      rcases hBefore e he with ⟨b, hb, hKey, hNe⟩
      exact ⟨b, (if_neg hNe).trans hb, hKey⟩
    rw [putAt, if_neg hHome] at hb
    rcases h.probed i hi b hb with ⟨e, he, hAt, hPath⟩
    refine ⟨e, he, hAt, ?_⟩
    intro e' he'
    by_cases hSame : (home (key b) + e') % n = (home (key a) + d) % n
    · exact ⟨a, if_pos hSame, (hOther i hi hHome b hb).symm⟩
    · rcases hPath e' he' with ⟨b', hb', hKey⟩
      exact ⟨b', (if_neg hSame).trans hb', hKey⟩
  · intro k b hb
    split_ifs at hb with hk hGone
    · cases hb
      exact hk.symm
    · exact h.keyed k b hb
  · intro b
    constructor
    · rintro ⟨i, hi, hb⟩
      by_cases hHome : i = (home (key a) + d) % n
      · rw [putAt, if_pos hHome] at hb
        cases hb
        rw [if_pos rfl]
      rw [putAt, if_neg hHome] at hb
      rw [if_neg (hOther i hi hHome b hb), if_neg]
      · exact (h.entries b).mp ⟨i, hi, hb⟩
      intro hGone
      rcases Option.map_eq_some_iff.mp hGone with ⟨c, hc, hKey⟩
      exact hHome (h.slot_unique hi hSlot hb hc hKey.symm)
    intro hb
    split_ifs at hb with hk hGone
    · cases hb
      exact ⟨_, hSlot, if_pos rfl⟩
    rcases (h.entries b).mpr hb with ⟨i, hi, hAt⟩
    refine ⟨i, hi, (if_neg ?_).trans hAt⟩
    intro hSame
    rw [← hSame, hAt] at hGone
    exact hGone rfl

theorem replace (h : Represents n home key table map) (hNew : map (key a) = none) (hNear : d < n)
    (hBefore : ∀ e < d, ∃ b, table ((home (key a) + e) % n) = some b ∧ key b ≠ key a ∧
    key b ≠ key c)
    (hHere : table ((home (key a) + d) % n) = some c) :
    Represents n home key (putAt table ((home (key a) + d) % n) a)
    (fun k => if k = key a then some a else if k = key c then none else map k) := by
  have hAfter := h.putInto (a := a) hNear ?_ ?_
  · simpa only [hHere, Option.map_some, Option.some.injEq, eq_comm (a := key c)] using hAfter
  · intro e he
    rcases hBefore e he with ⟨b, hb, hOther, hNotC⟩
    refine ⟨b, hb, hOther, ?_⟩
    intro hSame
    rw [hSame, hHere] at hb
    cases hb
    exact hNotC rfl
  · intro i hi _ b hb hKey
    have hIn := (h.entries b).mp ⟨i, hi, hb⟩
    rw [hKey, hNew] at hIn
    cases hIn

theorem put (h : Represents n home key table map) (hPlace : Place n home key table (key a) d) :
    Represents n home key (putAt table ((home (key a) + d) % n) a)
    (fun k => if k = key a then some a else map k) := by
  have hAfter := h.putInto hPlace.near ?_ (fun j hj hNe b hb => h.other_key hPlace hj hNe hb)
  · convert hAfter using 2 with k
    split_ifs with hk hGone
    · rfl
    · rcases Option.map_eq_some_iff.mp hGone with ⟨b, hb, rfl⟩
      exact absurd (hPlace.here b hb) hk
    · rfl
  intro e he
  rcases hPlace.before e he with ⟨c, hc, hOther⟩
  refine ⟨c, hc, hOther, ?_⟩
  intro hSame
  rw [hSame] at hc
  exact hOther (hPlace.here c hc)

theorem lookup_eq (h : Represents n home key table map) (hHome : ∀ k, home k < n)
    (hRounds : n ≤ rounds) (k : κ) : lookup n table (fun a => key a = k) rounds
    (home k) = map k := by
  cases hMap : map k with
  | some a =>
    have hKey := h.keyed k a hMap
    rw [← hKey] at hMap
    rcases (h.entries a).mpr hMap with ⟨i, hi, ha⟩
    rcases h.probed i hi a ha with ⟨d, hd, hAt, hBefore⟩
    rw [hKey] at hAt hBefore
    rw [hAt] at ha
    apply lookup_found (hHome k) (by omega) ha
    · exact decide_eq_true hKey
    intro e he
    rcases hBefore e he with ⟨b, hb, hOther⟩
    exact ⟨b, hb, decide_eq_false hOther⟩
  | none =>
    apply lookup_none _ (hHome k)
    intro i hi a ha
    apply decide_eq_false
    intro hKey
    have hIn := (h.entries a).mp ⟨i, hi, ha⟩
    rw [hKey, hMap] at hIn
    cases hIn

theorem exists_place (h : Represents n home key table map) (hHome : ∀ k, home k < n)
    (hRoom : map k ≠ none ∨ occupied n table < n) : ∃ d, Place n home key table k d := by
  let stop : Nat → Bool := fun i =>
    match table i with
    | none => true
    | some b => key b = k
  have hSlot : ∃ i < n, stop i = true := by
    rcases hRoom with hOld | hRoom
    · rcases Option.ne_none_iff_exists'.mp hOld with ⟨a, ha⟩
      have hKey := h.keyed k a ha
      rw [← hKey] at ha
      rcases (h.entries a).mpr ha with ⟨i, hi, hAt⟩
      refine ⟨i, hi, ?_⟩
      simp [stop, hAt, hKey]
    have hNot : ¬ ∀ i < n, (table i).isSome = true := by
      intro hAll
      have hFull := Nat.count_iff_forall.mpr hAll
      unfold occupied at hRoom
      omega
    push Not at hNot
    rcases hNot with ⟨i, hi, hEmpty⟩
    refine ⟨i, hi, ?_⟩
    have hNone : table i = none := by
      simpa using hEmpty
    simp [stop, hNone]
  rcases hSlot with ⟨i, hi, hStop⟩
  rcases exists_distance (hHome k) hi with ⟨d, hd, rfl⟩
  rcases exists_first hStop with ⟨e, he, hHere, hBefore⟩
  refine ⟨e, by omega, ?_, ?_⟩
  · intro b hb
    simpa [stop, hb] using hHere
  intro e' he'
  have hGoOn := hBefore e' he'
  cases hb : table ((home k + e') % n) with
  | none => simp [stop, hb] at hGoOn
  | some b =>
    refine ⟨b, rfl, ?_⟩
    simpa [stop, hb] using hGoOn

end Represents

end Tables
