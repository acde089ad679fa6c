import Mathlib.Data.List.Pairwise
import Mathlib.Tactic.Common

/-
  Interrupts that are routed to a processor.

  `RawRedirectIRQ` looks for the I/O APIC of an interrupt.
-/

namespace Fennix

open List Option BitVec

namespace APIC

structure IOApic where
  addr : BitVec 32
  gsib : BitVec 32
  maximumRedirectionEntry : BitVec 8
deriving DecidableEq

structure IOWrite where
  base : BitVec 32
  register : BitVec 32
  value : BitVec 32
deriving DecidableEq

def IOApic.Takes (io : IOApic) (gsi : BitVec 32) : Prop :=
  io.gsib ≤ gsi ∧ gsi < io.gsib + io.maximumRedirectionEntry.setWidth 32

instance (io : IOApic) (gsi : BitVec 32) : Decidable (io.Takes gsi) :=
  inferInstanceAs (Decidable (_ ∧ _))

def search (ioapic : Nat → Option IOApic) (gsi : BitVec 32) :
    (fuel : Nat) → Nat → Option (List Nat × Option IOApic)
| 0, _ => none
| fuel + 1, i =>
  match ioapic i with
  | none => some ([i], none)
  | some io =>
    if io.Takes gsi then some ([i], some io)
    else (search ioapic gsi fuel (i + 1)).map (fun r => (i :: r.1, r.2))

def redirection (vector : BitVec 8) (flags : BitVec 16) (apicId : BitVec 8)
    (status : Bool) : BitVec 64 :=
  vector.setWidth 64 ||| (if flags &&& 2 = 0 then 0 else 1 <<< 13) |||
    (if flags &&& 8 = 0 then 0 else 1 <<< 15) ||| (if status then 0 else 1 <<< 16) |||
    apicId.setWidth 64 <<< 56

def programs (io : IOApic) (gsi : BitVec 32) (entry : BitVec 64) : List IOWrite :=
  [⟨io.addr, (gsi - io.gsib) * 2 + 16, entry.setWidth 32⟩,
    ⟨io.addr, (gsi - io.gsib) * 2 + 16 + 1, (entry >>> 32).setWidth 32⟩]

def rawRedirectIRQ (ioapic : Nat → Option IOApic) (fuel : Nat) (vector : BitVec 8)
    (gsi : BitVec 32) (flags : BitVec 16) (apicId : BitVec 8) (status : Bool) :
    Option (List Nat × List IOWrite) :=
  (search ioapic gsi fuel 0).map (fun r =>
    (r.1, r.2.toList.flatMap (programs · gsi (redirection vector flags apicId status))))

def IOApic.Serves (io : IOApic) (gsi : BitVec 32) : Prop :=
  io.gsib.toNat ≤ gsi.toNat ∧ gsi.toNat ≤ io.gsib.toNat + io.maximumRedirectionEntry.toNat

def buffer (l : List IOApic) (behind : Nat → Option IOApic) (i : Nat) : Option IOApic :=
  l[i]?.or (behind i)

def Routed (l : List IOApic) (behind : Nat → Option IOApic) (vector : BitVec 8) (gsi : BitVec 32)
    (flags : BitVec 16) (apicId : BitVec 8) (status : Bool) : Prop :=
  ∃ fuel looked writes, rawRedirectIRQ (buffer l behind) fuel vector gsi flags apicId status =
      some (looked, writes) ∧
    (∀ io ∈ l, io.Serves gsi → writes.map (fun w => (w.base, w.register.toNat)) =
      [(io.addr, 16 + 2 * (gsi.toNat - io.gsib.toNat)),
        (io.addr, 16 + 2 * (gsi.toNat - io.gsib.toNat) + 1)]) ∧
    ((∀ io ∈ l, ¬ io.Serves gsi) → writes = []) ∧ ∀ i ∈ looked, i < l.length

variable {l : List IOApic} {behind : Nat → Option IOApic} {gsi : BitVec 32}

theorem buffer_of_lt {i : Nat} (hi : i < l.length) : buffer l behind i = some l[i] := by
  rw [buffer, List.getElem?_eq_getElem hi]
  rfl

theorem takes_of_search {fuel i : Nat} {r : List Nat × Option IOApic}
    (h : search (buffer l behind) gsi fuel i = some r) (hInside : ∀ j ∈ r.1, j < l.length) :
    ∃ io ∈ l, io.Takes gsi := by
  induction fuel generalizing i r with
  | zero => cases h
  | succ fuel ih =>
    rw [search] at h
    by_cases hi : i < l.length
    · rw [buffer_of_lt hi] at h
      dsimp only at h
      split at h
      · exact ⟨l[i], getElem_mem hi, ‹_›⟩
      · rcases map_eq_some_iff.mp h with ⟨rest, hRest, rfl⟩
        exact ih hRest (fun j hj => hInside j (mem_cons_of_mem _ hj))
    refine (hi (hInside i ?_)).elim
    split at h
    · cases h
      exact mem_singleton_self i
    split at h
    · cases h
      exact mem_singleton_self i
    · rcases map_eq_some_iff.mp h with ⟨rest, _, rfl⟩
      exact mem_cons_self

theorem search_of_takes {i k : Nat} (hi : i < l.length) (hTakes : l[i].Takes gsi) (hk : k ≤ i) :
    ∃ fuel looked, ∃ io ∈ l, search (buffer l behind) gsi fuel k = some (looked, some io) ∧
    io.Takes gsi ∧ ∀ j ∈ looked, j < l.length := by
  induction hn : i - k generalizing k with
  | zero =>
    obtain rfl : k = i := by omega
    refine ⟨1, [k], l[k], getElem_mem hi, ?_, hTakes, by simpa using hi⟩
    rw [search, buffer_of_lt hi]
    exact if_pos hTakes
  | succ n ih =>
    have hLess : k < l.length := by omega
    by_cases hHere : l[k].Takes gsi
    · refine ⟨1, [k], l[k], getElem_mem hLess, ?_, hHere, by simpa using hLess⟩
      rw [search, buffer_of_lt hLess]
      exact if_pos hHere
    rcases ih (k := k + 1) (by omega) (by omega) with ⟨fuel, looked, io, hMem, hRest, hio, hAll⟩
    refine ⟨fuel + 1, k :: looked, io, hMem, ?_, hio, forall_mem_cons.mpr ⟨hLess, hAll⟩⟩
    rw [search, buffer_of_lt hLess]
    exact (if_neg hHere).trans (by rw [hRest]; rfl)

theorem IOApic.Takes.serves {io : IOApic} (h : io.Takes gsi) : io.Serves gsi := by
  have hHigh := h.2
  rw [lt_def, toNat_add, toNat_setWidth] at hHigh
  have hMax := io.maximumRedirectionEntry.isLt
  refine ⟨le_def.mp h.1, ?_⟩
  omega

theorem programs_registers {io : IOApic} (h : io.Serves gsi) (entry : BitVec 64) :
    (programs io gsi entry).map (fun w => (w.base, w.register.toNat)) =
    [(io.addr, 16 + 2 * (gsi.toNat - io.gsib.toNat)),
      (io.addr, 16 + 2 * (gsi.toNat - io.gsib.toNat) + 1)] := by
  have hMax := io.maximumRedirectionEntry.isLt
  have hLow := toNat_sub_of_le (le_def.mpr h.1)
  have hHigh := h.2
  simp [programs, toNat_add, toNat_mul, hLow]
  omega

theorem routed_iff (l : List IOApic) (behind : Nat → Option IOApic) (vector : BitVec 8)
    (gsi : BitVec 32) (flags : BitVec 16) (apicId : BitVec 8) (status : Bool)
    (hDisjoint : l.Pairwise (fun a b => ∀ g, ¬ (a.Serves g ∧ b.Serves g))) :
    Routed l behind vector gsi flags apicId status ↔ ∃ io ∈ l, io.Takes gsi := by
  constructor
  · rintro ⟨fuel, looked, writes, hReturns, _, _, hInside⟩
    rcases map_eq_some_iff.mp hReturns with ⟨r, hSearch, hr⟩
    cases hr
    exact takes_of_search hSearch hInside
  rintro ⟨io, hMem, hTakes⟩
  rcases getElem_of_mem hMem with ⟨i, hi, rfl⟩
  rcases search_of_takes hi hTakes (Nat.zero_le i) with
    ⟨fuel, looked, io, hio, hSearch, hFound, hInside⟩
  refine ⟨fuel, looked, _, by rw [rawRedirectIRQ, hSearch]; rfl, ?_, ?_, hInside⟩
  · intro other hOther hServes
    have hSame : other = io := by
      by_contra hNe
      have : Std.Symm (fun a b : IOApic => ∀ g, ¬ (a.Serves g ∧ b.Serves g)) :=
        ⟨fun a b h g hg => h g hg.symm⟩
      exact hDisjoint.forall hOther hio hNe gsi ⟨hServes, hFound.serves⟩
    rw [hSame] at hServes ⊢
    simpa using programs_registers hServes _
  · exact fun hNone => (hNone io hio hFound.serves).elim

def usual : IOApic := ⟨0xFEC00000, 0, 23⟩

def second : IOApic := ⟨0xFEC01000, 24, 31⟩

theorem routed_iff_second : Routed [usual, second] (fun _ => none) 0x39 25 0 0 true := by
  rw [routed_iff]
  · exact ⟨second, mem_cons_of_mem _ (mem_singleton_self _), by decide⟩
  · rw [pairwise_pair]
    rintro g ⟨⟨_, hHigh⟩, hLow, _⟩
    have hHigh : g.toNat ≤ 0 + 23 := hHigh
    have hLow : 24 ≤ g.toNat := hLow
    omega

theorem last_not_routed : usual.Serves 23 ∧
    rawRedirectIRQ (buffer [usual] (fun _ => none)) 2 0x37 23 0 0 true = some ([0, 1], []) := by
  exact ⟨⟨by decide, by decide⟩, by decide⟩

end APIC

end Fennix
