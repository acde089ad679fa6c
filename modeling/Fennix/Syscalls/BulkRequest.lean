import Fennix.PMM.Release
import Fennix.Syscalls.Pages

/-
  What `requestpages` maps.

  The loop starts at the address `RequestPages` returned, null or not, and its end is computed in 64
  bits. `requestpages_maps_granted_iff` says when all it maps was granted.
-/

namespace Fennix

open PageDirectoryEntry PageFrameAllocator KernelTables BitVec PageMapIndexer Syscalls

variable {pml4 : BitVec 64} {s s' s₁ : PageFrameAllocator}

private theorem KernelMapped.walk_eq (hMapped : KernelMapped pml4 s) (v : BitVec 64) :
    walk s.memory pml4 v =
    match lookup s.memory pml4 (.of v) with
    | some page => .page page
    | none => .notPresent := by
  rcases hMapped with ⟨frames, n, _, hTables⟩
  exact walk_eq_lookup hTables v

variable {v : BitVec 64}

variable {address : Nat} {pages : BitVec 64}

private def userCall : MapCall :=
  ⟨0x1000, 0x1000, PTFlag.US ||| PTFlag.RW⟩

private def nullCall : MapCall :=
  ⟨0, 0, PTFlag.US ||| PTFlag.RW⟩

private structure Exhausted (s : PageFrameAllocator) : Prop where
  told : FlagsTold 0x102000 [userCall] s
  bits : s.bits = 32768
  used : ∀ q < 32768, s.used q = true
  mapped : lookup s.memory 0x102000 (.of 0x1000) = some 0x1000
  unmapped : lookup s.memory 0x102000 (.of 0) = none

private theorem Exhausted.requestPages (hExhausted : Exhausted s) :
    s.requestPages 2 1 = some (0, { s with pageBitmapIndex := max s.pageBitmapIndex s.bits }) ∧
      ∀ q, PageFrameAllocator.used
        { s with pageBitmapIndex := max s.pageBitmapIndex s.bits } q = s.used q := by
  refine ⟨requestPages_of_fails ?_, fun _ => rfl⟩
  intro q _ hq
  rw [hExhausted.bits] at hq
  exact .inl (hExhausted.used q hq)

private theorem Exhausted.mapUser (hExhausted : Exhausted s) (hint : Nat) :
    ∃ s', mapUser 0x102000 0 { s with pageBitmapIndex := hint } = some s' ∧
    FlagsTold 0x102000 [userCall, nullCall] s' ∧ lookup s'.memory 0x102000 (.of 0) = some 0 := by
  have hMapped := hExhausted.mapped
  rcases hFollow : follow (child s.memory) 0x102000 [0, 0, 0] with _ | pt
  · have hNone : lookup s.memory 0x102000 (.of 0x1000) = none := by
      have hPath : of 0x1000 = ⟨0, 0, 0, 1⟩ :=
        by decide
      rw [hPath, lookup, follow_snoc, hFollow]
      rfl
    rw [hNone] at hMapped
    cases hMapped
  have hTold := hExhausted.told.take (onlyBits_setHint s hint) (fun _ hq => hq)
  have hRoot : (0x102000 : BitVec 64) ≠ 0 := by
    decide
  have hPath : of 0 = ⟨0, 0, 0, 0⟩ := by
    decide
  have hCall := mapMemory_present (s := { s with pageBitmapIndex := hint }) hRoot hPath
    hFollow 0 (PTFlag.US ||| PTFlag.RW)
  rcases hTold.mapped.mapMemory tableFlags_US_RW hCall with ⟨_, _, hLookup⟩
  have hPage : framePage 0 = 0 := by
    decide
  refine ⟨_, hCall, hTold.snoc (c := nullCall) tableFlags_US_RW hCall, ?_⟩
  rw [hLookup, if_pos rfl, hPage]

end Fennix
