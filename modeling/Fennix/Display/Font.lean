import Fennix.VMM.KernelTables

/-
  The header of a font that is kept after its pages are given back.
-/

namespace Fennix

open PageFrameAllocator KernelTables Option

variable {s : PageFrameAllocator} {q : Nat}

theorem requestPage_reaches (hBits : s.bits ≤ 2 ^ 52) (hHint : s.pageBitmapIndex ≤ q)
    (hq : q < s.bits) (hFree : s.used q = false) :
    ∃ n, (requestPage (Nat.iterate (fun s => (requestPage s).2) n s)).1 = some (q * 4096) := by
  -- each request takes one of the free pages below `q`
  induction hn : Nat.count (fun i => s.used i = false) q using Nat.strongRecOn generalizing s with
  | _ n ih =>
    rcases hRequest : requestPage s with ⟨answer, s'⟩
    rcases requestPage_cases hRequest with
      ⟨index, hLow, hIndex, hClear, hBefore, _, _⟩ | ⟨hFull, _, _⟩
    · rcases requestPage_first index hBits hLow hIndex hClear hBefore with
        ⟨s', hReturns, hNext, hUsed⟩
      by_cases hHere : index = q
      · exact ⟨0, by rw [Function.iterate_zero_apply, hReturns, hHere]⟩
      have hLess : index < q := by
        by_contra hMore
        rw [hBefore q hHint (by omega)] at hFree
        cases hFree
      have hSame : s'.bits = s.bits :=
        congrArg Bitmap.bits (onlyBits_requestPage hReturns).pageBitmap
      have hOther : ∀ k, k ≠ index → (s.used k = false ↔ s'.used k = false) := by
        intro k hk
        rw [Bool.eq_false_iff, Bool.eq_false_iff, ne_eq, ne_eq, hUsed, or_iff_left hk]
      have hTaken : ¬ s'.used index = false := by
        rw [(hUsed index).mpr (.inr rfl)]
        decide
      have hCount := count_eq_succ_of_remove hLess hClear hTaken hOther
      rcases ih _ (by omega) (by omega) (by omega) (by omega)
        ((hOther q (fun h => hHere h.symm)).mp hFree) rfl with ⟨k, hk⟩
      exact ⟨k + 1, by rw [Function.iterate_succ_apply, hReturns]; exact hk⟩
    · rw [hFull q hHint hq] at hFree
      cases hFree

namespace Font

variable (fuel : Nat) (pml4 : BitVec 64) (s : PageFrameAllocator) (start stop : Nat)

def fontDataLength : Nat :=
  (stop - start) / 8

def fontPages : Nat :=
  fontDataLength start stop / 4096 + 1

def loaded : Option (Nat × PageFrameAllocator) :=
  (requestPages fuel s (fontPages start stop)).bind (fun answer =>
    ((List.range (fontPages start stop)).foldlM (fun s i =>
      let page := BitVec.ofNat 64 (answer.1 + i * 4096 * 32)
      mapMemory pml4 s page page PTFlag.RW) answer.2).map (fun s => (answer.1, s)))

def copied (font2 : Nat) : PageFrameAllocator :=
  { s with memory := s.memory.copy font2 start (fontDataLength start stop) }

def construct : Option (Nat × PageFrameAllocator) :=
  (loaded fuel pml4 s start stop).map (fun answer =>
    (answer.1, freePages (copied answer.2 start stop answer.1) answer.1 (fontPages start stop)))

variable {fuel pml4 s start stop} {font2 : Nat} {t : PageFrameAllocator}

theorem loaded_lt (h : loaded fuel pml4 s start stop = some (font2, t)) : font2 < 2 ^ 64 := by
  rcases bind_eq_some_iff.mp h with ⟨⟨address, s'⟩, hRequest, hMapped⟩
  rcases map_eq_some_iff.mp hMapped with ⟨_, _, hEq⟩
  cases hEq
  rcases requestPages_cases hRequest with ⟨_, index, _, _, rfl, _⟩ | ⟨_, rfl, _⟩
  · exact pageAddress_lt index
  · exact Nat.two_pow_pos 64

theorem header_not_owned (fuel : Nat) (pml4 : BitVec 64) (s t : PageFrameAllocator)
    (start stop font2 : Nat) (hLoaded : loaded fuel pml4 s start stop = some (font2, t)) :
    ∃ s', construct fuel pml4 s start stop = some (font2, s') ∧ s'.used (font2 / 4096) = false ∧
    (s'.bits ≤ 2 ^ 52 → s'.pageBitmapIndex ≤ font2 / 4096 → font2 / 4096 < s'.bits →
      ∃ n, (requestPage (Nat.iterate (fun s => (requestPage s).2) n s')).1 =
        some (font2 / 4096 * 4096)) ∧
    ∀ i < 32, ¬ t.pageBitmap.Owns (font2 + i) → s'.memory (font2 + i) =
      if i < (stop - start) / 8 then t.memory (start + i) else t.memory (font2 + i) := by
  have hFree : ∀ u : PageFrameAllocator,
    (u.freePages font2 (fontPages start stop)).used (font2 / 4096) = false := by
    intro u
    rw [Bool.eq_false_iff, ne_eq, used_freePages]
    refine fun h => h.2 ⟨0, Nat.succ_pos _, ?_⟩
    rw [Nat.zero_mul, Nat.add_zero, u64_of_lt (loaded_lt hLoaded)]
  refine ⟨_, by rw [construct, hLoaded]; rfl, hFree _, ?_, ?_⟩
  · exact fun hBits hHint hIn => requestPage_reaches hBits hHint hIn (hFree _)
  intro i hi hApart
  have hKept := (onlyBits_forPages onlyBits_freePage (copied t start stop font2) font2
    (fontPages start stop)).outside _ hApart
  refine hKept.trans ?_
  simp only [copied, Memory.copy, fontDataLength]
  by_cases hCopied : i < (stop - start) / 8
  · rw [if_pos (by omega), if_pos hCopied, Nat.add_sub_cancel_left]
  · rw [if_neg (by omega), if_neg hCopied]

def small : PageFrameAllocator :=
  ⟨fun x => if x = 0x3000 then 0xF8 else 0, ⟨2, 0x3000⟩, 0, 65536, 45056, 0, 20480, true⟩

theorem header_not_owned_small :
    ∃ s', construct 1 0x1000 small 0x2000 0x2100 = some (0x5000, s') ∧ s'.used 5 = false := by
  have hAnswer : (loaded 1 0x1000 small 0x2000 0x2100).map Prod.fst = some 0x5000 := by
    decide +kernel
  rcases map_eq_some_iff.mp hAnswer with ⟨⟨font2, t⟩, hLoaded, rfl⟩
  rcases header_not_owned _ _ _ t _ _ _ hLoaded with ⟨s', hReturns, hFree, _⟩
  exact ⟨s', hReturns, hFree⟩

theorem header_requested : (construct 1 0x1000 small 0x2000 0x2100).map
    (fun r => (r.1, (requestPage r.2).1)) = some (0x5000, some 0x5000) := by
  decide +kernel

end Font

end Fennix
