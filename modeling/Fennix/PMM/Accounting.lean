import Fennix.Library.Count
import Fennix.PMM.Limine
import Fennix.PMM.SearchHint
import Mathlib.Data.Nat.ModEq

/-
  The byte counters of the page frame allocator.

  The counters are 64-bit words, so that the passes of boot are followed modulo `2 ^ 64`: each
  charges or refunds a number of pages.
-/

------ Counters and Clear Bits

namespace Fennix

open List

variable (n : Nat) (account : Account) {address : Nat}

open PageFrameAllocator

namespace PageFrameAllocator

def pages (s : PageFrameAllocator) : Nat :=
  min (s.totalMemory / 4096) s.bits

def clearPages (s : PageFrameAllocator) : Nat :=
  Nat.count (fun index => s.used index = false) s.pages

def pageAt (address t : Nat) : Nat :=
  u64 (address + t * 4096) / 4096

end PageFrameAllocator

def Account.balance (account : Account) (s : PageFrameAllocator) : Nat :=
  match account with
  | .used => s.usedMemory
  | .reserved => s.reservedMemory

namespace PageFrameAllocator

variable (account : Account) (s : PageFrameAllocator)

theorem charge_freeMemory : (s.charge account).freeMemory = sub64 s.freeMemory 4096 := by
  unfold charge
  rfl

theorem charge_balance : account.balance (s.charge account) = u64 (account.balance s + 4096) := by
  unfold charge Account.balance
  cases account <;> simp

variable {b : Account}

theorem charge_balance_other {account : Account} (hb : b ≠ account) :
    b.balance (s.charge account) = b.balance s := by
  unfold charge Account.balance
  revert hb
  cases account <;> cases b <;> simp

theorem refund_freeMemory : (s.refund account).freeMemory = u64 (s.freeMemory + 4096) := by
  unfold refund
  rfl

theorem refund_balance : account.balance (s.refund account) = sub64 (account.balance s) 4096 := by
  unfold refund Account.balance
  cases account <;> simp

theorem refund_balance_other {account : Account} (hb : b ≠ account) :
    b.balance (s.refund account) = b.balance s := by
  unfold refund Account.balance
  revert hb
  cases account <;> cases b <;> simp

end PageFrameAllocator

/-
  The free bytes are those of the clear pages, and no counter has wrapped: they add up to the total.
-/
structure Accounted (s : PageFrameAllocator) : Prop where
  free : s.freeMemory = 4096 * s.clearPages
  within : s.freeMemory ≤ s.totalMemory ∧ s.usedMemory ≤ s.totalMemory ∧
      s.reservedMemory ≤ s.totalMemory
  sum : s.freeMemory + s.usedMemory + s.reservedMemory = s.totalMemory

structure InWords (s : PageFrameAllocator) : Prop where
  total : s.totalMemory < 2 ^ 64
  free : s.freeMemory < 2 ^ 64
  used : s.usedMemory < 2 ^ 64
  reserved : s.reservedMemory < 2 ^ 64

structure Charged (account : Account) (k : Nat) (s s' : PageFrameAllocator) : Prop where
  free : s'.freeMemory + 4096 * k ≡ s.freeMemory [MOD 2 ^ 64]
  own : account.balance s' ≡ account.balance s + 4096 * k [MOD 2 ^ 64]
  other : ∀ b, b ≠ account → b.balance s' = b.balance s
  total : s'.totalMemory = s.totalMemory

def SameCounters (s t : PageFrameAllocator) : Prop :=
  t.freeMemory = s.freeMemory ∧ (∀ b : Account, b.balance t = b.balance s) ∧
      t.totalMemory = s.totalMemory

theorem u64_lt : u64 n < 2 ^ 64 := by
  unfold u64
  exact Nat.mod_lt _ (by omega)

theorem sub64_lt (k : Nat) : sub64 n k < 2 ^ 64 := by
  unfold sub64
  exact u64_lt _

theorem u64_modEq : u64 n ≡ n [MOD 2 ^ 64] := by
  unfold u64
  exact Nat.mod_modEq n _

theorem sub64_add_modEq (k : Nat) : sub64 n k + k ≡ n [MOD 2 ^ 64] := by
  unfold sub64 u64 Nat.ModEq
  omega

namespace Charged

variable {account : Account} {k j : Nat} {s s' s'' : PageFrameAllocator}

theorem refl (account : Account) (s : PageFrameAllocator) : Charged account 0 s s :=
  ⟨rfl, rfl, fun _ _ => rfl, rfl⟩

theorem trans (h : Charged account k s s') (h' : Charged account j s' s'') :
    Charged account (k + j) s s'' := by
  refine ⟨?_, ?_, ?_, h'.total.trans h.total⟩
  · have hFree := h.free
    have hFree' := h'.free
    unfold Nat.ModEq at hFree hFree' ⊢
    omega
  · have hOwn := h.own
    have hOwn' := h'.own
    unfold Nat.ModEq at hOwn hOwn' ⊢
    omega
  · intro b hb
    rw [h'.other b hb, h.other b hb]

theorem congr {t t' : PageFrameAllocator} (h : Charged account k s s') (hs : SameCounters s t)
    (hs' : SameCounters s' t') : Charged account k t t' := by
  refine ⟨?_, ?_, ?_, ?_⟩
  · rw [hs.1, hs'.1]
    exact h.free
  · rw [hs.2.1, hs'.2.1]
    exact h.own
  · intro b hb
    rw [hs.2.1, hs'.2.1, h.other b hb]
  · rw [hs.2.2, hs'.2.2, h.total]

theorem charge (account : Account) (s : PageFrameAllocator) :
    Charged account 1 s (s.charge account) := by
  refine ⟨?_, ?_, ?_, ?_⟩
  · rw [charge_freeMemory, Nat.mul_one]
    exact sub64_add_modEq s.freeMemory 4096
  · rw [charge_balance, Nat.mul_one]
    exact u64_modEq _
  · intro b hb
    exact charge_balance_other s hb
  · unfold PageFrameAllocator.charge
    rfl

theorem refund (account : Account) (s : PageFrameAllocator) :
    Charged account 1 (s.refund account) s := by
  refine ⟨?_, ?_, ?_, ?_⟩
  · rw [refund_freeMemory, Nat.mul_one]
    exact (u64_modEq _).symm
  · rw [refund_balance, Nat.mul_one]
    exact (sub64_add_modEq _ 4096).symm
  · intro b hb
    exact (refund_balance_other s hb).symm
  · unfold PageFrameAllocator.refund
    rfl

end Charged

------ The Operations

variable {pageCount : Nat}

namespace PageFrameAllocator

theorem pageAt_eq (address t : Nat) : pageAt address t = (address / 4096 + t) % 2 ^ 52 := by
  unfold pageAt u64
  omega

theorem pageAt_zero {t : Nat} (ht : t < 2 ^ 52) : pageAt 0 t = t := by
  rw [pageAt_eq]
  omega

variable (account : Account) (s : PageFrameAllocator) (address : Nat)

theorem takePage_cases : ((s.used (address / 4096) = false ∧ address / 4096 ≤ s.bits) ∧
    ∃ m, s.takePage account address =
    charge account { s with memory := m }) ∨
    ¬ (s.used (address / 4096) = false ∧ address / 4096 ≤ s.bits) ∧
    s.takePage account address = s := by
  unfold takePage
  by_cases hUsed : s.used (address / 4096) = true
  · refine Or.inr ⟨?_, if_pos hUsed⟩
    rw [hUsed]
    exact fun h => Bool.noConfusion h.1
  have hClear := Bool.not_eq_true _ ▸ hUsed
  dsimp only
  rw [if_neg hUsed]
  by_cases hBit : address / 4096 ≤ s.bits
  · have hSet := s.pageBitmap.set_fst_of_le s.memory true hBit
    rw [hSet]
    exact .inl ⟨⟨hClear, hBit⟩, _, rfl⟩
  have hSet := s.pageBitmap.set_of_gt s.memory true (Nat.lt_of_not_le hBit)
  rw [hSet]
  exact .inr ⟨fun h => hBit h.2, rfl⟩

theorem releasePage_cases : (address / 4096 ≤ s.bits ∧
    ∃ m, s.releasePage account address = rewind (address / 4096)
    (refund account { s with memory := m })) ∨
    ¬ address / 4096 ≤ s.bits ∧ s.releasePage account address = s := by
  unfold releasePage
  dsimp only
  by_cases hBit : address / 4096 ≤ s.bits
  · have hSet := s.pageBitmap.set_fst_of_le s.memory false hBit
    rw [hSet]
    exact .inl ⟨hBit, _, rfl⟩
  have hSet := s.pageBitmap.set_of_gt s.memory false (Nat.lt_of_not_le hBit)
  rw [hSet]
  exact .inr ⟨hBit, rfl⟩

theorem memory_counters (m : Memory) : SameCounters { s with memory := m } s := by
  refine ⟨rfl, ?_, rfl⟩
  intro b
  cases b <;> rfl

theorem rewind_counters (index : Nat) (s : PageFrameAllocator) :
    SameCounters s (s.rewind index) := by
  unfold rewind
  split
  · refine ⟨rfl, ?_, rfl⟩
    intro b
    cases b <;> rfl
  · exact ⟨rfl, fun _ => rfl, rfl⟩

theorem charged_takePage :
    Charged account (if s.used (address / 4096) = false ∧ address / 4096 ≤ s.bits then 1 else 0)
    s (s.takePage account address) := by
  rcases takePage_cases account s address with ⟨hClear, m, hEq⟩ | ⟨hNot, hEq⟩
  · rw [if_pos hClear, hEq]
    exact (Charged.charge account { s with memory := m }).congr
      (memory_counters s m) ⟨rfl, fun _ => rfl, rfl⟩
  · rw [if_neg hNot, hEq]
    exact Charged.refl account s

theorem charged_releasePage : Charged account (if address / 4096 ≤ s.bits then 1 else 0)
    (s.releasePage account address) s := by
  rcases releasePage_cases account s address with ⟨hBit, m, hEq⟩ | ⟨hNot, hEq⟩
  · rw [if_pos hBit, hEq]
    exact (Charged.refund account { s with memory := m }).congr
      (rewind_counters _ _) (memory_counters s m)
  · rw [if_neg hNot, hEq]
    exact Charged.refl account s

theorem charged_forPages_take (pageCount : Nat) (hCount : pageCount ≤ 2 ^ 52) : Charged account
    (Nat.count (fun t => s.used (pageAt address t) = false ∧ pageAt address t ≤ s.bits) pageCount)
    s (forPages (takePage account) s address pageCount) := by
  induction pageCount with
  | zero => exact Charged.refl account s
  | succ pageCount ih =>
    have hPass := ih (by omega)
    have hPage := charged_takePage account (forPages (takePage account) s address pageCount)
      (u64 (address + pageCount * 4096))
    -- the pass has not met this page before
    have hFresh : (forPages (takePage account) s address
      pageCount).used (pageAt address pageCount) = s.used (pageAt address pageCount) := by
      rw [Bool.eq_iff_iff, used_forPages_take]
      constructor
      · rintro (hUsed | ⟨⟨t, ht, hSame⟩, _⟩)
        · exact hUsed
        have hAt : pageAt address t = pageAt address pageCount := hSame
        rw [pageAt_eq, pageAt_eq] at hAt
        omega
      · exact Or.inl
    have hAt : u64 (address + pageCount * 4096) / 4096 = pageAt address pageCount := rfl
    rw [hAt, hFresh, forPages_take_bits] at hPage
    rw [forPages_succ, Nat.count_succ]
    exact hPass.trans hPage

theorem charged_forPages_count {account : Account} {s : PageFrameAllocator} {address : Nat}
    {P : Nat → Prop} [DecidablePred P] (hCount : pageCount ≤ 2 ^ 52)
    (hClear : ∀ t < pageCount, s.used (pageAt address t) = false ∧ pageAt address t ≤ s.bits ↔ P t)
    : Charged account (Nat.count P pageCount) s
    (forPages (takePage account) s address pageCount) := by
  rw [← count_eq_of_iff hClear]
  exact charged_forPages_take account s address pageCount hCount

theorem charged_forPages_release (pageCount : Nat) : Charged account
    (Nat.count (fun t => pageAt address t ≤ s.bits) pageCount)
    (forPages (releasePage account) s address pageCount) s := by
  induction pageCount with
  | zero => exact Charged.refl account s
  | succ pageCount ih =>
    have hPage := charged_releasePage account (forPages (releasePage account) s address pageCount)
      (u64 (address + pageCount * 4096))
    have hAt : u64 (address + pageCount * 4096) / 4096 = pageAt address pageCount := rfl
    rw [hAt, forPages_release_bits] at hPage
    rw [forPages_succ, Nat.count_succ, Nat.add_comm]
    exact hPage.trans ih

def releases (bits : Nat) (entries : List GBPMemoryMapEntry) : Nat :=
  (entries.map (fun e =>
    if e.type = .free then
      Nat.count (fun t => pageAt e.physicalAddress.toNat t ≤ bits) e.pages.toNat
    else 0)).sum

theorem charged_unreserveFree (s : PageFrameAllocator) (entries : List GBPMemoryMapEntry) :
    Charged .reserved (releases s.bits entries) (s.unreserveFree entries) s := by
  induction entries generalizing s with
  | nil => exact Charged.refl .reserved s
  | cons e entries ih =>
    have hStep : s.unreserveFree (e :: entries) = (if e.type = .free then
          unreservePages s e.physicalAddress.toNat e.pages.toNat
        else s).unreserveFree entries := rfl
    have hSum : releases s.bits (e :: entries) = (if e.type = .free then
          Nat.count (fun t => pageAt e.physicalAddress.toNat t ≤ s.bits) e.pages.toNat
        else 0) + releases s.bits entries := by
      unfold releases
      rw [map_cons, sum_cons]
    rw [hStep, hSum, Nat.add_comm]
    by_cases hFree : e.type = .free
    · rw [if_pos hFree, if_pos hFree]
      have hRest := ih (unreservePages s e.physicalAddress.toNat e.pages.toNat)
      have hBits : (unreservePages s e.physicalAddress.toNat e.pages.toNat).bits = s.bits := by
        rw [unreservePages, unreservePage, bits, forPages_release_pageBitmap, ← bits]
      rw [hBits] at hRest
      exact hRest.trans (charged_forPages_release .reserved s e.physicalAddress.toNat e.pages.toNat)
    · rw [if_neg hFree, if_neg hFree, Nat.add_zero]
      exact ih s

end PageFrameAllocator

namespace InWords

variable {s : PageFrameAllocator}

theorem charge (hWords : InWords s) (account : Account) (m : Memory) :
    InWords (charge account { s with memory := m }) := by
  unfold PageFrameAllocator.charge
  refine ⟨hWords.total, sub64_lt _ _, ?_, ?_⟩
  · dsimp only
    split
    · exact u64_lt _
    · exact hWords.used
  split
  · exact u64_lt _
  · exact hWords.reserved

theorem refund (hWords : InWords s) (account : Account) (m : Memory) (index : Nat) :
    InWords (rewind index (refund account
    { s with memory := m })) := by
  have hRefund : InWords (PageFrameAllocator.refund account { s with memory := m }) := by
    unfold PageFrameAllocator.refund
    refine ⟨hWords.total, u64_lt _, ?_, ?_⟩
    · dsimp only
      split
      · exact sub64_lt _ _
      · exact hWords.used
    split
    · exact sub64_lt _ _
    · exact hWords.reserved
  unfold rewind
  split
  · exact ⟨hRefund.total, hRefund.free, hRefund.used, hRefund.reserved⟩
  · exact hRefund

theorem takePage (hWords : InWords s) (account : Account) (address : Nat) :
    InWords (s.takePage account address) := by
  rcases takePage_cases account s address with ⟨_, m, hEq⟩ | ⟨_, hEq⟩
  · rw [hEq]
    exact hWords.charge account m
  · rw [hEq]
    exact hWords

theorem releasePage (hWords : InWords s) (account : Account) (address : Nat) :
    InWords (s.releasePage account address) := by
  rcases releasePage_cases account s address with ⟨_, m, hEq⟩ | ⟨_, hEq⟩
  · rw [hEq]
    exact hWords.refund account m _
  · rw [hEq]
    exact hWords

theorem unreserveFree (hWords : InWords s) (entries : List GBPMemoryMapEntry) :
    InWords (s.unreserveFree entries) := by
  unfold PageFrameAllocator.unreserveFree
  induction entries generalizing s with
  | nil => exact hWords
  | cons e entries ih =>
    rw [foldl_cons]
    apply ih
    split
    · exact forPages_invariant (fun _ address h => h.releasePage .reserved address) hWords _ _
    · exact hWords

end InWords

theorem inWords_boot (m : Memory) (params : GBPMemory) : InWords (boot m params) := by
  have hSize : params.size.toNat < 2 ^ 64 := params.size.toNat_lt
  have hStart : InWords (bootMapped m params) :=
    ⟨hSize, hSize, Nat.two_pow_pos 64, Nat.two_pow_pos 64⟩
  rw [boot_eq]
  apply forPages_invariant (fun _ address h => h.takePage .used address)
  apply forPages_invariant (fun _ address h => h.takePage .reserved address)
  apply InWords.unreserveFree
  exact forPages_invariant (fun _ address h => h.takePage .reserved address) hStart _ _

section Boot

variable (m : Memory) (params : GBPMemory)

def PresetBit (index : Nat) : Prop :=
  index = (bootBitmap params).bits ∧ byteHas
      (m ((bootBitmap params).buffer + (bootBitmap params).size)) 0 = true

def FreedAt (index : Nat) : Prop :=
  index ≤ (bootBitmap params).bits ∧ (InFreeEntry params index ∨ params.size.toNat / 4096 < index ∧
        ¬ PresetBit m params index)

open Classical in
noncomputable def firstReserved : Nat :=
  Nat.count (fun index => index ≤ (bootBitmap params).bits ∧ ¬ PresetBit m params index)
    (params.size.toNat / 4096 + 1)

open Classical in
noncomputable def lowTaken : Nat :=
  Nat.count (FreedAt m params) 0x100

open Classical in
noncomputable def bitmapTaken : Nat :=
  Nat.count (fun t => FreedAt m params (pageAt (bootBitmap params).buffer t) ∧
      0x100 ≤ pageAt (bootBitmap params).buffer t)
    ((bootBitmap params).size / 4096 + 1)

open Classical in
noncomputable def leftClear : Nat :=
  Nat.count (fun index => FreedAt m params index ∧ 0x100 ≤ index ∧
      ¬ Touches (bootBitmap params).buffer ((bootBitmap params).size / 4096 + 1) index)
    (min (params.size.toNat / 4096) (bootBitmap params).bits)

/-
  What the passes charge and what stays clear makes up the memory and what the entries refund, and
  the clear pages and those of the bitmap fit into the memory.
-/
structure Balanced : Prop where
  charges : params.size.toNat + 4096 * releases (bootBitmap params).bits params.entry ≡
      4096 * (firstReserved m params + lowTaken m params +
        bitmapTaken m params + leftClear m params)
        [MOD 2 ^ 64]
  fits : 4096 * (bitmapTaken m params + leftClear m params) ≤ params.size.toNat

variable {index : Nat}

variable {m params} in
theorem used_bootMapped_iff (hIndex : index ≤ (bootBitmap params).bits) :
    (bootMapped m params).used index = true ↔ PresetBit m params index := by
  by_cases hLast : index = (bootBitmap params).bits
  · have hByte : index / 8 = (bootBitmap params).size := by
      rw [hLast, Bitmap.bits]
      omega
    have hBit : index % 8 = 0 := by
      rw [hLast, Bitmap.bits]
      omega
    have hGet : (bootMapped m params).used index = (bootBitmap params).get
      (bootMapped m params).memory index := rfl
    have hOld : (bootMapped m params).memory ((bootBitmap params).buffer + index / 8) =
      m ((bootBitmap params).buffer + (bootBitmap params).size) := by
      rw [hByte]
      exact Memory.fill_outside m 0 (.inr (Nat.le_refl _))
    have hNot : ¬ index > (bootBitmap params).size * 8 := by
      rw [hLast, Bitmap.bits]
      omega
    rw [hGet, Bitmap.get, if_neg hNot, hOld, hBit]
    exact ⟨fun h => ⟨hLast, h⟩, fun h => h.2⟩
  rw [used_bootMapped m params (by omega)]
  constructor
  · intro h
    cases h
  · intro h
    exact (hLast h.1).elim

private def afterFirst (m : Memory) (params : GBPMemory) : PageFrameAllocator :=
  reservePages (bootMapped m params) 0 (params.size.toNat / 4096 + 1)

private def afterEntries (m : Memory) (params : GBPMemory) : PageFrameAllocator :=
  (afterFirst m params).unreserveFree params.entry

private def afterLow (m : Memory) (params : GBPMemory) : PageFrameAllocator :=
  reservePages (afterEntries m params) 0 0x100

private theorem afterFirst_bits : (afterFirst m params).bits = (bootBitmap params).bits := by
  rw [afterFirst, reservePages, reservePage, forPages_take_bits]
  rfl

private theorem afterEntries_bits : (afterEntries m params).bits = (bootBitmap params).bits := by
  rw [← afterFirst_bits m, afterEntries, bits, bits, unreserveFree_pageBitmap]

private theorem afterLow_bits : (afterLow m params).bits = (bootBitmap params).bits := by
  rw [← afterEntries_bits m, afterLow, reservePages, reservePage, forPages_take_bits]

variable {m params} in
private theorem clear_afterEntries : (afterEntries m params).used index = false ∧
    index ≤ (bootBitmap params).bits ↔ FreedAt m params index := by
  have hSize : params.size.toNat < 2 ^ 64 := params.size.toNat_lt
  have hBits : (bootMapped m params).bits = (bootBitmap params).bits := rfl
  unfold FreedAt
  rw [and_comm]
  apply and_congr_right
  intro hIndex
  rw [← Bool.not_eq_true, afterEntries, used_unreserveFree, afterFirst, reservePages, reservePage,
    used_forPages_take, hBits, used_bootMapped_iff hIndex, touches_iff index (by omega)]
  unfold InFreeEntry
  constructor
  · intro hNot
    by_cases hFree : ∃ e ∈ params.entry, e.type = .free ∧
      Touches e.physicalAddress.toNat e.pages.toNat index
    · exact .inl hFree
    refine Or.inr ⟨?_, ?_⟩
    · by_contra hLow
      apply hNot
      refine ⟨Or.inr ⟨⟨by omega, by omega⟩, hIndex⟩, ?_⟩
      exact fun e he hType hTouch => hFree ⟨e, he, hType, hTouch⟩
    intro hPreset
    apply hNot
    exact ⟨Or.inl hPreset, fun e he hType hTouch => hFree ⟨e, he, hType, hTouch⟩⟩
  rintro (⟨e, he, hType, hTouch⟩ | ⟨hAbove, hPreset⟩) hUsed
  · exact hUsed.2 e he hType hTouch
  rcases hUsed.1 with hSet | ⟨⟨_, hLow⟩, _⟩
  · exact hPreset hSet
  · omega

private theorem charged_first :
    Charged .reserved (firstReserved m params) (bootMapped m params) (afterFirst m params) := by
  classical
  have hSize : params.size.toNat < 2 ^ 64 := params.size.toNat_lt
  have hBits : (bootMapped m params).bits = (bootBitmap params).bits := rfl
  apply charged_forPages_count (by omega)
  intro t ht
  rw [pageAt_zero (by omega), hBits, and_comm]
  apply and_congr_right
  intro hIndex
  rw [← Bool.not_eq_true, used_bootMapped_iff hIndex]

private theorem charged_low :
    Charged .reserved (lowTaken m params) (afterEntries m params) (afterLow m params) := by
  classical
  unfold lowTaken afterLow reservePages reservePage
  apply charged_forPages_count (by omega)
  intro t ht
  rw [pageAt_zero (by omega), afterEntries_bits]
  exact clear_afterEntries

private theorem charged_bitmap :
    Charged .used (bitmapTaken m params) (afterLow m params) (boot m params) := by
  classical
  have hBits := bootBitmap_bits_le params
  have hSize : (bootBitmap params).bits = (bootBitmap params).size * 8 := rfl
  rw [boot_eq]
  apply charged_forPages_count (by omega)
  intro t ht
  generalize pageAt (bootBitmap params).buffer t = index
  rw [afterLow_bits, ← clear_afterEntries, ← Bool.not_eq_true, afterLow, reservePages, reservePage,
    used_forPages_take, afterEntries_bits, touches_iff index (by omega)]
  simp only [not_or, Bool.not_eq_true]
  constructor
  · rintro ⟨⟨hFree, hNot⟩, hIndex⟩
    exact ⟨⟨hFree, hIndex⟩, by omega⟩
  · rintro ⟨⟨hFree, hIndex⟩, hAbove⟩
    exact ⟨⟨hFree, by omega⟩, hIndex⟩

theorem boot_counters : (boot m params).freeMemory +
    4096 * (firstReserved m params + lowTaken m params + bitmapTaken m params) ≡
    params.size.toNat + 4096 * releases (bootBitmap params).bits params.entry [MOD 2 ^ 64] ∧
    (boot m params).usedMemory ≡ 4096 * bitmapTaken m params [MOD 2 ^ 64] ∧
    (boot m params).reservedMemory + 4096 * releases (bootBitmap params).bits params.entry ≡
    4096 * (firstReserved m params + lowTaken m params) [MOD 2 ^ 64] ∧
    (boot m params).totalMemory = params.size.toNat := by
  -- the four passes, one after the other
  have hCharge₁ := charged_first m params
  have hCharge₂ := charged_unreserveFree (afterFirst m params) params.entry
  rw [afterFirst_bits, ← afterEntries] at hCharge₂
  have hCharge₃ := charged_low m params
  have hCharge₄ := charged_bitmap m params
  have hFree₀ : (bootMapped m params).freeMemory = params.size.toNat := rfl
  have hTotal₀ : (bootMapped m params).totalMemory = params.size.toNat := rfl
  have hUsed₀ : Account.used.balance (bootMapped m params) = 0 := rfl
  have hReserved₀ : Account.reserved.balance (bootMapped m params) = 0 := rfl
  have hUsed₃ : Account.used.balance (afterLow m params) = 0 := by
    rw [hCharge₃.other .used (by decide), ← hCharge₂.other .used (by decide),
      hCharge₁.other .used (by decide), hUsed₀]
  have hReserved₄ := hCharge₄.other .reserved (by decide)
  refine ⟨?_, ?_, ?_, ?_⟩
  · have h₁ := hCharge₁.free
    have h₂ := hCharge₂.free
    have h₃ := hCharge₃.free
    have h₄ := hCharge₄.free
    rw [hFree₀] at h₁
    unfold Nat.ModEq at h₁ h₂ h₃ h₄ ⊢
    omega
  · have hOwn := hCharge₄.own
    rw [hUsed₃, Nat.zero_add] at hOwn
    exact hOwn
  · have h₁ := hCharge₁.own
    have h₂ := hCharge₂.own
    have h₃ := hCharge₃.own
    rw [hReserved₀, Nat.zero_add] at h₁
    rw [← hReserved₄] at h₃
    have hGoal : Account.reserved.balance (boot m params) + 4096 * releases (bootBitmap params).bits
      params.entry ≡ 4096 * (firstReserved m params + lowTaken m params) [MOD 2 ^ 64] := by
      unfold Nat.ModEq at h₁ h₂ h₃ ⊢
      omega
    exact hGoal
  · rw [hCharge₄.total, hCharge₃.total, ← hCharge₂.total, hCharge₁.total, hTotal₀]

theorem boot_clearPages : (boot m params).clearPages = leftClear m params := by
  classical
  have hTotal := (boot_counters m params).2.2.2
  have hSize : params.size.toNat < 2 ^ 64 := params.size.toNat_lt
  have hBits := bootBitmap_bits_le params
  unfold clearPages pages leftClear
  rw [hTotal, boot_bits]
  apply count_eq_of_iff
  intro index hIndex
  have hBit : index < (bootBitmap params).bits := by omega
  have hPreset : ¬ PresetBit m params index := by
    intro hPreset
    exact Nat.ne_of_lt hBit hPreset.1
  rw [clear_boot_iff m hBit]
  unfold FreedAt
  constructor
  · rintro ⟨hFree, hLow, hBitmap⟩
    refine ⟨⟨by omega, ?_⟩, hLow, hBitmap⟩
    rcases hFree with hAbove | hFree
    · exact .inr ⟨hAbove, hPreset⟩
    · exact .inl hFree
  rintro ⟨⟨_, hFree⟩, hLow, hBitmap⟩
  refine ⟨?_, hLow, hBitmap⟩
  rcases hFree with hFree | ⟨hAbove, _⟩
  · exact .inr hFree
  · exact .inl hAbove

theorem accounted_boot_iff : Accounted (boot m params) ↔ Balanced m params := by
  have hSize : params.size.toNat < 2 ^ 64 := params.size.toNat_lt
  have hWords := inWords_boot m params
  have hClear := boot_clearPages m params
  rcases boot_counters m params with ⟨hFree, hUsed, hReserved, hTotal⟩
  have hTaken : bitmapTaken m params ≤ (bootBitmap params).size / 4096 + 1 := by
    classical
    exact Nat.count_le _
  have hLeft : leftClear m params ≤ params.size.toNat / 4096 := by
    classical
    have hLe : leftClear m params ≤ min (params.size.toNat / 4096)
      (bootBitmap params).bits := Nat.count_le _
    omega
  have hBits := bootBitmap_bits_le params
  have hBitmapSize : (bootBitmap params).bits = (bootBitmap params).size * 8 := rfl
  have hUsedEq : (boot m params).usedMemory = 4096 * bitmapTaken m params := by
    have hLt := hWords.used
    unfold Nat.ModEq at hUsed
    omega
  have hFreeLt := hWords.free
  have hReservedLt := hWords.reserved
  unfold Nat.ModEq at hFree hReserved
  constructor
  · rintro ⟨hFreeEq, _, hSum⟩
    rw [hClear] at hFreeEq
    rw [hTotal] at hSum
    refine ⟨?_, by omega⟩
    unfold Nat.ModEq
    omega
  rintro ⟨hCharges, hFits⟩
  unfold Nat.ModEq at hCharges
  have hFreeEq : (boot m params).freeMemory = 4096 * leftClear m params := by omega
  have hSum : (boot m params).freeMemory + (boot m params).usedMemory +
    (boot m params).reservedMemory = params.size.toNat := by omega
  rw [← hTotal] at hSum
  refine ⟨?_, by omega, hSum⟩
  rw [hClear]
  exact hFreeEq

end Boot

------ Single Pages

def TakeOk (s : PageFrameAllocator) (index : Nat) : Prop :=
  index < s.pages ∨ s.used index = true ∨ s.bits < index

def FreeOk (s : PageFrameAllocator) (index : Nat) : Prop :=
  s.used index = true → index < s.pages ∧ 4096 ≤ s.usedMemory

section

variable (s : PageFrameAllocator) (address : Nat)

theorem takePage_totalMemory : (s.takePage account address).totalMemory = s.totalMemory :=
  (charged_takePage account s address).total

theorem takePage_pages : (s.takePage account address).pages = s.pages := by
  unfold pages bits
  rw [takePage_totalMemory, takePage_pageBitmap]

theorem freePage_totalMemory : (s.freePage address).totalMemory = s.totalMemory := by
  unfold freePage
  split
  · rfl
  · exact (charged_releasePage .used s address).total.symm

theorem freePage_pages : (s.freePage address).pages = s.pages := by
  unfold pages bits
  rw [freePage_totalMemory, freePage_pageBitmap]

end

variable {s s' : PageFrameAllocator}

theorem clearPages_of_used {t : PageFrameAllocator} {page : Nat} (hPages : t.pages = s.pages)
    (hClear : s.used page = false) (hUsed : t.used page = true)
    (hOther : ∀ index, index ≠ page → (t.used index = true ↔ s.used index = true)) :
    s.clearPages = t.clearPages + if page < s.pages then 1 else 0 := by
  unfold clearPages
  rw [hPages]
  split
  · rename_i hPage
    apply count_eq_succ_of_remove hPage hClear
    · rw [hUsed]
      exact Bool.noConfusion
    · intro index hNe
      rw [← Bool.not_eq_true, ← Bool.not_eq_true, hOther index hNe]
  rename_i hPage
  apply count_eq_of_iff
  intro index hIndex
  rw [← Bool.not_eq_true, ← Bool.not_eq_true, hOther index]
  rintro rfl
  exact hPage hIndex

theorem takePage_clearPages (hClear : s.used (address / 4096) = false)
    (hBit : address / 4096 ≤ s.bits) : s.clearPages = (s.takePage account address).clearPages +
    if address / 4096 < s.pages then 1 else 0 := by
  have hUsed := used_takePage account s address
  apply clearPages_of_used (takePage_pages ..) hClear
  · exact (hUsed _).mpr (.inr ⟨rfl, hBit⟩)
  · intro index hOther
    simp [hUsed, hOther]

theorem freePage_clearPages (hUsed : s.used (address / 4096) = true) :
    (s.freePage address).clearPages = s.clearPages + if address / 4096 < s.pages then 1 else 0 := by
  have hFree := used_freePage s address
  rw [← freePage_pages s address]
  apply clearPages_of_used (freePage_pages ..).symm _ hUsed
  · intro index hOther
    simp [hFree, hOther]
  · rw [← Bool.not_eq_true, hFree]
    simp

theorem Accounted.takePage_iff (hAccounted : Accounted s) (hTotal : s.totalMemory < 2 ^ 64)
    (address : Nat) : Accounted (s.takePage .used address) ↔ TakeOk s (address / 4096) := by
  rcases hAccounted with ⟨hFree, _, hSum⟩
  rcases takePage_cases .used s address with ⟨⟨hClear, hBit⟩, m, hEq⟩ | ⟨hNot, hEq⟩
  · have hCount := takePage_clearPages .used hClear hBit
    have hTotal' := takePage_totalMemory .used s address
    have hFree' : (s.takePage .used address).freeMemory = sub64 s.freeMemory 4096 := by
      rw [hEq, charge_freeMemory]
    have hUsed' : (s.takePage .used address).usedMemory = u64 (s.usedMemory + 4096) := by
      rw [hEq]
      exact charge_balance .used { s with memory := m }
    have hReserved' : (s.takePage .used address).reservedMemory = s.reservedMemory := by
      rw [hEq]
      exact charge_balance_other (b := .reserved) { s with memory := m } (by decide)
    unfold sub64 u64 at hFree'
    unfold u64 at hUsed'
    constructor
    · rintro ⟨hFree₁, _, _⟩
      by_cases hPage : address / 4096 < s.pages
      · exact .inl hPage
      · rw [if_neg hPage] at hCount
        omega
    rintro (hPage | hUsed | hAbove)
    · rw [if_pos hPage] at hCount
      refine ⟨?_, ?_, ?_⟩ <;> omega
    · rw [hClear] at hUsed
      cases hUsed
    · omega
  rw [hEq]
  constructor
  · intro _
    by_cases hBit : address / 4096 ≤ s.bits
    · refine Or.inr (.inl ?_)
      by_contra hUsed
      exact hNot ⟨Bool.not_eq_true _ ▸ hUsed, hBit⟩
    · exact .inr (.inr (Nat.lt_of_not_le hBit))
  · intro _
    exact ⟨hFree, by omega, hSum⟩

theorem Accounted.freePage_iff (hAccounted : Accounted s) (hTotal : s.totalMemory < 2 ^ 64)
    (address : Nat) : Accounted (s.freePage address) ↔ FreeOk s (address / 4096) := by
  cases hUsed : s.used (address / 4096) with
  | false =>
    have hSame : s.freePage address = s := by
      unfold freePage
      rw [if_pos hUsed]
    rw [hSame]
    refine iff_of_true hAccounted ?_
    intro hNot
    rw [hUsed] at hNot
    cases hNot
  | true =>
    rcases hAccounted with ⟨hFree, _, hSum⟩
    have hRelease : s.freePage address = s.releasePage .used address := by
      unfold freePage
      rw [if_neg (by simp [hUsed])]
    rcases releasePage_cases .used s address with ⟨_, m, hEq⟩ | ⟨hNot, _⟩
    · have hCount := freePage_clearPages hUsed
      have hTotal' := freePage_totalMemory s address
      rcases rewind_counters (address / 4096) (refund .used { s with memory := m }) with
        ⟨hKeepFree, hKeep, _⟩
      have hFree' : (s.freePage address).freeMemory = u64 (s.freeMemory + 4096) := by
        rw [hRelease, hEq, hKeepFree, refund_freeMemory]
      have hUsed' : (s.freePage address).usedMemory = sub64 s.usedMemory 4096 := by
        rw [hRelease, hEq]
        exact (hKeep .used).trans (refund_balance .used { s with memory := m })
      have hReserved' : (s.freePage address).reservedMemory = s.reservedMemory := by
        rw [hRelease, hEq]
        exact (hKeep .reserved).trans (refund_balance_other (b := .reserved)
            { s with memory := m } (by decide))
      unfold u64 at hFree'
      unfold sub64 u64 at hUsed'
      constructor
      · rintro ⟨hFree₁, _, hSum₁⟩ _
        by_cases hPage : address / 4096 < s.pages
        · refine ⟨hPage, ?_⟩
          omega
        · rw [if_neg hPage] at hCount
          omega
      intro hOk
      rcases hOk hUsed with ⟨hPage, hEnough⟩
      rw [if_pos hPage] at hCount
      refine ⟨?_, ?_, ?_⟩ <;> omega
    · exact (hNot (le_bits_of_used hUsed)).elim

------ Calls and Runs

structure Ledger (s : PageFrameAllocator) : Prop where
  accounted : Accounted s
  total : s.totalMemory < 2 ^ 64

theorem Ledger.setHint (hLedger : Ledger s) (hint : Nat) :
    Ledger { s with pageBitmapIndex := hint } :=
  ⟨⟨hLedger.accounted.free, hLedger.accounted.within, hLedger.accounted.sum⟩, hLedger.total⟩

theorem Ledger.takePage (hLedger : Ledger s) (hOk : TakeOk s (address / 4096)) :
    Ledger (s.takePage .used address) := by
  refine ⟨?_, ?_⟩
  · exact (hLedger.accounted.takePage_iff hLedger.total address).mpr hOk
  · rw [takePage_totalMemory]
    exact hLedger.total

theorem Ledger.freePage (hLedger : Ledger s) (hOk : FreeOk s (address / 4096)) :
    Ledger (s.freePage address) := by
  refine ⟨?_, ?_⟩
  · exact (hLedger.accounted.freePage_iff hLedger.total address).mpr hOk
  · rw [freePage_totalMemory]
    exact hLedger.total

theorem forPages_take_pages (s : PageFrameAllocator) (address pageCount : Nat) :
    (forPages (takePage .used) s address pageCount).pages = s.pages := by
  induction pageCount with
  | zero => rfl
  | succ pageCount ih =>
    rw [forPages_succ, takePage_pages, ih]

theorem Ledger.lockPages (hLedger : Ledger s) (hOk : ∀ t < pageCount, TakeOk s (pageAt address t)) :
    Ledger (s.lockPages address pageCount) := by
  unfold PageFrameAllocator.lockPages lockPage
  induction pageCount with
  | zero => exact hLedger
  | succ pageCount ih =>
    rw [forPages_succ]
    apply (ih (fun t ht => hOk t (by omega))).takePage
    have hPage := hOk pageCount (by omega)
    unfold pageAt at hPage
    unfold TakeOk at hPage ⊢
    rw [forPages_take_pages, used_forPages_take, forPages_take_bits]
    rcases hPage with hIn | hUsed | hAbove
    · exact .inl hIn
    · exact .inr (.inl (.inl hUsed))
    · exact .inr (.inr hAbove)

theorem Ledger.freePages (hLedger : Ledger s)
    (hOk : ∀ t < pageCount, FreeOk (s.freePages address t) (pageAt address t)) :
    Ledger (s.freePages address pageCount) := by
  unfold PageFrameAllocator.freePages at hOk ⊢
  induction pageCount with
  | zero => exact hLedger
  | succ pageCount ih =>
    rw [forPages_succ]
    apply (ih (fun t ht => hOk t (by omega))).freePage
    exact hOk pageCount (by omega)

/- The call takes and frees pages of the memory only, and frees no more than was locked. -/
def CallOk (s : PageFrameAllocator) : AllocatorCall → Prop
| .client (.requestPage _) =>
  ∀ index, FirstFree s index → index < s.pages
| .client (.requestPages pageCount _) =>
  ∀ start index, Tried s pageCount start → ScanFinds s pageCount start index →
      ∀ t < pageCount, TakeOk s (pageAt (pageAddress index) t)
| .client (.freePage address) => FreeOk s (address / 4096)
| .client (.freePages address pageCount) =>
  ∀ t < pageCount, FreeOk (s.freePages address t) (pageAt address t)
| .lockPage address => TakeOk s (address / 4096)
| .lockPages address pageCount =>
  ∀ t < pageCount, TakeOk s (pageAt address t)

def AccountStep (s : PageFrameAllocator) (call : AllocatorCall) (s' : PageFrameAllocator) : Prop :=
  call.Does s s' ∧ CallOk s call

theorem accountStep_lockPage (hOk : TakeOk s (address / 4096)) : AccountStep s (.lockPage address)
    (lockPage s address) :=
  ⟨rfl, hOk⟩

variable {call : AllocatorCall}

theorem Ledger.step (hBits : s.bits ≤ 2 ^ 52) (hLedger : Ledger s) (hStep : AccountStep s call s') :
    Ledger s' := by
  rcases hStep with ⟨hDoes, hOk⟩
  cases call with
  | client e =>
    cases e with
    | requestPage answer =>
      rcases requestPage_cases hDoes with ⟨index, hLow, hHigh, hClear, hBefore, _, hEq⟩ |
        ⟨_, _, hEq⟩
      · rw [hEq]
        apply (hLedger.setHint index).takePage
        rw [pageAddress_div (by omega)]
        exact .inl (hOk index ⟨hLow, hHigh, hClear, hBefore⟩)
      · rw [hEq]
        exact hLedger.setHint _
    | requestPages pageCount address =>
      rcases hDoes with ⟨fuel, hRequest⟩
      rcases requestPages_cases hRequest with ⟨start, index, hTried, hFinds, _, hEq⟩ | ⟨_, _, hEq⟩
      · rw [hEq]
        exact (hLedger.setHint start).lockPages (hOk start index hTried hFinds)
      · rw [hEq]
        exact hLedger.setHint _
    | freePage address =>
      rw [show s' = _ from hDoes]
      exact hLedger.freePage hOk
    | freePages address pageCount =>
      rw [show s' = _ from hDoes]
      exact hLedger.freePages hOk
  | lockPage address =>
    rw [show s' = _ from hDoes]
    exact hLedger.takePage hOk
  | lockPages address pageCount =>
    rw [show s' = _ from hDoes]
    exact hLedger.lockPages hOk

theorem AllocatorCall.Does.bits_eq (hDoes : call.Does s s') : s'.bits = s.bits := by
  cases call with
  | client e => exact PageEvent.Does.bits_eq hDoes
  | lockPage address =>
    rw [show s' = _ from hDoes, bits, PageFrameAllocator.lockPage, takePage_pageBitmap, ← bits]
  | lockPages address pageCount =>
    rw [show s' = _ from hDoes, bits, PageFrameAllocator.lockPages, PageFrameAllocator.lockPage,
      forPages_take_pageBitmap, ← bits]

theorem memory_accounted (m : Memory) (params : GBPMemory) (hBalanced : Balanced m params)
    {calls : List AllocatorCall} {s : PageFrameAllocator}
    (hRun : Run AccountStep (boot m params) calls s) : Accounted s := by
  have hStart : Ledger (boot m params) := by
    refine ⟨(accounted_boot_iff m params).mpr hBalanced, ?_⟩
    exact (inWords_boot m params).total
  have hBoth : s.bits ≤ 2 ^ 52 ∧ Ledger s := by
    apply Run.invariant (P := fun s => s.bits ≤ 2 ^ 52 ∧ Ledger s)
      ⟨boot_bits_le m params, hStart⟩ _ hRun
    intro s call s' h hStep
    refine ⟨?_, h.2.step h.1 hStep⟩
    rw [hStep.1.bits_eq]
    exact h.1
  exact hBoth.2.accounted

------ Maps of 128 MiB With One Free Entry

private theorem counts_of_entry {params : GBPMemory} {low high : Nat}
    (hSize : params.size.toNat = 0x8000000) (hBitmap : bootBitmap params = ⟨4096, low * 4096⟩)
    (hEntry : ∀ q, InFreeEntry params q ↔ low ≤ q ∧ q < high) (hLow : 0x100 ≤ low)
    (hHigh : low + 2 ≤ high) (hEnd : high ≤ 32769) (hRoom : low + 2 ≤ 32768) :
    firstReserved (fun _ => 0) params = 32769 ∧ lowTaken (fun _ => 0) params = 0 ∧
    bitmapTaken (fun _ => 0) params = 2 ∧ leftClear (fun _ => 0) params =
    min high 32768 - (low + 2) := by
  classical
  have hBytes : (bootBitmap params).size = 4096 := by
    rw [hBitmap]
  have hBuffer : (bootBitmap params).buffer = low * 4096 := by
    rw [hBitmap]
  have hBits : (bootBitmap params).bits = 32768 := by
    rw [Bitmap.bits, hBytes]
  have hPreset : ∀ q, ¬ PresetBit (fun _ => 0) params q := by
    intro q h
    have hBit := h.2
    rw [byteHas_zero] at hBit
    cases hBit
  have hFreed : ∀ q, FreedAt (fun _ => 0) params q ↔ low ≤ q ∧ q < high := by
    intro q
    unfold FreedAt
    rw [hBits, hEntry, hSize]
    constructor
    · rintro ⟨hLe, hIn | ⟨hAbove, _⟩⟩
      · exact hIn
      · omega
    · intro hIn
      exact ⟨by omega, Or.inl hIn⟩
  refine ⟨?_, ?_, ?_, ?_⟩
  · unfold firstReserved
    rw [hSize, hBits]
    apply count_eq_of_interval (a := 0) (b := 32769)
    · intro q hq
      exact iff_of_true ⟨by omega, hPreset q⟩ ⟨by omega, hq⟩
    · omega
    · omega
  · unfold lowTaken
    apply count_eq_of_interval (a := 0x100) (b := 0x100)
    · intro q hq
      rw [hFreed]
      omega
    · omega
    · omega
  · unfold bitmapTaken
    rw [hBytes, hBuffer]
    apply count_eq_of_interval (a := 0) (b := 2)
    · intro t ht
      rw [pageAt_eq, hFreed]
      omega
    · omega
    · omega
  · unfold leftClear
    rw [hSize, hBits]
    apply count_eq_of_interval
    · intro q hq
      rw [hFreed, hBytes, hBuffer, touches_iff q (by omega)]
      omega
    · omega
    · omega

variable {bits : Nat} {e : GBPMemoryMapEntry}

private theorem releases_cons_other (entries : List GBPMemoryMapEntry) (hType : e.type ≠ .free) :
    releases bits (e :: entries) = releases bits entries := by
  unfold releases
  rw [map_cons, sum_cons, if_neg hType, Nat.zero_add]

private theorem releases_cons_free (entries : List GBPMemoryMapEntry) (hType : e.type = .free)
    (hBits : bits < 2 ^ 52) (hEnd : e.physicalAddress.toNat / 4096 + e.pages.toNat ≤ bits + 1) :
    releases bits (e :: entries) = e.pages.toNat + releases bits entries := by
  have hAll : Nat.count (fun t => pageAt e.physicalAddress.toNat t ≤ bits)
      e.pages.toNat = e.pages.toNat := by
    apply Nat.count_iff_forall.mpr
    intro t ht
    rw [pageAt_eq]
    omega
  unfold releases
  rw [map_cons, sum_cons, if_pos hType, hAll]

theorem boot_one_page_short : initLimine enclosedMap = some enclosedParams ∧
    (boot (fun _ => 0) enclosedParams).freeMemory + 4096 = 4096 *
    (boot (fun _ => 0) enclosedParams).clearPages := by
  have hSize : enclosedParams.size.toNat = 0x8000000 := rfl
  have hEntry : ∀ q, InFreeEntry enclosedParams q ↔ 256 ≤ q ∧ q < 2049 := by
    intro q
    simp only [InFreeEntry, enclosedParams, mem_cons, not_mem_nil, or_false,
      exists_eq_or_imp, exists_eq_left, reduceCtorEq, false_and, false_or, true_and]
    exact touches_iff q (by decide)
  have hReleases : releases (bootBitmap enclosedParams).bits enclosedParams.entry = 1793 := by
    have hBits : (bootBitmap enclosedParams).bits = 32768 :=
      by decide
    rw [hBits, enclosedParams, releases_cons_other _ (by decide),
      releases_cons_free _ rfl (by decide) (by decide), releases_cons_other _ (by decide)]
    rfl
  rcases counts_of_entry hSize bootBitmap_enclosedParams hEntry (by decide) (by decide) (by decide)
    (by decide) with ⟨hFirst, hLow, hBitmap, hLeft⟩
  have hFree := (boot_counters (fun _ => 0) enclosedParams).1
  have hWord := (inWords_boot (fun _ => 0) enclosedParams).free
  have hClear := boot_clearPages (fun _ => 0) enclosedParams
  rw [hLeft] at hClear
  rw [hFirst, hLow, hBitmap, hReleases, hSize] at hFree
  unfold Nat.ModEq at hFree
  refine ⟨initLimine_enclosedMap, ?_⟩
  rw [hClear]
  generalize (boot (fun _ => 0) enclosedParams).freeMemory = free at hFree hWord ⊢
  omega

theorem balanced_holedMap : Balanced (fun _ => 0) holedMap := by
  have hSize : holedMap.size.toNat = 0x8000000 := rfl
  have hBuffer : bootBitmap holedMap = ⟨4096, 258 * 4096⟩ := by decide
  have hEntry : ∀ q, InFreeEntry holedMap q ↔ 258 ≤ q ∧ q < 32769 := by
    intro q
    simp only [InFreeEntry, holedMap, mem_cons, not_mem_nil, or_false, exists_eq_or_imp,
      exists_eq_left, reduceCtorEq, false_and, false_or, true_and]
    exact touches_iff q (by decide)
  have hReleases : releases (bootBitmap holedMap).bits holedMap.entry = 32511 := by
    have hBits : (bootBitmap holedMap).bits = 32768 := by
      decide
    rw [hBits, holedMap, releases_cons_other _ (by decide),
      releases_cons_free _ rfl (by decide) (by decide)]
    rfl
  rcases counts_of_entry hSize hBuffer hEntry (by decide) (by decide) (by decide) (by decide) with
    ⟨hFirst, hLow, hBitmap, hLeft⟩
  refine ⟨?_, ?_⟩
  · have hEqual : 0x8000000 + 4096 * 32511 = 4096 * (32769 + 0 + 2 +
      (min 32769 32768 - (258 + 2))) := by
      decide
    rw [hFirst, hLow, hBitmap, hLeft, hReleases, hSize, hEqual]
  · rw [hBitmap, hLeft, hSize]
    decide

theorem memory_accounted_holedMap : ∃ s, Run AccountStep (boot (fun _ => 0) holedMap)
    [.lockPage 0x104000] s ∧ Accounted s := by
  have hSize : holedMap.size.toNat = 0x8000000 := rfl
  have hTotal := (boot_counters (fun _ => 0) holedMap).2.2.2
  have hPage : 260 < (boot (fun _ => 0) holedMap).pages := by
    unfold pages
    rw [hTotal, boot_holedMap_bits, hSize]
    decide
  have hDiv : 0x104000 / 4096 = 260 := by decide
  have hOk : TakeOk (boot (fun _ => 0) holedMap) (0x104000 / 4096) := by
    rw [hDiv]
    exact .inl hPage
  have hRun := Run.snoc Run.nil (accountStep_lockPage hOk)
  exact ⟨_, hRun, memory_accounted (fun _ => 0) holedMap balanced_holedMap hRun⟩

end Fennix
