import Mathlib.Data.List.Basic

/-
  The symbols of the kernel.
-/

namespace Fennix

open List

namespace KernelSymbols

structure ElfSym where
  stName : Nat
  stValue : Nat
deriving Inhabited

inductive SectionType
| symtab
| strtab
| other
deriving DecidableEq

structure ElfSection where
  shType : SectionType
  shOffset : Nat
  symbols : Array ElfSym

structure KernelFile where
  file : Nat
  sections : List ElfSection
  shstrndx : Nat

inductive FunctionName
| unknown
| stored (address : Nat)
deriving DecidableEq

structure SymbolTable where
  address : Nat
  functionName : FunctionName

structure Symbols where
  symTable : Option (List SymbolTable)
  totalEntries : Nat

variable (elf : KernelFile)

def elfSymbols : Option (Array ElfSym) :=
  elf.sections.foldl (fun found s => if s.shType = .symtab then some s.symbols else found) none

def strtab : Option Nat :=
  elf.sections.zipIdx.foldl (fun found s =>
    if s.1.shType = .strtab ∧ elf.shstrndx ≠ s.2 then some (elf.file + s.1.shOffset) else found)
    none

def minimumIndex (symbols : Array ElfSym) (i : Nat) : Nat :=
  (range' (i + 1) (symbols.size - (i + 1))).foldl (fun minimum index =>
    if symbols[index]!.stValue < symbols[minimum]!.stValue then index else minimum) i

def sort (symbols : Array ElfSym) : Array ElfSym :=
  (range (symbols.size - 1)).foldl
    (fun symbols i => symbols.swapIfInBounds (minimumIndex symbols i) i) symbols

def entry (strtab : Nat) (s : ElfSym) : SymbolTable :=
  ⟨s.stValue, .stored (strtab + s.stName)⟩

def table (symbols : Array ElfSym) (strtab : Nat) : List SymbolTable :=
  ((sort symbols).toList.dropWhile (·.stValue = 0)).map (entry strtab)

def construct : Symbols :=
  match elfSymbols elf, strtab elf with
  | some symbols, some strtab => ⟨some (table symbols strtab), (table symbols strtab).length⟩
  | symbols, _ => ⟨none, (symbols.getD #[]).size⟩

def better (a : Nat) (result e : SymbolTable) : SymbolTable :=
  if e.address ≤ a ∧ e.address > result.address then e else result

def getSymbolFromAddress (s : Symbols) (a : Nat) : Option FunctionName :=
  match s.symTable with
  | some table => some (table.foldl (better a) ⟨0, .unknown⟩).functionName
  | none => if s.totalEntries = 0 then some .unknown else none

def Named (symbols : Array ElfSym) (strtab a : Nat) (name : FunctionName) : Prop :=
  (name = .unknown ↔ ∀ s ∈ symbols, s.stValue ≠ 0 → ¬ s.stValue ≤ a) ∧
    (name ≠ .unknown → ∃ s ∈ symbols, name = .stored (strtab + s.stName) ∧ s.stValue ≤ a ∧
      ∀ t ∈ symbols, t.stValue ≤ a → t.stValue ≤ s.stValue)

theorem sort_perm (symbols : Array ElfSym) : (sort symbols).Perm symbols := by
  unfold sort
  generalize range (symbols.size - 1) = rounds
  induction rounds generalizing symbols with
  | nil => exact Array.Perm.refl _
  | cons i rounds ih =>
    refine (ih _).trans ?_
    dsimp only
    rw [Array.swapIfInBounds_def]
    split
    · split
      · exact Array.swap_perm ..
      · exact Array.Perm.refl _
    · exact Array.Perm.refl _

theorem mem_table (symbols : Array ElfSym) (strtab : Nat) :
    (∀ e ∈ table symbols strtab, ∃ s ∈ symbols, e = entry strtab s) ∧
    ∀ s ∈ symbols, s.stValue ≠ 0 → entry strtab s ∈ table symbols strtab := by
  have hMem : ∀ s, s ∈ (sort symbols).toList ↔ s ∈ symbols :=
    fun s => Array.mem_toList_iff.trans (sort_perm symbols).mem_iff
  constructor
  · intro e he
    rcases mem_map.mp he with ⟨s, hs, rfl⟩
    exact ⟨s, (hMem s).mp ((dropWhile_suffix _).mem hs), rfl⟩
  intro s hs hValue
  have hIn := (hMem s).mpr hs
  rw [← takeWhile_append_dropWhile (p := fun s => decide (s.stValue = 0))
    (l := (sort symbols).toList), mem_append] at hIn
  refine mem_map_of_mem (hIn.resolve_left (fun hSkipped => hValue ?_))
  simpa using all_eq_true.mp all_takeWhile s hSkipped

theorem foldl_better (a : Nat) (l : List SymbolTable) (result : SymbolTable) :
    let best := l.foldl (better a) result
    result.address ≤ best.address ∧ (∀ e ∈ l, e.address ≤ a → e.address ≤ best.address) ∧
      (best = result ∨ best ∈ l ∧ best.address ≤ a ∧ result.address < best.address) := by
  induction l generalizing result with
  | nil => simp
  | cons e l ih =>
    rcases ih (better a result e) with ⟨hLow, hBest, hFound⟩
    rw [foldl_cons]
    unfold better at hLow hBest hFound ⊢
    split at hLow
    · rename_i hBetter
      simp only [if_pos hBetter] at hBest hFound ⊢
      refine ⟨by omega, forall_mem_cons.mpr ⟨fun _ => hLow, hBest⟩, Or.inr ?_⟩
      rcases hFound with hHere | ⟨hMem, hUpTo, hMore⟩
      · rw [hHere]
        exact ⟨mem_cons_self, hBetter⟩
      · exact ⟨mem_cons_of_mem _ hMem, hUpTo, by omega⟩
    rename_i hWorse
    simp only [if_neg hWorse] at hBest hFound ⊢
    refine ⟨hLow, forall_mem_cons.mpr ⟨fun hUpTo => by omega, hBest⟩, ?_⟩
    exact hFound.imp_right (fun h => ⟨mem_cons_of_mem _ h.1, h.2⟩)

theorem named_table (symbols : Array ElfSym) (strtab a : Nat) : Named symbols strtab a
    ((table symbols strtab).foldl (better a) ⟨0, .unknown⟩).functionName := by
  rcases mem_table symbols strtab with ⟨hSource, hIn⟩
  rcases foldl_better a (table symbols strtab) ⟨0, .unknown⟩ with ⟨_, hBest, hFound⟩
  have hGreatest : ∀ s ∈ symbols, s.stValue ≤ a → s.stValue ≤
    ((table symbols strtab).foldl (better a) ⟨0, .unknown⟩).address := by
    intro s hs hUpTo
    by_cases hZero : s.stValue = 0
    · omega
    · exact hBest _ (hIn s hs hZero) hUpTo
  rcases hFound with hNone | ⟨hMem, hUpTo, hSome⟩
  · rw [hNone] at hGreatest ⊢
    refine ⟨iff_of_true rfl (fun s hs hValue hUpTo => ?_), fun h => (h rfl).elim⟩
    exact hValue (Nat.le_zero.mp (hGreatest s hs hUpTo))
  rcases hSource _ hMem with ⟨s, hs, hEq⟩
  rw [hEq] at hGreatest hUpTo hSome ⊢
  refine ⟨iff_of_false (fun h => by cases h) (fun h => ?_),
    fun _ => ⟨s, hs, rfl, hUpTo, hGreatest⟩⟩
  exact h s hs (Nat.ne_of_gt hSome) hUpTo

structure Regular (elf : KernelFile) (sym str : ElfSection) (j : Nat) : Prop where
  symtab : sym ∈ elf.sections ∧ sym.shType = .symtab
  only_symtab : ∀ s ∈ elf.sections, s.shType = .symtab → s = sym
  address : ∃ s ∈ sym.symbols, s.stValue ≠ 0
  strings : elf.sections[j]? = some str ∧ str.shType = .strtab
  only_strings : ∀ k s, elf.sections[k]? = some s → s.shType = .strtab → k = j ∨ k = elf.shstrndx

theorem foldl_sets {α β : Type} {p : α → Prop} [DecidablePred p] {f : α → β} {v : β} {l : List α}
    (h : ∀ x ∈ l, p x → f x = v) (found : Option β) :
    l.foldl (fun found x => if p x then some (f x) else found) found =
    if ∃ x ∈ l, p x then some v else found := by
  induction l generalizing found with
  | nil => simp
  | cons x l ih =>
    rw [forall_mem_cons] at h
    rw [foldl_cons, ih h.2]
    by_cases hx : p x
    · simp [h.1 hx, hx]
    · simp [hx]

section Files

variable {elf} {sym str : ElfSection} {j : Nat} (h : Regular elf sym str j)

include h

theorem Regular.elfSymbols_eq : elfSymbols elf = some sym.symbols := by
  refine (foldl_sets (fun s hs hType => ?_) none).trans (if_pos ⟨sym, h.symtab⟩)
  rw [h.only_symtab s hs hType]

theorem Regular.strtab_eq :
    strtab elf = if elf.shstrndx = j then none else some (elf.file + str.shOffset) := by
  have hOnly : ∀ x ∈ elf.sections.zipIdx, x.1.shType = .strtab ∧ elf.shstrndx ≠ x.2 →
    x.2 = j ∧ x.1 = str := by
    rintro ⟨s, k⟩ hx ⟨hType, hOther⟩
    rw [mk_mem_zipIdx_iff_getElem?] at hx
    obtain rfl := (h.only_strings k s hx hType).resolve_right hOther.symm
    exact ⟨rfl, Option.some.inj (hx.symm.trans h.strings.1)⟩
  refine (foldl_sets (v := elf.file + str.shOffset) (fun x hx hp => ?_) none).trans ?_
  · rw [(hOnly x hx hp).2]
  by_cases hShared : elf.shstrndx = j
  · rw [if_neg, if_pos hShared]
    rintro ⟨x, hx, hp⟩
    exact hp.2 (hShared.trans (hOnly x hx hp).1.symm)
  · rw [if_pos, if_neg hShared]
    exact ⟨(str, j), mk_mem_zipIdx_iff_getElem?.mpr h.strings.1, h.strings.2, hShared⟩

end Files

theorem finds_iff (elf : KernelFile) (sym str : ElfSection) (j : Nat) (h : Regular elf sym str j) :
    (∀ a, ∃ name, getSymbolFromAddress (construct elf) a = some name ∧
    Named sym.symbols (elf.file + str.shOffset) a name) ↔ elf.shstrndx ≠ j := by
  rw [construct, h.elfSymbols_eq, h.strtab_eq]
  by_cases hShared : elf.shstrndx = j
  · rw [if_pos hShared]
    refine iff_of_false (fun hAll => ?_) (fun hOther => hOther hShared)
    rcases hAll 0 with ⟨name, hName, _⟩
    rcases h.address with ⟨s, hs, _⟩
    have hSome : ¬ sym.symbols.size = 0 := Nat.ne_of_gt (Array.size_pos_of_mem hs)
    simp [getSymbolFromAddress, hSome] at hName
  · rw [if_neg hShared]
    exact iff_of_true (fun a => ⟨_, rfl, named_table _ _ a⟩) hShared

def kernelSyms : Array ElfSym :=
  #[⟨6, 64⟩, ⟨0, 0⟩, ⟨1, 16⟩]

/- The names of the sections have a table of their own. -/
def separate : KernelFile :=
  ⟨4096, [⟨.symtab, 64, kernelSyms⟩, ⟨.strtab, 136, #[]⟩, ⟨.strtab, 160, #[]⟩], 2⟩

theorem finds_iff_separate : getSymbolFromAddress (construct separate) 70 = some (.stored 4238) ∧
    Named kernelSyms 4232 70 (.stored 4238) := by
  have hFound : getSymbolFromAddress (construct separate) 70 = some (.stored 4238) := by
    decide
  have hFinds := finds_iff separate ⟨.symtab, 64, kernelSyms⟩ ⟨.strtab, 136, #[]⟩ 1
    ⟨by simp [separate], by simp [separate], by simp [kernelSyms], ⟨rfl, rfl⟩, ?_⟩
  · rcases hFinds.mpr (by decide) 70 with ⟨name, hName, hNamed⟩
    rw [hFound] at hName
    cases hName
    exact ⟨hFound, hNamed⟩
  intro k s hk hType
  rcases k with _ | _ | _ | k
  · cases hk
    cases hType
  · exact .inl rfl
  · exact .inr rfl
  · cases hk

def shared : KernelFile :=
  ⟨4096, [⟨.symtab, 64, #[⟨1, 16⟩]⟩, ⟨.strtab, 88, #[]⟩], 1⟩

theorem shared_fails : getSymbolFromAddress (construct shared) 16 = none := by
  decide

end KernelSymbols

end Fennix
