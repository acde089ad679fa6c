import Mathlib.Data.Finset.Card

/-
  Handlers that write into the buffer of a caller.

  Each write is recorded with where its byte comes from: it was worked out, or copied from a place
  in some object.
-/

inductive Origin
| computed
| copied (position size : Nat)
deriving DecidableEq

def Origin.Own : Origin → Prop
| .computed => True
| .copied position size => position < size

instance (origin : Origin) : Decidable origin.Own := by
  cases origin
  · exact instDecidableTrue
  · exact Nat.decLt _ _

structure Write where
  offset : Nat
  value : BitVec 8
  origin : Origin
deriving DecidableEq

def store (memory : List (BitVec 8)) (writes : List Write) : List (BitVec 8) :=
  writes.foldl (fun m w => m.set w.offset w.value) memory

def inOrder (origin : Nat → Origin) : Nat → List (BitVec 8) → List Write
| _, [] => []
| first, value :: values =>
  ⟨first, value, origin first⟩ ::
    inOrder origin (first + 1) values

def output (values : List (BitVec 8)) : List Write :=
  inOrder (fun _ => .computed) 0 values

def memcpy (memory : List (BitVec 8)) (size n : Nat) : Option (List Write) :=
  if n ≤ memory.length then
    some (inOrder (fun i => .copied i size) 0 (memory.take n))
  else none

theorem offsets_inOrder (origin : Nat → Origin) (first : Nat) (values : List (BitVec 8)) :
    (inOrder origin first values).map Write.offset = List.range' first values.length := by
  induction values generalizing first with
  | nil => rfl
  | cons value values ih =>
    rw [inOrder, List.map_cons, ih, List.length_cons, List.range'_succ]

theorem mem_offsets_inOrder (origin : Nat → Origin) (values : List (BitVec 8)) (i : Nat) :
    i ∈ (inOrder origin 0 values).map Write.offset ↔ i < values.length := by
  rw [offsets_inOrder, List.mem_range'_1]
  omega

variable {origin : Nat → Origin} {values : List (BitVec 8)}

theorem origin_of_mem_inOrder {first : Nat} {w : Write} (h : w ∈ inOrder origin first values) :
    w.origin = origin w.offset := by
  induction values generalizing first with
  | nil => cases h
  | cons value values ih =>
    rcases List.mem_cons.mp h with rfl | hRest
    · rfl
    · exact ih hRest

theorem own_output (values : List (BitVec 8)) : ∀ w ∈ output values, w.origin.Own := by
  intro w hw
  rw [origin_of_mem_inOrder hw]
  trivial

theorem own_copied_iff (size : Nat) (values : List (BitVec 8)) :
    (∀ w ∈ inOrder (fun i => .copied i size) 0 values, w.origin.Own) ↔ values.length ≤ size := by
  constructor
  · intro h
    by_contra hLong
    have hMem := (mem_offsets_inOrder (fun i => .copied i size) values size).mpr
        (Nat.lt_of_not_le hLong)
    rcases List.mem_map.mp hMem with ⟨w, hw, hOffset⟩
    have hOwn := h w hw
    rw [origin_of_mem_inOrder hw, hOffset] at hOwn
    exact Nat.lt_irrefl size hOwn
  intro h w hw
  rw [origin_of_mem_inOrder hw]
  exact Nat.lt_of_lt_of_le ((mem_offsets_inOrder _ values w.offset).mp (List.mem_map_of_mem hw)) h

@[simp] theorem store_nil (memory : List (BitVec 8)) : store memory [] = memory :=
  rfl

theorem store_append (memory : List (BitVec 8)) (before after : List Write) :
    store memory (before ++ after) = store (store memory before) after :=
  List.foldl_append

variable {memory : List (BitVec 8)}

theorem store_inOrder (origin : Nat → Origin) (before : List (BitVec 8))
    (hFits : values.length ≤ memory.length) :
    store (before ++ memory) (inOrder origin before.length values) =
    before ++ values ++ memory.drop values.length := by
  induction values generalizing before memory with
  | nil => simp [inOrder]
  | cons value values ih =>
    cases memory with
    | nil => exact absurd hFits (Nat.not_succ_le_zero _)
    | cons b memory =>
      have hSet : (before ++ b :: memory).set before.length value =
        (before ++ [value]) ++ memory := by
        simp
      have hNext := ih (before ++ [value]) (Nat.le_of_succ_le_succ hFits)
      rw [List.length_append, List.length_singleton] at hNext
      rw [inOrder, store, List.foldl_cons, hSet]
      refine hNext.trans ?_
      simp

theorem store_inOrder_zero (hFits : values.length ≤ memory.length) :
    store memory (inOrder origin 0 values) = values ++ memory.drop values.length := by
  exact store_inOrder origin [] hFits

structure Response where
  memory : List (BitVec 8)
  writes : List Write
  answer : Nat

def respond (memory : List (BitVec 8)) (writes : List Write)
    (answer : List (BitVec 8) → Option Nat) : Option Response :=
  if ∀ w ∈ writes, w.offset < memory.length then
    (answer (store memory writes)).map (fun n =>
      { memory := store memory writes, writes := writes, answer := n })
  else none

variable {n size : Nat}

namespace Response

def written (r : Response) : Nat :=
  (r.writes.map Write.offset).toFinset.card

structure Contract (size : Nat) (r : Response) : Prop where
  inside : ∀ w ∈ r.writes, w.offset < size
  counted : r.answer = r.written
  bounded : r.answer ≤ size
  own : ∀ w ∈ r.writes, w.origin.Own

theorem contract_iff {r : Response} (hCovers : ∀ i, i ∈ r.writes.map Write.offset ↔ i < n) :
    Contract size r ↔ n ≤ size ∧ r.answer = n ∧ ∀ w ∈ r.writes, w.origin.Own := by
  have hWritten : r.written = n := by
    have hRange : (r.writes.map Write.offset).toFinset = Finset.range n := by
      ext i
      rw [List.mem_toFinset, hCovers, Finset.mem_range]
    rw [written, hRange, Finset.card_range]
  constructor
  · intro h
    have hAnswer : r.answer = n := h.counted.trans hWritten
    exact ⟨hAnswer ▸ h.bounded, hAnswer, h.own⟩
  rintro ⟨hSize, hAnswer, hOwn⟩
  refine ⟨?_, hAnswer.trans hWritten.symm, hAnswer ▸ hSize, hOwn⟩
  intro w hw
  have hIn := (hCovers w.offset).mp (List.mem_map_of_mem hw)
  exact Nat.lt_of_lt_of_le hIn hSize

end Response

def Fulfils (size : Nat) (answered : Option Response) : Prop :=
  ∃ r, answered = some r ∧ r.Contract size

variable {answer : List (BitVec 8) → Option Nat}

theorem respond_contract_iff {writes : List Write} (hSize : size ≤ memory.length)
    (hCovers : ∀ i, i ∈ writes.map Write.offset ↔ i < n) :
    Fulfils size (respond memory writes answer) ↔ n ≤ size ∧ answer (store memory writes) = some n ∧
    ∀ w ∈ writes, w.origin.Own := by
  constructor
  · rintro ⟨r, hRespond, hContract⟩
    unfold respond at hRespond
    split at hRespond
    · rcases Option.map_eq_some_iff.mp hRespond with ⟨m, hAnswer, rfl⟩
      rcases (Response.contract_iff hCovers).mp hContract with ⟨hIn, hCount, hOwn⟩
      exact ⟨hIn, hCount ▸ hAnswer, hOwn⟩
    · cases hRespond
  rintro ⟨hIn, hAnswer, hOwn⟩
  have hFits : ∀ w ∈ writes, w.offset < memory.length := by
    intro w hw
    have hOffset := (hCovers w.offset).mp (List.mem_map_of_mem hw)
    omega
  refine ⟨⟨store memory writes, writes, n⟩, ?_, ?_⟩
  · rw [respond, if_pos hFits, hAnswer]
    rfl
  · exact (Response.contract_iff hCovers).mpr ⟨hIn, rfl, hOwn⟩

theorem respond_nil_contract_iff (hSize : size ≤ memory.length) :
    Fulfils size (respond memory [] (fun _ => some n)) ↔ n = 0 := by
  have hCovers : ∀ i, i ∈ ([] : List Write).map Write.offset ↔ i < 0 := by
    simp
  rw [respond_contract_iff hSize hCovers]
  simp

theorem respond_output_contract_iff (hSize : size ≤ memory.length) :
    Fulfils size (respond memory (output values) answer) ↔ values.length ≤ size ∧
    answer (store memory (output values)) = some values.length := by
  rw [output, respond_contract_iff hSize (mem_offsets_inOrder _ values)]
  exact and_congr_right (fun _ => and_iff_left (own_output values))

theorem respond_overlaid_contract_iff {first : List (BitVec 8)} (hSize : size ≤ memory.length)
    (hOver : first.length ≤ values.length) :
    Fulfils size (respond memory (output first ++ output values) answer) ↔ values.length ≤ size ∧
    answer (values ++ memory.drop values.length) = some values.length := by
  have hCovers : ∀ i, i ∈ (output first ++ output values).map Write.offset ↔ i < values.length := by
    intro i
    rw [List.map_append, List.mem_append, output, output, mem_offsets_inOrder, mem_offsets_inOrder]
    omega
  have hOwn : ∀ w ∈ output first ++ output values, w.origin.Own :=
    List.forall_mem_append.mpr ⟨own_output first, own_output values⟩
  rw [respond_contract_iff hSize hCovers, and_iff_left hOwn]
  refine and_congr_right (fun hIn => ?_)
  have hFirst : (first ++ memory.drop first.length).length = memory.length := by
    rw [List.length_append, List.length_drop]
    omega
  rw [store_append, output, store_inOrder_zero (by omega), output, store_inOrder_zero (by omega),
    List.drop_append, List.drop_of_length_le hOver, List.nil_append, List.drop_drop,
    Nat.add_sub_cancel' hOver]

theorem memcpy_contract_iff {source : List (BitVec 8)} {object : Nat} (hSize : size ≤ memory.length)
    (hObject : object ≤ source.length) :
    Fulfils size ((memcpy source object n).bind (fun writes => respond memory writes answer)) ↔
    n ≤ size ∧ n ≤ object ∧ answer (source.take n ++ memory.drop n) = some n := by
  by_cases hRead : n ≤ source.length
  · have hLength : (source.take n).length = n := List.length_take_of_le hRead
    rw [memcpy, if_pos hRead, Option.bind_some,
      respond_contract_iff hSize (mem_offsets_inOrder _ _), own_copied_iff, hLength]
    constructor
    · rintro ⟨hIn, hAnswer, hOwn⟩
      rw [store_inOrder_zero (by omega), hLength] at hAnswer
      exact ⟨hIn, hOwn, hAnswer⟩
    rintro ⟨hIn, hOwn, hAnswer⟩
    rw [store_inOrder_zero (by omega), hLength]
    exact ⟨hIn, hAnswer, hOwn⟩
  rw [memcpy, if_neg hRead]
  constructor
  · rintro ⟨r, hNone, _⟩
    cases hNone
  · rintro ⟨_, hOwn, _⟩
    omega

def strlen (bytes : List (BitVec 8)) : Option Nat :=
  bytes.findIdx? (fun b => b = 0#8)

theorem strlen_append_eq_length (xs ys : List (BitVec 8)) : strlen (xs ++ ys) = some xs.length ↔
    (∀ b ∈ xs, b ≠ 0#8) ∧ ys.head? = some 0#8 := by
  induction xs with
  | nil =>
    cases ys with
    | nil => simp [strlen]
    | cons y ys =>
      by_cases hy : y = 0#8
      · simp [strlen, hy, List.findIdx?_cons]
      · simp [strlen, hy, List.findIdx?_cons]
  | cons x xs ih =>
    by_cases hx : x = 0#8
    · simp [strlen, hx, List.findIdx?_cons]
    have hShift : strlen (x :: xs ++ ys) = (strlen (xs ++ ys)).map (· + 1) := by
      simp [strlen, hx, List.findIdx?_cons]
    have hSucc : (strlen (xs ++ ys)).map (· + 1) = some (xs.length + 1) ↔
      strlen (xs ++ ys) = some xs.length := by
      simp
    rw [hShift, List.length_cons, hSucc, ih, List.forall_mem_cons]
    simp [hx]

theorem ne_zero_of_strlen {bytes : List (BitVec 8)} (h : strlen bytes = some n) :
    n < bytes.length ∧ ∀ b ∈ bytes.take n, b ≠ 0#8 := by
  rcases List.findIdx?_eq_some_iff_getElem.mp h with ⟨hn, _, hBefore⟩
  refine ⟨hn, ?_⟩
  intro b hb
  rcases List.mem_iff_getElem.mp hb with ⟨i, hi, rfl⟩
  have hLess : i < n := by
    rw [List.length_take] at hi
    omega
  have hNot := hBefore i hLess
  rw [List.getElem_take]
  simpa using hNot
