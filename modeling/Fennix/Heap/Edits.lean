import Fennix.Heap.Segments

/-
  Edits of the list of segments.

  Each operation on headers is described once, as an edit of the list of segments a sound state
  stands for: a join of two free neighbours, a change of a flag, a split, and a new segment at the
  end.
-/

------ Replacing Segments

namespace Fennix

open List Segment

def SameExtent (s s' : SegmentHeap) : Prop :=
  s'.heapStart = s.heapStart ∧ s'.heapEnd = s.heapEnd ∧ s'.heapTop = s.heapTop

theorem SameExtent.trans {s s' s'' : SegmentHeap} (h : SameExtent s s') (h' : SameExtent s' s'') :
    SameExtent s s'' :=
  ⟨h'.1.trans h.1, h'.2.1.trans h.2.1, h'.2.2.trans h.2.2⟩

theorem mem_middle {α : Type} {pre post : List α} {a g : α} (hg : g ∈ pre ++ post) :
    g ∈ pre ++ a :: post := by
  rcases mem_append.mp hg with hPre | hPost
  · exact mem_append_left _ hPre
  · exact mem_append_right _ (mem_cons_of_mem a hPost)

theorem mem_middle_cases {α : Type} {pre post : List α} {a g : α} (hg : g ∈ pre ++ a :: post) :
    g = a ∨ g ∈ pre ++ post := by
  rcases mem_append.mp hg with hPre | hRest
  · exact .inr (mem_append_left _ hPre)
  rcases mem_cons.mp hRest with hEq | hPost
  · exact .inl hEq
  · exact .inr (mem_append_right _ hPost)

structure SegmentOk (guarded : Nat → Prop) (s : SegmentHeap) (g : Segment) : Prop where
  fields : s.get g.address .length = g.length ∧ s.isFree g.address = g.free
  sized : 16 ≤ g.length ∧ g.length % 16 = 0
  header : Unguarded guarded g.address 32
  free : g.free = true → Unguarded guarded g.address g.size

def FieldsKept (s s' : SegmentHeap) (a : Segment) (post segs : List Segment) : Prop :=
  ∀ g ∈ segs, ∀ f, (g.address = a.address → f ≠ .next ∧ f ≠ .length) →
    (f = .last → g.address ≠ firstAddress post) → s'.get g.address f = s.get g.address f

section Replacing

variable {guarded : Nat → Prop} {s s' : SegmentHeap} {pre post segs : List Segment} {a g : Segment}

open SegmentHeap

theorem Sound.segmentOk (hSound : Sound guarded s segs) (hg : g ∈ segs) : SegmentOk guarded s g :=
  ⟨hSound.fields g hg, hSound.sized g hg, hSound.clear.header g hg, hSound.clear.free g hg⟩

theorem SegmentOk.congr (hOk : SegmentOk guarded s g)
    (hLength : s'.get g.address .length = s.get g.address .length)
    (hFlag : s'.get g.address .isFree = s.get g.address .isFree) : SegmentOk guarded s' g := by
  refine ⟨⟨?_, ?_⟩, hOk.sized, hOk.header, hOk.free⟩
  · rw [hLength]
    exact hOk.fields.1
  unfold isFree
  rw [hFlag]
  exact hOk.fields.2

theorem FieldsKept.segmentOk {tail : List Segment}
    (hKept : FieldsKept s s' a post (pre ++ a :: tail))
    (hSound : Sound guarded s (pre ++ a :: tail)) (hg : g ∈ pre ++ tail) :
    SegmentOk guarded s' g := by
  have hOther : g.address = a.address → ∀ f : HeaderField, f ≠ .next ∧ f ≠ .length :=
    fun hEq => (hSound.address_ne hg hEq).elim
  have hMem : g ∈ pre ++ a :: tail := mem_middle hg
  apply (hSound.segmentOk hMem).congr
  · exact hKept g hMem .length (fun hEq => hOther hEq _) (by simp)
  · exact hKept g hMem .isFree (fun hEq => hOther hEq _) (by simp)

theorem FieldsKept.links (hKept : FieldsKept s s' a post segs) (hSound : Sound guarded s segs)
    {c : Nat} (hc : c ∈ segs.map address) : (c ≠ a.address → s'.get c .next = s.get c .next) ∧
    ((post.map address).head? ≠ some c → s'.get c .last = s.get c .last) := by
  rcases mem_map.mp hc with ⟨g, hg, rfl⟩
  constructor
  · intro hNe
    exact hKept g hg .next (fun hEq => (hNe hEq).elim) (by simp)
  · intro hHead
    exact hKept g hg .last (by simp) (fun _ => hSound.ne_firstAddress hg hHead)

theorem FieldsKept.splice (old mid : List Segment)
    (hKept : FieldsKept s s' a post (pre ++ a :: (old ++ post)))
    (hSound : Sound guarded s (pre ++ a :: (old ++ post)))
    (hNextA : s'.get a.address .next = firstAddress (mid ++ post))
    (hMid : Linked (fun h => s'.get h .next) (fun h => s'.get h .last) a.address
    (mid.map address) (firstAddress post)) (hHead : ∀ c, post.head? = some c →
    s'.get c.address .last = (mid.map address).getLastD a.address) :
    Linked (fun h => s'.get h .next) (fun h => s'.get h .last) 0
    ((pre ++ a :: (mid ++ post)).map address) 0 := by
  have hLinked := hSound.linked
  have hNodup := hSound.nodup
  rw [firstAddress, map_append] at hNextA
  rw [map_append, map_cons, map_append] at hLinked hNodup ⊢
  have hLess : pre.map address ++ a.address :: post.map address ⊆
    (pre ++ a :: (old ++ post)).map address := by
    rw [map_append, map_cons, map_append]
    exact (List.Sublist.append_left ((sublist_append_right _ _).cons_cons _) _).subset
  refine hLinked.splice (old.map address) (mid.map address) hNodup hNextA hMid ?_ ?_ ?_
  · intro c hc
    rw [head?_map, Option.map_eq_some_iff] at hc
    rcases hc with ⟨g, hg, rfl⟩
    exact hHead g hg
  · intro c hc
    exact (hKept.links hSound (hLess hc)).1
  · intro c hc
    exact (hKept.links hSound (hLess hc)).2

theorem Sound.replace {old new : List Segment} (hSound : Sound guarded s (pre ++ old ++ post))
    (hExtent : SameExtent s s')
    (hLinked : Linked (fun h => s'.get h .next) (fun h => s'.get h .last) 0
    ((pre ++ new ++ post).map address) 0)
    (hHistory : s'.segments.Perm ((pre ++ new ++ post).map address))
    (hTiled : ∀ low high, Tiling address size low old high → Tiling address size low new high)
    (hRest : ∀ g ∈ pre ++ post, SegmentOk guarded s' g) (hNew : ∀ g ∈ new, SegmentOk guarded s' g) :
    Sound guarded s' (pre ++ new ++ post) := by
  rcases hExtent with ⟨hStart, hEnd, hTop⟩
  have hOk : ∀ g ∈ pre ++ new ++ post, SegmentOk guarded s' g := by
    intro g hg
    rcases mem_append.mp hg with hLeft | hPost
    · rcases mem_append.mp hLeft with hPre | hIn
      · exact hRest g (mem_append_left _ hPre)
      · exact hNew g hIn
    · exact hRest g (mem_append_right _ hPost)
  refine ⟨hLinked, fun g hg => (hOk g hg).fields, ?_,
    fun g hg => (hOk g hg).sized, ?_, ?_, ?_, hHistory, fun g hg => (hOk g hg).header,
    fun g hg => (hOk g hg).free, ?_, ?_⟩
  · rw [hStart, hTop]
    exact hSound.tiled.replace hTiled
  · rw [hStart]
    exact hSound.placed
  · rw [hStart, hTop]
    exact hSound.room
  · rw [hEnd, hTop]
    exact hSound.ends
  · rw [hTop]
    exact hSound.clear.past
  · rw [hStart]
    exact hSound.clear.below

end Replacing

variable {mode : LastUpdates}

section Joining

variable {guarded : Nat → Prop} {s s' : SegmentHeap} {pre post : List Segment} {a b : Segment}

open SegmentHeap

def Segment.join (a b : Segment) : Segment :=
  ⟨a.address, a.length + 32 + b.length, a.free⟩

@[simp] theorem join_address : (a.join b).address = a.address :=
  rfl

def joinInto (s : SegmentHeap) (mode : LastUpdates) (a b : Segment) (next : Nat) : SegmentHeap :=
  let s := s.moveLast mode b.address a.address
  let s := if next ≠ 0 then s.set next .last a.address else s
  let s := s.set a.address .length (a.length + b.length + 32)
  let s := s.set a.address .next next
  s.joined b.address

section

variable (hSound : Sound guarded s (pre ++ a :: b :: post))

include hSound

private theorem combineForward_eq (mode : LastUpdates) (hFree : b.free = true) :
    s.combineForward mode a.address = joinInto s mode a b (firstAddress post) := by
  have ha : a ∈ pre ++ a :: b :: post := by simp
  have hb : b ∈ pre ++ a :: b :: post := by simp
  have hShift : Sound guarded s ((pre ++ [a]) ++ b :: post) := by
    simpa using hSound
  have hNextA : s.get a.address .next = b.address := hSound.links.1
  have hNextB := hShift.links.1
  have hPlaceA := hShift.place_next (show a ∈ _ by simp)
  have hPlaceB := hShift.place_next (show b ∈ _ by simp)
  have hPlace := hSound.place hb ha
  have hBoundsB := hSound.bounds hb
  have hNull : b.address ≠ 0 := by omega
  have hFlag := (hSound.fields b hb).2.trans hFree
  have hFit : a.length + b.length + 32 < 2 ^ 64 := by
    have hNeighbour := hSound.neighbour
    have hSizeA : a.size = 32 + a.length := rfl
    have hSizeB : b.size = 32 + b.length := rfl
    omega
  unfold combineForward joinInto
  by_cases hEnd : firstAddress post = 0 <;>
    simp [hNextA, hNull, hFlag, hNextB, hEnd, get_set_field _ _ hPlaceA, get_set_field _ _ hPlaceB,
      get_set_field _ _ hPlace, hSound.fields a ha, hSound.fields b hb, headerSize, u64_of_lt hFit]

private theorem joinInto_fields (hStep : joinInto s mode a b (firstAddress post) = s') :
    s'.get a.address .next = firstAddress post ∧
    s'.get a.address .length = a.length + b.length + 32 ∧
    (∀ c, post.head? = some c → s'.get c.address .last = a.address) ∧
    FieldsKept s s' a post (pre ++ a :: b :: post) := by
  have ha : a ∈ pre ++ a :: b :: post := by simp
  have hb : b ∈ pre ++ a :: b :: post := by simp
  have hShift : Sound guarded s ((pre ++ [a]) ++ b :: post) := by
    simpa using hSound
  have hBoundsA := hSound.bounds ha
  have hBoundsB := hSound.bounds hb
  have hNeighbour := hSound.neighbour
  have hSizeA : a.size = 32 + a.length := rfl
  have hSizeB : b.size = 32 + b.length := rfl
  have hNextLt : firstAddress post < 256 ^ 8 := by
    rw [← hShift.links.1]
    exact s.get_lt b.address .next
  subst hStep
  refine ⟨?_, ?_, ?_, ?_⟩
  · exact get_set_self _ _ .next hNextLt
  · simp only [joinInto, get_joined, ne_eq, reduceCtorEq, not_false_eq_true, get_set_ne]
    exact get_set_word _ _ (by simp) (by omega)
  · intro c hc
    have hcMem : c ∈ pre ++ a :: b :: post := by
      simp [mem_of_head? hc]
    have hBoundsC := hSound.bounds hcMem
    have hPlace := hSound.place hcMem ha
    rw [joinInto, get_joined, get_set_field _ _ hPlace (by simp),
      get_set_field _ _ hPlace (by simp), firstAddress_of_head? hc, if_pos (by omega)]
    exact get_set_word _ _ (by simp) (by omega)
  · intro g hg f hA hLast
    have hPlaceA := hSound.place hg ha
    have hPlaceNext := hShift.place_next (show g ∈ _ by simpa using hg)
    rw [joinInto, get_joined, get_set_other _ _ hPlaceA (fun hEq => (hA hEq).1),
      get_set_other _ _ hPlaceA (fun hEq => (hA hEq).2)]
    split
    · rw [get_set_other _ _ hPlaceNext (fun hEq hField => hLast hField hEq), get_moveLast]
    · rw [get_moveLast]

private theorem joinInto_rest (hStep : joinInto s mode a b (firstAddress post) = s') :
    SameExtent s s' ∧ s'.segments = s.segments.erase b.address ∧ s'.lastHdr =
    (if mode = .kept ∧ s.lastHdr = b.address then a.address else s.lastHdr) ∧
    Spared guarded s s' := by
  have hShift : Sound guarded s ((pre ++ [a]) ++ b :: post) := by
    simpa using hSound
  have hHeaderA := hSound.clear.header a (by simp)
  have hMoved : Spared guarded s (s.moveLast mode b.address a.address) :=
    Spared.refl.moveLast mode _ _
  subst hStep
  refine ⟨?_, ?_, ?_, ?_⟩
  · rw [joinInto, moveLast_eq]
    split <;> exact ⟨rfl, rfl, rfl⟩
  · rw [joinInto, moveLast_eq]
    split <;> rfl
  · rw [joinInto, moveLast_eq]
    split <;> rfl
  · apply Spared.joined
    apply Spared.set _ hHeaderA
    apply Spared.set _ hHeaderA
    split
    · exact hMoved.set hShift.next_unguarded _ _
    · exact hMoved

end

variable {hist : List Nat} {x y : Nat}

private theorem perm_erase_middle {pre post : List Nat} (h : hist.Perm (pre ++ x :: y :: post)) :
    (hist.erase y).Perm (pre ++ x :: post) := by
  have hMiddle : hist.Perm (y :: (pre ++ x :: post)) := by
    have hSwap : ((pre ++ [x]) ++ y :: post).Perm (y :: ((pre ++ [x]) ++ post)) := perm_middle
    rw [append_assoc, append_assoc] at hSwap
    exact h.trans hSwap
  simpa using hMiddle.erase y

private theorem perm_insert_middle {pre post : List Nat} (h : hist.Perm (pre ++ x :: post)) :
    (y :: hist).Perm (pre ++ x :: y :: post) := by
  have hSwap : ((pre ++ [x]) ++ y :: post).Perm (y :: ((pre ++ [x]) ++ post)) := perm_middle
  rw [append_assoc, append_assoc] at hSwap
  exact (h.cons y).trans hSwap.symm

theorem Sound.join (hSound : Sound guarded s (pre ++ a :: b :: post)) (hFreeA : a.free = true)
    (hFree : b.free = true) (hStep : s.combineForward mode a.address = s') :
    Sound guarded s' (pre ++ a.join b :: post) ∧
    SameExtent s s' ∧ Spared guarded s s' ∧ s'.lastHdr =
    (if mode = .kept ∧ s.lastHdr = b.address then a.address else s.lastHdr) := by
  rw [combineForward_eq hSound mode hFree] at hStep
  rcases joinInto_fields hSound hStep with ⟨hNextA, hLengthA, hLastHead, hKept⟩
  rcases joinInto_rest hSound hStep with ⟨hExtent, hSegments, hLastHdr, hSpared⟩
  refine ⟨?_, hExtent, hSpared, hLastHdr⟩
  have ha : a ∈ pre ++ a :: b :: post := by simp
  have hb : b ∈ pre ++ a :: b :: post := by simp
  have hNeighbour := hSound.neighbour
  have hSizeA : a.size = 32 + a.length := rfl
  have hSizeB : b.size = 32 + b.length := rfl
  have hOld : Sound guarded s (pre ++ [a, b] ++ post) := by
    simpa using hSound
  have hJoined : Sound guarded s' (pre ++ [a.join b] ++ post) := by
    apply hOld.replace hExtent
    · simpa using hKept.splice [b] [] hSound hNextA trivial hLastHead
    · have hHistory := hSound.history
      rw [map_append, map_cons, map_cons] at hHistory
      rw [hSegments]
      simpa using perm_erase_middle hHistory
    · intro low high hTwo
      rcases hTwo with ⟨hA, _, hEnd⟩
      refine ⟨hA, ?_⟩
      simp only [Tiling, Segment.join, Segment.size] at hEnd ⊢
      omega
    · intro g hg
      exact hKept.segmentOk hSound (mem_middle hg)
    · intro g hg
      rcases mem_singleton.mp hg with rfl
      have hOkA := hSound.segmentOk ha
      have hOkB := hSound.segmentOk hb
      refine ⟨⟨?_, ?_⟩, ?_, hOkA.header, ?_⟩
      · show s'.get a.address .length = a.length + 32 + b.length
        rw [hLengthA]
        omega
      · unfold isFree
        rw [Segment.join, hKept a ha .isFree (by simp) (by simp)]
        exact hOkA.fields.2
      · have hModA := hOkA.sized
        have hModB := hOkB.sized
        simp only [Segment.join]
        omega
      · intro _ x hLow hHigh
        simp only [Segment.join, Segment.size] at hLow hHigh
        by_cases hx : x < a.address + a.size
        · exact hOkA.free hFreeA x hLow hx
        · exact hOkB.free hFree x (by omega) (by omega)
  simpa using hJoined

end Joining

section Marking

variable {guarded : Nat → Prop} {s : SegmentHeap} {pre post : List Segment} {a : Segment}

open SegmentHeap

theorem Sound.mark (hSound : Sound guarded s (pre ++ a :: post)) (v : Bool)
    (hClear : v = true → Unguarded guarded a.address a.size) :
    Sound guarded (s.set a.address .isFree v.toNat) (pre ++ { a with free := v } :: post) := by
  have ha : a ∈ pre ++ a :: post := by simp
  have hOther : ∀ g ∈ pre ++ a :: post, ∀ f, (g.address = a.address → f ≠ .isFree) →
    (s.set a.address .isFree v.toNat).get g.address f = s.get g.address f :=
    fun g hg f hf => get_set_other s _ (hSound.place hg ha) hf
  have hFlag : (s.set a.address .isFree v.toNat).isFree a.address = v := by
    unfold isFree
    rw [get_set_self s _ .isFree (by cases v <;> decide)]
    cases v <;> rfl
  have hOld : Sound guarded s (pre ++ [a] ++ post) := by
    simpa using hSound
  have hExtent : SameExtent s (s.set a.address .isFree v.toNat) := ⟨rfl, rfl, rfl⟩
  have hMarked : Sound guarded (s.set a.address .isFree v.toNat)
      (pre ++ [{ a with free := v }] ++ post) := by
    apply hOld.replace hExtent
    · have hLinked : Linked (fun h => (s.set a.address .isFree v.toNat).get h .next)
          (fun h => (s.set a.address .isFree v.toNat).get h .last)
          0 ((pre ++ a :: post).map address) 0 := by
        apply hSound.linked.congr
        · intro c hc
          rcases mem_map.mp hc with ⟨g, hg, rfl⟩
          exact hOther g hg .next (by simp)
        intro c hc
        rcases mem_map.mp hc with ⟨g, hg, rfl⟩
        exact hOther g hg .last (by simp)
      simpa using hLinked
    · have hSame : (s.set a.address .isFree v.toNat).segments = s.segments := rfl
      rw [hSame]
      simpa using hSound.history
    · intro low high hOne
      exact hOne
    · intro g hg
      have hMem : g ∈ pre ++ a :: post := mem_middle hg
      apply (hSound.segmentOk hMem).congr
      · exact hOther g hMem .length (by simp)
      · exact hOther g hMem .isFree (fun hEq => (hSound.address_ne hg hEq).elim)
    · intro g hg
      rcases mem_singleton.mp hg with rfl
      have hOk := hSound.segmentOk ha
      refine ⟨⟨?_, hFlag⟩, hOk.sized, hOk.header, hClear⟩
      rw [hOther a ha .length (by simp)]
      exact hOk.fields.1
  simpa using hMarked

end Marking

section Splitting

variable {guarded : Nat → Prop} {s s' : SegmentHeap} {pre post : List Segment} {a : Segment}
variable {n : Nat}

open SegmentHeap

def Segment.front (a : Segment) (n : Nat) : Segment :=
  { a with length := n }

@[simp] theorem front_address : (a.front n).address = a.address :=
  rfl

def Segment.back (a : Segment) (n : Nat) : Segment :=
  ⟨a.address + n + 32, a.length - n - 32, a.free⟩

private theorem splitLength_cases {length : Nat} (hLength : length < 2 ^ 64)
    (hLengthMod : length % 16 = 0) (hMod : n % 16 = 0) (hLt : n < length) :
    int64 (sub64 (sub64 length n) headerSize) < 0x10 ∨ n + 48 ≤ length ∧
    sub64 (sub64 length n) headerSize = length - n - 32 := by
  rw [sub64_of_le (Nat.le_of_lt hLt) hLength]
  by_cases hRoom : n + 48 ≤ length
  · refine Or.inr ⟨hRoom, ?_⟩
    rw [headerSize]
    exact sub64_of_le (by omega) (by omega)
  refine Or.inl ?_
  unfold sub64 u64 int64 headerSize
  split <;> omega

def splitInto (s : SegmentHeap) (mode : LastUpdates) (a : Segment) (n next : Nat) : SegmentHeap :=
  let s := s.set next .last (a.back n).address
  let s := s.set (a.back n).address .next next
  let s := s.set a.address .next (a.back n).address
  let s := s.set (a.back n).address .last a.address
  let s := s.set (a.back n).address .length (a.back n).length
  let s := s.set (a.back n).address .isFree a.free.toNat
  let s := s.set a.address .length n
  (s.moveLast mode a.address (a.back n).address).created (a.back n).address

variable (hSound : Sound guarded s (pre ++ a :: post))

include hSound

private theorem back_apart (hRoom : n + 48 ≤ a.length) {g : Segment} (hg : g ∈ pre ++ a :: post) :
    Apart g.address (a.back n).address := by
  have ha : a ∈ pre ++ a :: post := by simp
  have hSize : a.size = 32 + a.length := rfl
  have hSizeG : g.size = 32 + g.length := rfl
  simp only [Apart, back]
  by_cases hEq : g = a
  · rw [hEq]
    omega
  · have hApart := hSound.tiled.apart hg ha hEq
    omega

private theorem split_eq (hMin : 16 ≤ n) (hMod : n % 16 = 0) (hLt : n < a.length)
    (mode : LastUpdates) : s.split mode a.address n = s ∨ n + 48 ≤ a.length ∧
    s.split mode a.address n = splitInto s mode a n (firstAddress post) := by
  have ha : a ∈ pre ++ a :: post := by simp
  have hBounds := hSound.bounds ha
  have hSize : a.size = 32 + a.length := rfl
  have hFields := hSound.fields a ha
  unfold split
  rw [if_neg (by omega), hFields.1, hSound.links.1]
  rcases splitLength_cases (by omega) (hSound.sized a ha).2 hMod hLt with hNo | ⟨hRoom, hLength⟩
  · exact .inl (if_pos hNo)
  by_cases hTest : int64 (sub64 (sub64 a.length n) headerSize) < 0x10
  · exact .inl (if_pos hTest)
  refine Or.inr ⟨hRoom, ?_⟩
  have hNew : u64 (a.address + n + headerSize) = (a.back n).address :=
    u64_of_lt (by simp only [headerSize]; omega)
  have hBack : (a.back n).length = a.length - n - 32 := rfl
  rw [hLength] at hTest
  have hFlag := hFields.2
  unfold isFree at hFlag
  simp [splitInto, hTest, hNew, hLength, hBack, isFree, hFlag, hSound.links.1,
    get_set_field _ _ (hSound.place_next ha),
    get_set_apart _ _ _ _ (back_apart hSound hRoom ha)]

private theorem splitInto_fields (hRoom : n + 48 ≤ a.length)
    (hStep : splitInto s mode a n (firstAddress post) = s') :
    (s'.get a.address .next = (a.back n).address ∧ s'.get a.address .length = n) ∧
    (s'.get (a.back n).address .next = firstAddress post ∧
    s'.get (a.back n).address .last = a.address ∧
    s'.get (a.back n).address .length = (a.back n).length ∧
    s'.isFree (a.back n).address = a.free) ∧
    (∀ c, post.head? = some c → s'.get c.address .last = (a.back n).address) ∧
    FieldsKept s s' a post (pre ++ a :: post) := by
  have ha : a ∈ pre ++ a :: post := by simp
  have hBounds := hSound.bounds ha
  have hSize : a.size = 32 + a.length := rfl
  have hBackAddress : (a.back n).address = a.address + n + 32 := rfl
  have hBackLength : (a.back n).length = a.length - n - 32 := rfl
  have hApart := back_apart hSound hRoom ha
  have hApart' := hApart.symm
  have hNextLt : firstAddress post < 2 ^ 64 := by
    rw [← hSound.links.1]
    exact s.get_lt a.address .next
  subst hStep
  refine ⟨⟨?_, ?_⟩, ⟨?_, ?_, ?_, ?_⟩, ?_, ?_⟩
  · simp (disch := first | omega | simp) [splitInto, get_set_apart _ _ _ _ hApart, get_set_word]
  · simp (disch := first | omega | simp) [splitInto, get_set_word]
  · simp (disch := first | omega | simp) [splitInto, get_set_apart _ _ _ _ hApart', get_set_word]
  · simp (disch := first | omega | simp) [splitInto, get_set_apart _ _ _ _ hApart', get_set_word]
  · simp (disch := first | omega | simp) [splitInto, get_set_apart _ _ _ _ hApart', get_set_word]
  · unfold isFree
    rw [splitInto, get_created, get_moveLast, get_set_apart _ _ _ _ hApart',
      get_set_self _ _ .isFree (by cases a.free <;> decide)]
    cases a.free <;> rfl
  · intro c hc
    have hcMem : c ∈ pre ++ a :: post := by
      simp [mem_of_head? hc]
    have hPlace := hSound.place hcMem ha
    have hBack := back_apart hSound hRoom hcMem
    simp (disch := first | omega | simp) [splitInto, get_set_field _ _ hPlace,
      get_set_apart _ _ _ _ hBack, firstAddress_of_head? hc, get_set_word]
  · intro g hg f hA hLast
    have hBack := back_apart hSound hRoom hg
    have hPlaceA := hSound.place hg ha
    rw [splitInto, get_created, get_moveLast, get_set_other _ _ hPlaceA (fun hEq => (hA hEq).2),
      get_set_apart _ _ _ _ hBack, get_set_apart _ _ _ _ hBack, get_set_apart _ _ _ _ hBack,
      get_set_other _ _ hPlaceA (fun hEq => (hA hEq).1), get_set_apart _ _ _ _ hBack,
      get_set_other _ _ (hSound.place_next hg) (fun hEq hField => hLast hField hEq)]

theorem Sound.split (hFreeA : a.free = true) (hMin : 16 ≤ n) (hMod : n % 16 = 0)
    (hLt : n < a.length) (hStep : s.split mode a.address n = s') : s' = s ∨ Sound guarded s'
    (pre ++ a.front n :: a.back n :: post) ∧ SameExtent s s' ∧ Spared guarded s s' ∧ s'.lastHdr =
    (if mode = .kept ∧ s.lastHdr = a.address then (a.back n).address else s.lastHdr) := by
  rcases split_eq hSound hMin hMod hLt mode with hNo | ⟨hRoom, hEq⟩
  · exact .inl (hStep.symm.trans hNo)
  rw [hEq] at hStep
  refine Or.inr ?_
  rcases splitInto_fields hSound hRoom hStep with
    ⟨⟨hNextA, hLengthA⟩, ⟨hNextB, hLastB, hLengthB, hFlagB⟩, hLastHead, hKept⟩
  have ha : a ∈ pre ++ a :: post := by simp
  have hOk := hSound.segmentOk ha
  have hSize : a.size = 32 + a.length := rfl
  have hBackAddress : (a.back n).address = a.address + n + 32 := rfl
  have hBackSize : (a.back n).size = 32 + (a.length - n - 32) := rfl
  have hExtent : SameExtent s s' := by
    rw [← hStep, splitInto, moveLast_eq]
    exact ⟨rfl, rfl, rfl⟩
  have hHeaderA := hOk.header
  have hHeaderB : Unguarded guarded (a.back n).address 32 := by
    intro x hLow hHigh
    exact hOk.free hFreeA x (by omega) (by omega)
  refine ⟨?_, hExtent, ?_, ?_⟩
  · have hOld : Sound guarded s (pre ++ [a] ++ post) := by
      simpa using hSound
    have hSplit : Sound guarded s' (pre ++ [a.front n, a.back n] ++ post) := by
      apply hOld.replace hExtent
      · simpa using hKept.splice [] [a.back n] hSound hNextA ⟨hNextB, hLastB, trivial⟩ hLastHead
      · have hHistory := hSound.history
        rw [map_append, map_cons] at hHistory
        have hSegments : s'.segments = (a.back n).address :: s.segments := by
          rw [← hStep, splitInto, moveLast_eq]
          rfl
        rw [hSegments]
        simpa using perm_insert_middle hHistory
      · intro low high hOne
        rcases hOne with ⟨hA, hEnd⟩
        simp only [Tiling, front, back, size] at hEnd hA ⊢
        omega
      · intro g hg
        exact hKept.segmentOk hSound hg
      · intro g hg
        rcases mem_cons.mp hg with rfl | hIn
        · refine ⟨⟨hLengthA, ?_⟩, ⟨hMin, hMod⟩, hHeaderA, ?_⟩
          · unfold isFree
            rw [front, hKept a ha .isFree (by simp) (by simp)]
            exact hOk.fields.2
          intro _ x hLow hHigh
          simp only [front, size] at hLow hHigh
          exact hOk.free hFreeA x hLow (by omega)
        rcases mem_singleton.mp hIn with rfl
        refine ⟨⟨hLengthB, hFlagB⟩, ?_, hHeaderB, ?_⟩
        · have hSized := hOk.sized
          simp only [back]
          omega
        · intro _ x hLow hHigh
          exact hOk.free hFreeA x (by omega) (by omega)
    simpa using hSplit
  · rw [← hStep]
    apply Spared.created
    apply Spared.moveLast
    apply Spared.set _ hHeaderA
    apply Spared.set _ hHeaderB
    apply Spared.set _ hHeaderB
    apply Spared.set _ hHeaderB
    apply Spared.set _ hHeaderA
    apply Spared.set _ hHeaderB
    exact Spared.refl.set hSound.next_unguarded _ _
  · rw [← hStep, splitInto, moveLast_eq]
    rfl

end Splitting

------ A New Segment at the End

section Appending

variable {guarded : Nat → Prop} {s s' : SegmentHeap} {pre : List Segment} {l : Segment}

open SegmentHeap

def grownSegment (s : SegmentHeap) (growth : Nat) : Segment :=
  ⟨s.heapTop, growth - 32, true⟩

def grown (s : SegmentHeap) (growth : Nat) : SegmentHeap :=
  let new := s.heapTop
  let s :=
    { s with heapEnd := s.heapTop + growth, heapTop := s.heapTop + growth }
  let s := s.set new .isFree 1
  let s := s.set new .last s.lastHdr
  let s := s.set s.lastHdr .next new
  let s := { s with lastHdr := new }
  let s := s.set new .next 0
  let s := s.set new .length (growth - 32)
  s.created new

variable {growth : Nat}

private theorem grown_fields (hSound : Sound guarded s (pre ++ [l])) (hLast : s.lastHdr = l.address)
    (hTop : s.heapTop + growth < 2 ^ 64) (hStep : grown s growth = s') :
    (s'.get s.heapTop .next = 0 ∧ s'.get s.heapTop .last = l.address ∧
    s'.get s.heapTop .length = growth - 32 ∧ s'.isFree s.heapTop = true) ∧
    s'.get l.address .next = s.heapTop ∧ ∀ g ∈ pre ++ [l], ∀ f,
    (g.address = l.address → f ≠ .next) → s'.get g.address f = s.get g.address f := by
  have hl : l ∈ pre ++ [l] := by simp
  have hBoundsL := hSound.bounds hl
  have hApart : ∀ g ∈ pre ++ [l], Apart g.address s.heapTop := by
    intro g hg
    have hBounds := hSound.bounds hg
    exact .inl (by omega)
  have hBack : Apart s.heapTop l.address := (hApart l hl).symm
  subst hStep
  -- the two record updates touch no header
  have hGet : ∀ h f, (grown s growth).get h f = (((((s.set s.heapTop .isFree 1).set
    s.heapTop .last l.address).set l.address .next s.heapTop).set
    s.heapTop .next 0).set s.heapTop .length (growth - 32)).get h f := by
    rw [← hLast]
    exact fun _ _ => rfl
  refine ⟨⟨?_, ?_, ?_, ?_⟩, ?_, ?_⟩
  · simp (disch := first | omega | simp) [hGet, get_set_word]
  · simp (disch := first | omega | simp) [hGet, get_set_apart _ _ _ _ hBack, get_set_word]
  · simp (disch := first | omega | simp) [hGet, get_set_word]
  · simp [isFree, hGet, get_set_apart _ _ _ _ hBack,
      get_set_self _ _ .isFree (show 1 < 256 ^ 1 by decide)]
  · simp (disch := first | omega | simp) [hGet, get_set_apart _ _ _ _ hBack.symm, get_set_word]
  · intro g hg f hf
    have hFar := hApart g hg
    simp [hGet, get_set_apart _ _ _ _ hFar, get_set_other _ _ (hSound.place hg hl) hf]

theorem Sound.append (hSound : Sound guarded s (pre ++ [l])) (hLast : s.lastHdr = l.address)
    (hMin : 48 ≤ growth) (hMod : growth % 16 = 0) (hTop : s.heapTop + growth < 2 ^ 64) :
    Sound guarded (grown s growth)
    (pre ++ l :: [grownSegment s growth]) ∧ Spared guarded s (grown s growth) := by
  rcases grown_fields hSound hLast hTop rfl with
    ⟨⟨hNextN, hLastN, hLengthN, hFlagN⟩, hNextL, hOther⟩
  have hl : l ∈ pre ++ [l] := by simp
  have hHeaderL := hSound.clear.header l hl
  have hHeaderN : Unguarded guarded s.heapTop 32 := fun x hLow _ => hSound.clear.past x hLow
  have hKept : FieldsKept s (grown s growth) l [] (pre ++ [l]) :=
    fun g hg f hf _ => hOther g hg f (fun hEq => (hf hEq).1)
  have hNewTop : (grown s growth).heapTop = s.heapTop + growth := rfl
  have hOk : ∀ g ∈ pre ++ l :: [grownSegment s growth], SegmentOk guarded (grown s growth) g := by
    intro g hg
    have hShape : pre ++ l :: [grownSegment s growth] =
      (pre ++ [l]) ++ grownSegment s growth :: [] := by
      simp
    rw [hShape] at hg
    rcases mem_middle_cases hg with rfl | hIn
    · refine ⟨⟨hLengthN, hFlagN⟩, ?_, hHeaderN, ?_⟩
      · simp only [grownSegment]
        omega
      · intro _ x hLow _
        exact hSound.clear.past x hLow
    rw [append_nil] at hIn
    apply (hSound.segmentOk hIn).congr
    · exact hOther g hIn .length (by simp)
    · exact hOther g hIn .isFree (by simp)
  constructor
  · refine ⟨?_, fun g hg => (hOk g hg).fields, ?_, fun g hg => (hOk g hg).sized, hSound.placed, ?_,
      ⟨rfl, hTop⟩, ?_, fun g hg => (hOk g hg).header,
      fun g hg => (hOk g hg).free, ?_, hSound.clear.below⟩
    · exact hKept.splice [] [grownSegment s growth] hSound hNextL ⟨hNextN, hLastN, trivial⟩
        (fun _ hHead => by cases hHead)
    · have hTiled := hSound.tiled
      rw [tiling_append] at hTiled ⊢
      rcases hTiled with ⟨mid, hPre, hL, hEnd⟩
      refine ⟨mid, hPre, hL, ?_⟩
      have hMid : mid + l.size = s.heapTop := hEnd
      have hSize : (grownSegment s growth).size = 32 + (growth - 32) := rfl
      refine ⟨hMid.symm, ?_⟩
      show mid + l.size + (grownSegment s growth).size = _
      omega
    · exact Nat.lt_of_lt_of_le hSound.room (Nat.le_add_right _ _)
    · have hHistory := hSound.history
      rw [map_append, map_cons] at hHistory
      rw [map_append, map_cons, map_cons]
      exact perm_insert_middle hHistory
    · intro x hx
      exact hSound.clear.past x (by omega)
  have hBase : Spared guarded s ({ s with
      heapEnd := s.heapTop + growth
      heapTop := s.heapTop + growth } : SegmentHeap) :=
    Spared.refl
  unfold grown
  apply Spared.created
  apply Spared.set _ hHeaderN
  apply Spared.set _ hHeaderN
  have hLinks := ((hBase.set hHeaderN .isFree 1).set hHeaderN .last
    s.lastHdr).set (hLast.symm ▸ hHeaderL) .next s.heapTop
  exact hLinks

end Appending

end Fennix
