import Fennix.Heap.Edits

/-
  What allocation and release do to the list of segments.
-/

------ Neighbours and Last Headers

namespace Fennix

open List

variable {address n size fuel length : Nat}

open SegmentHeap

def Quiet (segs : List Segment) : Prop :=
  segs.IsChain (fun g k => ¬ (g.free = true ∧ k.free = true))

def Keeps (segs segs' : List Segment) : Prop :=
  ∀ g ∈ segs, g.free = false → g ∈ segs'

def LastIs (s : SegmentHeap) (segs : List Segment) : Prop :=
  s.lastHdr = lastAddress segs

variable {guarded : Nat → Prop} {s s' : SegmentHeap} {mode : LastUpdates}
variable {segs pre post : List Segment} {a b : Segment}

theorem quiet_middle_iff : Quiet (pre ++ a :: b :: post) ↔ Quiet (pre ++ [a]) ∧
    ¬ (a.free = true ∧ b.free = true) ∧ Quiet (b :: post) :=
  isChain_append_cons_cons

theorem quiet_cons_iff : Quiet (a :: b :: post) ↔
    ¬ (a.free = true ∧ b.free = true) ∧ Quiet (b :: post) :=
  isChain_cons_cons

theorem quiet_split_iff : Quiet (pre ++ a :: post) ↔ Quiet (pre ++ [a]) ∧ Quiet (a :: post) :=
  isChain_split

theorem Quiet.congr {segs segs' : List Segment} (hQuiet : Quiet segs)
    (hFlags : segs'.map Segment.free = segs.map Segment.free) : Quiet segs' := by
  unfold Quiet at *
  rw [← isChain_map (R := fun g k => ¬ (g = true ∧ k = true)) Segment.free] at hQuiet ⊢
  rw [hFlags]
  exact hQuiet

theorem lastAddress_middle (hSound : Sound guarded s (pre ++ a :: post)) :
    lastAddress (pre ++ a :: post) = a.address ↔ post = [] := by
  constructor
  · intro hLast
    by_contra hNe
    rw [lastAddress_append pre (by simp)] at hLast
    have hCons : a :: post = [a] ++ post := rfl
    rw [hCons, lastAddress_append [a] hNe] at hLast
    rcases lastAddress_mem hNe with ⟨g, hg, hEq⟩
    apply hSound.address_ne (mem_append_right pre hg)
    rw [← hEq, hLast]
  intro hNil
  rw [hNil, lastAddress_append pre (by simp)]
  rfl

theorem lastAddress_congr {segs segs' : List Segment}
    (h : segs.map Segment.address = segs'.map Segment.address) :
    lastAddress segs = lastAddress segs' := by
  unfold lastAddress
  rw [h]

theorem quiet_of_used (hPre : Quiet pre) (hPost : Quiet post) (hUsed : a.free = false) :
    Quiet (pre ++ a :: post) := by
  apply isChain_append.mpr
  refine ⟨hPre, ?_, ?_⟩
  · cases post with
    | nil => exact isChain_singleton a
    | cons c post =>
      refine quiet_cons_iff.mpr ⟨?_, hPost⟩
      rw [hUsed]
      simp
  intro x _ y hy
  cases hy
  rw [hUsed]
  simp

def HeadUsed (segs : List Segment) : Prop :=
  ∀ g, segs.head? = some g → g.free = false

theorem Quiet.headUsed (hQuiet : Quiet (a :: post)) (hFree : a.free = true) : HeadUsed post := by
  intro g hg
  cases post with
  | nil => cases hg
  | cons c post =>
    cases hg
    have hPair := (quiet_cons_iff.mp hQuiet).1
    simpa [hFree] using hPair

theorem HeadUsed.quiet_cons (hHead : HeadUsed post) (hQuiet : Quiet post) : Quiet (a :: post) := by
  cases post with
  | nil => exact isChain_singleton a
  | cons c post =>
    have hUsed := hHead c rfl
    refine quiet_cons_iff.mpr ⟨?_, hQuiet⟩
    rw [hUsed]
    simp

theorem Quiet.tail (hQuiet : Quiet (a :: post)) : Quiet post :=
  List.IsChain.tail hQuiet

structure Edited (guarded : Nat → Prop) (mode : LastUpdates) (s : SegmentHeap)
    (segs : List Segment) (s' : SegmentHeap) (segs' : List Segment) : Prop where
  sound : Sound guarded s' segs'
  extent : SameExtent s s'
  spared : Spared guarded s s'
  last : mode = .kept → LastIs s segs → LastIs s' segs'

theorem Edited.refl (hSound : Sound guarded s segs) : Edited guarded mode s segs s segs :=
  ⟨hSound, ⟨rfl, rfl, rfl⟩, Spared.refl, fun _ hLast => hLast⟩

theorem Edited.trans {s'' : SegmentHeap} {segs' segs'' : List Segment}
    (h : Edited guarded mode s segs s' segs') (h' : Edited guarded mode s' segs' s'' segs'') :
    Edited guarded mode s segs s'' segs'' :=
  ⟨h'.sound, h.extent.trans h'.extent, h.spared.trans h'.spared,
    fun hKept hLast => h'.last hKept (h.last hKept hLast)⟩

theorem Edited.mark (mode : LastUpdates) (hSound : Sound guarded s (pre ++ a :: post)) (v : Bool)
    (hClear : v = true → Unguarded guarded a.address a.size) :
    Edited guarded mode s (pre ++ a :: post) (s.set a.address .isFree v.toNat)
    (pre ++ { a with free := v } :: post) where
  sound := hSound.mark v hClear
  extent := ⟨rfl, rfl, rfl⟩
  spared := Spared.refl.set (hSound.clear.header a (by simp)) _ _
  last := fun _ hLast => hLast.trans (lastAddress_congr (by simp))

theorem LastIs.moved {pre' : List Segment} (hSound : Sound guarded s (pre ++ a :: post))
    (hMoved : s'.lastHdr = (if mode = .kept ∧ s.lastHdr = a.address then b.address else s.lastHdr))
    (hKept : mode = .kept) (hLast : LastIs s (pre ++ a :: post)) :
    LastIs s' (pre' ++ b :: post) := by
  have hEnd := lastAddress_middle hSound
  unfold LastIs at *
  rw [hMoved, hLast]
  by_cases hNil : post = []
  · rw [if_pos ⟨hKept, hEnd.mpr hNil⟩, hNil, lastAddress_append pre' (by simp)]
    rfl
  · rw [if_neg (fun hBoth => hNil (hEnd.mp hBoth.2)), append_cons pre a,
      append_cons pre' b, lastAddress_append _ hNil, lastAddress_append _ hNil]

theorem Edited.join (hSound : Sound guarded s (pre ++ a :: b :: post)) (hFreeA : a.free = true)
    (hFree : b.free = true) (hStep : s.combineForward mode a.address = s') :
    Edited guarded mode s (pre ++ a :: b :: post) s' (pre ++ a.join b :: post) := by
  rcases hSound.join hFreeA hFree hStep with ⟨hJoined, hExtent, hSpared, hMoved⟩
  refine ⟨hJoined, hExtent, hSpared, fun hKept hLast => ?_⟩
  rw [append_cons] at hSound hLast
  exact hLast.moved hSound hMoved hKept

theorem Edited.split (hSound : Sound guarded s (pre ++ a :: post)) (hFree : a.free = true)
    (hMin : 16 ≤ n) (hMod : n % 16 = 0) (hLt : n < a.length)
    (hStep : s.split mode a.address n = s') : s' = s ∨
    Edited guarded mode s (pre ++ a :: post) s' (pre ++ a.front n :: a.back n :: post) := by
  rcases hSound.split hFree hMin hMod hLt hStep with hNo | ⟨hSplit, hExtent, hSpared, hMoved⟩
  · exact .inl hNo
  refine Or.inr ⟨hSplit, hExtent, hSpared, fun hKept hLast => ?_⟩
  rw [append_cons]
  exact LastIs.moved hSound hMoved hKept hLast

------ Joining Neighbours

theorem combineBackward_joins {p : Segment} (hSound : Sound guarded s ((pre ++ [p]) ++ a :: post))
    (hFree : p.free = true) : s.combineBackward mode a.address =
    s.combineForward mode p.address := by
  have hp : p ∈ (pre ++ [p]) ++ a :: post := by simp
  have hBounds := hSound.bounds hp
  have hLast : lastAddress (pre ++ [p]) = p.address := lastAddress_append pre (by simp)
  rw [combineBackward, hSound.links.2, hLast]
  exact if_pos ⟨by omega, (hSound.fields p hp).2.trans hFree⟩

def LastUsed (segs : List Segment) : Prop :=
  ∀ g, segs.getLast? = some g → g.free = false

section

variable (hSound : Sound guarded s (pre ++ a :: post))

include hSound

theorem combineForward_stays (hHead : HeadUsed post) : s.combineForward mode a.address = s := by
  have hNext := hSound.links.1
  cases post with
  | nil =>
    rw [combineForward, hNext]
    exact if_pos rfl
  | cons b post =>
    have hb : b ∈ pre ++ a :: b :: post := by simp
    have hBounds := hSound.bounds hb
    have hFlag := (hSound.fields b hb).2
    have hNextB : s.get a.address .next = b.address := hNext
    have hNull : b.address ≠ 0 := by omega
    rw [combineForward, hNextB, if_neg hNull, if_pos]
    rw [hFlag]
    exact hHead b rfl

theorem combineBackward_stays (hLast : LastUsed pre) : s.combineBackward mode a.address = s := by
  have hLastLink := hSound.links.2
  rw [combineBackward, hLastLink]
  apply if_neg
  rcases eq_nil_or_concat' pre with rfl | ⟨xs, p, rfl⟩
  · exact fun hBoth => hBoth.1 rfl
  have hLastP : lastAddress (xs ++ [p]) = p.address := lastAddress_append xs (by simp)
  rw [hLastP, (hSound.fields p (by simp)).2, hLast p (by simp)]
  simp

theorem combineForward_spec (hFree : a.free = true) (hQuiet : Quiet post)
    (hStep : s.combineForward mode a.address = s') :
    ∃ c rest, Edited guarded mode s (pre ++ a :: post) s' (pre ++ c :: rest) ∧
    c.address = a.address ∧ c.free = true ∧ HeadUsed rest ∧ Quiet rest ∧ Keeps post rest := by
  by_cases hHead : HeadUsed post
  · rw [combineForward_stays hSound hHead] at hStep
    subst hStep
    exact ⟨a, post, .refl hSound, rfl, hFree, hHead, hQuiet, fun g hg _ => hg⟩
  cases post with
  | nil => exact (hHead (fun g hg => by cases hg)).elim
  | cons b post =>
    have hFreeB : b.free = true := by
      rw [← Bool.not_eq_false]
      intro hUsed
      apply hHead
      rintro _ ⟨⟩
      exact hUsed
    refine ⟨_, post, Edited.join hSound hFree hFreeB hStep, rfl, hFree, hQuiet.headUsed hFreeB,
      hQuiet.tail, ?_⟩
    intro g hg hUsed
    rcases mem_cons.mp hg with rfl | hIn
    · rw [hFreeB] at hUsed
      cases hUsed
    · exact hIn

theorem combineBackward_spec (hFree : a.free = true) (hPre : Quiet pre) (hHead : HeadUsed post)
    (hPost : Quiet post) (hStep : s.combineBackward mode a.address = s') :
    ∃ segs', Edited guarded mode s (pre ++ a :: post) s' segs' ∧ Quiet segs' ∧
    Keeps (pre ++ post) segs' := by
  have hTail : Quiet (a :: post) := hHead.quiet_cons hPost
  by_cases hLast : LastUsed pre
  · rw [combineBackward_stays hSound hLast] at hStep
    subst hStep
    refine ⟨_, .refl hSound, ?_, fun g hg _ => mem_middle hg⟩
    refine isChain_append.mpr ⟨hPre, hTail, fun p hp y _ hBoth => ?_⟩
    rw [hLast p hp] at hBoth
    cases hBoth.1
  rcases eq_nil_or_concat' pre with rfl | ⟨xs, p, rfl⟩
  · exact (hLast (fun g hg => by cases hg)).elim
  have hFreeP : p.free = true := by
    rw [← Bool.not_eq_false]
    intro hUsed
    apply hLast
    intro g hg
    rw [getLast?_concat] at hg
    cases hg
    exact hUsed
  rw [combineBackward_joins hSound hFreeP] at hStep
  rw [← append_cons] at hSound ⊢
  refine ⟨_, Edited.join hSound hFreeP hFree hStep, ?_, ?_⟩
  · rw [quiet_split_iff]
    refine ⟨?_, hHead.quiet_cons hPost⟩
    apply hPre.congr
    simp [Segment.join]
  intro g hg hUsed
  rw [← append_cons] at hg
  rcases mem_middle_cases hg with rfl | hRest
  · rw [hFreeP] at hUsed
    cases hUsed
  · exact mem_middle hRest

end

theorem Sound.free_eq {g : Segment} {segs : List Segment} (hSound : Sound guarded s segs)
    (hg : g ∈ segs) (mode : LastUpdates) : s.free mode (g.address + 32) =
    ((s.set g.address .isFree 1).combineForward mode
    g.address).combineBackward mode g.address := by
  have hBounds := hSound.bounds hg
  have hPlaced := hSound.placed.2
  have hSub : sub64 (g.address + 32) 32 = g.address + 32 - 32 := sub64_of_le (by omega) (by omega)
  rw [free, if_neg (by omega), headerSize, hSub, Nat.add_sub_cancel]

theorem free_spec (hSound : Sound guarded s (pre ++ a :: post)) (hQuiet : Quiet (pre ++ a :: post))
    (hUnguarded : Unguarded guarded a.address a.size) (hAddress : address = a.address + 32)
    (hStep : s.free mode address = s') :
    ∃ segs', Edited guarded mode s (pre ++ a :: post) s' segs' ∧ Quiet segs' ∧
    Keeps (pre ++ post) segs' := by
  -- quietness on either side of the segment
  rcases quiet_split_iff.mp hQuiet with ⟨hLeft, hRight⟩
  have hMarked := Edited.mark mode hSound true (fun _ => hUnguarded)
  rcases combineForward_spec hMarked.sound rfl hRight.tail rfl with
    ⟨c, rest, hJoined, hSame, hFree, hHead, hRest, hKeeps⟩
  have hBack : ((s.set a.address .isFree 1).combineForward mode
    a.address).combineBackward mode c.address = s' := by
    rw [← hStep, hAddress, hSound.free_eq (by simp), hSame]
  rcases combineBackward_spec hJoined.sound hFree (List.IsChain.left_of_append hLeft) hHead hRest
    hBack with ⟨segs', hEdited, hQuiet', hKeeps'⟩
  refine ⟨segs', (hMarked.trans hJoined).trans hEdited, hQuiet', ?_⟩
  intro g hg hUsed
  apply hKeeps' g _ hUsed
  rcases mem_append.mp hg with hIn | hIn
  · exact mem_append_left _ hIn
  · exact mem_append_right _ (hKeeps g hIn hUsed)

------ Taking a Segment

inductive Carved (n : Nat) (a : Segment) : List Segment → Prop
| whole : Carved n a [{ a with free := false }]
| front :
    n + 48 ≤ a.length → Carved n a [{ a.front n with free := false }, a.back n]

theorem take_carves (hSound : Sound guarded s (pre ++ a :: post)) (hFree : a.free = true)
    (hMin : 16 ≤ n) (hMod : n % 16 = 0) (hStep : s.take mode n a.address = s') :
    ∃ pieces, Carved n a pieces ∧
    Edited guarded mode s (pre ++ a :: post) s' (pre ++ pieces ++ post) := by
  have hWhole : s' = s.set a.address .isFree 0 → ∃ pieces, Carved n a pieces ∧
    Edited guarded mode s (pre ++ a :: post) s' (pre ++ pieces ++ post) := by
    rintro rfl
    refine ⟨_, .whole, ?_⟩
    rw [← append_cons]
    exact Edited.mark mode hSound false (fun h => by cases h)
  unfold SegmentHeap.take at hStep
  rw [(hSound.fields a (by simp)).1] at hStep
  by_cases hLt : a.length > n
  · rw [if_pos hLt] at hStep
    rcases Edited.split hSound hFree hMin hMod hLt rfl with hNo | hTwo
    · rw [hNo] at hStep
      exact hWhole hStep.symm
    have hBack : 16 ≤ a.length - n - 32 := (hTwo.sound.sized (a.back n) (by simp)).1
    refine ⟨_, .front (by omega), ?_⟩
    rw [← hStep, append_assoc]
    exact hTwo.trans (Edited.mark mode hTwo.sound false (fun h => by cases h))
  · rw [if_neg hLt] at hStep
    exact hWhole hStep.symm

theorem take_spec (hSound : Sound guarded s (pre ++ a :: post)) (hQuiet : Quiet (pre ++ a :: post))
    (hFree : a.free = true) (hMin : 16 ≤ n) (hMod : n % 16 = 0) (hLe : n ≤ a.length)
    (hStep : s.take mode n a.address = s') :
    ∃ segs' c, Edited guarded mode s (pre ++ a :: post) s' segs' ∧ Quiet segs' ∧
    Keeps (pre ++ post) segs' ∧ c ∈ segs' ∧ c.address = a.address ∧ c.free = false ∧
    n ≤ c.length := by
  rcases quiet_split_iff.mp hQuiet with ⟨hLeft, hRight⟩
  have hPre : Quiet pre := List.IsChain.left_of_append hLeft
  rcases take_carves hSound hFree hMin hMod hStep with ⟨pieces, hCarved, hEdited⟩
  cases hCarved with
  | whole =>
    rw [← append_cons] at hEdited
    exact ⟨_, { a with free := false }, hEdited, quiet_of_used hPre hRight.tail rfl,
      fun g hg _ => mem_middle hg, by simp, rfl, rfl, hLe⟩
  | front hRoom =>
    rw [append_assoc] at hEdited
    refine ⟨_, { a.front n with free := false }, hEdited, ?_, ?_, by simp, rfl, rfl, Nat.le_refl n⟩
    · exact quiet_of_used hPre ((hRight.headUsed hFree).quiet_cons hRight.tail) rfl
    · exact fun g hg _ => mem_middle (mem_middle hg)

def CanHold (size : Nat) (g : Segment) : Prop :=
  g.free = true ∧ size ≤ g.length

theorem Sound.fits_iff (size : Nat) (hSound : Sound guarded s segs) (ha : a ∈ segs) :
    s.fits size a.address = true ↔ CanHold size a := by
  rcases hSound.fields a ha with ⟨hLength, hFlag⟩
  simp [fits, CanHold, hLength, hFlag]

instance (size : Nat) (g : Segment) : Decidable (CanHold size g) :=
  inferInstanceAs (Decidable (_ ∧ _))

def firstFit (size : Nat) (segs : List Segment) : Option Nat :=
  (segs.find? (fun g => CanHold size g)).map Segment.address

theorem firstFit_cases (size : Nat) (segs : List Segment) :
    (∃ xs c ys, segs = xs ++ c :: ys ∧ CanHold size c ∧ (∀ g ∈ xs, ¬ CanHold size g) ∧
    firstFit size segs = some c.address) ∨
    (∀ g ∈ segs, ¬ CanHold size g) ∧ firstFit size segs = none := by
  unfold firstFit
  cases hFind : segs.find? (fun g => CanHold size g) with
  | none =>
    rw [find?_eq_none] at hFind
    exact .inr ⟨by simpa using hFind, rfl⟩
  | some c =>
    rcases find?_eq_some_iff_append.mp hFind with ⟨hHold, xs, ys, hShape, hFirst⟩
    exact .inl ⟨xs, c, ys, hShape, of_decide_eq_true hHold, by simpa using hFirst, rfl⟩

theorem search_cases (size fuel : Nat) (hSound : Sound guarded s (pre ++ a :: post)) :
    s.search size fuel a.address = some (firstFit size (a :: post)) ∨
    s.search size fuel a.address = none ∧ fuel < (a :: post).length := by
  induction fuel generalizing pre a post with
  | zero => exact .inr ⟨rfl, Nat.succ_pos _⟩
  | succ fuel ih =>
    have hFits := hSound.fits_iff size (a := a) (by simp)
    rw [search, firstFit, find?_cons]
    by_cases hHold : CanHold size a
    · rw [if_pos (hFits.mpr hHold), decide_eq_true hHold]
      exact .inl rfl
    rw [if_neg (fun h => hHold (hFits.mp h)), decide_eq_false hHold, hSound.links.1]
    cases post with
    | nil => exact .inl rfl
    | cons b post =>
      have hBounds := hSound.bounds (g := b) (by simp)
      have hNull : firstAddress (b :: post) ≠ 0 := show b.address ≠ 0 by omega
      rw [append_cons] at hSound
      rw [if_neg hNull]
      rcases ih hSound with hFound | ⟨hNone, hFuel⟩
      · exact .inl hFound
      · exact .inr ⟨hNone, Nat.succ_lt_succ hFuel⟩

theorem search_start (size fuel : Nat) (hSound : Sound guarded s segs) :
    s.search size fuel s.heapStart = some (firstFit size segs) ∨
    s.search size fuel s.heapStart = none ∧ fuel < segs.length := by
  cases segs with
  | nil => exact (hSound.ne_nil rfl).elim
  | cons f rest =>
    rw [← hSound.tiled.1]
    exact search_cases size fuel (show Sound guarded s ([] ++ f :: rest) from hSound)

private theorem roundPages_eq (hFit : alignUp length 4096 < 2 ^ 64) :
    roundPages length = alignUp length 4096 := by
  unfold alignUp at *
  unfold roundPages
  split
  · rw [u64_of_lt (by omega)]
    omega
  · omega

private theorem expandHeap_eq (hEnds : s.heapEnd = s.heapTop) (hPos : 0 < length)
    (hTop : s.heapTop + alignUp length 4096 < 2 ^ 64) : s.expandHeap mode length =
    (grown s (alignUp length 4096)).combineBackward mode
    (grownSegment s (alignUp length 4096)).address := by
  have hRound : roundPages length = alignUp length 4096 := roundPages_eq (by omega)
  have hPages : alignUp length 4096 / 4096 * 4096 = alignUp length 4096 := by
    unfold alignUp
    omega
  have hRoom : 32 ≤ alignUp length 4096 := by
    unfold alignUp
    omega
  have hSub : sub64 (alignUp length 4096) headerSize = alignUp length 4096 - 32 :=
    sub64_of_le hRoom (by omega)
  unfold expandHeap grown grownSegment
  simp only [hRound, hPages, hSub, hEnds, u64_of_lt hTop]

inductive Grows (top growth : Nat) : List Segment → List Segment → Prop
| append {xs : List Segment} {l : Segment} :
    l.free = false → Grows top growth (xs ++ [l]) (xs ++ [l, ⟨top, growth - 32, true⟩])
| extend {xs : List Segment} {l : Segment} :
    l.free = true → Grows top growth (xs ++ [l]) (xs ++ [l.join ⟨top, growth - 32, true⟩])

section

variable {top growth : Nat} {segs' : List Segment}

theorem Grows.quiet (hGrows : Grows top growth segs segs') (hQuiet : Quiet segs) : Quiet segs' := by
  cases hGrows with
  | append hUsed =>
    refine quiet_middle_iff.mpr ⟨hQuiet, ?_, ?_⟩
    · rw [hUsed]
      simp
    · exact isChain_singleton _
  | extend hFree =>
    apply hQuiet.congr
    simp [Segment.join]

theorem Grows.keeps (hGrows : Grows top growth segs segs') : Keeps segs segs' := by
  intro g hg hUsed
  cases hGrows with
  | append _ =>
    rw [append_cons]
    exact mem_append_left _ hg
  | extend hFree =>
    rcases mem_middle_cases hg with rfl | hIn
    · rw [hFree] at hUsed
      cases hUsed
    · exact mem_middle hIn

end

section

variable (hSound : Sound guarded s segs) (hLast : LastIs s segs) (hMin : 16 ≤ length)
variable (hTop : s.heapTop + alignUp length 4096 < 2 ^ 64) (hStep : s.expandHeap mode length = s')

include hSound hLast hMin hTop hStep

theorem expandHeap_grows : ∃ segs',
    Grows s.heapTop (alignUp length 4096) segs segs' ∧ Sound guarded s' segs' ∧
    s'.heapStart = s.heapStart ∧ Spared guarded s s' ∧
    (mode = .kept ∨ s.isFree s.lastHdr = false → LastIs s' segs') := by
  rcases eq_nil_or_concat' segs with rfl | ⟨xs, l, rfl⟩
  · exact (hSound.ne_nil rfl).elim
  have hLastL : s.lastHdr = l.address := hLast.trans (lastAddress_append xs (by simp))
  have hLow : 48 ≤ alignUp length 4096 ∧ alignUp length 4096 % 16 = 0 := by
    unfold alignUp
    omega
  rw [expandHeap_eq hSound.ends.1 (by omega) hTop] at hStep
  rcases hSound.append hLastL hLow.1 hLow.2 hTop with ⟨hGrown, hSpared⟩
  have hLastG : LastIs (grown s (alignUp length 4096))
    (xs ++ l :: [grownSegment s (alignUp length 4096)]) := by
    rw [LastIs, lastAddress_append xs (by simp)]
    rfl
  have hShift := hGrown
  rw [append_cons] at hShift
  cases hFreeL : l.free with
  | false =>
    have hUsed : LastUsed (xs ++ [l]) := by
      intro g hg
      rw [getLast?_concat] at hg
      cases hg
      exact hFreeL
    rw [combineBackward_stays hShift hUsed] at hStep
    subst hStep
    exact ⟨_, .append hFreeL, hGrown, rfl, hSpared, fun _ => hLastG⟩
  | true =>
    rw [combineBackward_joins hShift hFreeL] at hStep
    have hJoined := Edited.join hGrown hFreeL rfl hStep
    refine ⟨_, .extend hFreeL, hJoined.sound, hJoined.extent.1, hSpared.trans hJoined.spared, ?_⟩
    rintro (hKept | hUsed)
    · exact hJoined.last hKept hLastG
    · rw [hLastL, (hSound.fields l (by simp)).2, hFreeL] at hUsed
      cases hUsed

theorem expandHeap_spec : ∃ segs',
    Grows s.heapTop (alignUp length 4096) segs segs' ∧ Sound guarded s' segs' ∧
    s'.heapStart = s.heapStart ∧ Spared guarded s s' ∧
    ((∃ g ∈ segs', CanHold length g) ∨ (LastIs s' segs' ∧ s'.isFree s'.lastHdr = true) ∧
    s.isFree s.lastHdr = false ∧ alignUp length 4096 < length + 32) ∧
    (mode = .kept → LastIs s' segs') := by
  rcases expandHeap_grows hSound hLast hMin hTop hStep with
    ⟨segs', hGrows, hSound', hStart, hSpared, hLast'⟩
  refine ⟨segs', hGrows, hSound', hStart, hSpared, ?_, fun hKept => hLast' (.inl hKept)⟩
  have hLow : length ≤ alignUp length 4096 := by
    unfold alignUp
    omega
  generalize alignUp length 4096 = growth at *
  cases hGrows with
  | @append xs l hUsed =>
    by_cases hEnough : length + 32 ≤ growth
    · exact .inl ⟨⟨s.heapTop, growth - 32, true⟩, by simp, rfl, Nat.le_sub_of_add_le hEnough⟩
    have hUsedLast : s.isFree s.lastHdr = false := by
      rw [hLast.trans (lastAddress_append xs (cons_ne_nil l []))]
      exact (hSound.fields l (by simp)).2.trans hUsed
    have hLastNew := hLast' (.inr hUsedLast)
    refine Or.inr ⟨⟨hLastNew, ?_⟩, hUsedLast, by omega⟩
    rw [hLastNew.trans (lastAddress_append xs (by simp))]
    exact (hSound'.fields ⟨s.heapTop, growth - 32, true⟩ (by simp)).2
  | @extend xs l hFree =>
    refine Or.inl ⟨_, mem_append_right xs mem_cons_self, hFree, ?_⟩
    simp only [Segment.join]
    omega

end

theorem roundSize_cases (hSize : size < 2 ^ 64) : roundSize size = 0 ∨
    16 ≤ roundSize size ∧ roundSize size % 16 = 0 ∧
    size ≤ roundSize size ∧ roundSize size < 2 ^ 64 := by
  unfold roundSize
  unfold u64
  dsimp only
  split <;> split <;> omega

theorem roundSize_rounded (hMin : 16 ≤ size) (hMod : size % 16 = 0) : roundSize size = size := by
  unfold roundSize
  dsimp only
  split <;> split <;> omega

def CanServe (s : SegmentHeap) (segs : List Segment) (size : Nat) : Prop :=
  (∃ g ∈ segs, CanHold size g) ∨ LastIs s segs

theorem malloc_first (hSound : Sound guarded s segs)
    (hMalloc : malloc mode (fuel + 1) s size = some (address, s')) :
    (roundSize size = 0 ∧ address = 0 ∧ s' = s) ∨ roundSize size ≠ 0 ∧
    ((∃ xs c ys, segs = xs ++ c :: ys ∧ CanHold (roundSize size) c ∧
    (∀ g ∈ xs, ¬ CanHold (roundSize size) g) ∧ address = c.address + 32 ∧
    s.take mode (roundSize size) c.address = s') ∨
    (∀ g ∈ segs, ¬ CanHold (roundSize size) g) ∧ malloc mode fuel
    (s.expandHeap mode (roundSize size)) (roundSize size) = some (address, s')) := by
  have hStart := hSound.placed.2
  unfold malloc at hMalloc
  rw [if_neg (by omega)] at hMalloc
  dsimp only at hMalloc
  by_cases hZero : roundSize size = 0
  · rw [if_pos hZero] at hMalloc
    cases hMalloc
    exact .inl ⟨hZero, rfl, rfl⟩
  rw [if_neg hZero] at hMalloc
  refine Or.inr ⟨hZero, ?_⟩
  rcases search_start (roundSize size) (fuel + 1) hSound with hSearch | ⟨hSearch, _⟩
  · rw [hSearch] at hMalloc
    rcases firstFit_cases (roundSize size) segs with
      ⟨xs, c, ys, hShape, hHold, hFirst, hAnswer⟩ | ⟨hNone, hAnswer⟩
    · rw [hAnswer] at hMalloc
      have hPair := Prod.mk.inj (Option.some.inj hMalloc)
      refine Or.inl ⟨xs, c, ys, hShape, hHold, hFirst, ?_, hPair.2⟩
      rw [hShape] at hSound
      have hBounds := hSound.bounds (g := c) (by simp)
      rw [← hPair.1, headerSize]
      exact u64_of_lt (by omega)
    · rw [hAnswer] at hMalloc
      exact .inr ⟨hNone, hMalloc⟩
  · rw [hSearch] at hMalloc
    cases hMalloc

theorem malloc_heapTop (hMalloc : malloc mode fuel s size = some (address, s')) :
    s.heapTop ≤ s'.heapTop := by
  induction fuel generalizing s size with
  | zero => cases hMalloc
  | succ fuel ih =>
    unfold malloc at hMalloc
    split at hMalloc
    · cases hMalloc
      exact Nat.le_refl _
    dsimp only at hMalloc
    split at hMalloc
    · cases hMalloc
      exact Nat.le_refl _
    split at hMalloc
    · cases hMalloc
    · cases hMalloc
      rw [take_heapTop]
    · apply Nat.le_trans _ (ih hMalloc)
      rw [expandHeap_heapTop]
      exact Nat.le_add_right _ _

theorem malloc_expanded_lt {n : Nat}
    (hAgain : malloc mode fuel (s.expandHeap mode n) size = some (address, s'))
    (hTop : s'.heapTop < 2 ^ 64) : s.heapTop + alignUp n 4096 < 2 ^ 64 := by
  have hGrow := malloc_heapTop hAgain
  rw [expandHeap_heapTop] at hGrow
  exact Nat.lt_of_le_of_lt hGrow hTop

structure Served (guarded : Nat → Prop) (mode : LastUpdates) (s : SegmentHeap) (segs : List Segment)
    (size address : Nat) (s' : SegmentHeap) (segs' : List Segment) (a : Segment) : Prop where
  sound : Sound guarded s' segs'
  quiet : Quiet segs'
  keeps : Keeps segs segs'
  mem : a ∈ segs'
  used : a.free = false
  address : address = a.address + 32
  size : size ≤ a.length
  fresh : ∀ g ∈ segs, g.free = false → g.address ≠ a.address
  start : s'.heapStart = s.heapStart
  spared : Spared guarded s s'
  last : mode = .kept → LastIs s segs → LastIs s' segs'

theorem malloc_spec (hSound : Sound guarded s segs) (hQuiet : Quiet segs)
    (hServe : roundSize size ≠ 0 → CanServe s segs (roundSize size)) (hSize : size < 2 ^ 64)
    (hMalloc : malloc mode fuel s size = some (address, s')) (hTop : s'.heapTop < 2 ^ 64) :
    (roundSize size = 0 ∧ address = 0 ∧ s' = s) ∨ ∃ segs' a,
    Served guarded mode s segs size address s' segs' a := by
  induction fuel generalizing s segs size with
  | zero => cases hMalloc
  | succ fuel ih =>
    rcases malloc_first hSound hMalloc with
      hNull | ⟨hZero, ⟨xs, c, ys, hShape, ⟨hFree, hFits⟩, _, hAddress, hStep⟩ | ⟨hNone, hAgain⟩⟩
    · exact .inl hNull
    · -- a segment is taken
      refine Or.inr ?_
      rcases roundSize_cases hSize with hWraps | ⟨hMin, hMod, hLe, _⟩
      · exact (hZero hWraps).elim
      rw [hShape] at hSound hQuiet ⊢
      rcases take_spec hSound hQuiet hFree hMin hMod hFits hStep with
        ⟨segs', d, hEdited, hQuiet', hKeeps, hd, hSame, hUsed, hLong⟩
      refine ⟨segs', d, hEdited.sound, hQuiet', ?_, hd, hUsed, ?_, Nat.le_trans hLe hLong, ?_,
        hEdited.extent.1, hEdited.spared, hEdited.last⟩
      · intro g hg hInUse
        rcases mem_middle_cases hg with hEq | hIn
        · rw [hEq, hFree] at hInUse
          cases hInUse
        · exact hKeeps g hIn hInUse
      · rw [hAddress, hSame]
      · intro g hg hInUse hEq
        rw [hSame] at hEq
        have hgc := hSound.eq_of_address hg (by simp) hEq
        rw [hgc, hFree] at hInUse
        cases hInUse
    · -- the heap grows, and it starts again
      refine Or.inr ?_
      rcases roundSize_cases hSize with hWraps | ⟨hMin, hMod, hLe, hLt⟩
      · exact (hZero hWraps).elim
      have hRounded := roundSize_rounded hMin hMod
      have hLast : LastIs s segs := by
        rcases hServe hZero with ⟨g, hg, hHold⟩ | hLast
        · exact (hNone g hg hHold).elim
        · exact hLast
      have hBound := malloc_expanded_lt hAgain hTop
      rcases expandHeap_spec hSound hLast hMin hBound rfl with
        ⟨segs₁, hGrows, hSound₁, hStart₁, hSpared₁, hServe₁, hLast₁⟩
      have hKeeps₁ := hGrows.keeps
      have hServeAgain : CanServe (s.expandHeap mode (roundSize size))
        segs₁ (roundSize (roundSize size)) := by
        rw [hRounded]
        rcases hServe₁ with hHold | ⟨⟨hLastIs, _⟩, _⟩
        · exact .inl hHold
        · exact .inr hLastIs
      rcases ih hSound₁ (hGrows.quiet hQuiet) (fun _ => hServeAgain) hLt hAgain with
        ⟨hWraps, _⟩ | ⟨segs', a, hServed⟩
      · rw [hRounded] at hWraps
        exact (hZero hWraps).elim
      refine ⟨segs', a, hServed.sound, hServed.quiet,
        ?_, hServed.mem, hServed.used, hServed.address, Nat.le_trans hLe hServed.size, ?_,
        hServed.start.trans hStart₁, hSpared₁.trans hServed.spared, ?_⟩
      · intro g hg hInUse
        exact hServed.keeps g (hKeeps₁ g hg hInUse) hInUse
      · intro g hg hInUse
        exact hServed.fresh g (hKeeps₁ g hg hInUse) hInUse
      · intro hKept _
        exact hServed.last hKept (hLast₁ hKept)

end Fennix
