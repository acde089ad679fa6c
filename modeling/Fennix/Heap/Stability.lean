import Fennix.Heap.Expansions

/-
  Blocks of the default heap that are freed at once.
-/

namespace Fennix

open SegmentHeap List Option Run
open Relation

------ Carving And Joining

variable {s s' s'' : SegmentHeap} {segs segs' pre post pieces : List Segment} {a : Segment}
variable {n : Nat}

theorem Quiet.lastUsed (hQuiet : Quiet (pre ++ [a])) (hFree : a.free = true) : LastUsed pre := by
  intro g hg
  rcases eq_nil_or_concat pre with hNil | ⟨xs, p, hEq⟩
  · rw [hNil] at hg
    cases hg
  rw [concat_eq_append] at hEq
  subst hEq
  rw [getLast?_concat] at hg
  cases hg
  have hShape : xs ++ [g] ++ [a] = xs ++ g :: a :: [] := by
    simp
  rw [hShape, quiet_middle_iff] at hQuiet
  rw [← Bool.not_eq_true]
  exact fun hFreeG => hQuiet.2.1 ⟨hFreeG, hFree⟩

theorem Segment.front_join_back (hRoom : n + 48 ≤ a.length) : (a.front n).join (a.back n) = a := by
  rcases a with ⟨address, length, free⟩
  simp only [Segment.join, Segment.front, Segment.back, Segment.mk.injEq, and_true,
    true_and] at hRoom ⊢
  omega

private theorem unguarded_all (g : Segment) : Unguarded (fun _ => False) g.address g.size :=
  fun _ _ _ hFalse => hFalse

theorem free_restores (hSound : Sound (fun _ => False) s (pre ++ pieces ++ post))
    (hLast : LastIs s (pre ++ pieces ++ post)) (hCarved : Carved n a pieces)
    (hQuiet : Quiet (pre ++ a :: post)) (hFree : a.free = true) :
    Sound (fun _ => False) (s.free .kept (a.address + 32)) (pre ++ a :: post) ∧
    LastIs (s.free .kept (a.address + 32)) (pre ++ a :: post) := by
  rcases quiet_split_iff.mp hQuiet with ⟨hLeft, hRight⟩
  -- the piece that is marked is the whole segment, or it is joined to the other piece
  obtain ⟨g, rest, hShape, hAddress, hForward⟩ : ∃ g rest, pieces ++ post = g :: rest ∧
      g.address = a.address ∧
      ∀ t, Sound (fun _ => False) t (pre ++ { g with free := true } :: rest) →
        Edited (fun _ => False) .kept t (pre ++ { g with free := true } :: rest)
          (t.combineForward .kept a.address) (pre ++ a :: post) := by
    cases hCarved with
    | whole =>
      refine ⟨{ a with free := false }, post, rfl, rfl, fun t ht => ?_⟩
      have hSame : ({ a with free := true } : Segment) = a := by
        rw [← hFree]
      dsimp only at ht ⊢
      rw [hSame] at ht ⊢
      rw [combineForward_stays ht (hRight.headUsed hFree)]
      exact .refl ht
    | front hRoom =>
      refine ⟨{ a.front n with free := false }, a.back n :: post, rfl, rfl, fun t ht => ?_⟩
      have hSame : ({ a.front n with free := true } : Segment) = a.front n := by
        rw [← hFree]
        rfl
      dsimp only at ht ⊢
      rw [hSame] at ht ⊢
      have hJoined := Edited.join ht hFree hFree (rfl : t.combineForward .kept _ = _)
      rwa [Segment.front_join_back hRoom] at hJoined
  rw [append_assoc, hShape] at hSound hLast
  have hMarked := Edited.mark .kept hSound true (fun _ => unguarded_all _)
  have hJoined := hMarked.trans (hForward _ hMarked.sound)
  have hEq := hSound.free_eq (g := g) (by simp) .kept
  rw [hAddress] at hEq hJoined
  rw [hEq.trans (combineBackward_stays hJoined.sound (hLeft.lastUsed hFree))]
  exact ⟨hJoined.sound, hJoined.last rfl hLast⟩

def FirstFit (n : Nat) (segs : List Segment) (h : Nat) : Prop :=
  ∃ pre a post, segs = pre ++ a :: post ∧ CanHold n a ∧ (∀ g ∈ pre, ¬ CanHold n g) ∧ a.address = h

variable {h : Nat}

theorem firstFit_iff : FirstFit n segs h ↔ firstFit n segs = some h := by
  unfold firstFit
  rw [map_eq_some_iff]
  constructor
  · rintro ⟨pre, a, post, hShape, hHold, hFirst, hAddress⟩
    refine ⟨a, find?_eq_some_iff_append.mpr ⟨decide_eq_true hHold, pre, post, hShape, ?_⟩,
      hAddress⟩
    simpa using hFirst
  rintro ⟨a, hFind, hAddress⟩
  rcases find?_eq_some_iff_append.mp hFind with ⟨hHold, pre, post, hShape, hFirst⟩
  exact ⟨pre, a, post, hShape, of_decide_eq_true hHold, by simpa using hFirst, hAddress⟩

theorem FirstFit.unique {h' : Nat} (hFit : FirstFit n segs h) (hFit' : FirstFit n segs h') :
    h = h' :=
  some.inj ((firstFit_iff.mp hFit).symm.trans (firstFit_iff.mp hFit'))

theorem FirstFit.grows {top growth : Nat} (hFit : FirstFit n segs h)
    (hGrows : Grows top growth segs segs') : FirstFit n segs' h := by
  rw [firstFit_iff, firstFit, map_eq_some_iff] at hFit ⊢
  rcases hFit with ⟨a, hFind, hAddress⟩
  cases hGrows with
  | @append xs l _ =>
    refine ⟨a, ?_, hAddress⟩
    rw [append_cons, find?_append, hFind]
    rfl
  | @extend xs l _ =>
    rw [find?_append] at hFind ⊢
    cases hBefore : xs.find? (fun g => CanHold n g) with
    | some b =>
      rw [hBefore] at hFind
      exact ⟨a, hFind, hAddress⟩
    | none =>
      -- the last segment is the one that fits
      rw [hBefore, none_or, find?_singleton] at hFind
      rw [none_or, find?_singleton]
      split at hFind
      · rename_i hHold
        cases hFind
        have hGrown : CanHold n (a.join ⟨top, growth - 32, true⟩) := by
          have hLength := (of_decide_eq_true hHold).2
          refine ⟨(of_decide_eq_true hHold).1, ?_⟩
          simp only [Segment.join]
          omega
        exact ⟨_, if_pos (decide_eq_true hGrown), hAddress⟩
      · cases hFind

structure Settled (s : SegmentHeap) (segs : List Segment) : Prop where
  sound : Sound (fun _ => False) s segs
  quiet : Quiet segs
  last : LastIs s segs

def Grown : List Segment → List Segment → Prop :=
  ReflTransGen (fun segs segs' => ∃ top growth, Grows top growth segs segs')

theorem FirstFit.grown (hFit : FirstFit n segs h) (hGrown : Grown segs segs') :
    FirstFit n segs' h := by
  induction hGrown with
  | refl => exact hFit
  | tail _ hGrows ih =>
    rcases hGrows with ⟨top, growth, hGrows⟩
    exact ih.grows hGrows

variable {size address : Nat}

theorem malloc_carves {fuel : Nat} (hSettled : Settled s segs) (hSize : size < 2 ^ 64)
    (hZero : roundSize size ≠ 0) (hMalloc : malloc .kept fuel s size = some (address, s'))
    (hTop : s'.heapTop < 2 ^ 64) : ∃ pre a post pieces, Grown segs (pre ++ a :: post) ∧
    Quiet (pre ++ a :: post) ∧ CanHold (roundSize size) a ∧
    (∀ g ∈ pre, ¬ CanHold (roundSize size) g) ∧ address = a.address + 32 ∧
    Carved (roundSize size) a pieces ∧ Sound (fun _ => False) s'
    (pre ++ pieces ++ post) ∧ LastIs s' (pre ++ pieces ++ post) := by
  induction fuel generalizing s segs size with
  | zero => cases hMalloc
  | succ fuel ih =>
    rcases roundSize_cases hSize with hWraps | ⟨hMin, hMod, _, hLt⟩
    · exact (hZero hWraps).elim
    rcases malloc_first hSettled.sound hMalloc with ⟨hWraps, _, _⟩ |
      ⟨_, ⟨pre, a, post, rfl, hHold, hFirst, hAddress, hStep⟩ | ⟨_, hAgain⟩⟩
    · exact (hZero hWraps).elim
    · rcases take_carves hSettled.sound hHold.1 hMin hMod hStep with ⟨pieces, hCarved, hEdited⟩
      exact ⟨pre, a, post, pieces, ReflTransGen.refl,
        hSettled.quiet, hHold, hFirst, hAddress, hCarved,
        hEdited.sound, hEdited.last rfl hSettled.last⟩
    · have hBound := malloc_expanded_lt hAgain hTop
      rcases expandHeap_grows hSettled.sound hSettled.last hMin hBound rfl with
        ⟨segs₁, hGrows, hSound₁, _, _, hLast₁⟩
      have hSettled₁ : Settled _ segs₁ :=
        ⟨hSound₁, hGrows.quiet hSettled.quiet, hLast₁ (.inl rfl)⟩
      have hRounded := roundSize_rounded hMin hMod
      rcases ih hSettled₁ hLt (by rwa [hRounded]) hAgain with ⟨pre, a, post, pieces, hGrown, hRest⟩
      rw [hRounded] at hRest
      exact ⟨pre, a, post, pieces, hGrown.head ⟨_, _, hGrows⟩, hRest⟩

theorem Settled.malloc_firstFit (hSettled : Settled s segs) (hSize : size < 2 ^ 64)
    (hZero : roundSize size ≠ 0) (hFit : FirstFit (roundSize size) segs h) :
    (∃ fuel s', malloc .kept fuel s size = some (h + 32, s')) ∧
    ∀ fuel address s', malloc .kept fuel s size = some (address, s') → address = h + 32 := by
  have hAnswer : ∀ fuel address s', malloc .kept fuel s size = some (address, s') →
    address = h + 32 := by
    intro fuel address s' hMalloc
    cases fuel with
    | zero => cases hMalloc
    | succ fuel =>
      rcases malloc_first hSettled.sound hMalloc with ⟨hWraps, _, _⟩ |
        ⟨_, ⟨pre, a, post, hShape, hHold, hFirst, hAddress, _⟩ | ⟨hNone, _⟩⟩
      · exact (hZero hWraps).elim
      · have hSame := hFit.unique ⟨pre, a, post, hShape, hHold, hFirst, rfl⟩
        rw [hAddress, hSame]
      · rcases hFit with ⟨pre, a, post, hShape, hHold, _, _⟩
        exact (hNone a (by rw [hShape]; simp) hHold).elim
  refine ⟨?_, hAnswer⟩
  rcases roundSize_cases hSize with hWraps | ⟨hMin, hMod, _, _⟩
  · exact (hZero hWraps).elim
  have hRounded := roundSize_rounded hMin hMod
  have hHold : ∃ g ∈ segs, CanHold (roundSize size) g := by
    rcases hFit with ⟨pre, a, post, hShape, hHold, _, _⟩
    exact ⟨a, by rw [hShape]; simp, hHold⟩
  rcases mallocCalls_of_hold .kept hSettled.sound hRounded hMin hHold with
    ⟨fuel, address, s', hCall, _⟩
  rw [mallocCalls_rounded hRounded] at hCall
  have hMalloc : malloc .kept fuel s size = some (address, s') := by
    rw [malloc_eq_mallocCalls, hCall, map_some]
  rw [hAnswer fuel address s' hMalloc] at hMalloc
  exact ⟨fuel, s', hMalloc⟩

------ Stable Addresses

def PayloadWrite (c : HeapClients) (w : Nat × BitVec 8) (c' : HeapClients) : Prop :=
  DefaultStep c (.write w.1 w.2) c'

def MallocFree (c : HeapClients) (r : Nat × Nat) (c' : HeapClients) : Prop :=
  ∃ mid writes used, DefaultStep c (.malloc r.1 r.2) mid ∧ Run PayloadWrite mid writes used ∧
        DefaultStep used (.free r.2) c'

variable {c c' c₁ c₂ : HeapClients}

structure Kept (c : HeapClients) (segs : List Segment) : Prop where
  consistent : Consistent c segs
  last : LastIs c.heap segs

theorem Kept.settled (hKept : Kept c segs) : Settled c.heap segs :=
  ⟨hKept.consistent.sound, hKept.consistent.quiet, hKept.last⟩

variable {writes : List (Nat × BitVec 8)}

theorem payloadWrites_heapTop (hRun : Run PayloadWrite c writes c') :
    c'.heap.heapTop = c.heap.heapTop := by
  refine invariant (P := fun d : HeapClients => d.heap.heapTop = c.heap.heapTop) rfl ?_ hRun
  intro d w d' hSame hWrite
  rw [← hSame, hWrite.2.1]

theorem Kept.payloadWrites (hKept : Kept c segs) (hRun : Run PayloadWrite c writes c') :
    Kept c' segs := by
  refine invariant (P := fun d => Kept d segs) hKept ?_ hRun
  intro d w d' hd hWrite
  have hStepped : Stepped .kept d segs d' segs := hd.consistent.write hWrite
  exact ⟨hStepped.consistent, hStepped.last rfl hd.last⟩

variable {r : Nat × Nat}

theorem MallocFree.heapTop_le (hRound : MallocFree c r c') : c.heap.heapTop ≤ c'.heap.heapTop := by
  rcases hRound with ⟨mid, writes, used, hMalloc, hRun, hFree⟩
  have hMid := HeapEvent.Does.heapTop_le hMalloc
  have hUsed := HeapEvent.Does.heapTop_le hFree
  rw [payloadWrites_heapTop hRun] at hUsed
  exact Nat.le_trans hMid hUsed

theorem Sound.unique (hSound : Sound (fun _ => False) s segs)
    (hSound' : Sound (fun _ => False) s segs') : segs = segs' := by
  refine hSound.tiled.unique hSound'.tiled ?_ ?_
  · intro g
    simp only [Segment.size]
    omega
  intro g hg k hk hPlace
  rcases hSound.fields g hg with ⟨hLength, hFree⟩
  rcases hSound'.fields k hk with ⟨hLength', hFree'⟩
  rw [hPlace] at hLength hFree
  cases g
  cases k
  simp_all only

theorem Kept.mallocFree (hKept : Kept c segs) (hRound : MallocFree c r c')
    (hTop : c'.heap.heapTop < 2 ^ 64) : ∃ segs' h, Grown segs segs' ∧ Kept c' segs' ∧
    r.1 < 2 ^ 64 ∧ roundSize r.1 ≠ 0 ∧ FirstFit (roundSize r.1) segs' h ∧ r.2 = h + 32 := by
  rcases hRound with ⟨mid, writes, used, hDoes, hRun, hFree⟩
  have hMidTop : mid.heap.heapTop < 2 ^ 64 := by
    rw [← payloadWrites_heapTop hRun]
    exact Nat.lt_of_le_of_lt (HeapEvent.Does.heapTop_le hFree) hTop
  rcases hKept.consistent.malloc (fun _ => Or.inr hKept.last) hDoes hMidTop with ⟨segs₁, hStepped⟩
  have hMid : Kept mid segs₁ := ⟨hStepped.consistent, hStepped.last rfl hKept.last⟩
  have hUsed := hMid.payloadWrites hRun
  rcases hDoes with ⟨hSize, ⟨fuel, hMalloc⟩, _⟩
  -- the block freed is not null, so the call was served
  have hNonnull : r.2 ≠ 0 := by
    rcases hFree with ⟨⟨b, hb, hBlock⟩, _⟩
    rcases hUsed.consistent.held b hb with ⟨g, _, _, hPlace, _⟩
    omega
  have hZero : roundSize r.1 ≠ 0 := by
    intro hWraps
    cases fuel with
    | zero => cases hMalloc
    | succ fuel =>
      rcases malloc_first hKept.consistent.sound hMalloc with ⟨_, hAnswer, _⟩ | ⟨hNo, _⟩
      · exact hNonnull hAnswer
      · exact hNo hWraps
  rcases malloc_carves hKept.settled hSize hZero hMalloc hMidTop with
    ⟨pre, a, post, pieces, hGrown, hQuiet, hHold, hFirst, hAddress, hCarved, hSound₁, _⟩
  have hSegs : segs₁ = pre ++ pieces ++ post := hMid.consistent.sound.unique hSound₁
  subst hSegs
  have hRestored := free_restores hUsed.consistent.sound hUsed.last hCarved hQuiet hHold.1
  rw [← hAddress, ← hFree.2.1] at hRestored
  rcases hUsed.consistent.free hFree with ⟨segs₂, hStepped₂⟩
  have hSegs₂ : segs₂ = pre ++ a :: post := hStepped₂.consistent.sound.unique hRestored.1
  rw [hSegs₂] at hStepped₂
  exact ⟨_, a.address, hGrown, ⟨hStepped₂.consistent, hRestored.2⟩, hSize, hZero,
    ⟨pre, a, post, rfl, hHold, hFirst, rfl⟩, hAddress⟩

private theorem Kept.rounds {rounds : List (Nat × Nat)} (hKept : Kept c segs)
    (hRun : Run MallocFree c rounds c') : c'.heap.heapTop < 2 ^ 64 →
    ∃ segs', Grown segs segs' ∧ Kept c' segs' := by
  induction hRun with
  | nil =>
    intro _
    exact ⟨segs, ReflTransGen.refl, hKept⟩
  | snoc _ hLast ih =>
    intro hTop
    rcases ih (Nat.lt_of_le_of_lt hLast.heapTop_le hTop) with ⟨segs₁, hGrown₁, hKept₁⟩
    rcases hKept₁.mallocFree hLast hTop with ⟨segs₂, _, hGrown₂, hKept₂, _, _, _, _⟩
    exact ⟨segs₂, hGrown₁.trans hGrown₂, hKept₂⟩

theorem default_address_stable (m : Memory) {heapAddress pageCount : Nat}
    (hAligned : heapAddress % 4096 = 0) (hPages : 1 ≤ pageCount) {es : List HeapEvent}
    (hRun : Run DefaultStep ⟨initHeap m heapAddress pageCount, []⟩ es c) {n A : Nat}
    (hFirst : MallocFree c (n, A) c₁) {rounds : List (Nat × Nat)}
    (hRounds : Run MallocFree c₁ rounds c₂) (hTop : c₂.heap.heapTop < 2 ^ 64) :
    (∃ c₃, DefaultStep c₂ (.malloc n A) c₃) ∧
    ∀ A' c₃, DefaultStep c₂ (.malloc n A') c₃ → A' = A := by
  have hNonnull : heapAddress ≠ 0 := by
    -- nothing is handed out by a heap at the null address
    intro hZero
    subst hZero
    rcases hFirst with ⟨mid, writes, used, hMalloc, hWrites, ⟨b, hb, _⟩, _⟩
    have hMid := default_run_null (snoc hRun hMalloc)
    have hUsed : used.live = [] := invariant (P := fun d : HeapClients => d.live = [])
        (by rw [hMid]) (fun _ _ _ hNil hWrite => hWrite.2.2.trans hNil) hWrites
    rw [hUsed] at hb
    cases hb
  have hTop₁ : c₁.heap.heapTop < 2 ^ 64 := by
    refine Nat.lt_of_le_of_lt ?_ hTop
    exact invariant (P := fun c => c₁.heap.heapTop ≤ c.heap.heapTop) (Nat.le_refl _)
      (fun _ _ _ hLe hRound => Nat.le_trans hLe hRound.heapTop_le) hRounds
  rcases DefaultOk.run m hAligned hNonnull hPages hRun
    (Nat.lt_of_le_of_lt hFirst.heapTop_le hTop₁) with ⟨segs, hOk, hLast⟩
  rcases Kept.mallocFree ⟨hOk, hLast⟩ hFirst hTop₁ with
    ⟨segs₁, h, _, hKept₁, hSize, hZero, hFit, hAddress⟩
  rcases hKept₁.rounds hRounds hTop with ⟨segs₂, hGrown, hKept₂⟩
  rcases hKept₂.settled.malloc_firstFit hSize hZero (hFit.grown hGrown) with
    ⟨⟨fuel, s', hMalloc⟩, hAnswer⟩
  have hEq : A = h + 32 := hAddress
  constructor
  · rw [hEq]
    exact ⟨⟨s', if h + 32 = 0 then c₂.live
      else ⟨h + 32, n⟩ :: c₂.live⟩, hSize, ⟨fuel, hMalloc⟩,
      rfl⟩
  intro A' c₃ hStep
  rcases hStep with ⟨_, ⟨fuel', hMalloc'⟩, _⟩
  rw [hAnswer fuel' A' c₃.heap hMalloc', hEq]

private theorem mallocFree_after {live : List Block} (hSize : size < 2 ^ 64)
    (hAnswer : (malloc .kept 4 s size).map Prod.fst = some address) (hNonnull : address ≠ 0)
    (hFresh : live.filter (fun b => b.address ≠ address) = live) :
    MallocFree ⟨s, live⟩ (size, address) ⟨(afterMalloc .kept s size).free .kept address, live⟩ := by
  refine ⟨⟨afterMalloc .kept s size, ⟨address, size⟩ :: live⟩, [], _,
    ⟨hSize, malloc_afterMalloc hAnswer, (if_neg hNonnull).symm⟩, nil,
    ⟨⟨address, size⟩, by simp, rfl⟩, rfl, ?_⟩
  simpa using hFresh.symm

theorem default_address_stable_onePage : ∃ c₁ c₂, MallocFree c₁ (5000, 0x1000b0) c₂ ∧
    c₁.heap.heapTop < c₂.heap.heapTop ∧ ∃ c₃, DefaultStep c₂ (.malloc 24 0x1000b0) c₃ := by
  let s := afterMalloc .kept onePage 100
  let s₁ := (afterMalloc .kept s 24).free .kept 0x1000b0
  let s₂ := (afterMalloc .kept s₁ 5000).free .kept 0x1000b0
  have hRun : Run DefaultStep ⟨onePage, []⟩ [.malloc 100 0x100020] ⟨s, [⟨0x100020, 100⟩]⟩ := by
    apply snoc nil
    exact ⟨by decide, malloc_afterMalloc (by decide +kernel), rfl⟩
  have hFirst : MallocFree ⟨s, [⟨0x100020, 100⟩]⟩ (24, 0x1000b0) ⟨s₁, [⟨0x100020, 100⟩]⟩ :=
    mallocFree_after (by decide) (by decide +kernel) (by decide) (by decide)
  have hRound : MallocFree ⟨s₁, [⟨0x100020, 100⟩]⟩ (5000, 0x1000b0) ⟨s₂, [⟨0x100020, 100⟩]⟩ :=
    mallocFree_after (by decide) (by decide +kernel) (by decide) (by decide)
  have hTop : s₂.heapTop < 2 ^ 64 := by
    decide +kernel
  have hGrew : s₁.heapTop < s₂.heapTop := by
    decide +kernel
  have hStable := default_address_stable (fun _ => 0) (by decide) (by decide) hRun hFirst
    (snoc nil hRound) hTop
  exact ⟨_, _, hRound, hGrew, hStable.1⟩

end Fennix
