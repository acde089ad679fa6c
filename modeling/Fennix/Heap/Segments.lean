import Fennix.Heap.SegmentHeap
import Fennix.Library.Linked
import Mathlib.Data.List.Chain

/-
  The segments a heap consists of.

  A heap state stands for a list of segments: the headers in memory hold their lengths and flags and
  link them in both directions, and together they tile the heap.
-/

namespace Fennix

open List

variable {h : Nat}

namespace SegmentHeap

variable (s : SegmentHeap)

def Apart (h w : Nat) : Prop :=
  h + 32 ≤ w ∨ w + 32 ≤ h

variable {w : Nat}

theorem Apart.symm (hApart : Apart h w) : Apart w h :=
  Or.symm hApart

theorem get_set (f g : HeaderField) (v : Nat) (hPlace : h = w ∨ Apart h w) :
    (s.set w f v).get h g = if h = w ∧ g = f then v % 256 ^ f.width
    else s.get h g := by
  have hRange : ∀ f : HeaderField, f.offset + f.width ≤ 32 := by
    intro f
    cases f <;> decide
  have hFields : f ≠ g → f.offset + f.width ≤ g.offset ∨ g.offset + g.width ≤ f.offset := by
    intro hNe
    cases f <;> cases g <;>
      first
        | exact (hNe rfl).elim
        | decide
  have hf := hRange f
  have hg := hRange g
  unfold get set
  by_cases hSame : h = w ∧ g = f
  · rcases hSame with ⟨rfl, rfl⟩
    rw [if_pos ⟨rfl, rfl⟩]
    exact Memory.load_store_same _ _ _ _
  rw [if_neg hSame]
  apply Memory.load_store_other
  rcases hPlace with hEq | hApart
  · subst hEq
    have hNe : f ≠ g := fun hEq => hSame ⟨rfl, hEq.symm⟩
    have hDisjoint := hFields hNe
    omega
  · simp only [Apart] at hApart
    omega

variable {v : Nat}

theorem get_set_self (h : Nat) (f : HeaderField) (hv : v < 256 ^ f.width) :
    (s.set h f v).get h f = v := by
  rw [get_set s f f v (.inl rfl), if_pos ⟨rfl, rfl⟩]
  exact Nat.mod_eq_of_lt hv
variable {f : HeaderField}

theorem get_set_word (h : Nat) (hField : f ≠ .isFree) (hv : v < 2 ^ 64) :
    (s.set h f v).get h f = v := by
  refine get_set_self s h f ?_
  cases f with
  | isFree => exact (hField rfl).elim
  | length => exact hv
  | next => exact hv
  | last => exact hv

theorem get_set_other {g : HeaderField} (v : Nat) (hPlace : h = w ∨ Apart h w)
    (hOther : h = w → g ≠ f) : (s.set w f v).get h g = s.get h g := by
  rw [get_set s f g v hPlace, if_neg]
  exact fun hBoth => hOther hBoth.1 hBoth.2

theorem get_set_field {g : HeaderField} (v : Nat) (hPlace : h = w ∨ Apart h w) (hField : g ≠ f) :
    (s.set w f v).get h g = s.get h g :=
  get_set_other s v hPlace (fun _ => hField)

@[simp] theorem get_set_ne (h : Nat) {g : HeaderField} (v : Nat) (hField : g ≠ f) :
    (s.set h f v).get h g = s.get h g :=
  get_set_field s v (.inl rfl) hField

theorem get_set_apart (f g : HeaderField) (v : Nat) (hApart : Apart h w) :
    (s.set w f v).get h g = s.get h g := by
  refine get_set_other s v (.inr hApart) ?_
  simp only [Apart] at hApart
  omega

theorem get_lt (h : Nat) (f : HeaderField) : s.get h f < 2 ^ 64 := by
  have hLoad := s.memory.load_lt (h + f.offset) f.width
  have hWidth : 256 ^ f.width ≤ 2 ^ 64 := by
    cases f <;> decide
  exact Nat.lt_of_lt_of_le hLoad hWidth

theorem moveLast_eq (mode : LastUpdates) (old new : Nat) : s.moveLast mode old new = { s with
    lastHdr :=
          if mode = .kept ∧ s.lastHdr = old then new
          else s.lastHdr } := by
  unfold moveLast
  split <;> rfl

@[simp] theorem get_moveLast (mode : LastUpdates) (old new h : Nat)
    (f : HeaderField) : (s.moveLast mode old new).get h f = s.get h f := by
  rw [moveLast_eq]
  rfl

@[simp] theorem get_created (n h : Nat) (f : HeaderField) : (s.created n).get h f = s.get h f :=
  rfl

@[simp] theorem get_joined (n h : Nat) (f : HeaderField) : (s.joined n).get h f = s.get h f :=
  rfl

@[simp] theorem set_heapTop (h : Nat) (f : HeaderField) (v : Nat) :
    (s.set h f v).heapTop = s.heapTop :=
  rfl

@[simp] theorem moveLast_heapTop (mode : LastUpdates) (old new : Nat) :
    (s.moveLast mode old new).heapTop = s.heapTop := by
  rw [moveLast_eq]

@[simp] theorem created_heapTop (h : Nat) : (s.created h).heapTop = s.heapTop :=
  rfl

@[simp] theorem joined_heapTop (h : Nat) : (s.joined h).heapTop = s.heapTop :=
  rfl

section

variable (mode : LastUpdates)

@[simp] theorem combineForward_heapTop (h : Nat) :
    (s.combineForward mode h).heapTop = s.heapTop := by
  unfold combineForward
  dsimp only
  split
  · rfl
  split
  · rfl
  rw [joined_heapTop, set_heapTop, set_heapTop]
  split
  · rw [set_heapTop, moveLast_heapTop]
  · rw [moveLast_heapTop]

@[simp] theorem combineBackward_heapTop (h : Nat) :
    (s.combineBackward mode h).heapTop = s.heapTop := by
  unfold combineBackward
  dsimp only
  split
  · exact combineForward_heapTop _ _ _
  · rfl

@[simp] theorem free_heapTop (address : Nat) : (s.free mode address).heapTop = s.heapTop := by
  unfold SegmentHeap.free
  dsimp only
  split
  · rfl
  · rw [combineBackward_heapTop, combineForward_heapTop, set_heapTop]

@[simp] theorem split_heapTop (h n : Nat) : (s.split mode h n).heapTop = s.heapTop := by
  unfold SegmentHeap.split
  dsimp only
  split
  · rfl
  split
  · rfl
  simp only [created_heapTop, moveLast_heapTop, set_heapTop]

@[simp] theorem take_heapTop (n h : Nat) : (s.take mode n h).heapTop = s.heapTop := by
  unfold SegmentHeap.take
  split
  · rw [set_heapTop, split_heapTop]
  · rfl

@[simp] theorem expandHeap_heapTop (length : Nat) :
    (s.expandHeap mode length).heapTop = s.heapTop + alignUp length 4096 := by
  unfold expandHeap
  simp only [combineBackward_heapTop, created_heapTop, set_heapTop]

end

end SegmentHeap

structure Segment where
  address : Nat
  length : Nat
  free : Bool
deriving DecidableEq, Repr

namespace Segment

def size (g : Segment) : Nat :=
  32 + g.length

end Segment

def Unguarded (guarded : Nat → Prop) (a n : Nat) : Prop :=
  ∀ x, a ≤ x → x < a + n → ¬ guarded x

def Spared (guarded : Nat → Prop) (s s' : SegmentHeap) : Prop :=
  ∃ new, s'.written = new ++ s.written ∧ ∀ e ∈ new, Unguarded guarded e.1 e.2

structure Clear (guarded : Nat → Prop) (start top : Nat) (segs : List Segment) : Prop where
  header : ∀ g ∈ segs, Unguarded guarded g.address 32
  free : ∀ g ∈ segs, g.free = true → Unguarded guarded g.address g.size
  past : ∀ x, top ≤ x → ¬ guarded x
  below : ∀ x, x < start → ¬ guarded x

structure Sound (guarded : Nat → Prop) (s : SegmentHeap) (segs : List Segment) : Prop where
  linked : Linked (fun h => s.get h .next) (fun h => s.get h .last) 0 (segs.map Segment.address) 0
  fields : ∀ g ∈ segs, s.get g.address .length = g.length ∧ s.isFree g.address = g.free
  tiled : Tiling Segment.address Segment.size s.heapStart segs s.heapTop
  sized : ∀ g ∈ segs, 16 ≤ g.length ∧ g.length % 16 = 0
  placed : s.heapStart % 16 = 0 ∧ 32 ≤ s.heapStart
  room : s.heapStart < s.heapTop
  ends : s.heapEnd = s.heapTop ∧ s.heapTop < 2 ^ 64
  history : s.segments.Perm (segs.map Segment.address)
  clear : Clear guarded s.heapStart s.heapTop segs

section Facts

variable {guarded : Nat → Prop} {s s' s'' : SegmentHeap} {segs : List Segment} {g k : Segment}

theorem Spared.refl : Spared guarded s s :=
  ⟨[], rfl, fun _ he => by cases he⟩

theorem Spared.trans (h : Spared guarded s s') (h' : Spared guarded s' s'') :
    Spared guarded s s'' := by
  rcases h with ⟨new, hNew, hUnguarded⟩
  rcases h' with ⟨new', hNew', hUnguarded'⟩
  refine ⟨new' ++ new, ?_, ?_⟩
  · rw [hNew', hNew, append_assoc]
  intro e he
  rcases mem_append.mp he with hIn | hIn
  · exact hUnguarded' e hIn
  · exact hUnguarded e hIn

section

variable (hPrev : Spared guarded s s')

include hPrev

theorem Spared.set (hHeader : Unguarded guarded h 32) (f : HeaderField) (v : Nat) :
    Spared guarded s (s'.set h f v) := by
  rcases hPrev with ⟨new, hNew, hUnguarded⟩
  refine ⟨(h + f.offset, f.width) :: new, ?_, ?_⟩
  · rw [cons_append, ← hNew]
    rfl
  intro e he
  rcases mem_cons.mp he with hEq | hOld
  · rw [hEq]
    intro x hLow hHigh
    have hRange : f.offset + f.width ≤ 32 := by
      cases f <;> decide
    dsimp only at hLow hHigh
    exact hHeader x (by omega) (by omega)
  · exact hUnguarded e hOld

theorem Spared.joined (h : Nat) : Spared guarded s (s'.joined h) :=
  hPrev

theorem Spared.created (h : Nat) : Spared guarded s (s'.created h) :=
  hPrev

theorem Spared.moveLast (mode : LastUpdates) (old new : Nat) :
    Spared guarded s (s'.moveLast mode old new) := by
  rw [SegmentHeap.moveLast_eq]
  exact hPrev

end

variable (hSound : Sound guarded s segs)

include hSound

theorem Sound.bounds (hg : g ∈ segs) : 32 ≤ g.address ∧ g.address + 48 ≤ g.address + g.size ∧
    g.address + g.size ≤ s.heapTop ∧ s.heapTop < 2 ^ 64 := by
  have hBounds := hSound.tiled.mem_bounds hg
  have hSize := (hSound.sized g hg).1
  have hLow := hSound.placed.2
  have hTop := hSound.ends.2
  simp only [Segment.size] at *
  omega

theorem Sound.ne_nil : segs ≠ [] := by
  intro hNil
  have hTiled := hSound.tiled
  have hRoom := hSound.room
  rw [hNil] at hTiled
  have hEq : s.heapStart = s.heapTop := hTiled
  omega

theorem Sound.place (hg : g ∈ segs) (hk : k ∈ segs) :
    g.address = k.address ∨ SegmentHeap.Apart g.address k.address := by
  by_cases hEq : g = k
  · exact .inl (by rw [hEq])
  have hApart := hSound.tiled.apart hg hk hEq
  simp only [Segment.size] at hApart
  exact .inr (by simp only [SegmentHeap.Apart]; omega)

theorem Sound.nodup : (segs.map Segment.address).Nodup := by
  apply hSound.tiled.nodup
  intro g _
  simp only [Segment.size]
  omega

theorem Sound.eq_of_address (hg : g ∈ segs) (hk : k ∈ segs) (hEq : g.address = k.address) :
    g = k := by
  by_contra hNe
  have hApart := hSound.tiled.apart hg hk hNe
  simp only [Segment.size] at hApart
  omega

theorem Sound.apart_null (hg : g ∈ segs) : SegmentHeap.Apart g.address 0 := by
  have hBounds := hSound.bounds hg
  simp only [SegmentHeap.Apart]
  omega

theorem Sound.null_unguarded : Unguarded guarded 0 32 := by
  intro x _ hx
  have hLow := hSound.placed.2
  exact hSound.clear.below x (by omega)

end Facts

def firstAddress (segs : List Segment) : Nat :=
  (segs.map Segment.address).headD 0

theorem firstAddress_of_head? {segs : List Segment} {c : Segment} (hHead : segs.head? = some c) :
    firstAddress segs = c.address := by
  cases segs with
  | nil => cases hHead
  | cons d segs =>
    cases hHead
    rfl

def lastAddress (segs : List Segment) : Nat :=
  (segs.map Segment.address).getLastD 0

theorem lastAddress_append (xs : List Segment) {ys : List Segment} (hNe : ys ≠ []) :
    lastAddress (xs ++ ys) = lastAddress ys := by
  unfold lastAddress
  rw [map_append, getLastD_eq_getLast?, getLastD_eq_getLast?,
    getLast?_append_of_ne_nil _ (by simpa using hNe)]

theorem lastAddress_mem {segs : List Segment} (hNe : segs ≠ []) :
    ∃ g ∈ segs, lastAddress segs = g.address := by
  rcases eq_nil_or_concat segs with hNil | ⟨xs, g, rfl⟩
  · exact (hNe hNil).elim
  refine ⟨g, by simp, ?_⟩
  rw [concat_eq_append, lastAddress_append xs (by simp)]
  rfl

section Neighbours

variable {guarded : Nat → Prop} {s : SegmentHeap} {pre post : List Segment} {a : Segment}

theorem Sound.links (hSound : Sound guarded s (pre ++ a :: post)) :
    s.get a.address .next = firstAddress post ∧ s.get a.address .last = lastAddress pre := by
  have hLinked := hSound.linked
  rw [map_append, map_cons] at hLinked
  exact hLinked.at_mid

theorem Sound.neighbour {b : Segment} (hSound : Sound guarded s (pre ++ a :: b :: post)) :
    b.address = a.address + a.size := by
  rcases tiling_append.mp hSound.tiled with ⟨mid, _, ha, hb, _⟩
  omega

theorem Sound.address_ne (hSound : Sound guarded s (pre ++ a :: post)) {g : Segment}
    (hg : g ∈ pre ++ post) : g.address ≠ a.address := by
  have hNodup := hSound.nodup
  rw [map_append, map_cons, nodup_middle, nodup_cons, ← map_append] at hNodup
  intro hEq
  apply hNodup.1
  rw [← hEq]
  exact mem_map_of_mem hg

theorem firstAddress_cases (post : List Segment) : post = [] ∧ firstAddress post = 0 ∨
    ∃ c ∈ post, post.head? = some c ∧ firstAddress post = c.address := by
  cases post with
  | nil => exact .inl ⟨rfl, rfl⟩
  | cons c post =>
    exact .inr ⟨c, mem_cons_self, rfl, rfl⟩

theorem Sound.ne_firstAddress {segs : List Segment} (hSound : Sound guarded s segs) {g : Segment}
    (hg : g ∈ segs) (hHead : (post.map Segment.address).head? ≠ some g.address) :
    g.address ≠ firstAddress post := by
  intro hEq
  rcases firstAddress_cases post with ⟨_, hNull⟩ | ⟨c, _, hc, hNext⟩
  · have hBounds := hSound.bounds hg
    omega
  · apply hHead
    rw [head?_map, hc, Option.map_some, hEq, hNext]

theorem Sound.place_next (hSound : Sound guarded s (pre ++ a :: post)) {g : Segment}
    (hg : g ∈ pre ++ a :: post) : g.address = firstAddress post ∨
    SegmentHeap.Apart g.address (firstAddress post) := by
  rcases firstAddress_cases post with ⟨_, hNull⟩ | ⟨c, hc, _, hNext⟩
  · rw [hNull]
    exact .inr (hSound.apart_null hg)
  · rw [hNext]
    exact hSound.place hg (by simp [hc])

theorem Sound.next_unguarded (hSound : Sound guarded s (pre ++ a :: post)) :
    Unguarded guarded (firstAddress post) 32 := by
  rcases firstAddress_cases post with ⟨_, hNull⟩ | ⟨c, hc, _, hNext⟩
  · rw [hNull]
    exact hSound.null_unguarded
  · rw [hNext]
    exact hSound.clear.header c (by simp [hc])

end Neighbours

end Fennix
