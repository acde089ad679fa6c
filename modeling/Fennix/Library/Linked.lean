import Mathlib.Data.List.Nodup
import Mathlib.Logic.Relation

/-
  Doubly linked lists and tilings.

  A list of nodes is linked when each `next` leads to the following node and each `last` to the
  preceding one; what lies outside the list on either side is a parameter.
-/

section Links

variable {α : Type} {next last next' last' : α → α} {before after : α} {xs : List α} {a : α}
variable {pre post : List α} {b : α}

def Linked (next last : α → α) : α → List α → α → Prop
| _, [], _ => True
| before, a :: rest, after =>
  next a = rest.headD after ∧ last a = before ∧ Linked next last a rest after

theorem linked_append {ys : List α} : Linked next last before (xs ++ ys) after ↔
    Linked next last before xs (ys.headD after) ∧
    Linked next last (xs.getLastD before) ys after := by
  induction xs generalizing before with
  | nil => simp [Linked]
  | cons a xs ih =>
    have hHead : (xs ++ ys).headD after = xs.headD (ys.headD after) := by
      cases xs <;> rfl
    rw [List.cons_append, Linked, Linked, ih, hHead, List.getLastD_cons]
    tauto

section

variable (h : Linked next last before xs after) (hNext : ∀ a ∈ xs, next' a = next a)

include h hNext

theorem Linked.rebase {before' : α} (hHead : ∀ a, xs.head? = some a → last' a = before')
    (hLast : ∀ a ∈ xs, xs.head? ≠ some a → last' a = last a) (hNodup : xs.Nodup) :
    Linked next' last' before' xs after := by
  induction xs generalizing before before' with
  | nil => trivial
  | cons a xs ih =>
    rcases h with ⟨hn, _, hRest⟩
    rw [List.nodup_cons] at hNodup
    refine ⟨?_, hHead a rfl, ?_⟩
    · rw [hNext a List.mem_cons_self, hn]
    have hNe : ∀ b ∈ xs, (a :: xs).head? ≠ some b := by
      intro b hb hEq
      cases hEq
      exact hNodup.1 hb
    apply ih hRest
    · intro b hb
      exact hNext b (List.mem_cons_of_mem a hb)
    · intro b hb
      have hMem : b ∈ xs := List.mem_of_head? hb
      rw [hLast b (List.mem_cons_of_mem a hMem) (hNe b hMem)]
      cases xs with
      | nil => cases hb
      | cons c xs =>
        cases hb
        exact hRest.2.1
    · intro b hb _
      exact hLast b (List.mem_cons_of_mem a hb) (hNe b hb)
    · exact hNodup.2

theorem Linked.congr (hLast : ∀ a ∈ xs, last' a = last a) : Linked next' last' before xs after := by
  induction xs generalizing before with
  | nil => trivial
  | cons a xs ih =>
    rcases h with ⟨hn, hl, hRest⟩
    refine ⟨?_, ?_, ?_⟩
    · rw [hNext a List.mem_cons_self, hn]
    · rw [hLast a List.mem_cons_self, hl]
    · exact ih hRest (fun b hb => hNext b (List.mem_cons_of_mem a hb))
        (fun b hb => hLast b (List.mem_cons_of_mem a hb))

end

theorem Linked.at_mid (h : Linked next last before (pre ++ a :: post) after) :
    next a = post.headD after ∧ last a = pre.getLastD before :=
  ⟨(linked_append.mp h).2.1, (linked_append.mp h).2.2.1⟩

theorem Linked.reached {rest : List α} (h : Linked next last before (a :: rest) after)
    (hb : b ∈ a :: rest) : Relation.ReflTransGen (fun x y => y = next x ∧ y ∈ rest) a b := by
  induction rest generalizing before a with
  | nil =>
    rw [List.mem_singleton] at hb
    rw [hb]
  | cons c rest ih =>
    rcases h with ⟨hn, _, hRest⟩
    rcases List.mem_cons.mp hb with hEq | hIn
    · rw [hEq]
    have hFrom := ih hRest hIn
    refine Relation.ReflTransGen.head ⟨hn.symm, List.mem_cons_self⟩ ?_
    refine Relation.ReflTransGen.mono ?_ _ _ hFrom
    intro x y hxy
    exact ⟨hxy.1, List.mem_cons_of_mem c hxy.2⟩

theorem Linked.splice (old mid : List α)
    (h : Linked next last before (pre ++ a :: (old ++ post)) after)
    (hNodup : (pre ++ a :: (old ++ post)).Nodup) (hNextA : next' a = (mid ++ post).headD after)
    (hMid : Linked next' last' a mid (post.headD after))
    (hHead : ∀ c, post.head? = some c → last' c = mid.getLastD a)
    (hNext : ∀ c ∈ pre ++ a :: post, c ≠ a → next' c = next c)
    (hLast : ∀ c ∈ pre ++ a :: post, post.head? ≠ some c → last' c = last c) :
    Linked next' last' before (pre ++ a :: (mid ++ post)) after := by
  rcases List.nodup_append.mp hNodup with ⟨_, hNodupPost, hApart⟩
  rcases List.nodup_cons.mp hNodupPost with ⟨hA, hTail⟩
  have hA' : a ∉ post := fun hIn => hA (List.mem_append_right old hIn)
  have hNotHead : ∀ c, c ∉ post → post.head? ≠ some c := fun c hc hEq => hc (List.mem_of_head? hEq)
  rw [linked_append] at h ⊢
  rcases h with ⟨hPre, _, hl, hRest⟩
  refine ⟨?_, hNextA, ?_, linked_append.mpr ⟨hMid, ?_⟩⟩
  · apply hPre.congr
    · intro c hc
      exact hNext c (List.mem_append_left _ hc) (hApart c hc a List.mem_cons_self)
    intro c hc
    apply hLast c (List.mem_append_left _ hc)
    apply hNotHead
    intro hIn
    exact hApart c hc c (by simp [hIn]) rfl
  · rw [hLast a (by simp) (hNotHead a hA'), hl]
  · apply (linked_append.mp hRest).2.rebase
    · intro c hc
      exact hNext c (by simp [hc]) (ne_of_mem_of_not_mem hc hA')
    · exact hHead
    · intro c hc hNe
      exact hLast c (by simp [hc]) hNe
    · exact hTail.of_append_right

end Links

section Tiles

variable {α : Type} {place size : α → Nat} {start stop : Nat} {xs : List α} {a : α}

def Tiling (place size : α → Nat) : Nat → List α → Nat → Prop
| start, [], stop => start = stop
| start, a :: rest, stop =>
  place a = start ∧ Tiling place size (start + size a) rest stop

theorem tiling_append {ys : List α} : Tiling place size start (xs ++ ys) stop ↔
    ∃ mid, Tiling place size start xs mid ∧ Tiling place size mid ys stop := by
  induction xs generalizing start with
  | nil => simp [Tiling]
  | cons a xs ih =>
    rw [List.cons_append, Tiling, ih]
    simp only [Tiling]
    constructor
    · rintro ⟨ha, mid, hxs, hys⟩
      exact ⟨mid, ⟨ha, hxs⟩, hys⟩
    · rintro ⟨mid, ⟨ha, hxs⟩, hys⟩
      exact ⟨ha, mid, hxs, hys⟩

section

variable (h : Tiling place size start xs stop)

include h

theorem Tiling.le : start ≤ stop := by
  induction xs generalizing start with
  | nil => exact Nat.le_of_eq h
  | cons a xs ih =>
    have hRest := ih h.2
    omega

theorem Tiling.mem_bounds (ha : a ∈ xs) : start ≤ place a ∧ place a + size a ≤ stop := by
  induction xs generalizing start with
  | nil => cases ha
  | cons b xs ih =>
    rcases h with ⟨hb, hRest⟩
    rcases List.mem_cons.mp ha with hEq | hIn
    · have hLe := hRest.le
      rw [hEq]
      omega
    · have hBounds := ih hRest hIn
      omega

theorem Tiling.dvd_place {d : Nat} (hStart : d ∣ start)
    (hSize : ∀ a ∈ xs, d ∣ size a) (ha : a ∈ xs) : d ∣ place a := by
  induction xs generalizing start with
  | nil => cases ha
  | cons b xs ih =>
    rcases h with ⟨hb, hRest⟩
    rcases List.mem_cons.mp ha with hEq | hIn
    · rw [hEq, hb]
      exact hStart
    apply ih hRest _ _ hIn
    · exact Nat.dvd_add hStart (hSize b List.mem_cons_self)
    · intro c hc
      exact hSize c (List.mem_cons_of_mem b hc)

theorem Tiling.apart {b : α} (ha : a ∈ xs) (hb : b ∈ xs) (hNe : a ≠ b) :
    place a + size a ≤ place b ∨ place b + size b ≤ place a := by
  induction xs generalizing start with
  | nil => cases ha
  | cons c xs ih =>
    rcases h with ⟨hc, hRest⟩
    rcases List.mem_cons.mp ha with haEq | haIn
    · rcases List.mem_cons.mp hb with hbEq | hbIn
      · exact (hNe (haEq.trans hbEq.symm)).elim
      · rw [haEq, hc]
        exact .inl (hRest.mem_bounds hbIn).1
    rcases List.mem_cons.mp hb with hbEq | hbIn
    · rw [hbEq, hc]
      exact .inr (hRest.mem_bounds haIn).1
    · exact ih hRest haIn hbIn

theorem Tiling.nodup (hPos : ∀ a ∈ xs, 0 < size a) : (xs.map place).Nodup := by
  induction xs generalizing start with
  | nil => exact List.nodup_nil
  | cons a xs ih =>
    rw [List.map_cons, List.nodup_cons]
    constructor
    · intro hIn
      rcases List.mem_map.mp hIn with ⟨b, hb, hEq⟩
      have hLow := (h.2.mem_bounds hb).1
      have hSize := hPos a List.mem_cons_self
      have hPlace := h.1
      omega
    · exact ih h.2 (fun b hb => hPos b (List.mem_cons_of_mem a hb))

end

theorem Tiling.unique {ys : List α} (hx : Tiling place size start xs stop)
    (hy : Tiling place size start ys stop) (hPos : ∀ a, 0 < size a)
    (hPlace : ∀ a ∈ xs, ∀ b ∈ ys, place a = place b → a = b) : xs = ys := by
  induction xs generalizing start ys with
  | nil =>
    cases ys with
    | nil => rfl
    | cons b ys =>
      have hStop : start = stop := hx
      have hLe := hy.2.le
      have hSize := hPos b
      omega
  | cons a xs ih =>
    cases ys with
    | nil =>
      have hStop : start = stop := hy
      have hLe := hx.2.le
      have hSize := hPos a
      omega
    | cons b ys =>
      have hEq : a = b := hPlace a (by simp) b (by simp) (hx.1.trans hy.1.symm)
      subst hEq
      rw [ih hx.2 hy.2 (fun g hg k hk => hPlace g (by simp [hg]) k (by simp [hk]))]

theorem Tiling.replace {pre mid mid' post : List α}
    (h : Tiling place size start (pre ++ mid ++ post) stop)
    (hMid : ∀ low high, Tiling place size low mid high → Tiling place size low mid' high) :
    Tiling place size start (pre ++ mid' ++ post) stop := by
  rcases tiling_append.mp h with ⟨high, hLeft, hPost⟩
  rcases tiling_append.mp hLeft with ⟨low, hPre, hOld⟩
  rw [tiling_append]
  refine ⟨high, ?_, hPost⟩
  rw [tiling_append]
  exact ⟨low, hPre, hMid low high hOld⟩

end Tiles
