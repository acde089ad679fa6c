import Fennix.FileSystem.NodeLinks
import Fennix.FileSystem.NodePath

/-
  The traversal of a ustar archive in memory.

  Each entry is a header of 512 bytes and its data, padded to a multiple of 512.
-/

namespace Fennix

open List Option BitVec Virtual

namespace USTAR

------ Strings in Memory

def stringAt (m : Memory) : (fuel : Nat) → Nat → Option (List (BitVec 8))
| 0, _ => none
| fuel + 1, a =>
  if m a = 0 then some []
  else (stringAt m fuel (a + 1)).map (m a :: ·)

def headerSize : Nat := 512

def getsize (s : List (BitVec 8)) : BitVec 32 :=
  (s.foldl (fun ret c => ret * 8 + (c.signExtend 64 - 48)) (0 : BitVec 64)).setWidth 32

def string2int (s : List (BitVec 8)) : BitVec 32 :=
  s.foldl (fun res c => res * 10 + c.signExtend 32 - 48) 0

------ The Constructor

structure NodeAttributes where
  indexNode : Nat := 0
  mode : Nat := 0
  userIdentifier : Nat := 0
  groupIdentifier : Nat := 0
  address : Nat := 0
  length : Nat := 0
deriving DecidableEq

structure State where
  memory : Memory
  vfs : Virtual
  attributes : NodeId → NodeAttributes
  errorsAllowed : Nat := 20

structure Visit where
  header : Nat
  node : Option NodeId := none
  attributes : NodeAttributes := {}

def isSigned (m : Memory) (a : Nat) : Bool :=
  (range 5).map (fun i => m (a + 257 + i)) = [0x75, 0x73, 0x74, 0x61, 0x72]

def prepareName (m : Memory) (a : Nat) : Option (Memory × CString) :=
  (stringAt m headerSize a).bind (fun name =>
    let m := m.copy a (a + 1) name.length
    (stringAt m headerSize a).bind (fun moved =>
      let last := a + moved.length - 1
      let m := if m last = 0x2f then m.write last 0 else m
      (stringAt m headerSize a).map (fun clean => (m, clean.map (fun c => Char.ofNat c.toNat)))))

def flagsOf (typeflag : BitVec 8) : Option NodeFlags :=
  if typeflag = 0x30 then some .fsFile
  else if typeflag = 0x32 then some .fsSymlink
  else if typeflag = 0x35 then some .fsDirectory
  else if typeflag = 0x33 then some .fsCharDevice
  else if typeflag = 0x34 then some .fsBlockDevice
  else none

def attributesAt (m : Memory) (a i size : Nat) : Option NodeAttributes :=
  (stringAt m headerSize (a + 100)).bind (fun mode =>
    (stringAt m headerSize (a + 116)).bind (fun gid =>
      (stringAt m headerSize (a + 108)).map (fun uid =>
        { indexNode := i
          mode := ((string2int mode).signExtend 64).toNat
          userIdentifier := (getsize uid).toNat
          groupIdentifier := (getsize gid).toNat
          address := u64 (a + 512)
          length := size })))

def setNode (s : State) (a : Nat) (node : NodeId) (attributes : NodeAttributes) : State :=
  { s with
    vfs := match flagsOf (s.memory (a + 156)) with
      | some flags => s.vfs.setFlags node flags
      | none => s.vfs
    attributes := fun n =>
      if n = node then attributes else s.attributes n }

def nextHeader (a size : Nat) : Nat :=
  let a := u64 (a + u64 ((size / 512 + 1) * 512))
  if size % 512 ≠ 0 then u64 (a + 512) else a

/- The loop over the entries. `Create` returns within as many steps as there are nodes. -/
def visitEntries : (fuel i a : Nat) → State → Option (List Visit × State)
| 0, _, _, _ => none
| fuel + 1, i, a, s =>
  if isSigned s.memory a = false then some ([], s)
  else
    (prepareName s.memory a).bind (fun prepared => (stringAt prepared.1 headerSize (a + 124)).bind
        (fun digits =>
          let size := (getsize digits).toNat
          (s.vfs.create s.vfs.next none prepared.2).bind (fun created =>
              let s :=
                { s with memory := prepared.1, vfs := created.2 }
              match created.1 with
              | none =>
                if s.errorsAllowed > 0 then
                  (visitEntries fuel (i + 1) (nextHeader a size)
                    { s with errorsAllowed := s.errorsAllowed - 1 }).map
                    (fun rest => ({ header := a } :: rest.1, rest.2))
                else some ([{ header := a }], s)
              | some node =>
                (attributesAt s.memory a i size).bind (fun attributes =>
                    let s := setNode s a node attributes
                    (visitEntries fuel (i + 1) (nextHeader a size) s).map
                      (fun rest => (⟨a, some node, s.attributes node⟩ :: rest.1, rest.2))))))

def construct (fuel ustar a : Nat) (s : State) : Option (List Visit × State) :=
  if isSigned s.memory a = false then some ([], s)
  else
    (s.vfs.createRoot (some ustar) ['/']).bind (fun root => visitEntries fuel 0 a
        { s with vfs := root.2, errorsAllowed := 20 })

def IsString (m : Memory) (a : Nat) (s : List (BitVec 8)) : Prop :=
  (∀ i < s.length, s[i]? = some (m (a + i))) ∧ (∀ c ∈ s, c ≠ 0) ∧ m (a + s.length) = 0

def digit (d : Nat) : BitVec 8 :=
  BitVec.ofNat 8 (48 + d)

def octal (ds : List Nat) : Nat :=
  ds.foldl (fun n d => n * 8 + d) 0

structure Header (m : Memory) (a size : Nat) : Prop where
  signed : isSigned m a = true
  name : ∃ s, IsString m a s ∧ 2 ≤ s.length ∧ s.length < 100
  digits : ∃ ds : List Nat, (∀ d ∈ ds, d < 8) ∧ ds.length < 12 ∧ octal ds = size ∧
    IsString m (a + 124) (ds.map digit)

def entrySize (size : Nat) : Nat :=
  512 + (size + 511) / 512 * 512

def Archive (m : Memory) : Nat → List Nat → Prop
| a, [] => isSigned m a = false
| a, size :: sizes =>
  Header m a size ∧ Archive m (a + entrySize size) sizes

def entries : Nat → List Nat → List (Nat × Nat)
| _, [] => []
| a, size :: sizes =>
  (a, size) :: entries (a + entrySize size) sizes

def archiveSize (sizes : List Nat) : Nat :=
  (sizes.map entrySize).sum

def Visited (visit : Visit) (entry : Nat × Nat) : Prop :=
  visit.header = entry.1 ∧ (visit.node ≠ none → visit.attributes.address = entry.1 + 512 ∧
        visit.attributes.length = entry.2)

------ Reading Strings

section Strings

variable {m m' : Memory} {a fuel : Nat} {s : List (BitVec 8)}

theorem IsString.congr (h : IsString m a s) (hSame : ∀ x, a ≤ x → m' x = m x) :
    IsString m' a s := by
  refine ⟨?_, h.2.1, ?_⟩
  · intro i hi
    rw [hSame _ (by omega)]
    exact h.1 i hi
  · rw [hSame _ (by omega)]
    exact h.2.2

theorem stringAt_eq (h : IsString m a s) (hFuel : s.length < fuel) :
    stringAt m fuel a = some s := by
  induction s generalizing a fuel with
  | nil =>
    obtain ⟨fuel, rfl⟩ := Nat.exists_eq_add_of_le' (show 1 ≤ fuel from hFuel)
    exact if_pos h.2.2
  | cons c s ih =>
    obtain ⟨fuel, rfl⟩ := Nat.exists_eq_add_of_le' (show 1 ≤ fuel by omega)
    have hFirst : c = m a := some.inj (h.1 0 (by simp))
    have hRest : IsString m (a + 1) s := by
      refine ⟨?_, ?_, ?_⟩
      · intro i hi
        have hNext := h.1 (i + 1) (by simpa using hi)
        rwa [getElem?_cons_succ, show a + (i + 1) = a + 1 + i by omega] at hNext
      · exact fun d hd => h.2.1 d (mem_cons_of_mem c hd)
      · rw [Nat.add_assoc, Nat.add_comm 1]
        exact h.2.2
    rw [stringAt, ← hFirst, if_neg (h.2.1 c mem_cons_self), ih hRest (by simpa using hFuel)]
    rfl

theorem stringAt_returns {k : Nat} (hZero : m (a + k) = 0) (hFuel : k < fuel) :
    ∃ s, stringAt m fuel a = some s ∧ s.length ≤ k := by
  induction k generalizing a fuel with
  | zero =>
    obtain ⟨fuel, rfl⟩ := Nat.exists_eq_add_of_le' (show 1 ≤ fuel from hFuel)
    exact ⟨[], if_pos hZero, Nat.le_refl 0⟩
  | succ k ih =>
    obtain ⟨fuel, rfl⟩ := Nat.exists_eq_add_of_le' (show 1 ≤ fuel by omega)
    rw [stringAt]
    split
    · exact ⟨[], rfl, Nat.zero_le _⟩
    rcases ih (show m (a + 1 + k) = 0 by
          rwa [Nat.add_assoc, Nat.add_comm 1])
        (show k < fuel by omega) with
      ⟨s, hs, hLength⟩
    exact ⟨m a :: s, by rw [hs]; rfl, by simpa⟩

theorem foldl_digits {ds : List Nat} (hDigits : ∀ d ∈ ds, d < 8) (n : Nat) :
    (ds.map digit).foldl (fun ret c => ret * 8 + (c.signExtend 64 - 48)) (BitVec.ofNat 64 n) =
    BitVec.ofNat 64 (ds.foldl (fun n d => n * 8 + d) n) := by
  induction ds generalizing n with
  | nil => rfl
  | cons d ds ih =>
    have hd := hDigits d mem_cons_self
    have hDigit : (digit d).signExtend 64 - 48 = BitVec.ofNat 64 d := by
      interval_cases d <;> rfl
    rw [map_cons, foldl_cons, hDigit, foldl_cons, ← ih (fun e he =>
        hDigits e (mem_cons_of_mem d he))]
    congr 1
    apply eq_of_toNat_eq
    simp [toNat_add, toNat_mul]

theorem getsize_octal {ds : List Nat} (hDigits : ∀ d ∈ ds, d < 8) (hSmall : octal ds < 2 ^ 32) :
    (getsize (ds.map digit)).toNat = octal ds := by
  have hFold := foldl_digits hDigits 0
  rw [getsize, show (0 : BitVec 64) = BitVec.ofNat 64 0 from rfl, hFold, toNat_setWidth,
    toNat_ofNat]
  show octal ds % 2 ^ 64 % 2 ^ 32 = octal ds
  omega

end Strings

------ Names and Headers

section Headers

variable {m m' : Memory} {a size : Nat} {sizes : List Nat}

theorem prepareName_spec {s : List (BitVec 8)} (h : IsString m a s) (hLong : 2 ≤ s.length)
    (hShort : s.length < 100) : ∃ m' name, prepareName m a = some (m', name) ∧ name.length < 100 ∧
    ∀ x, a + 100 ≤ x → m' x = m x := by
  have hName := stringAt_eq h (show s.length < headerSize by unfold headerSize; omega)
  let m₁ := m.copy a (a + 1) s.length
  have hInside : ∀ i < s.length, m₁ (a + i) = m (a + (i + 1)) := by
    intro i hi
    show (if _ then _ else _) = _
    rw [if_pos (by omega)]
    congr 1
    omega
  have hMoved : IsString m₁ a s.tail := by
    refine ⟨?_, ?_, ?_⟩
    · intro i hi
      rw [length_tail] at hi
      rw [getElem?_tail, hInside i (by omega)]
      exact h.1 (i + 1) (by omega)
    · exact fun c hc => h.2.1 c (mem_of_mem_tail hc)
    · rw [length_tail, hInside _ (by omega), show s.length - 1 + 1 = s.length by omega]
      exact h.2.2
  have hTail := stringAt_eq hMoved (show s.tail.length < headerSize by
      rw [length_tail]
      unfold headerSize
      omega)
  let last := a + s.tail.length - 1
  let m₂ := if m₁ last = 0x2f then m₁.write last 0 else m₁
  have hOther : ∀ x, last < x → m₂ x = m₁ x := by
    intro x hx
    show (if _ then _ else _ : Memory) x = _
    split
    · exact Memory.write_other m₁ 0 (by omega)
    · rfl
  have hLast : last + 2 = a + s.length := by
    show a + s.tail.length - 1 + 2 = _
    rw [length_tail]
    omega
  rcases stringAt_returns (show m₂ (a + (s.length - 1)) = 0 by
        rw [hOther _ (by omega), hInside _ (by omega), show s.length - 1 + 1 = s.length by omega]
        exact h.2.2)
      (show s.length - 1 < headerSize by
        unfold headerSize
        omega) with
    ⟨clean, hClean, hLength⟩
  refine ⟨m₂, clean.map (fun c => Char.ofNat c.toNat), ?_, ?_, ?_⟩
  · simp only [prepareName, hName, bind_some]
    show (stringAt m₁ _ a).bind _ = _
    rw [hTail, bind_some]
    show (stringAt m₂ _ a).map _ = _
    rw [hClean, map_some]
  · rw [length_map]
    omega
  · intro x hx
    rw [hOther x (by omega)]
    exact Memory.copy_outside m (a + 1) (by omega)

theorem isSigned_congr (hSame : ∀ x, a + 100 ≤ x → m' x = m x) : isSigned m' a = isSigned m a := by
  unfold isSigned
  congr 2
  apply map_congr_left
  intro i _
  exact hSame _ (by omega)

theorem Archive.congr (h : Archive m a sizes) (hSame : ∀ x, a ≤ x → m' x = m x) :
    Archive m' a sizes := by
  induction sizes generalizing a with
  | nil =>
    rw [Archive, isSigned_congr (fun x hx => hSame x (by omega))]
    exact h
  | cons size sizes ih =>
    rcases h with ⟨⟨hSigned, ⟨s, hName, hLong⟩, ds, hDigits, hFew, hSize, hString⟩, hRest⟩
    refine ⟨⟨?_, ⟨s, hName.congr hSame, hLong⟩, ds,
      hDigits, hFew, hSize, hString.congr ?_⟩, ih hRest ?_⟩
    · rw [isSigned_congr (fun x hx => hSame x (by omega))]
      exact hSigned
    · exact fun x hx => hSame x (by omega)
    · exact fun x hx => hSame x (by omega)

theorem nextHeader_eq (hSpace : a + entrySize size < 2 ^ 64) :
    nextHeader a size = a + entrySize size := by
  unfold entrySize at hSpace ⊢
  unfold nextHeader
  rw [u64_of_lt (show (size / 512 + 1) * 512 < 2 ^ 64 by omega),
    u64_of_lt (show a + (size / 512 + 1) * 512 < 2 ^ 64 by omega)]
  dsimp only
  split
  · rw [u64_of_lt (by omega)]
    omega
  · omega

end Headers

section Nodes

variable {v v' : Virtual}

structure Ready (v : Virtual) : Prop where
  wellFormed : v.WellFormed
  rooted : v.roots ≠ []

theorem roots_addNode {parent : NodeId} {node : FileSystemNode} (hTop : v.fileSystemRoot < v.next)
    (hRooted : v.roots ≠ [] ∨ parent = v.fileSystemRoot) : (v.addNode parent node).roots ≠ [] := by
  show (v.addNode parent node).children v.fileSystemRoot ≠ []
  by_cases hParent : v.fileSystemRoot = parent
  · rw [← hParent, children_addNode_parent hTop]
    simp
  · rw [children_addNode_other (Nat.ne_of_lt hTop) hParent]
    exact hRooted.resolve_right (fun hEq => hParent hEq.symm)

theorem Ready.create (h : Ready v) {path : CString} (hShort : path.length < 100) :
    ∃ answer v', v.create v.next none path = some (answer, v') ∧ Ready v' := by
  rcases exists_cons_of_ne_nil h.rooted with ⟨root, others, hRoots⟩
  have hHead : v.roots.head? = some root := by
    rw [hRoots]
    rfl
  have hTree := h.wellFormed.nodeTree (mem_of_head? hHead)
  rcases create_appends hHead hTree.1 path (fun c hc => Nat.lt_of_le_of_lt
        (Cwalk.sublist_of_mem_segments hc).length_le (Nat.lt_trans hShort (by decide)))
      (Nat.le_refl v.next) with ⟨_, answer, v', _, hCreate, _⟩
  refine ⟨answer, v', hCreate, h.wellFormed.create (fun _ hNone => by cases hNone) hCreate, ?_⟩
  rcases create_cases hCreate with ⟨_, rfl⟩ | ⟨first, cleanPath, n, _, _, hLoop, _⟩
  · exact h.rooted
  refine (createSegments_rule (P := fun v _ _ => v.fileSystemRoot < v.next ∧
      v.roots ≠ []) (fun hRound _ => hRound) ?_ ⟨h.wellFormed.allocated, h.rooted⟩ hLoop).2
  intro v a c rest hRound _ _
  exact ⟨Nat.lt_succ_of_lt hRound.1, roots_addNode hRound.1 (.inl hRound.2)⟩

theorem Ready.setFlags (h : Ready v) (node : NodeId) (flags : NodeFlags) :
    Ready (v.setFlags node flags) := by
  have hChildren : (v.setFlags node flags).children = v.children :=
    funext (fun b => v.setFlags_children node b flags)
  have hName : (v.setFlags node flags).name = v.name :=
    funext (fun b => v.setFlags_name node b flags)
  have hRoots : (v.setFlags node flags).roots = v.roots := congrFun hChildren v.fileSystemRoot
  rcases h with ⟨h, hRooted⟩
  refine ⟨⟨⟨h.allocated, ?_, ?_, ?_⟩, ?_, ?_⟩, hRoots ▸ hRooted⟩
  · intro a b ha hb
    exact h.ordered ha (hChildren ▸ hb)
  · intro a b ha hNe hb
    rw [setFlags_parent]
    exact h.parent ha hNe (hChildren ▸ hb)
  · intro b hb
    rw [setFlags_parent]
    exact h.root_parent (hRoots ▸ hb)
  · intro a ha hNe
    rw [hChildren, hName]
    exact h.distinct ha hNe
  · intro a ha
    rw [hName]
    exact h.fits ha

end Nodes

------ The Traversal

theorem attributesAt_returns {m : Memory} {a n : Nat} (hZero : m (a + 124 + n) = 0) (hFew : n < 12)
    (hSpace : a + 512 < 2 ^ 64) (i size : Nat) :
    ∃ attributes, attributesAt m a i size = some attributes ∧ attributes.address = a + 512 ∧
    attributes.length = size := by
  -- the terminator of the size ends the strings before it
  have hReturns : ∀ k ≤ 124, 100 ≤ k → ∃ s, stringAt m headerSize (a + k) = some s := by
    intro k hk hLow
    rcases stringAt_returns (show m (a + k + (124 - k + n)) = 0 by
          rw [← hZero]
          congr 1
          omega)
        (show 124 - k + n < headerSize by
          unfold headerSize
          omega) with
      ⟨s, hs, _⟩
    exact ⟨s, hs⟩
  rcases hReturns 100 (by decide) (by decide) with ⟨mode, hMode⟩
  rcases hReturns 116 (by decide) (by decide) with ⟨gid, hGid⟩
  rcases hReturns 108 (by decide) (by decide) with ⟨uid, hUid⟩
  rw [attributesAt, hMode, bind_some, hGid, bind_some, hUid]
  exact ⟨_, rfl, u64_of_lt hSpace, rfl⟩

theorem Ready.setNode {s : State} (h : Ready s.vfs) (a : Nat) (node : NodeId)
    (attributes : NodeAttributes) : Ready (setNode s a node attributes).vfs := by
  unfold USTAR.setNode
  dsimp only
  split
  · exact h.setFlags node _
  · exact h

theorem visitEntries_spec {fuel i a : Nat} {s : State} {sizes : List Nat} (hReady : Ready s.vfs)
    (hArchive : Archive s.memory a sizes) (hSmall : archiveSize sizes < 2 ^ 32)
    (hSpace : a + archiveSize sizes < 2 ^ 64) (hFuel : sizes.length < fuel) :
    ∃ visits s', visitEntries fuel i a s = some (visits, s') ∧
    (visits.countP (·.node = none) ≤ s.errorsAllowed →
    Forall₂ Visited visits (entries a sizes)) := by
  induction sizes generalizing fuel i a s with
  | nil =>
    obtain ⟨fuel, rfl⟩ := Nat.exists_eq_add_of_le' (show 1 ≤ fuel from hFuel)
    exact ⟨[], s, if_pos hArchive, fun _ => .nil⟩
  | cons size sizes ih =>
    obtain ⟨fuel, rfl⟩ := Nat.exists_eq_add_of_le' (show 1 ≤ fuel by omega)
    rcases hArchive with ⟨hHeader, hRest⟩
    have hSum : archiveSize (size :: sizes) = entrySize size + archiveSize sizes := by
      simp [archiveSize]
    rw [hSum] at hSmall hSpace
    have hEntry : size + 512 ≤ entrySize size := by
      unfold entrySize
      omega
    rcases hHeader.name with ⟨name, hName, hLong, hShort⟩
    rcases prepareName_spec hName hLong hShort with ⟨m, clean, hPrepare, hLength, hSame⟩
    -- the rest of the archive is untouched
    have hHeader' : ∃ ds : List Nat, (∀ d ∈ ds, d < 8) ∧ ds.length < 12 ∧ octal ds = size ∧
      IsString m (a + 124) (ds.map digit) := by
      rcases hHeader.digits with ⟨ds, hDigits, hFew, hSize, hString⟩
      exact ⟨ds, hDigits, hFew, hSize, hString.congr (fun x hx => hSame x (by omega))⟩
    rcases hHeader' with ⟨ds, hDigits, hFew, hSize, hString⟩
    have hNext : Archive m (a + entrySize size) sizes :=
      hRest.congr (fun x hx => hSame x (by omega))
    have hDigitsAt : stringAt m headerSize (a + 124) = some (ds.map digit) :=
      stringAt_eq hString (by
        rw [length_map]
        unfold headerSize
        omega)
    have hGet : (getsize (ds.map digit)).toNat = size := by
      rw [getsize_octal hDigits (by omega), hSize]
    have hStep : nextHeader a size = a + entrySize size := nextHeader_eq (by omega)
    rcases hReady.create hLength with ⟨answer, vfs, hCreate, hReady'⟩
    have hSigned := hHeader.signed
    simp only [visitEntries, hSigned, Bool.true_eq_false, if_false, hPrepare, bind_some,
      hDigitsAt, hGet, hCreate, hStep]
    cases answer with
    | none =>
      by_cases hErrors : s.errorsAllowed > 0
      · rw [if_pos hErrors]
        rcases ih (i := i + 1) (s := ⟨m, vfs, s.attributes, s.errorsAllowed - 1⟩)
          hReady' hNext (by omega) (by omega) (Nat.lt_of_succ_lt_succ hFuel) with
          ⟨visits, s', hRun, hVisits⟩
        rw [hRun]
        refine ⟨_, _, rfl, ?_⟩
        intro hCount
        rw [countP_cons_of_pos (by simp)] at hCount
        exact .cons ⟨rfl, fun hSome => (hSome rfl).elim⟩ (hVisits (Nat.le_sub_one_of_lt hCount))
      rw [if_neg hErrors]
      refine ⟨_, _, rfl, ?_⟩
      intro hCount
      exact (hErrors hCount).elim
    | some node =>
      have hZero := hString.2.2
      rw [length_map] at hZero
      rcases attributesAt_returns hZero hFew (by omega) i size with
        ⟨attributes, hAttributes, hAddress, hLength⟩
      dsimp only
      rw [hAttributes, bind_some]
      have hSet := hReady'.setNode (s := ⟨m, vfs, s.attributes, s.errorsAllowed⟩) a node attributes
      rcases ih (i := i + 1) hSet hNext (by omega) (by omega) (Nat.lt_of_succ_lt_succ hFuel) with
        ⟨visits, s', hRun, hVisits⟩
      rw [hRun]
      refine ⟨_, _, rfl, ?_⟩
      intro hCount
      rw [countP_cons_of_neg (by simp)] at hCount
      refine .cons ⟨rfl, fun _ => ?_⟩ (hVisits hCount)
      simp only [setNode, if_true]
      exact ⟨hAddress, hLength⟩

theorem construct_visits_entries {fuel ustar a : Nat} {s : State} {sizes : List Nat}
    (hVfs : s.vfs.WellFormed) (hArchive : Archive s.memory a sizes)
    (hSmall : archiveSize sizes < 2 ^ 32) (hSpace : a + archiveSize sizes < 2 ^ 64)
    (hFuel : sizes.length < fuel) : ∃ visits s', construct fuel ustar a s = some (visits, s') ∧
    (visits.countP (·.node = none) ≤ 20 → Forall₂ Visited visits (entries a sizes)) := by
  cases sizes with
  | nil => exact ⟨[], s, if_pos hArchive, fun _ => .nil⟩
  | cons size sizes =>
    have hSigned := hArchive.1.signed
    let v := s.vfs.addNode s.vfs.fileSystemRoot
      { name := ['/'], flags := .fsDirectory, operator := some ustar }
    have hRoot : s.vfs.createRoot (some ustar) ['/'] = some (some s.vfs.next, v) := rfl
    have hReady : Ready v := ⟨hVfs.createRoot hRoot, roots_addNode hVfs.allocated (.inr rfl)⟩
    rw [construct, hSigned, if_neg (by decide), hRoot]
    exact visitEntries_spec (s := ⟨s.memory, v, s.attributes, 20⟩)
      hReady hArchive hSmall hSpace hFuel

def sampleHeader (name : BitVec 8) (i : Nat) : BitVec 8 :=
  if i = 0 then 0x2e
  else if i = 1 then 0x2f
  else if i = 2 then name
  else if i = 124 then 0x31
  else if i < 257 then 0
  else [0x75, 0x73, 0x74, 0x61, 0x72].getD (i - 257) 0

/- The files `./a` and `./b`, of one byte each. -/
def twoEntries : Memory := fun x =>
  if x < 5120 then sampleHeader 0x61 (x - 4096) else sampleHeader 0x62 (x - 5120)

theorem archive_twoEntries : Archive twoEntries 4096 [1, 1] := by
  refine ⟨⟨by decide, ⟨[0x2e, 0x2f, 0x61], ?_, by decide, by decide⟩, [1], ?_⟩,
    ⟨by decide, ⟨[0x2e, 0x2f, 0x62], ?_, by decide, by decide⟩, [1], ?_⟩,
    show isSigned twoEntries 6144 = false by decide⟩
  · exact ⟨by decide, by decide, by decide⟩
  · exact ⟨by decide, by decide, by decide, by decide, by decide, by decide⟩
  · exact ⟨by decide, by decide, by decide⟩
  · exact ⟨by decide, by decide, by decide, by decide, by decide, by decide⟩

theorem construct_visits_entries_twoEntries : ∃ visits s', construct 3 1 4096
    ⟨twoEntries, .start, fun _ => {}, 20⟩ = some (visits, s') ∧
    (visits.countP (·.node = none) ≤ 20 → Forall₂ Visited visits [(4096, 1), (5120, 1)]) :=
  construct_visits_entries (s := ⟨twoEntries, .start, fun _ => {}, 20⟩) .start archive_twoEntries
    (by decide) (by decide) (by decide)

end USTAR

end Fennix
