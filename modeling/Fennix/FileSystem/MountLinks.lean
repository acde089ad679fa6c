import Fennix.FileSystem.NodeLinks

/-
  Links and names of the nodes below `/system`.
-/

namespace Fennix

open Option

------ Mount Points

variable {operator : Option Nat}

namespace MountPoints

open Virtual

structure Valid (s : MountPoints) : Prop where
  sound : Sound s.vfs
  fileSystemRoot : s.vfs.fileSystemRoot = 0
  rootNode : ∀ {m d}, s.rootNode m = some d → d < s.vfs.next ∧ d ≠ 0

structure Closed (P : MountPoints → Prop) : Prop where
  push : ∀ {s s' m node}, P s → node.parent = none → node.children = [] →
      s.pushNode m node = some s' → P s'
  counts : ∀ {s} (mounts drives : Nat), P s → P { s with
      mountNodeIndexNodeCount := mounts
      drives := drives }

variable {m : MountPoint} {node : FileSystemNode} {name : CString} {port : Port}

section Closed

variable {P : MountPoints → Prop} {s s' : MountPoints}

theorem pushNode_some (h : s.pushNode m node = some s') :
    ∃ d, s.rootNode m = some d ∧ s' = { s with vfs := s.vfs.addNode d node } := by
  rcases bind_eq_some_iff.mp h with ⟨d, hd, hPush⟩
  split at hPush
  · cases hPush
    exact ⟨d, hd, rfl⟩
  · cases hPush

namespace Closed

variable (hP : Closed P) (hs : P s)

include hP hs

theorem addFileSystem {flags : NodeFlags} (h : s.addFileSystem operator name flags = some s') :
    P s' :=
  hP.push hs rfl rfl h

theorem mountFileSystem (h : s.mountFileSystem operator name = some s') : P s' := by
  rcases map_eq_some_iff.mp h with ⟨t, hPush, rfl⟩
  exact hP.counts _ t.drives (hP.push hs rfl rfl hPush)

theorem addInfos {infos : List (Operations × CString)} (h : s.addInfos infos = some s') : P s' := by
  induction infos generalizing s with
  | nil =>
    cases h
    exact hs
  | cons info infos ih =>
    rcases bind_eq_some_iff.mp h with ⟨t, hInfo, hRest⟩
    exact ih (hP.push hs rfl rfl hInfo) hRest

variable {parts : List Part}

theorem addPartitions {index : Nat} (h : s.addPartitions index parts = some s') : P s' := by
  induction parts generalizing s index with
  | nil =>
    cases h
    exact hs
  | cons part parts ih =>
    rcases bind_eq_some_iff.mp h with ⟨t, hAdd, hRest⟩
    exact ih (hP.addFileSystem hs hAdd) hRest
variable {part : Part}

theorem newEXT2 (h : s.newEXT2 part = some s') : P s' := by
  unfold MountPoints.newEXT2 at h
  split at h
  · cases h
    exact hs
  split at h
  · exact hP.mountFileSystem hs h
  · cases h

theorem newFAT (h : s.newFAT part = some s') : P s' := by
  unfold MountPoints.newFAT at h
  split at h
  · cases h
    exact hs
  · exact hP.mountFileSystem hs h

theorem detectAndMountFS (h : s.detectAndMountFS parts = some s') : P s' := by
  induction parts generalizing s with
  | nil =>
    cases h
    exact hs
  | cons part parts ih =>
    rcases bind_eq_some_iff.mp h with ⟨t, hExt2, hLater⟩
    rcases bind_eq_some_iff.mp hLater with ⟨u, hFat, hRest⟩
    exact ih (hP.newFAT (hP.newEXT2 hs hExt2) hFat) hRest

end Closed

theorem addPartition_some (h : s.addPartition (some port) = some s') :
    ∃ t, { s with drives := s.drives + 1 }.addFileSystem
      (some Operations.sataDisk.address) driveName .fsBlockDevice = some t ∧
    ∀ {Q : MountPoints → Prop}, Closed Q → Q t → Q s' := by
  rcases bind_eq_some_iff.mp h with ⟨t, hDrive, hLater⟩
  rcases bind_eq_some_iff.mp hLater with ⟨parts, _, hParts⟩
  rcases bind_eq_some_iff.mp hParts with ⟨u, hAdd, hDetect⟩
  refine ⟨t, hDrive, ?_⟩
  intro Q hQ ht
  exact hQ.detectAndMountFS (hQ.addPartitions ht hAdd) hDetect

end Closed

------ What every Call keeps

section Valid

variable {s s' : MountPoints} {D : NodeId → Prop}

theorem Valid.start : Valid start where
  sound := by
    refine ⟨by decide, ?_, ?_⟩
    · intro a b ha hb
      have hZero : a = 0 := Nat.lt_one_iff.mp ha
      rw [hZero] at hb
      cases hb
    intro a ha
    have hZero : a = 0 := Nat.lt_one_iff.mp ha
    rw [hZero]
    exact Below.root
  fileSystemRoot := rfl
  rootNode := fun h => by cases h

theorem Valid.grown {v : Virtual} (h : Valid s) (hGrown : Grown s.vfs v) :
    Valid { s with vfs := v } where
  sound := hGrown.sound
  fileSystemRoot := hGrown.fileSystemRoot.trans h.fileSystemRoot
  rootNode := by
    intro m d hd
    rcases h.rootNode hd with ⟨hBound, hNe⟩
    exact ⟨Nat.lt_of_lt_of_le hBound hGrown.next, hNe⟩

theorem Valid.addNode {parent : NodeId} (h : Valid s) (hParent : parent < s.vfs.next)
    (hBare : node.children = []) : Valid { s with vfs := s.vfs.addNode parent node } where
  sound := h.sound.addNode hParent hBare
  fileSystemRoot := h.fileSystemRoot
  rootNode := by
    intro m d hd
    rcases h.rootNode hd with ⟨hBound, hNe⟩
    exact ⟨Nat.lt_succ_of_lt hBound, hNe⟩

theorem closed_valid : Closed Valid where
  push := by
    intro s s' m node hs _ hBare hPush
    rcases pushNode_some hPush with ⟨d, hd, rfl⟩
    exact hs.addNode (hs.rootNode hd).1 hBare
  counts := fun _ _ hs =>
    ⟨hs.sound, hs.fileSystemRoot, hs.rootNode⟩

theorem closed_misplaced : Closed (fun s => Valid s ∧ Misplaced D s.vfs) where
  push := by
    intro s s' m node hs hUp hBare hPush
    refine ⟨closed_valid.push hs.1 hUp hBare hPush, ?_⟩
    rcases pushNode_some hPush with ⟨d, hd, rfl⟩
    exact hs.2.addNode hs.1.sound (hs.1.rootNode hd).1
  counts := fun mounts drives hs =>
    ⟨closed_valid.counts mounts drives hs.1, hs.2⟩

theorem Valid.push_misplaced (h : Valid s) (hD : ∀ a, a ≠ 0 → D a) (hUp : node.parent = none)
    (hBare : node.children = []) (hPush : s.pushNode m node = some s') :
    Valid s' ∧ Misplaced D s'.vfs := by
  refine ⟨closed_valid.push h hUp hBare hPush, ?_⟩
  rcases pushNode_some hPush with ⟨d, hd, rfl⟩
  rcases h.rootNode hd with ⟨hBound, hNe⟩
  refine misplaced_addNode hBound (hD d hNe) ?_
  rw [hUp]
  exact fun hSome => by cases hSome

theorem Valid.newRoot {fuel : Nat} (h : Valid s) (hNew : s.newRoot fuel m = some s') :
    Valid s' ∧ Grown s.vfs s'.vfs := by
  rcases bind_eq_some_iff.mp hNew with ⟨⟨answer, v⟩, hCreate, hSome⟩
  rcases map_eq_some_iff.mp hSome with ⟨node, hNode, rfl⟩
  cases hNode
  have hCreated : Grown s.vfs v := create_grown h.sound (fun _ hSome => by cases hSome) hCreate
  have hGrown : Grown s.vfs (v.setFlags node .fsDirectory) :=
    hCreated.trans (grown_setFlags node _ hCreated.sound)
  refine ⟨⟨hGrown.sound, (h.grown hGrown).fileSystemRoot, ?_⟩, hGrown⟩
  intro k d hd
  dsimp only at hd
  split at hd
  · cases hd
    rcases create_answer h.sound hCreate with ⟨hAbove, hBound⟩
    exact ⟨hBound, Nat.ne_of_gt (Nat.lt_of_le_of_lt (Nat.zero_le _) hAbove)⟩
  · exact (h.grown hGrown).rootNode hd

section

variable (h : Valid s) (hD : ∀ a, a ≠ 0 → D a)

include h hD

theorem Valid.newSysInfo {fuel : Nat} (hNew : s.newSysInfo fuel = some s') :
    Valid s' ∧ Misplaced D s'.vfs := by
  rcases bind_eq_some_iff.mp hNew with ⟨t, hRoot, hInfos⟩
  rcases bind_eq_some_iff.mp hInfos with ⟨u, hFirst, hRest⟩
  exact closed_misplaced.addInfos ((h.newRoot hRoot).1.push_misplaced hD rfl rfl hFirst) hRest

theorem Valid.addPartition (hAdd : s.addPartition (some port) = some s') :
    Valid s' ∧ Misplaced D s'.vfs := by
  rcases addPartition_some hAdd with ⟨t, hDrive, hLater⟩
  exact hLater closed_misplaced ((closed_valid.counts _ _ h).push_misplaced hD rfl rfl hDrive)

theorem Valid.mountFileSystem (hMount : s.mountFileSystem operator name = some s') :
    Valid s' ∧ Misplaced D s'.vfs := by
  rcases map_eq_some_iff.mp hMount with ⟨t, hPush, rfl⟩
  exact closed_misplaced.counts _ t.drives (h.push_misplaced hD rfl rfl hPush)

end

end Valid

end MountPoints

def MountCall.AddsLinked (top : Bool) : MountCall → Prop
| .createRoot operator _ => top = true → operator = none
| .create _ _ => True
| .newDevice => True
| .newMount => True
| .newSysInfo => False
| .addFileSystem _ _ _ => False
| .mountFileSystem _ _ => False
| .addInfo _ _ => False
| .addPartition port => port.isNone

namespace MountPoints

open Virtual

def Directory (top : Bool) (a : NodeId) : Prop :=
  top = true ∨ a ≠ 0

section Runs

variable {s s' : MountPoints} {fuel : Nat} {top : Bool}

theorem Valid.rooted_iff (h : Valid s) : Rooted s.vfs s.vfs.fileSystemRoot ↔
    Tidy (Directory true) s.vfs := by
  rw [h.sound.rooted_iff]
  exact ⟨fun hTidy a ha _ => hTidy a ha trivial, fun hTidy a ha _ => hTidy a ha (.inl rfl)⟩

theorem Valid.rooted_roots_iff (h : Valid s) : (∀ root ∈ s.vfs.roots, Rooted s.vfs root) ↔
    Tidy (Directory false) s.vfs := by
  rw [h.sound.rooted_roots_iff, h.fileSystemRoot]
  constructor
  · intro hTidy a ha hDirectory
    exact hTidy a ha (hDirectory.resolve_left (fun hFalse => by cases hFalse))
  · intro hTidy a ha hNe
    exact hTidy a ha (.inr hNe)

theorem Valid.createRoot {rootName : CString} (h : Valid s)
    (hCall : execute fuel s (.createRoot operator rootName) = some s') : Valid s' ∧
    (Tidy (Directory top) s.vfs → ((top = true → operator = none) ↔
    Tidy (Directory top) s'.vfs)) := by
  rcases map_eq_some_iff.mp hCall with ⟨⟨answer, v⟩, hCreate, rfl⟩
  unfold createRoot at hCreate
  split at hCreate
  · rename_i hNone
    cases hCreate
    exact ⟨h, fun hTidy => iff_of_true (fun _ => hNone) hTidy⟩
  rename_i hSome
  split at hCreate
  · cases hCreate
    refine ⟨h.addNode h.sound.allocated rfl, ?_⟩
    intro hTidy
    cases top with
    | true =>
      refine iff_of_false (fun hNone => hSome (hNone rfl)) (Misplaced.not_tidy ?_)
      exact misplaced_addNode h.sound.allocated (.inl rfl) (fun hUp => by cases hUp)
    | false =>
      refine iff_of_true (fun hFalse => by cases hFalse) ?_
      have hNot : ¬ Directory false s.vfs.fileSystemRoot := by
        rw [h.fileSystemRoot]
        simp [Directory]
      exact hTidy.addNode h.sound h.sound.allocated rfl (fun hD => (hNot hD).elim)
        (fun hD => (hNot hD).elim)
  · cases hCreate

theorem Valid.execute (top : Bool) {call : MountCall} (h : Valid s)
    (hCall : execute fuel s call = some s') : Valid s' ∧
    (Tidy (Directory top) s.vfs → (call.AddsLinked top ↔ Tidy (Directory top) s'.vfs)) := by
  have hGrown : Valid s' → Grown s.vfs s'.vfs → Valid s' ∧ (Tidy (Directory top) s.vfs →
    (True ↔ Tidy (Directory top) s'.vfs)) :=
    fun hs' hGrows => ⟨hs', fun hTidy => iff_of_true trivial (hGrows.tidy hTidy)⟩
  have hMisplaced : Valid s' ∧ Misplaced (Directory top) s'.vfs → Valid s' ∧
    (Tidy (Directory top) s.vfs → (False ↔ Tidy (Directory top) s'.vfs)) :=
    fun hs' => ⟨hs'.1, fun _ => iff_of_false (fun hFalse => hFalse) hs'.2.not_tidy⟩
  have hD : ∀ a, a ≠ 0 → Directory top a := fun _ hNe => Or.inr hNe
  cases call with
  | createRoot operator rootName => exact h.createRoot hCall
  | create parent path =>
    rw [MountPoints.execute] at hCall
    split at hCall
    · rename_i hParent
      rcases map_eq_some_iff.mp hCall with ⟨⟨answer, v⟩, hCreate, rfl⟩
      have hGrows : Grown s.vfs v := by
        refine create_grown h.sound ?_ hCreate
        rintro a rfl
        simpa using hParent
      exact hGrown (h.grown hGrows) hGrows
    · cases hCall
  | newDevice =>
    exact hGrown (h.newRoot hCall).1 (h.newRoot hCall).2
  | newMount =>
    exact hGrown (h.newRoot hCall).1 (h.newRoot hCall).2
  | newSysInfo => exact hMisplaced (h.newSysInfo hD hCall)
  | addFileSystem operator name flags =>
    exact hMisplaced (h.push_misplaced hD rfl rfl hCall)
  | mountFileSystem operator name =>
    exact hMisplaced (h.mountFileSystem hD hCall)
  | addInfo operator name =>
    exact hMisplaced (h.push_misplaced hD rfl rfl hCall)
  | addPartition port =>
    cases port with
    | none =>
      cases hCall
      exact ⟨h, fun hTidy => iff_of_true rfl hTidy⟩
    | some port =>
      rcases h.addPartition hD hCall with ⟨hs', hWrong⟩
      exact ⟨hs', fun _ => iff_of_false (fun hNone => by cases hNone) hWrong.not_tidy⟩

theorem tidy_start (D : NodeId → Prop) : Tidy D start.vfs := by
  intro a ha _
  have hZero : a = 0 := Nat.lt_one_iff.mp ha
  rw [hZero]
  exact ⟨fun b hb => (List.not_mem_nil hb).elim, List.nodup_nil⟩

theorem links_kept_iff (fuel : Nat) (calls : List MountCall)
    (hReturns : Meets (MountPoints.execute fuel) (Returns (MountPoints.execute fuel)) start calls) :
    (Stays (MountPoints.execute fuel) (fun s => ∀ root ∈ s.vfs.roots, Rooted s.vfs root)
    start calls ↔ ∀ call ∈ calls, call.AddsLinked false) ∧
    (Stays (MountPoints.execute fuel) (fun s => Rooted s.vfs s.vfs.fileSystemRoot) start calls ↔
    ∀ call ∈ calls, call.AddsLinked true) := by
  have hInv : ∀ s call s', Valid s → MountPoints.execute fuel s call = some s' → Valid s' :=
    fun s call s' hs hCall =>
      (hs.execute true hCall).1
  constructor
  · refine stays_iff_forall_of_invariant hInv ?_ Valid.start
      (Valid.start.rooted_roots_iff.mpr (tidy_start _)) hReturns
    intro s call s' hs hRooted hCall
    rcases hs.execute false hCall with ⟨hs', hKept⟩
    rw [hs'.rooted_roots_iff]
    exact hKept (hs.rooted_roots_iff.mp hRooted)
  refine stays_iff_forall_of_invariant hInv ?_ Valid.start
    (Valid.start.rooted_iff.mpr (tidy_start _)) hReturns
  intro s call s' hs hRooted hCall
  rcases hs.execute true hCall with ⟨hs', hKept⟩
  rw [hs'.rooted_iff]
  exact hKept (hs.rooted_iff.mp hRooted)

def bootCalls : List MountCall :=
  [.createRoot (some 0) ['/'], .newDevice, .newMount]

theorem links_kept_iff_bootCalls : Stays (MountPoints.execute 9)
    (fun s => ∀ root ∈ s.vfs.roots, Rooted s.vfs root) start bootCalls := by
  refine (links_kept_iff 9 bootCalls (by decide)).1.mpr ?_
  simp [bootCalls, MountCall.AddsLinked]

def blankPort : Port where
  gptSignature := 0
  entrySize := 0
  partCount := 0
  gptPartition := fun _ _ => ⟨0, 0, ⟨none, none⟩⟩
  mbrSignature := (0, 0)
  mbrPartition := fun _ => ⟨0, ⟨none, none⟩⟩

def driveCalls : List MountCall :=
  bootCalls ++ [.addPartition (some blankPort), .addPartition (some blankPort)]

end Runs

------ Names of Drives

def deviceNames (s : MountPoints) : List CString :=
  match s.rootNode .device with
  | none => []
  | some d => (s.vfs.children d).map s.vfs.name

theorem two_drives : ∃ s, driveCalls.foldlM (MountPoints.execute 9) start = some s ∧
    s.deviceNames = [driveName, driveName] ∧ ¬ (∀ root ∈ s.vfs.roots, Rooted s.vfs root) := by
  refine ⟨(driveCalls.foldlM (MountPoints.execute 9) start).get (by decide), (some_get _).symm,
    by decide, ?_⟩
  intro h
  have hParent := (h 1 (by decide)).parent 3 5 ((Below.root.child (b := 2) (by decide)).child
    (by decide)) (by decide)
  revert hParent
  decide

end MountPoints

end Fennix
