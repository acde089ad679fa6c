import Fennix.Containers.HashMap
import Mathlib.Data.UInt

/-
  Registering ports.

  A process has a hash map from its ports to their handles.
-/

namespace Fennix

open List Option HashMap

inductive IPCOperationType
| ipcOperationNone
| ipcOperationWrite
| ipcOperationRead
deriving DecidableEq

inductive IPCErrorCode
| ipcUnknown
| ipcSuccess
| ipcNotListening
| ipcTimeout
| ipcInvalidPort
| ipcPortInUse
| ipcPortNotRegistered
deriving DecidableEq

structure IPCHandle where
  id : Int32
  length : Int32
  buffer : UInt64
  listening : Bool
  type : IPCOperationType
  error : IPCErrorCode

structure IPCProcess where
  ipcHandles : HashMap UInt64
  memory : UInt64 → Option IPCHandle

def IPCProcess.start : IPCProcess where
  ipcHandles := empty
  memory := fun _ => none

structure Registration where
  port : UInt32
  address : UInt64
  allocated : address ≠ 0

def IPCProcess.withHandle (pcb : IPCProcess) (call : Registration)
    (map : HashMap UInt64) : IPCProcess where
  ipcHandles := map
  memory := fun address =>
    if address = call.address then
      some ⟨-1, 0, 0, false, .ipcOperationNone, .ipcUnknown⟩
    else pcb.memory address

def registerHandle (fuel : Nat) (pcb : IPCProcess)
    (call : Registration) : Option (UInt64 × IPCProcess) :=
  if call.port = 0 then some (0, pcb)
  else if pcb.ipcHandles.get call.port.toInt32 ≠ 0 then
    some (0, pcb)
  else
    (pcb.ipcHandles.addNode fuel call.port call.address).map
      (fun map => (call.address, pcb.withHandle call map))

def registerHandles (fuel : Nat) (pcb : IPCProcess)
    (calls : List Registration) : Option IPCProcess :=
  calls.foldlM (fun pcb call => (registerHandle fuel pcb call).map Prod.snd) pcb

def livePorts (calls : List Registration) : Finset UInt32 :=
  (calls.map Registration.port).toFinset.filter (fun port => port ≠ 0 ∧ port ≠ deletedKey)

def PortHasRoom (before : List Registration) (call : Registration) : Prop :=
  call.port = 0 ∨ call.port ∈ livePorts before ∨ (livePorts before).card < HashMapCapacity

structure Registered (pcb : IPCProcess) (calls : List Registration)
    (nodes : UInt32 → Option (HashNode UInt64)) : Prop where
  represents : Represents HashMapCapacity hashCode HashNode.key pcb.ipcHandles.nodes nodes
  handles : ∀ port node, nodes port = some node → node.value ≠ 0
  ports : ∀ port, port ≠ deletedKey → (nodes port ≠ none ↔ port ∈ livePorts calls)
  count : Nat.count (fun i => pcb.ipcHandles.vacant i = false)
      HashMapCapacity = (livePorts calls).card

theorem registered_start : Registered .start [] (fun _ => none) where
  represents := Represents.empty
  handles := fun _ _ h => by cases h
  ports := by simp [livePorts]
  count := by simp [livePorts, IPCProcess.start, empty, vacant]

theorem livePorts_snoc (calls : List Registration) (call : Registration) :
    livePorts (calls ++ [call]) = if call.port = 0 ∨ call.port = deletedKey then
    livePorts calls else insert call.port (livePorts calls) := by
  ext port
  simp only [apply_ite (port ∈ ·), Finset.mem_insert, livePorts, map_append, map_cons,
    map_nil, Finset.mem_filter, List.mem_toFinset, mem_append, mem_singleton]
  by_cases hNone : call.port = 0 ∨ call.port = deletedKey
  · rw [if_pos hNone]
    constructor
    · rintro ⟨hOld | rfl, hLive⟩
      · exact ⟨hOld, hLive⟩
      rcases hNone with hZero | hDeleted
      · exact (hLive.1 hZero).elim
      · exact (hLive.2 hDeleted).elim
    · rintro ⟨hOld, hLive⟩
      exact ⟨Or.inl hOld, hLive⟩
  rw [if_neg hNone]
  rw [not_or] at hNone
  constructor
  · rintro ⟨hOld | rfl, hLive⟩
    · exact .inr ⟨hOld, hLive⟩
    · exact .inl rfl
  rintro (rfl | ⟨hOld, hLive⟩)
  · exact ⟨Or.inr rfl, hNone⟩
  · exact ⟨Or.inl hOld, hLive⟩

theorem livePorts_snoc_of_mem {calls : List Registration} {call : Registration}
    (hOld : call.port = 0 ∨ call.port = deletedKey ∨ call.port ∈ livePorts calls) :
    livePorts (calls ++ [call]) = livePorts calls := by
  rw [livePorts_snoc]
  split
  · rfl
  rename_i hLive
  rw [not_or] at hLive
  rcases hOld with hZero | hDeleted | hOld
  · exact (hLive.1 hZero).elim
  · exact (hLive.2 hDeleted).elim
  · exact Finset.insert_eq_of_mem hOld

namespace Registered

variable {pcb : IPCProcess} {calls : List Registration} {nodes : UInt32 → Option (HashNode UInt64)}
variable {call : Registration} {fuel : Nat}

variable (h : Registered pcb calls nodes)

include h

theorem get_ne_zero_iff (port : UInt32) :
    pcb.ipcHandles.get port.toInt32 ≠ 0 ↔ nodes port ≠ none := by
  rw [HashMap.get, UInt32.toUInt32_toInt32,
    h.represents.lookup_eq hashCode_lt (Nat.le_succ HashMapCapacity) port]
  cases hNode : nodes port with
  | none => simp
  | some node => simp [h.handles port node hNode]

theorem refused (hOld : call.port = 0 ∨ nodes call.port ≠ none) :
    registerHandle fuel pcb call = some (0, pcb) ∧ Registered pcb (calls ++ [call]) nodes := by
  have hPorts : livePorts (calls ++ [call]) = livePorts calls := by
    apply livePorts_snoc_of_mem
    rcases hOld with hZero | hSome
    · exact .inl hZero
    by_cases hDeleted : call.port = deletedKey
    · exact .inr (.inl hDeleted)
    · exact .inr (.inr ((h.ports call.port hDeleted).mp hSome))
  constructor
  · unfold registerHandle
    split
    · rfl
    rename_i hNonzero
    rw [if_pos]
    rw [h.get_ne_zero_iff]
    exact hOld.resolve_left hNonzero
  refine ⟨h.represents, h.handles, ?_, ?_⟩
  · rw [hPorts]
    exact h.ports
  · rw [hPorts]
    exact h.count

theorem stopsAt_eq (hNew : nodes call.port = none) {i : Nat} (hi : i < HashMapCapacity) :
    pcb.ipcHandles.stopsAt call.port i = pcb.ipcHandles.vacant i := by
  unfold stopsAt vacant
  cases hNode : pcb.ipcHandles.nodes i with
  | none => rfl
  | some node =>
    have hOther : node.key ≠ call.port := by
      intro hKey
      have hIn := (h.represents.entries node).mp ⟨i, hi, hNode⟩
      rw [hKey, hNew] at hIn
      cases hIn
    simp [hOther]

theorem hangs (hFull : ¬ PortHasRoom calls call) (fuel : Nat) :
    registerHandle fuel pcb call = none := by
  unfold PortHasRoom at hFull
  push Not at hFull
  rcases hFull with ⟨hNonzero, hOther, hCard⟩
  rw [← h.count] at hCard
  have hUsed : ∀ i < HashMapCapacity, pcb.ipcHandles.vacant i = false := Nat.count_iff_forall.mp
    (Nat.le_antisymm (Nat.count_le _) hCard)
  have hNew : nodes call.port = none := by
    by_contra hSome
    by_cases hDeleted : call.port = deletedKey
    · -- its node would be in a slot that is not in use
      rcases ne_none_iff_exists'.mp hSome with ⟨node, hNode⟩
      have hKey := h.represents.keyed _ _ hNode
      rw [← hKey] at hNode
      rcases (h.represents.entries node).mpr hNode with ⟨i, hi, hAt⟩
      have hVacant := hUsed i hi
      unfold vacant at hVacant
      rw [hAt] at hVacant
      simp [hKey, hDeleted] at hVacant
    · exact hOther ((h.ports _ hDeleted).mp hSome)
  have hSeek : seek HashMapCapacity (pcb.ipcHandles.stopsAt call.port) fuel
    (hashCode call.port) = none := by
    apply seek_none _ (hashCode_lt _)
    intro i hi
    rw [h.stopsAt_eq hNew hi]
    exact hUsed i hi
  unfold registerHandle
  rw [if_neg hNonzero, if_neg, addNode, hSeek]
  · rfl
  · rw [h.get_ne_zero_iff]
    exact fun hSome => hSome hNew

theorem exists_vacant (hRoom : (livePorts calls).card < HashMapCapacity) {start : Nat}
    (hStart : start < HashMapCapacity) : ∃ d < HashMapCapacity, pcb.ipcHandles.vacant
    ((start + d) % HashMapCapacity) = true ∧ ∀ e < d, pcb.ipcHandles.vacant
    ((start + e) % HashMapCapacity) = false := by
  rw [← h.count] at hRoom
  have hNot : ¬ ∀ i < HashMapCapacity, pcb.ipcHandles.vacant i = false := by
    intro hAll
    have hFull := Nat.count_iff_forall.mpr hAll
    omega
  push Not at hNot
  rcases hNot with ⟨i, hi, hVacant⟩
  rw [ne_eq, Bool.not_eq_false] at hVacant
  rcases exists_distance hStart hi with ⟨d, hd, rfl⟩
  rcases exists_first hVacant with ⟨e, he, hHere, hBefore⟩
  exact ⟨e, by omega, hHere, hBefore⟩

theorem placed (hNew : nodes call.port = none) {d : Nat} (hNear : d < HashMapCapacity)
    (hHere : pcb.ipcHandles.vacant ((hashCode call.port + d) % HashMapCapacity) = true)
    (hBefore : ∀ e < d, pcb.ipcHandles.vacant ((hashCode call.port + e) % HashMapCapacity) =
    false) : ∃ nodes', Represents HashMapCapacity hashCode HashNode.key
    (putAt pcb.ipcHandles.nodes ((hashCode call.port + d) % HashMapCapacity)
    ⟨call.address, call.port⟩) nodes' ∧ nodes' call.port = some ⟨call.address, call.port⟩ ∧
    ∀ port ≠ call.port, nodes' port = nodes port ∨ port = deletedKey ∧ nodes' port = none := by
  have hSlot : ∀ e, (hashCode call.port + e) % HashMapCapacity < HashMapCapacity :=
    fun e => Nat.mod_lt _ (by decide)
  -- the slots before are in use, by other ports
  have hOthers : ∀ e < d, ∃ node, pcb.ipcHandles.nodes ((hashCode call.port + e) %
    HashMapCapacity) = some node ∧ node.key ≠ call.port ∧ node.key ≠ deletedKey := by
    intro e he
    have hStop := hBefore e he
    rw [← h.stopsAt_eq hNew (hSlot e)] at hStop
    unfold stopsAt at hStop
    split at hStop
    · cases hStop
    rename_i node hNode
    simp only [Bool.or_eq_false_iff, decide_eq_false_iff_not] at hStop
    exact ⟨node, hNode, hStop⟩
  cases hNode : pcb.ipcHandles.nodes ((hashCode call.port + d) % HashMapCapacity) with
  | none =>
    have hPlace : Represents.Place HashMapCapacity hashCode
      HashNode.key pcb.ipcHandles.nodes call.port d := by
      refine ⟨hNear, ?_, ?_⟩
      · intro b hSome
        rw [hNode] at hSome
        cases hSome
      intro e he
      rcases hOthers e he with ⟨b, hb, hOther, _⟩
      exact ⟨b, hb, hOther⟩
    have hPut := h.represents.put (a := ⟨call.address, call.port⟩) hPlace
    refine ⟨_, hPut, if_pos rfl, ?_⟩
    intro port hPort
    exact .inl (if_neg hPort)
  | some c =>
    have hKey : c.key = deletedKey := by
      unfold vacant at hHere
      rw [hNode] at hHere
      simpa using hHere
    have hPut := h.represents.replace (d := d) (a := ⟨call.address, call.port⟩) hNew hNear
      (fun e he => by
        rw [hKey]
        exact hOthers e he) hNode
    refine ⟨_, hPut, if_pos rfl, ?_⟩
    intro port hPort
    dsimp only
    rw [if_neg hPort, hKey]
    by_cases hDeleted : port = deletedKey
    · exact .inr ⟨hDeleted, if_pos hDeleted⟩
    · exact .inl (if_neg hDeleted)

theorem count_placed (hNonzero : call.port ≠ 0) (hNew : nodes call.port = none) {slot : Nat}
    (hSlot : slot < HashMapCapacity) (hHere : pcb.ipcHandles.vacant slot = true)
    {map : HashMap UInt64}
    (hNodes : map.nodes = putAt pcb.ipcHandles.nodes slot ⟨call.address, call.port⟩) :
    Nat.count (fun i => map.vacant i = false) HashMapCapacity =
    (if call.port = 0 ∨ call.port = deletedKey then livePorts calls
    else insert call.port (livePorts calls)).card := by
  have hOther : ∀ i, i ≠ slot → map.vacant i = pcb.ipcHandles.vacant i := by
    intro i hi
    unfold vacant
    rw [hNodes, putAt, if_neg hi]
  have hAt : map.vacant slot =
      decide (call.port = deletedKey) := by
    unfold vacant
    rw [hNodes, putAt, if_pos rfl]
  by_cases hDeleted : call.port = deletedKey
  · rw [if_pos (.inr hDeleted), ← h.count]
    apply count_eq_of_iff
    intro i _
    by_cases hi : i = slot
    · rw [hi, hAt, hHere, decide_eq_true hDeleted]
    · rw [hOther i hi]
  rw [if_neg (not_or.mpr ⟨hNonzero, hDeleted⟩), Finset.card_insert_of_notMem, ← h.count]
  · apply count_eq_succ_of_remove hSlot
    · rw [hAt]
      exact decide_eq_false hDeleted
    · rw [hHere]
      exact Bool.noConfusion
    · intro i hi
      rw [hOther i hi]
  · intro hIn
    exact (h.ports _ hDeleted).mpr hIn hNew

theorem accepted (hFuel : HashMapCapacity ≤ fuel) (hNonzero : call.port ≠ 0)
    (hNew : nodes call.port = none) (hRoom : (livePorts calls).card < HashMapCapacity) :
    ∃ pcb' nodes', registerHandle fuel pcb call = some (call.address, pcb') ∧
    Registered pcb' (calls ++ [call]) nodes' := by
  rcases h.exists_vacant hRoom (hashCode_lt call.port) with ⟨d, hNear, hHere, hBefore⟩
  rcases h.placed hNew hNear hHere hBefore with ⟨nodes', hRepresents, hPort, hOthers⟩
  have hSlot : ∀ e, (hashCode call.port + e) % HashMapCapacity < HashMapCapacity :=
    fun e => Nat.mod_lt _ (by decide)
  have hSeek : seek HashMapCapacity (pcb.ipcHandles.stopsAt call.port) fuel (hashCode call.port) =
    some ((hashCode call.port + d) % HashMapCapacity) := by
    apply seek_first (hashCode_lt _) (by omega)
    · rw [h.stopsAt_eq hNew (hSlot d)]
      exact hHere
    intro e he
    rw [h.stopsAt_eq hNew (hSlot e)]
    exact hBefore e he
  have hAdd : ∃ map, pcb.ipcHandles.addNode fuel call.port call.address = some map ∧
    map.nodes = putAt pcb.ipcHandles.nodes
    ((hashCode call.port + d) % HashMapCapacity) ⟨call.address, call.port⟩ := by
    rw [addNode, hSeek]
    exact ⟨_, rfl, rfl⟩
  rcases hAdd with ⟨map, hMap, hNodes⟩
  rw [← hNodes] at hRepresents
  refine ⟨pcb.withHandle call map, nodes', ?_, hRepresents, ?_, ?_, ?_⟩
  · unfold registerHandle
    rw [if_neg hNonzero, if_neg, hMap]
    · rfl
    · rw [h.get_ne_zero_iff]
      exact fun hSome => hSome hNew
  · intro port node hNode
    by_cases hSame : port = call.port
    · rw [hSame, hPort] at hNode
      cases hNode
      exact call.allocated
    rcases hOthers port hSame with hOld | ⟨_, hNone⟩
    · rw [hOld] at hNode
      exact h.handles port node hNode
    · rw [hNone] at hNode
      cases hNode
  · intro port hLive
    rw [livePorts_snoc]
    by_cases hSame : port = call.port
    · rw [hSame] at hLive ⊢
      rw [hPort, if_neg (not_or.mpr ⟨hNonzero, hLive⟩)]
      simp
    have hOld : nodes' port = nodes port := by
      rcases hOthers port hSame with hOld | ⟨hDeleted, _⟩
      · exact hOld
      · exact (hLive hDeleted).elim
    rw [hOld, h.ports port hLive]
    split
    · rfl
    · simp [hSame]
  · rw [livePorts_snoc]
    exact h.count_placed hNonzero hNew (hSlot d) hHere hNodes

theorem registerHandle (hFuel : HashMapCapacity ≤ fuel) (hRoom : PortHasRoom calls call) :
    ∃ address pcb' nodes', registerHandle fuel pcb call = some (address, pcb') ∧
    Registered pcb' (calls ++ [call]) nodes' := by
  by_cases hOld : call.port = 0 ∨ nodes call.port ≠ none
  · exact ⟨0, pcb, nodes, h.refused hOld⟩
  push Not at hOld
  have hCard : (livePorts calls).card < HashMapCapacity := by
    rcases hRoom with hZero | hLive | hCard
    · exact (hOld.1 hZero).elim
    · have hDeleted : call.port ≠ deletedKey := (Finset.mem_filter.mp hLive).2.2
      exact ((h.ports _ hDeleted).mpr hLive hOld.2).elim
    · exact hCard
  rcases h.accepted hFuel hOld.1 hOld.2 hCard with ⟨pcb', nodes', hCall, hNext⟩
  exact ⟨_, pcb', nodes', hCall, hNext⟩

end Registered

section Calls

variable {calls : List Registration} {fuel fuel' : Nat} {pcb pcb' : IPCProcess}

theorem registerHandles_snoc (fuel : Nat) (pcb : IPCProcess) (calls : List Registration)
    (call : Registration) : registerHandles fuel pcb (calls ++ [call]) =
    (registerHandles fuel pcb calls).bind (fun pcb' =>
    (registerHandle fuel pcb' call).map Prod.snd) := by
  rw [registerHandles, foldlM_append]
  simp [registerHandles]

theorem registerHandle_mono {call : Registration} {result : UInt64 × IPCProcess}
    (hCall : registerHandle fuel pcb call = some result) (hFuel : fuel ≤ fuel') :
    registerHandle fuel' pcb call = some result := by
  unfold registerHandle at hCall ⊢
  split
  · rename_i hZero
    rw [if_pos hZero] at hCall
    exact hCall
  rename_i hNonzero
  rw [if_neg hNonzero] at hCall
  split
  · rename_i hOld
    rw [if_pos hOld] at hCall
    exact hCall
  rename_i hNew
  rw [if_neg hNew] at hCall
  rcases map_eq_some_iff.mp hCall with ⟨map, hAdd, hResult⟩
  rcases map_eq_some_iff.mp hAdd with ⟨index, hSeek, hMap⟩
  rw [addNode, seek_mono hSeek hFuel, map_some, hMap, map_some, hResult]

theorem registerHandles_mono (hCalls : registerHandles fuel pcb calls = some pcb')
    (hFuel : fuel ≤ fuel') : registerHandles fuel' pcb calls = some pcb' := by
  induction calls using reverseRecOn generalizing pcb'
  with
  | nil => exact hCalls
  | append_singleton calls call ih =>
    rw [registerHandles_snoc] at hCalls ⊢
    rcases bind_eq_some_iff.mp hCalls with ⟨middle, hFirst, hLast⟩
    rcases map_eq_some_iff.mp hLast with ⟨result, hCall, hResult⟩
    rw [ih hFirst, bind_some, registerHandle_mono hCall hFuel, map_some, hResult]

theorem registerHandles_returns (hFuel : HashMapCapacity ≤ fuel)
    (hRoom : ∀ before call after, calls = before ++ call :: after → PortHasRoom before call) :
    ∃ pcb nodes, registerHandles fuel .start calls = some pcb ∧ Registered pcb calls nodes := by
  induction calls using reverseRecOn with
  | nil => exact ⟨.start, _, rfl, registered_start⟩
  | append_singleton calls call ih =>
    have hBefore : ∀ before call' after, calls = before ++ call' :: after →
      PortHasRoom before call' := by
      intro before call' after hEq
      apply hRoom before call' (after ++ [call])
      rw [hEq, append_assoc, cons_append]
    rcases ih hBefore with ⟨pcb, nodes, hCalls, hRegistered⟩
    rcases hRegistered.registerHandle hFuel (hRoom calls call [] rfl) with
      ⟨address, pcb', nodes', hCall, hNext⟩
    refine ⟨pcb', nodes', ?_, hNext⟩
    rw [registerHandles_snoc, hCalls, bind_some, hCall]
    rfl

theorem hasRoom_of_registerHandles (hFuel : HashMapCapacity ≤ fuel)
    (hCalls : registerHandles fuel .start calls = some pcb) {before after : List Registration}
    {call : Registration} (hEq : calls = before ++ call :: after) : PortHasRoom before call := by
  induction calls using reverseRecOn generalizing pcb before call after with
  | nil => simp at hEq
  | append_singleton calls last ih =>
    rw [registerHandles_snoc] at hCalls
    rcases bind_eq_some_iff.mp hCalls with ⟨middle, hFirst, hLast⟩
    rcases eq_nil_or_concat after with rfl | ⟨after, last', rfl⟩
    · rcases append_inj' hEq rfl with ⟨rfl, hSame⟩
      cases hSame
      rcases registerHandles_returns hFuel (fun _ _ _ hSplit => ih hFirst hSplit) with
        ⟨pcb', nodes, hCalls', hRegistered⟩
      rw [hFirst] at hCalls'
      cases hCalls'
      by_contra hFull
      rw [hRegistered.hangs hFull] at hLast
      cases hLast
    · rw [concat_eq_append, ← cons_append, ← append_assoc] at hEq
      exact ih hFirst (append_inj' hEq rfl).1

theorem registrations_return_iff (calls : List Registration) :
    (∃ fuel pcb, registerHandles fuel .start calls = some pcb) ↔ ∀ before call after,
    calls = before ++ call :: after → call.port = 0 ∨ call.port ∈ livePorts before ∨
    (livePorts before).card < HashMapCapacity := by
  constructor
  · rintro ⟨fuel, pcb, hCalls⟩ before call after hEq
    exact hasRoom_of_registerHandles (Nat.le_max_right fuel HashMapCapacity)
      (registerHandles_mono hCalls (Nat.le_max_left fuel HashMapCapacity)) hEq
  intro hRoom
  rcases registerHandles_returns (Nat.le_refl _) hRoom with ⟨pcb, _, hCalls, _⟩
  exact ⟨_, pcb, hCalls⟩

end Calls

def firstPorts (n : Nat) : List Registration :=
  (range n).map (fun i => ⟨UInt32.ofNat (i + 1), 0xffff800000000000, by decide⟩)

theorem twenty_one_ports_hang : ¬ ∃ fuel pcb, registerHandles fuel .start
    (firstPorts 21) = some pcb := by
  rintro ⟨fuel, pcb, hCalls⟩
  have hRoom := hasRoom_of_registerHandles (Nat.le_max_right fuel HashMapCapacity)
    (registerHandles_mono hCalls (Nat.le_max_left fuel HashMapCapacity))
    (show firstPorts 21 = firstPorts 20 ++ ⟨21, 0xffff800000000000, by decide⟩ :: [] from rfl)
  unfold PortHasRoom at hRoom
  revert hRoom
  decide

end Fennix
