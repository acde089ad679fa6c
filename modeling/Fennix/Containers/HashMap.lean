import Fennix.Library.Probe
import Mathlib.Algebra.GroupWithZero.Nat

/-
  The hash map of the kernel.
-/

namespace Fennix

open List Option

structure HashNode (V : Type) where
  value : V
  key : UInt32

def HashMapCapacity : Nat := 20

structure HashMap (V : Type) where
  hashMapSize : Nat
  nodes : Nat → Option (HashNode V)

namespace HashMap

variable {V : Type} (calls : List (UInt32 × V)) (call : UInt32 × V)

def empty : HashMap V where
  hashMapSize := 0
  nodes := fun _ => none

def hashCode (key : UInt32) : Nat :=
  key.toNat % HashMapCapacity

def deletedKey : UInt32 := 0xFFFFFFFF

def vacant (map : HashMap V) (index : Nat) : Bool :=
  match map.nodes index with
  | none => true
  | some node => node.key = deletedKey

def stopsAt (map : HashMap V) (key : UInt32) (index : Nat) : Bool :=
  match map.nodes index with
  | none => true
  | some node => node.key = key || node.key = deletedKey

def addNode (fuel : Nat) (map : HashMap V) (key : UInt32) (value : V) : Option (HashMap V) :=
  (seek HashMapCapacity (map.stopsAt key) fuel (hashCode key)).map (fun index =>
      { hashMapSize :=
          if map.vacant index then map.hashMapSize + 1
          else map.hashMapSize
        nodes := putAt map.nodes index ⟨value, key⟩ })

/- The parameter is an `int`; it is converted for the hash code and for the comparison. -/
def get [Zero V] (map : HashMap V) (key : Int32) : V :=
  match lookup HashMapCapacity map.nodes (fun node => node.key = key.toUInt32)
      (HashMapCapacity + 1) (hashCode key.toUInt32) with
  | some node => node.value
  | none => 0

def size (map : HashMap V) : Nat :=
  map.hashMapSize

def addNodes (fuel : Nat) (calls : List (UInt32 × V)) : Option (HashMap V) :=
  calls.foldlM (fun map call => map.addNode fuel call.1 call.2) empty

def lastAdded (calls : List (UInt32 × V)) (key : UInt32) : Option V :=
  (calls.reverse.find? (fun call => call.1 = key)).map Prod.snd

def keysOf (calls : List (UInt32 × V)) : Finset UInt32 :=
  (calls.map Prod.fst).toFinset

structure Refines (map : HashMap V) (calls : List (UInt32 × V)) : Prop where
  represents : Represents HashMapCapacity hashCode HashNode.key map.nodes
      (fun key => (lastAdded calls key).map (fun value => ⟨value, key⟩))
  occupied : occupied HashMapCapacity map.nodes = (keysOf calls).card
  size : map.hashMapSize = (keysOf calls).card

theorem hashCode_lt (key : UInt32) : hashCode key < HashMapCapacity :=
  Nat.mod_lt _ (by decide)

theorem lastAdded_snoc (key : UInt32) : lastAdded (calls ++ [call]) key =
    if key = call.1 then some call.2 else lastAdded calls key := by
  rw [lastAdded, reverse_append, reverse_singleton, singleton_append, find?_cons]
  by_cases hKey : key = call.1
  · simp [hKey]
  · have hOther : ¬ call.1 = key := fun h => hKey h.symm
    simp [hKey, hOther, lastAdded]

theorem keysOf_snoc : keysOf (calls ++ [call]) = insert call.1 (keysOf calls) := by
  ext key
  simp [keysOf]

theorem lastAdded_eq_none {calls : List (UInt32 × V)} {key : UInt32} :
    lastAdded calls key = none ↔ key ∉ keysOf calls := by
  rw [lastAdded, map_eq_none_iff, find?_eq_none]
  simp only [List.mem_reverse, decide_eq_true_eq, keysOf, List.mem_toFinset, List.mem_map,
    not_exists, not_and]

abbrev lastNode (calls : List (UInt32 × V)) (key : UInt32) : Option (HashNode V) :=
  (lastAdded calls key).map (fun value => ⟨value, key⟩)

theorem lastNode_snoc : lastNode (calls ++ [call]) =
    fun key => if key = call.1 then some ⟨call.2, call.1⟩ else lastNode calls key := by
  funext key
  rw [lastNode, lastAdded_snoc]
  by_cases hKey : key = call.1
  · simp [hKey]
  · simp [hKey]

theorem lastNode_eq_none {calls : List (UInt32 × V)} {key : UInt32} :
    lastNode calls key = none ↔ key ∉ keysOf calls := by
  rw [lastNode, map_eq_none_iff, lastAdded_eq_none]

namespace Refines

variable {map : HashMap V} {calls : List (UInt32 × V)} {index : Nat} {key : UInt32}

theorem empty : Refines (empty : HashMap V) [] where
  represents := Represents.empty
  occupied := by
    simp [keysOf, HashMap.empty, occupied_empty]
  size := rfl

variable (h : Refines map calls)

include h

theorem key_mem {node : HashNode V} (hIndex : index < HashMapCapacity)
    (hNode : map.nodes index = some node) : node.key ∈ keysOf calls := by
  have hIn := (h.represents.entries node).mp ⟨index, hIndex, hNode⟩
  by_contra hNot
  rw [lastAdded_eq_none.mpr hNot] at hIn
  cases hIn

theorem stopsAt_iff (hKeys : deletedKey ∉ keysOf calls) (hIndex : index < HashMapCapacity) :
    map.stopsAt key index = true ↔ ∀ node, map.nodes index = some node → node.key = key := by
  unfold stopsAt
  cases hNode : map.nodes index with
  | none => simp
  | some node =>
    have hLive : node.key ≠ deletedKey := ne_of_mem_of_not_mem (h.key_mem hIndex hNode) hKeys
    simp [hLive]

theorem vacant_eq (hKeys : deletedKey ∉ keysOf calls) (hIndex : index < HashMapCapacity) :
    map.vacant index = (map.nodes index).isNone := by
  unfold vacant
  cases hNode : map.nodes index with
  | none => rfl
  | some node =>
    have hLive : node.key ≠ deletedKey := ne_of_mem_of_not_mem (h.key_mem hIndex hNode) hKeys
    simp [hLive]

theorem exists_place (hRoom : (insert key (keysOf calls)).card ≤ HashMapCapacity) :
    ∃ d, Represents.Place HashMapCapacity hashCode HashNode.key map.nodes key d := by
  apply h.represents.exists_place hashCode_lt
  by_cases hOld : key ∈ keysOf calls
  · refine Or.inl ?_
    intro hNone
    exact lastNode_eq_none.mp hNone hOld
  refine Or.inr ?_
  rw [Finset.card_insert_of_notMem hOld] at hRoom
  rw [h.occupied]
  omega

theorem addNode_eq {fuel d : Nat} (hFuel : HashMapCapacity ≤ fuel)
    (hKeys : deletedKey ∉ keysOf calls)
    (hPlace : Represents.Place HashMapCapacity hashCode HashNode.key map.nodes key d) (value : V) :
    map.addNode fuel key value = some
      { hashMapSize :=
          if key ∈ keysOf calls then map.hashMapSize
          else map.hashMapSize + 1
        nodes := putAt map.nodes ((hashCode key + d) % HashMapCapacity) ⟨value, key⟩ } := by
  have hSeek : seek HashMapCapacity (map.stopsAt key) fuel (hashCode key) =
    some ((hashCode key + d) % HashMapCapacity) := by
    apply hPlace.seek (hashCode_lt _) hFuel
    intro index hIndex
    exact h.stopsAt_iff hKeys hIndex
  have hSlot : (hashCode key + d) % HashMapCapacity < HashMapCapacity := Nat.mod_lt _ (by decide)
  have hVacant : map.vacant ((hashCode key + d) % HashMapCapacity) =
      decide (key ∉ keysOf calls) := by
    rw [h.vacant_eq hKeys hSlot, Bool.eq_iff_iff, isNone_iff_eq_none, decide_eq_true_iff]
    exact (h.represents.place_none_iff (a := ⟨value, key⟩) hPlace).trans lastNode_eq_none
  rw [HashMap.addNode, hSeek, map_some, hVacant]
  simp only [decide_eq_true_eq, ite_not]

theorem addNode {fuel : Nat} {call : UInt32 × V}
    (hFuel : HashMapCapacity ≤ fuel) (hKeys : deletedKey ∉ keysOf calls)
    (hRoom : (keysOf (calls ++ [call])).card ≤ HashMapCapacity) :
    ∃ map', map.addNode fuel call.1 call.2 = some map' ∧ Refines map' (calls ++ [call]) := by
  rw [keysOf_snoc] at hRoom
  rcases h.exists_place hRoom with ⟨d, hPlace⟩
  refine ⟨_, h.addNode_eq hFuel hKeys hPlace call.2, ?_⟩
  have hCount := h.represents.occupied_put (a := ⟨call.2, call.1⟩) hPlace
  refine ⟨?_, ?_, ?_⟩
  · change Represents _ _ _ _ (lastNode _)
    rw [lastNode_snoc]
    exact h.represents.put (a := ⟨call.2, call.1⟩) hPlace
  · rw [hCount, keysOf_snoc, Finset.card_insert_eq_ite, h.occupied]
    simp only [lastNode_eq_none, ite_not]
  · rw [keysOf_snoc, Finset.card_insert_eq_ite, h.size]

theorem get_eq [Zero V] (key : UInt32) : map.get key.toInt32 = (lastAdded calls key).getD 0 := by
  have hLookup := h.represents.lookup_eq hashCode_lt (Nat.le_succ HashMapCapacity) key
  rw [get, UInt32.toUInt32_toInt32, hLookup]
  cases lastAdded calls key <;> rfl

end Refines

theorem addNodes_refines [Zero V] {fuel : Nat} (calls : List (UInt32 × V))
    (hFuel : HashMapCapacity ≤ fuel) (hKeys : ∀ call ∈ calls, call.1 ≠ 0xFFFFFFFF)
    (hFew : (keysOf calls).card ≤ HashMapCapacity) : ∃ map, addNodes fuel calls = some map ∧
    (∀ key : UInt32, map.get key.toInt32 = (lastAdded calls key).getD 0) ∧
      map.size = (keysOf calls).card := by
  have hRefines : ∃ map, addNodes fuel calls = some map ∧ Refines map calls := by
    induction calls using reverseRecOn with
    | nil => exact ⟨empty, rfl, Refines.empty⟩
    | append_singleton calls call ih =>
      have hLess : (keysOf calls).card ≤ HashMapCapacity := by
        rw [keysOf_snoc] at hFew
        exact (Finset.card_le_card (Finset.subset_insert _ _)).trans hFew
      have hOld : ∀ c ∈ calls, c.1 ≠ 0xFFFFFFFF := fun c hc => hKeys c (mem_append_left _ hc)
      rcases ih hOld hLess with ⟨map, hMap, hRefines⟩
      have hLive : deletedKey ∉ keysOf calls := by
        simp only [keysOf, List.mem_toFinset, List.mem_map, not_exists, not_and]
        exact hOld
      rcases hRefines.addNode hFuel hLive hFew with ⟨map', hAdd, hNext⟩
      refine ⟨map', ?_, hNext⟩
      rw [addNodes, foldlM_append]
      rw [addNodes] at hMap
      rw [hMap]
      simp [hAdd]
  rcases hRefines with ⟨map, hMap, hRefines⟩
  exact ⟨map, hMap, hRefines.get_eq, hRefines.size⟩

theorem addNodes_refines_collision : ∃ map : HashMap Nat,
    addNodes 20 [(3, 7), (23, 8), (3, 9)] = some map ∧
      (∀ key : UInt32, map.get key.toInt32 = (lastAdded [(3, 7), (23, 8), (3, 9)] key).getD 0) ∧
        map.size = (keysOf [(3, 7), (23, 8), ((3 : UInt32), (9 : Nat))]).card :=
  addNodes_refines _ (by decide) (by decide) (by decide)

end HashMap

end Fennix
