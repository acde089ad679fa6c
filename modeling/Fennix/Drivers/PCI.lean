import Fennix.Library.Word
import Mathlib.Data.List.Nodup

/-
  The functions that are found on the PCI buses.

  A device is left out if it has no function 0, and a bus other than the first if it has no device
  0.
-/

namespace Fennix

open List

namespace PCI

structure DeviceConfig where
  baseAddress : Nat
  startBus : BitVec 8
  endBus : BitVec 8

structure MCFG where
  length : Nat
  config : Nat → DeviceConfig

variable (deviceID : Nat → BitVec 16)

def Present (address : Nat) : Prop :=
  ¬ (deviceID address = 0 ∨ deviceID address = 0xFFFF)

instance (address : Nat) : Decidable (Present deviceID address) :=
  inferInstanceAs (Decidable (¬ _))

def enumerateFunction (deviceAddress function : Nat) : List Nat :=
  let functionAddress := u64 (deviceAddress + function <<< 12)
  if Present deviceID functionAddress then [functionAddress] else []

def enumerateDevice (busAddress device : Nat) : List Nat :=
  let deviceAddress := u64 (busAddress + device <<< 15)
  if Present deviceID deviceAddress then
    (range 8).flatMap (enumerateFunction deviceID deviceAddress)
  else []

def enumerateBus (baseAddress bus : Nat) : List Nat :=
  let busAddress := u64 (baseAddress + bus <<< 20)
  if bus = 0 ∨ Present deviceID busAddress then
    (range 32).flatMap (enumerateDevice deviceID busAddress)
  else []

def MCFG.entries (mcfg : MCFG) : Nat :=
  (mcfg.length - 44) / 16

def enumeratePCI (mcfg : MCFG) : List Nat :=
  (range mcfg.entries).flatMap (fun t =>
    let config := mcfg.config t
    (range' config.startBus.toNat (config.endBus.toNat - config.startBus.toNat)).flatMap
      (enumerateBus deviceID config.baseAddress))

def DeviceConfig.address (config : DeviceConfig) (bus device function : Nat) : Nat :=
  u64 (config.baseAddress + (bus * 2 ^ 20 + device * 2 ^ 15 + function * 2 ^ 12))

structure Function (mcfg : MCFG) (t bus device function : Nat) : Prop where
  entry : t < mcfg.entries
  start : (mcfg.config t).startBus.toNat ≤ bus
  stop : bus ≤ (mcfg.config t).endBus.toNat
  device : device < 32
  function : function < 8

structure Complete (mcfg : MCFG) : Prop where
  once : (enumeratePCI deviceID mcfg).Nodup
  mem_iff : ∀ a, a ∈ enumeratePCI deviceID mcfg ↔ ∃ t bus device function,
    Function mcfg t bus device function ∧ a = (mcfg.config t).address bus device function ∧
      Present deviceID a

def Skipped (config : DeviceConfig) (bus : Nat) : Prop :=
  bus = config.endBus.toNat ∨ bus ≠ 0 ∧ ¬ Present deviceID (config.address bus 0 0)

variable {deviceID}

theorem nodup_flatMap_of_unique {α β : Type} {l : List α} {f : α → List β} (hl : l.Nodup)
    (hf : ∀ x ∈ l, (f x).Nodup) (hUnique : ∀ x ∈ l, ∀ y ∈ l, ∀ a, a ∈ f x → a ∈ f y → x = y) :
    (l.flatMap f).Nodup := by
  rw [nodup_flatMap]
  refine ⟨hf, List.Nodup.pairwise_of_forall_ne hl ?_⟩
  intro x hx y hy hNe a ha ha'
  exact hNe (hUnique x hx y hy a ha ha')

section Addresses

variable {config : DeviceConfig} {bus bus' device device' function function' a : Nat}

theorem DeviceConfig.address_inj (hBus : bus < 256) (hBus' : bus' < 256) (hDevice : device < 32)
    (hDevice' : device' < 32) (hFunction : function < 8) (hFunction' : function' < 8)
    (h : config.address bus device function = config.address bus' device' function') :
    bus = bus' ∧ device = device' ∧ function = function' := by
  unfold address u64 at h
  omega

theorem bus_address : u64 (config.baseAddress + bus <<< 20) = config.address bus 0 0 := by
  simp [DeviceConfig.address, Nat.shiftLeft_eq]

theorem device_address : u64 (config.address bus 0 0 + device <<< 15) =
    config.address bus device 0 := by
  unfold DeviceConfig.address u64
  rw [Nat.shiftLeft_eq]
  omega

theorem function_address : u64 (config.address bus device 0 + function <<< 12) =
    config.address bus device function := by
  unfold DeviceConfig.address u64
  rw [Nat.shiftLeft_eq]
  omega

theorem mem_enumerateDevice : a ∈ enumerateDevice deviceID (config.address bus 0 0) device ↔
    Present deviceID (config.address bus device 0) ∧
    ∃ function < 8, Present deviceID a ∧ a = config.address bus device function := by
  simp only [enumerateDevice, device_address, mem_ite_nil_right, mem_flatMap,
    mem_range, enumerateFunction, function_address, mem_singleton]
  refine and_congr_right (fun _ => exists_congr (fun function => and_congr_right (fun _ => ?_)))
  exact and_congr_left (fun hEq => by rw [hEq])

theorem mem_enumerateBus : a ∈ enumerateBus deviceID config.baseAddress bus ↔
    (bus = 0 ∨ Present deviceID (config.address bus 0 0)) ∧ ∃ device < 32,
    Present deviceID (config.address bus device 0) ∧ ∃ function < 8,
      Present deviceID a ∧ a = config.address bus device function := by
  simp only [enumerateBus, bus_address, mem_ite_nil_right, mem_flatMap, mem_range,
    mem_enumerateDevice]

theorem nodup_enumerateDevice (hBus : bus < 256) (hDevice : device < 32) :
    (enumerateDevice deviceID (config.address bus 0 0) device).Nodup := by
  simp only [enumerateDevice, device_address]
  split
  · refine nodup_flatMap_of_unique nodup_range (fun function _ => ?_) ?_
    · simp only [enumerateFunction]
      split <;> simp
    intro function hFunction function' hFunction' a ha ha'
    simp only [enumerateFunction, function_address, mem_ite_nil_right, mem_singleton] at ha ha'
    rw [mem_range] at hFunction hFunction'
    exact (DeviceConfig.address_inj hBus hBus hDevice hDevice hFunction hFunction'
      (ha.2.symm.trans ha'.2)).2.2
  · exact nodup_nil

theorem nodup_enumerateBus (hBus : bus < 256) :
    (enumerateBus deviceID config.baseAddress bus).Nodup := by
  simp only [enumerateBus, bus_address]
  split
  · refine nodup_flatMap_of_unique nodup_range (fun device hDevice => ?_) ?_
    · exact nodup_enumerateDevice hBus (mem_range.mp hDevice)
    intro device hDevice device' hDevice' a ha ha'
    rw [mem_range] at hDevice hDevice'
    rcases mem_enumerateDevice.mp ha with ⟨_, function, hFunction, _, rfl⟩
    rcases mem_enumerateDevice.mp ha' with ⟨_, function', hFunction', _, hEq⟩
    exact (DeviceConfig.address_inj hBus hBus hDevice hDevice' hFunction hFunction' hEq).2.1
  · exact nodup_nil

end Addresses

variable {mcfg : MCFG} {t t' bus bus' device device' function function' : Nat}

def Disjoint (mcfg : MCFG) : Prop :=
  ∀ t bus device function t' bus' device' function', Function mcfg t bus device function →
    Function mcfg t' bus' device' function' →
    (mcfg.config t).address bus device function = (mcfg.config t').address bus' device' function' →
    t = t'

theorem Function.inj (hDisjoint : Disjoint mcfg) (h : Function mcfg t bus device function)
    (h' : Function mcfg t' bus' device' function')
    (hEq : (mcfg.config t).address bus device function =
    (mcfg.config t').address bus' device' function') : t = t' ∧ bus = bus' := by
  have hSame := hDisjoint _ _ _ _ _ _ _ _ h h' hEq
  subst hSame
  have hEnd := (mcfg.config t).endBus.isLt
  have hStop := h.stop
  have hStop' := h'.stop
  exact ⟨rfl, (DeviceConfig.address_inj (by omega) (by omega) h.device h'.device h.function
    h'.function hEq).1⟩

theorem mem_enumeratePCI {a : Nat} : a ∈ enumeratePCI deviceID mcfg ↔
    ∃ t bus device function, Function mcfg t bus device function ∧
    ¬ Skipped deviceID (mcfg.config t) bus ∧
    Present deviceID ((mcfg.config t).address bus device 0) ∧ Present deviceID a ∧
    a = (mcfg.config t).address bus device function := by
  simp only [enumeratePCI, mem_flatMap, mem_range, mem_range'_1, mem_enumerateBus,
    Skipped, not_or, not_and, not_not]
  constructor
  · rintro ⟨t, ht, bus, ⟨hStart, hStop⟩, hFirst, device, hDevice, hZero, function, hFunction, ha,
      hEq⟩
    refine ⟨t, bus, device, function, ⟨ht, hStart, by omega, hDevice, hFunction⟩,
      ⟨by omega, ?_⟩, hZero, ha, hEq⟩
    exact fun hBus => hFirst.resolve_left hBus
  rintro ⟨t, bus, device, function, h, ⟨hLast, hFirst⟩, hZero, ha, hEq⟩
  have hStart := h.start
  have hStop := h.stop
  exact ⟨t, h.entry, bus, ⟨hStart, by omega⟩, or_iff_not_imp_left.mpr hFirst, device, h.device,
    hZero, function, h.function, ha, hEq⟩

theorem function_of_mem {a : Nat} (ht : t < mcfg.entries)
    (hBus : bus ∈ range' (mcfg.config t).startBus.toNat
    ((mcfg.config t).endBus.toNat - (mcfg.config t).startBus.toNat))
    (ha : a ∈ enumerateBus deviceID (mcfg.config t).baseAddress bus) : ∃ device function,
    Function mcfg t bus device function ∧ a = (mcfg.config t).address bus device function := by
  rw [mem_range'_1] at hBus
  rcases mem_enumerateBus.mp ha with ⟨_, device, hDevice, _, function, hFunction, _, hEq⟩
  exact ⟨device, function, ⟨ht, hBus.1, by omega, hDevice, hFunction⟩, hEq⟩

theorem nodup_enumeratePCI (hDisjoint : Disjoint mcfg) : (enumeratePCI deviceID mcfg).Nodup := by
  refine nodup_flatMap_of_unique nodup_range (fun t ht => ?_) ?_
  · refine nodup_flatMap_of_unique nodup_range' (fun bus hBus => ?_) ?_
    · have hEnd := (mcfg.config t).endBus.isLt
      rw [mem_range'_1] at hBus
      exact nodup_enumerateBus (by omega)
    intro bus hBus bus' hBus' a ha ha'
    rw [mem_range] at ht
    rcases function_of_mem ht hBus ha with ⟨device, function, h, rfl⟩
    rcases function_of_mem ht hBus' ha' with ⟨device', function', h', hEq⟩
    exact (h.inj hDisjoint h' hEq).2
  intro t ht t' ht' a ha ha'
  rw [mem_range] at ht ht'
  rcases mem_flatMap.mp ha with ⟨bus, hBus, ha⟩
  rcases mem_flatMap.mp ha' with ⟨bus', hBus', ha'⟩
  rcases function_of_mem ht hBus ha with ⟨device, function, h, rfl⟩
  rcases function_of_mem ht' hBus' ha' with ⟨device', function', h', hEq⟩
  exact (h.inj hDisjoint h' hEq).1

theorem enumerates_functions_iff (deviceID : Nat → BitVec 16) (mcfg : MCFG)
    (hDisjoint : Disjoint mcfg) (hZero : ∀ t bus device function,
    Function mcfg t bus device function →
    Present deviceID ((mcfg.config t).address bus device function) →
    Present deviceID ((mcfg.config t).address bus device 0)) :
    Complete deviceID mcfg ↔ ∀ t bus device function, Function mcfg t bus device function →
    Skipped deviceID (mcfg.config t) bus →
    ¬ Present deviceID ((mcfg.config t).address bus device function) := by
  constructor
  · intro h t bus device function hFunction hSkipped hPresent
    have hMem := (h.mem_iff _).mpr ⟨t, bus, device, function, hFunction, rfl, hPresent⟩
    rcases mem_enumeratePCI.mp hMem with
      ⟨t', bus', device', function', hFunction', hLooked, _, _, hEq⟩
    rcases hFunction.inj hDisjoint hFunction' hEq with ⟨rfl, rfl⟩
    exact hLooked hSkipped
  intro h
  refine ⟨nodup_enumeratePCI hDisjoint, fun a => ?_⟩
  rw [mem_enumeratePCI]
  constructor
  · rintro ⟨t, bus, device, function, hFunction, _, _, ha, hEq⟩
    exact ⟨t, bus, device, function, hFunction, hEq, ha⟩
  rintro ⟨t, bus, device, function, hFunction, rfl, ha⟩
  exact ⟨t, bus, device, function, hFunction, fun hSkipped => h _ _ _ _ hFunction hSkipped ha,
    hZero _ _ _ _ hFunction ha, ha, rfl⟩

def single : MCFG := ⟨60, fun _ => ⟨0, 0, 0⟩⟩

theorem enumerates_functions_iff_single : Disjoint single ∧
    (Complete (fun _ => 1) single ↔ ∀ t bus device function,
    Function single t bus device function → Skipped (fun _ => 1) (single.config t) bus →
    ¬ Present (fun _ => 1) ((single.config t).address bus device function)) := by
  have hDisjoint : Disjoint single := by
    intro t _ _ _ t' _ _ _ h h' _
    have hOne : single.entries = 1 := rfl
    have hEntry := h.entry
    have hEntry' := h'.entry
    omega
  have hAll : ∀ a, Present (fun _ => 1) a := fun _ => by simp [Present]
  exact ⟨hDisjoint, enumerates_functions_iff _ _ hDisjoint (fun _ _ _ _ _ _ => hAll _)⟩

theorem function_missed : Function single 0 0 0 0 ∧
    Present (fun a => if a = 0 then 1 else 0) ((single.config 0).address 0 0 0) ∧
    enumeratePCI (fun a => if a = 0 then 1 else 0) single = [] := by
  refine ⟨⟨by decide, by decide, by decide, by decide, by decide⟩, ?_, by decide⟩
  unfold DeviceConfig.address u64
  decide

end PCI

end Fennix
