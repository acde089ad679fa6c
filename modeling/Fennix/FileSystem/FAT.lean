import Mathlib.Tactic.Common
import Mathlib.Algebra.Group.Nat.Defs

/-
  The type of a FAT volume.

  `GetFATType` checks the fields of the parameter block and then counts the clusters.
-/

namespace Fennix

namespace FAT

inductive FatType where
| unknown
| fat12
| fat16
| fat32
deriving DecidableEq, Repr

structure BIOSParameterBlock where
  jumpBoot : Fin 3 → BitVec 8
  bytesPerSector : BitVec 16
  sectorsPerCluster : BitVec 8
  reservedSectors : BitVec 16
  numberOfFATs : BitVec 8
  rootDirectoryEntries : BitVec 16
  sectors16 : BitVec 16
  media : BitVec 8
  sectorsPerFAT : BitVec 16
  sectors32 : BitVec 32

namespace BIOSParameterBlock

variable (b : BIOSParameterBlock)

def Refused : Prop :=
  b.bytesPerSector = 0 ∨ b.sectorsPerCluster = 0 ∨ (b.jumpBoot 0 = 0xEB ∧ b.jumpBoot 2 ≠ 0x90) ∨
    (b.jumpBoot 0 ≠ 0xEB ∧ b.jumpBoot 0 ≠ 0xE9) ∨
    (b.media ≠ 0xF0 ∧ b.media < 0xF8) ∨
    (b.bytesPerSector ≠ 512 ∧ b.bytesPerSector ≠ 1024 ∧ b.bytesPerSector ≠ 2048 ∧
      b.bytesPerSector ≠ 4096) ∨
    b.sectorsPerCluster.toNat * b.bytesPerSector.toNat > 32 * 1024 ∨
    b.reservedSectors = 0 ∨ b.numberOfFATs < 2

instance : Decidable b.Refused :=
  inferInstanceAs (Decidable (_ ∨ _))

def sectors : BitVec 32 :=
  if b.sectors16 ≠ 0 then b.sectors16.setWidth 32 else b.sectors32

def size : BitVec 32 :=
  if b.sectors16 ≠ 0 then b.sectors16.setWidth 32 else b.sectors32

def rootSectors : Nat :=
  (b.rootDirectoryEntries.toNat * 32 + (b.bytesPerSector.toNat - 1)) / b.bytesPerSector.toNat

def clusters : BitVec 32 :=
  (b.sectors - (b.reservedSectors.setWidth 32 + b.numberOfFATs.setWidth 32 * b.size +
    BitVec.ofNat 32 b.rootSectors)) / b.sectorsPerCluster.setWidth 32

end BIOSParameterBlock

def getFATType (bpb : Option BIOSParameterBlock) : FatType :=
  match bpb with
  | none => .unknown
  | some b =>
    if b.Refused then .unknown
    else if b.clusters < 4085 then .fat12
    else if b.clusters < 65525 then .fat16
    else if b.rootDirectoryEntries ≠ 0 then .unknown
    else if b.sectors16 ≠ 0 then .unknown
    else if b.sectors32 = 0 then .unknown
    else .fat32

variable (b : BIOSParameterBlock)

def overhead : Nat :=
  b.reservedSectors.toNat + b.numberOfFATs.toNat * b.sectorsPerFAT.toNat + b.rootSectors

def dataClusters : Nat :=
  (b.sectors.toNat - overhead b) / b.sectorsPerCluster.toNat

/- The count the code takes: a FAT counts all sectors. -/
def takenClusters : Nat :=
  (2 ^ 40 + b.sectors.toNat - (b.reservedSectors.toNat +
    b.numberOfFATs.toNat * b.sectors.toNat + b.rootSectors)) % 2 ^ 32 / b.sectorsPerCluster.toNat

def Classified : Prop :=
  (getFATType (some b) = .fat12 ↔ dataClusters b < 4085) ∧
    (getFATType (some b) = .fat16 ↔ 4085 ≤ dataClusters b ∧ dataClusters b < 65525)

def SameClass (x y : Nat) : Prop :=
  (x < 4085 ↔ y < 4085) ∧ (x < 65525 ↔ y < 65525)

section Counts

variable {b : BIOSParameterBlock}

section

variable (hPass : ¬ b.Refused)

include hPass

theorem bytesPerSector_ge : 512 ≤ b.bytesPerSector.toNat := by
  unfold BIOSParameterBlock.Refused at hPass
  have hSize : b.bytesPerSector = 512 ∨ b.bytesPerSector = 1024 ∨ b.bytesPerSector = 2048 ∨
    b.bytesPerSector = 4096 := by
    tauto
  rcases hSize with h | h | h | h <;> rw [h] <;> decide

theorem rootSectors_le : b.rootSectors ≤ 4096 := by
  have hBytes := bytesPerSector_ge hPass
  have hRoot := b.rootDirectoryEntries.isLt
  rw [BIOSParameterBlock.rootSectors, ← Nat.lt_succ_iff, Nat.div_lt_iff_lt_mul (by omega)]
  omega

theorem toNat_clusters : b.clusters.toNat = takenClusters b := by
  have hRoot := rootSectors_le hPass
  have hReserved := b.reservedSectors.isLt
  have hSectors := b.sectors.isLt
  have hCluster := b.sectorsPerCluster.isLt
  have hFATs := b.numberOfFATs.isLt
  have hTables : b.numberOfFATs.toNat * b.sectors.toNat ≤ 255 * b.sectors.toNat :=
    Nat.mul_le_mul_right _ (by omega)
  rw [BIOSParameterBlock.clusters, takenClusters, BitVec.toNat_udiv, BitVec.toNat_sub,
    BitVec.toNat_add, BitVec.toNat_add, BitVec.toNat_mul, BitVec.toNat_setWidth,
    BitVec.toNat_setWidth, BitVec.toNat_setWidth, BitVec.toNat_ofNat,
    show b.size = b.sectors from rfl,
    Nat.mod_eq_of_lt (show b.numberOfFATs.toNat < 2 ^ 32 by omega),
    Nat.mod_eq_of_lt (show b.sectorsPerCluster.toNat < 2 ^ 32 by omega)]
  congr 1
  omega

theorem getFATType_iff : (getFATType (some b) = .fat12 ↔ takenClusters b < 4085) ∧
    (getFATType (some b) = .fat16 ↔ 4085 ≤ takenClusters b ∧ takenClusters b < 65525) := by
  have hLimit : ∀ n : BitVec 32, b.clusters < n ↔ takenClusters b < n.toNat := by
    intro n
    rw [BitVec.lt_def, toNat_clusters hPass]
  rw [getFATType, if_neg hPass]
  have hFirst := hLimit 4085
  have hSecond := hLimit 65525
  change _ ↔ takenClusters b < 4085 at hFirst
  change _ ↔ takenClusters b < 65525 at hSecond
  by_cases hSmall : b.clusters < 4085
  · rw [if_pos hSmall]
    rw [hFirst] at hSmall
    exact ⟨iff_of_true rfl hSmall, iff_of_false (by decide) (by omega)⟩
  rw [if_neg hSmall]
  rw [hFirst] at hSmall
  by_cases hMiddle : b.clusters < 65525
  · rw [if_pos hMiddle]
    rw [hSecond] at hMiddle
    exact ⟨iff_of_false (by decide) hSmall, iff_of_true rfl (by omega)⟩
  rw [if_neg hMiddle]
  rw [hSecond] at hMiddle
  constructor
  · refine iff_of_false ?_ hSmall
    repeat' split
    all_goals decide
  refine iff_of_false ?_ (fun h => hMiddle h.2)
  repeat' split
  all_goals decide

theorem takenClusters_ge (hModerate : (b.numberOfFATs.toNat - 1) * b.sectors.toNat ≤ 2 ^ 31) :
    65525 ≤ takenClusters b := by
  have hRoot := rootSectors_le hPass
  have hReserved := b.reservedSectors.isLt
  have hBytes := bytesPerSector_ge hPass
  unfold BIOSParameterBlock.Refused at hPass
  simp only [not_or] at hPass
  rcases hPass with ⟨_, hCluster, _, _, _, _, hProduct, hSome, hTwo⟩
  have hFATs : 2 ≤ b.numberOfFATs.toNat := BitVec.le_def.mp (BitVec.not_lt.mp hTwo)
  have hPos : 0 < b.sectorsPerCluster.toNat :=
    Nat.pos_of_ne_zero (fun h => hCluster (BitVec.eq_of_toNat_eq h))
  have hBoot : 0 < b.reservedSectors.toNat :=
    Nat.pos_of_ne_zero (fun h => hSome (BitVec.eq_of_toNat_eq h))
  have hSmall : b.sectorsPerCluster.toNat * 512 ≤ 32 * 1024 :=
    Nat.le_trans (Nat.mul_le_mul_left _ hBytes) (Nat.not_lt.mp hProduct)
  have hSplit : b.numberOfFATs.toNat * b.sectors.toNat =
    (b.numberOfFATs.toNat - 1) * b.sectors.toNat + b.sectors.toNat := by
    rw [← Nat.succ_mul, Nat.succ_eq_add_one, Nat.sub_add_cancel (by omega)]
  rw [takenClusters, Nat.le_div_iff_mul_le hPos, hSplit]
  omega

end

end Counts

theorem classified_iff (hPass : ¬ b.Refused) :
    (Classified b ↔ SameClass (takenClusters b) (dataClusters b)) ∧
    ((b.numberOfFATs.toNat - 1) * b.sectors.toNat ≤ 2 ^ 31 →
    (Classified b ↔ 65525 ≤ dataClusters b)) := by
  rcases getFATType_iff hPass with ⟨hSmall, hMiddle⟩
  have hSame : Classified b ↔ SameClass (takenClusters b) (dataClusters b) := by
    rw [Classified, hSmall, hMiddle, SameClass]
    omega
  refine ⟨hSame, ?_⟩
  intro hModerate
  have hMany := takenClusters_ge hPass hModerate
  rw [hSame, SameClass]
  omega

def largeVolume : BIOSParameterBlock where
  jumpBoot := fun i => if i = 0 then 0xEB else if i = 1 then 0x58 else 0x90
  bytesPerSector := 512
  sectorsPerCluster := 8
  reservedSectors := 32
  numberOfFATs := 2
  rootDirectoryEntries := 0
  sectors16 := 0
  media := 0xF8
  sectorsPerFAT := 1022
  sectors32 := 0x100000

theorem classified_iff_largeVolume : Classified largeVolume :=
  ((classified_iff largeVolume (by decide)).2 (by decide)).mpr (by decide)

def floppy : BIOSParameterBlock :=
  { largeVolume with
    sectorsPerCluster := 1
    reservedSectors := 1
    rootDirectoryEntries := 224
    sectors16 := 2880
    media := 0xF0
    sectorsPerFAT := 9
    sectors32 := 0 }

theorem floppy_unknown : overhead floppy ≤ floppy.sectors.toNat ∧ dataClusters floppy = 2847 ∧
    getFATType (some floppy) = .unknown ∧ ¬ Classified floppy := by
  refine ⟨by decide, by decide, by decide, ?_⟩
  intro h
  exact absurd (h.1.mpr (by decide)) (by decide)

end FAT

end Fennix
