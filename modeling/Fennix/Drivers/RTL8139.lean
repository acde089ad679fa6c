import Fennix.Library.Bytes
import Fennix.Library.Run

/-
  The receive ring of the network card.
-/

namespace Fennix

open BitVec

structure RTL8139 where
  rxBuffer : Nat
  currentPacket : BitVec 32

namespace RTL8139

structure Received where
  data : Nat
  dataLength : BitVec 16
  register : BitVec 16

def dataLength (nic : RTL8139) (m : Memory) : BitVec 16 :=
  m.word 16 (nic.rxBuffer + nic.currentPacket.toNat + 2) 2

def nextPacket (currentPacket : BitVec 32) (dataLength : BitVec 16) : BitVec 32 :=
  let next := (currentPacket + dataLength.setWidth 32 + 4 + 3) &&& ~~~3#32
  if next > 8192 then next - 8192 else next

def receive (nic : RTL8139) (m : Memory) : RTL8139 × Received :=
  let next := nextPacket nic.currentPacket (nic.dataLength m)
  ({ nic with currentPacket := next },
    { data := nic.rxBuffer + nic.currentPacket.toNat + 4
      dataLength := nic.dataLength m
      register := (next - 0x10).setWidth 16 })

def receiveAll (nic : RTL8139) (ms : List Memory) : RTL8139 :=
  ms.foldl (fun nic m => (nic.receive m).1) nic

def InRing (nic : RTL8139) : Prop :=
  nic.currentPacket.toNat % 4 = 0 ∧ nic.currentPacket.toNat < 8192

instance (nic : RTL8139) : Decidable nic.InRing :=
  inferInstanceAs (Decidable (_ ∧ _))

def Ends (nic : RTL8139) (m : Memory) : Prop :=
  (nic.currentPacket.toNat + (nic.dataLength m).toNat + 7) / 4 * 4 ≠ 8192 ∧
    (nic.currentPacket.toNat + (nic.dataLength m).toNat + 7) / 4 * 4 < 16384

theorem toNat_and_not_three (x : BitVec 32) : (x &&& ~~~3#32).toNat = x.toNat / 4 * 4 := by
  have hThree : ∀ i < 32, (3#32).getLsbD i = decide (i < 2) := by decide
  have hShift : x &&& ~~~3#32 = (x >>> 2) <<< 2 := by
    apply eq_of_getLsbD_eq
    intro i hi
    rw [getLsbD_and, getLsbD_not, hThree i hi, getLsbD_shiftLeft, getLsbD_ushiftRight]
    by_cases hLow : i < 2
    · simp [hLow]
    · simp [hLow, hi, show 2 + (i - 2) = i by omega]
  have hx := x.isLt
  rw [hShift, toNat_shiftLeft, toNat_ushiftRight, Nat.shiftRight_eq_div_pow, Nat.shiftLeft_eq]
  omega

theorem toNat_nextPacket {currentPacket : BitVec 32} (h : currentPacket.toNat < 8192)
    (dataLength : BitVec 16) :
    let next := (currentPacket.toNat + dataLength.toNat + 7) / 4 * 4
    (nextPacket currentPacket dataLength).toNat = if 8192 < next then next - 8192 else next := by
  intro next
  have hLength := dataLength.isLt
  have hSum : (currentPacket + dataLength.setWidth 32 + 4 + 3).toNat =
    currentPacket.toNat + dataLength.toNat + 7 := by
    have hFour : (4 : BitVec 32).toNat = 4 := rfl
    have hThree : (3 : BitVec 32).toNat = 3 := rfl
    rw [toNat_add, toNat_add, toNat_add, toNat_setWidth, hFour, hThree]
    omega
  have hNext : ((currentPacket + dataLength.setWidth 32 + 4 + 3) &&& ~~~3#32).toNat = next := by
    rw [toNat_and_not_three, hSum]
  have hWraps : (currentPacket + dataLength.setWidth 32 + 4 + 3) &&& ~~~3#32 > 8192 ↔
    8192 < next := by
    rw [gt_iff_lt, lt_def, hNext]
    rfl
  simp only [nextPacket, hWraps]
  split
  · rename_i hMore
    rw [BitVec.toNat_sub_of_le (BitVec.le_of_lt (hWraps.mpr hMore)), hNext]
    rfl
  · exact hNext

theorem inRing_receive {nic : RTL8139} (m : Memory) (h : nic.InRing) :
    (nic.receive m).1.InRing ↔ nic.Ends m := by
  have hLength := (nic.dataLength m).isLt
  have hNext := toNat_nextPacket h.2 (nic.dataLength m)
  change (nextPacket nic.currentPacket (nic.dataLength m)).toNat % 4 = 0 ∧
    (nextPacket nic.currentPacket (nic.dataLength m)).toNat < 8192 ↔ _
  rw [Ends, hNext]
  split
  · omega
  · omega

theorem inRing_iff (nic : RTL8139) (ms : List Memory) :
    (∀ before, before <+: ms → (nic.receiveAll before).InRing) ↔
    nic.InRing ∧ ∀ before m, before ++ [m] <+: ms → (nic.receiveAll before).Ends m := by
  apply prefixes_iff
  intro before m h
  rw [receiveAll, List.foldl_append]
  exact inRing_receive m h

theorem ninth_header_outside : let m : Memory := fun a => if a % 4 = 2 then 0xFC else 0x03
    let nic : RTL8139 := ⟨0, 0⟩
    nic.InRing ∧ nic.dataLength m = 1020 ∧
      (nic.receiveAll (List.replicate 8 m)).currentPacket = 8192 ∧
      ¬ (nic.receiveAll (List.replicate 8 m)).InRing := by
  decide

end RTL8139

end Fennix
