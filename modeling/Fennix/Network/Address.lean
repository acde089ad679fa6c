import Fennix.Library.Bytes

/-
  Addresses and byte orders of the network stack.
-/

namespace Fennix

open List

def b16 (x : BitVec 16) : BitVec 16 :=
  reverseBytes 2 x

def b32 (x : BitVec 32) : BitVec 32 :=
  reverseBytes 4 x

def b48 (x : BitVec 64) : BitVec 64 :=
  ((x &&& 0x0000000000ff) <<< 40) ||| ((x &&& 0x00000000ff00) <<< 24) |||
    ((x &&& 0x000000ff0000) <<< 8) |||
    ((x &&& 0x0000ff000000) >>> 8) |||
    ((x &&& 0x00ff00000000) >>> 24) |||
    ((x &&& 0xff0000000000) >>> 40)

theorem byteAt_b48 (x : BitVec 64) {i : Nat} (hi : i < 8) : byteAt (b48 x) i =
    if i < 6 then byteAt x (5 - i) else 0 := by
  change byteAt (((x &&& (0xFF#8).setWidth 64 <<< (8 * 0)) <<< (8 * 5)) |||
    ((x &&& (0xFF#8).setWidth 64 <<< (8 * 1)) <<< (8 * 3)) |||
    ((x &&& (0xFF#8).setWidth 64 <<< (8 * 2)) <<< (8 * 1)) |||
    ((x &&& (0xFF#8).setWidth 64 <<< (8 * 3)) >>> (8 * 1)) |||
    ((x &&& (0xFF#8).setWidth 64 <<< (8 * 4)) >>> (8 * 3)) |||
    ((x &&& (0xFF#8).setWidth 64 <<< (8 * 5)) >>> (8 * 5))) i = _
  have hIn : 8 * i + 8 ≤ 64 := by omega
  rw [byteAt_or, byteAt_or, byteAt_or, byteAt_or, byteAt_or, byteAt_shiftLeft _ _ hIn,
    byteAt_shiftLeft _ _ hIn, byteAt_shiftLeft _ _ hIn, byteAt_ushiftRight, byteAt_ushiftRight,
    byteAt_ushiftRight]
  interval_cases i <;>
    simp (disch := decide) only [byteAt_mask, byteAt_beyond] <;> simp

theorem b48_eq (x : BitVec 64) : b48 x = reverseBytes 6 x := by
  apply eq_of_byteAt (n := 8) rfl
  intro i hi
  rw [byteAt_b48 x hi]
  by_cases hLow : i < 6
  · rw [if_pos hLow, byteAt_reverseBytes x (by decide) hLow]
  rw [if_neg hLow, reverseBytes, byteAt_joinBytes _ (by omega), getD_eq_getElem?_getD,
    getElem?_eq_none (by simpa using hLow)]
  rfl

theorem b16_joinBytes (x : BitVec 16) : b16 (joinBytes 16 (splitBytes 2 (b16 x))) = x := by
  rw [b16, reverseBytes_joinBytes (by simp) (by decide), b16, splitBytes_reverseBytes _ (by decide),
    reverse_reverse, joinBytes_splitBytes x rfl]

structure MediaAccessControl where
  address0 : BitVec 8
  address1 : BitVec 8
  address2 : BitVec 8
  address3 : BitVec 8
  address4 : BitVec 8
  address5 : BitVec 8
deriving DecidableEq

namespace MediaAccessControl

variable (mac : MediaAccessControl)

def octets (mac : MediaAccessControl) : List (BitVec 8) :=
  [mac.address0, mac.address1, mac.address2, mac.address3, mac.address4, mac.address5]

def toHex (mac : MediaAccessControl) : BitVec 64 :=
  (mac.address0.setWidth 64 <<< 40) ||| (mac.address1.setWidth 64 <<< 32) |||
    (mac.address2.setWidth 64 <<< 24) |||
    (mac.address3.setWidth 64 <<< 16) |||
    (mac.address4.setWidth 64 <<< 8) |||
    mac.address5.setWidth 64

def fromHex (hex : BitVec 64) : MediaAccessControl where
  address0 := ((hex >>> 40) &&& 0xFF).setWidth 8
  address1 := ((hex >>> 32) &&& 0xFF).setWidth 8
  address2 := ((hex >>> 24) &&& 0xFF).setWidth 8
  address3 := ((hex >>> 16) &&& 0xFF).setWidth 8
  address4 := ((hex >>> 8) &&& 0xFF).setWidth 8
  address5 := (hex &&& 0xFF).setWidth 8

def equalsHex (mac : MediaAccessControl) (hex : BitVec 64) : Bool :=
  fromHex hex = mac

def broadcast : MediaAccessControl :=
  ⟨0xFF, 0xFF, 0xFF, 0xFF, 0xFF, 0xFF⟩

theorem ext_octets {mac mac' : MediaAccessControl} (h : mac.octets = mac'.octets) : mac = mac' := by
  cases mac
  cases mac'
  simpa [octets] using h

@[simp] theorem length_octets : mac.octets.length = 6 :=
  rfl

theorem toHex_eq : mac.toHex = joinBytes 64 mac.octets.reverse := by
  apply eq_of_byteAt (n := 8) rfl
  intro i hi
  have hIn : 8 * i + 8 ≤ 64 := by omega
  rw [byteAt_joinBytes _ hIn]
  change byteAt ((mac.address0.setWidth 64 <<< (8 * 5)) |||
    (mac.address1.setWidth 64 <<< (8 * 4)) ||| (mac.address2.setWidth 64 <<< (8 * 3)) |||
    (mac.address3.setWidth 64 <<< (8 * 2)) ||| (mac.address4.setWidth 64 <<< (8 * 1)) |||
    mac.address5.setWidth 64) i = _
  rw [byteAt_or, byteAt_or, byteAt_or, byteAt_or, byteAt_or, byteAt_placed _ _ hIn,
    byteAt_placed _ _ hIn, byteAt_placed _ _ hIn, byteAt_placed _ _ hIn, byteAt_placed _ _ hIn,
    byteAt_setWidth _ hIn, byteAt_byte]
  interval_cases i <;> simp [octets]

theorem octets_fromHex (hex : BitVec 64) : (fromHex hex).octets = (splitBytes 6 hex).reverse := by
  have hByte := fun k => setWidth_shift_mask hex k (by decide)
  have hLow := hByte 0
  rw [Nat.mul_zero, BitVec.ushiftRight_zero] at hLow
  change [_, _, _, _, _, _] = [byteAt hex 5, byteAt hex 4, byteAt hex 3, byteAt hex 2,
    byteAt hex 1, byteAt hex 0]
  rw [← hByte 5, ← hByte 4, ← hByte 3, ← hByte 2, ← hByte 1, ← hLow]
  rfl

theorem fromHex_toHex : fromHex mac.toHex = mac := by
  apply ext_octets
  rw [octets_fromHex, toHex_eq, splitBytes_joinBytes (by simp) (by decide), reverse_reverse]

theorem splitBytes_b48_toHex : splitBytes 6 (b48 mac.toHex) = mac.octets := by
  rw [b48_eq, splitBytes_reverseBytes _ (by decide), toHex_eq,
    splitBytes_joinBytes (by simp) (by decide), reverse_reverse]

theorem b48_joinBytes : b48 (joinBytes 64 mac.octets) = mac.toHex := by
  rw [b48_eq, reverseBytes_joinBytes (by simp) (by decide), toHex_eq]

theorem toHex_inj {mac mac' : MediaAccessControl} : mac.toHex = mac'.toHex ↔ mac = mac' := by
  constructor
  · intro h
    rw [← fromHex_toHex mac, h, fromHex_toHex]
  · rintro rfl
    rfl

theorem equalsHex_toHex (mac' : MediaAccessControl) :
    mac.equalsHex mac'.toHex = true ↔ mac' = mac := by
  rw [equalsHex, decide_eq_true_iff, fromHex_toHex]

theorem toHex_broadcast : broadcast.toHex = 0xFFFFFFFFFFFF := by
  decide

end MediaAccessControl

structure InternetProtocol4 where
  address0 : BitVec 8
  address1 : BitVec 8
  address2 : BitVec 8
  address3 : BitVec 8
deriving DecidableEq

namespace InternetProtocol4

variable (ip : InternetProtocol4) (hex : BitVec 32)

def octets (ip : InternetProtocol4) : List (BitVec 8) :=
  [ip.address0, ip.address1, ip.address2, ip.address3]

def toHex (ip : InternetProtocol4) : BitVec 32 :=
  BitVec.setWidth 32 ((ip.address0.setWidth 64 <<< 24) ||| (ip.address1.setWidth 64 <<< 16) |||
      (ip.address2.setWidth 64 <<< 8) |||
      ip.address3.setWidth 64)

def fromHex (hex : BitVec 32) : InternetProtocol4 where
  address0 := ((hex >>> 24) &&& 0xFF).setWidth 8
  address1 := ((hex >>> 16) &&& 0xFF).setWidth 8
  address2 := ((hex >>> 8) &&& 0xFF).setWidth 8
  address3 := (hex &&& 0xFF).setWidth 8

def equalsHex (ip : InternetProtocol4) (hex : BitVec 32) : Bool :=
  fromHex hex = ip

@[simp] theorem length_octets : ip.octets.length = 4 :=
  rfl

theorem toHex_eq : ip.toHex = joinBytes 32 ip.octets.reverse := by
  apply eq_of_byteAt (n := 4) rfl
  intro i hi
  have hIn : 8 * i + 8 ≤ 64 := by omega
  rw [byteAt_joinBytes _ (by omega), toHex, byteAt_setWidth _ (by omega)]
  change byteAt ((ip.address0.setWidth 64 <<< (8 * 3)) ||| (ip.address1.setWidth 64 <<< (8 * 2)) |||
    (ip.address2.setWidth 64 <<< (8 * 1)) ||| ip.address3.setWidth 64) i = _
  rw [byteAt_or, byteAt_or, byteAt_or, byteAt_placed _ _ hIn, byteAt_placed _ _ hIn,
    byteAt_placed _ _ hIn, byteAt_setWidth _ hIn, byteAt_byte]
  interval_cases i <;> simp [octets]

theorem octets_fromHex : (fromHex hex).octets = (splitBytes 4 hex).reverse := by
  have hByte := fun k => setWidth_shift_mask hex k (by decide)
  have hLow := hByte 0
  rw [Nat.mul_zero, BitVec.ushiftRight_zero] at hLow
  change [_, _, _, _] = [byteAt hex 3, byteAt hex 2, byteAt hex 1, byteAt hex 0]
  rw [← hByte 3, ← hByte 2, ← hByte 1, ← hLow]
  rfl

theorem toHex_fromHex : (fromHex hex).toHex = hex := by
  rw [toHex_eq, octets_fromHex, reverse_reverse]
  exact joinBytes_splitBytes hex rfl

theorem octets_fromHex_b32 : (fromHex (b32 hex)).octets = splitBytes 4 hex := by
  rw [octets_fromHex, b32, splitBytes_reverseBytes _ (by decide), reverse_reverse]

theorem splitBytes_b32_toHex : splitBytes 4 (b32 ip.toHex) = ip.octets := by
  rw [b32, splitBytes_reverseBytes _ (by decide), toHex_eq,
    splitBytes_joinBytes (by simp) (by decide), reverse_reverse]

end InternetProtocol4

end Fennix
