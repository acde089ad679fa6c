import Mathlib.Data.BitVec
import Fennix.Library.Run

/-
  The mouse.

  Each interrupt brings one byte, and three of them make a packet.
-/

namespace Fennix

open List

inductive MouseButton
| mouseNone
| right
| middle
| left
deriving DecidableEq, Repr

structure PS2Mouse.MouseInfo where
  buttons : MouseButton := .mouseNone
  x : Int := 0
  y : Int := 0
deriving DecidableEq, Repr

structure MousePacket where
  status : BitVec 8
  byteX : BitVec 8
  byteY : BitVec 8
deriving DecidableEq, Repr

structure PS2Mouse where
  packet : MousePacket := ⟨0, 0, 0⟩
  packetReady : Bool := false
  minfo : PS2Mouse.MouseInfo := {}
  cycle : BitVec 8 := 0

structure MouseArea where
  width : BitVec 32
  height : BitVec 32

namespace MousePacket

variable (p : MousePacket)

def leftButton : Bool := p.status &&& 0b00000001 ≠ 0
def rightButton : Bool := p.status &&& 0b00000010 ≠ 0
def middleButton : Bool := p.status &&& 0b00000100 ≠ 0
def xSign : Bool := p.status &&& 0b00010000 ≠ 0
def ySign : Bool := p.status &&& 0b00100000 ≠ 0
def xOverflow : Bool := p.status &&& 0b01000000 ≠ 0
def yOverflow : Bool := p.status &&& 0b10000000 ≠ 0

end MousePacket

namespace PS2Mouse

def magnitude (sign : Bool) (byte : BitVec 8) : BitVec 8 :=
  if sign then BitVec.ofNat 8 (256 - byte.toNat) else byte

def displacement (sign overflow : Bool) (byte : BitVec 8) : Int :=
  let correction : Int := if overflow then 255 else 0
  if sign then -((magnitude sign byte).toNat : Int) - correction
  else (magnitude sign byte).toNat + correction

def clamp (size : BitVec 32) (value : Int) : Int :=
  let value := if value < 0 then 0 else value
  if value > (size - 1).toNat then (size - 1).toNat else value

def press (p : MousePacket) (buttons : MouseButton) : MouseButton :=
  let buttons := if p.leftButton then .left else buttons
  let buttons := if p.middleButton then .middle else buttons
  if p.rightButton then .right else buttons

def applyPacket (area : MouseArea) (info : MouseInfo) (p : MousePacket) : MouseInfo where
  buttons := press p info.buttons
  x := clamp area.width (info.x + displacement p.xSign p.xOverflow p.byteX)
  y := clamp area.height (info.y - displacement p.ySign p.yOverflow p.byteY)

def processMousePacket (area : MouseArea) (s : PS2Mouse) : PS2Mouse :=
  if s.packetReady then
    { s with
      packet := ⟨s.packet.status, magnitude s.packet.xSign s.packet.byteX,
        magnitude s.packet.ySign s.packet.byteY⟩
      minfo := applyPacket area s.minfo s.packet
      packetReady := false }
  else s

def interruptHandler (area : MouseArea) (s : PS2Mouse) (data : BitVec 8) : PS2Mouse :=
  let s := s.processMousePacket area
  if s.cycle = 0 then
    if data &&& 0b00001000 = 0 then s
    else { s with packet := { s.packet with status := data }, cycle := s.cycle + 1 }
  else if s.cycle = 1 then
    { s with packet := { s.packet with byteX := data }, cycle := s.cycle + 1 }
  else if s.cycle = 2 then
    { s with packet := { s.packet with byteY := data }, packetReady := true, cycle := 0 }
  else s

def interrupts (area : MouseArea) (s : PS2Mouse) (bytes : List (BitVec 8)) : PS2Mouse :=
  bytes.foldl (interruptHandler area) s

def packetsOf : List (BitVec 8) → List MousePacket
| a :: b :: c :: rest =>
  if a &&& 0b00001000 = 0 then packetsOf (b :: c :: rest) else ⟨a, b, c⟩ :: packetsOf rest
| _ => []

def signedDisplacement (sign overflow : Bool) (byte : BitVec 8) : Int :=
  (BitVec.ofBool sign ++ byte).toInt +
    if overflow then (if sign then -255 else 255) else 0

def decode (area : MouseArea) (info : MouseInfo) (p : MousePacket) : MouseInfo where
  buttons := press p .mouseNone
  x := clamp area.width (info.x + signedDisplacement p.xSign p.xOverflow p.byteX)
  y := clamp area.height (info.y - signedDisplacement p.ySign p.yOverflow p.byteY)

def decodeAll (area : MouseArea) (packets : List MousePacket) : MouseInfo :=
  packets.foldl (decode area) {}

section Stream

variable {area : MouseArea} {s : PS2Mouse}

theorem minfo_interruptHandler (data : BitVec 8) :
    (s.interruptHandler area data).minfo = (s.processMousePacket area).minfo := by
  unfold interruptHandler
  dsimp only
  split
  · split
    · rfl
    · rfl
  split
  · rfl
  split
  · rfl
  · rfl

theorem packetsOf_short {bytes : List (BitVec 8)} (h : bytes.length < 3) :
    packetsOf bytes = [] := by
  match bytes with
  | [] => rfl
  | [_] => rfl
  | [_, _] => rfl

theorem packetsOf_skip {a : BitVec 8} (ha : a &&& 0b00001000 = 0) (rest : List (BitVec 8)) :
    packetsOf (a :: rest) = packetsOf rest := by
  match rest with
  | [] => rfl
  | [_] => rfl
  | b :: c :: rest => rw [packetsOf, if_pos ha]

theorem processMousePacket_idle (h : s.packetReady = false) : s.processMousePacket area = s := by
  rw [processMousePacket, h]
  rfl

theorem processMousePacket_kept (area : MouseArea) (s : PS2Mouse) :
    (s.processMousePacket area).cycle = s.cycle ∧
    (s.processMousePacket area).packetReady = false := by
  rw [processMousePacket]
  split
  · exact ⟨rfl, rfl⟩
  · rename_i hReady
    exact ⟨rfl, Bool.eq_false_iff.mpr hReady⟩

inductive Pending (s : PS2Mouse) : List (BitVec 8) → Prop
| none : s.cycle = 0 → Pending s []
| one {a : BitVec 8} : s.cycle = 1 → s.packetReady = false → s.packet.status = a →
    a &&& 0b00001000 ≠ 0 → Pending s [a]
| two {a b : BitVec 8} : s.cycle = 2 → s.packetReady = false → s.packet.status = a →
    s.packet.byteX = b → a &&& 0b00001000 ≠ 0 → Pending s [a, b]

variable {pending : List (BitVec 8)}

theorem pending_interruptHandler (data : BitVec 8) (h : Pending s pending) :
    ∃ more, Pending (s.interruptHandler area data) more ∧ ∀ rest,
    (packetsOf (pending ++ data :: rest)).foldl (applyPacket area)
    (s.processMousePacket area).minfo = (packetsOf (more ++ rest)).foldl (applyPacket area)
    ((s.interruptHandler area data).processMousePacket area).minfo := by
  have hKept := processMousePacket_kept area s
  have hMinfo : (s.interruptHandler area data).minfo = (s.processMousePacket area).minfo :=
    minfo_interruptHandler data
  cases h with
  | none hCycle =>
    have hStart := hKept.1.trans hCycle
    by_cases hSkip : data &&& 0b00001000 = 0
    · have hEq : s.interruptHandler area data = s.processMousePacket area := by
        rw [interruptHandler, if_pos hStart, if_pos hSkip]
      refine ⟨[], .none (by rw [hEq, hStart]), fun rest => ?_⟩
      rw [hEq, processMousePacket_idle hKept.2, nil_append, packetsOf_skip hSkip, nil_append]
    have hOne : Pending (s.interruptHandler area data) [data] := by
      rw [interruptHandler, if_pos hStart, if_neg hSkip]
      exact .one (by rw [hStart]; rfl) hKept.2 rfl hSkip
    refine ⟨_, hOne, fun rest => ?_⟩
    cases hOne with
    | one _ hReady _ _ => rw [processMousePacket_idle hReady, hMinfo]; rfl
  | @one a hCycle hReady hStatus hSync =>
    have hTwo : Pending (s.interruptHandler area data) [a, data] := by
      rw [interruptHandler, processMousePacket_idle hReady, if_neg (by rw [hCycle]; decide),
        if_pos hCycle]
      exact .two (by rw [hCycle]; rfl) hReady hStatus rfl hSync
    refine ⟨_, hTwo, fun rest => ?_⟩
    cases hTwo with
    | two _ hReady' _ _ _ => rw [processMousePacket_idle hReady', hMinfo]; rfl
  | @two a b hCycle hReady hStatus hX hSync =>
    have hEq : s.interruptHandler area data = ⟨⟨a, b, data⟩, true, s.minfo, 0⟩ := by
      rw [interruptHandler, processMousePacket_idle hReady, if_neg (by rw [hCycle]; decide),
        if_neg (by rw [hCycle]; decide), if_pos hCycle, ← hStatus, ← hX]
    refine ⟨[], .none (by rw [hEq]), fun rest => ?_⟩
    change (packetsOf (a :: b :: data :: rest)).foldl _ _ = _
    rw [packetsOf, if_neg hSync, foldl_cons, hEq, processMousePacket_idle hReady]
    rfl

theorem minfo_pending (bytes : List (BitVec 8)) (h : Pending s pending) :
    ((s.interrupts area bytes).processMousePacket area).minfo =
    (packetsOf (pending ++ bytes)).foldl (applyPacket area)
    (s.processMousePacket area).minfo := by
  induction bytes generalizing s pending with
  | nil => cases h <;> rfl
  | cons data bytes ih =>
    rcases pending_interruptHandler data h with ⟨more, hMore, hApplied⟩
    rw [hApplied, ← ih hMore]
    rfl

theorem minfo_interrupts (area : MouseArea) (bytes : List (BitVec 8)) (data : BitVec 8) :
    (interrupts area {} (bytes ++ [data])).minfo =
    (packetsOf bytes).foldl (applyPacket area) {} := by
  rw [interrupts, foldl_append, foldl_cons, foldl_nil, minfo_interruptHandler]
  exact minfo_pending bytes (.none rfl)

theorem prefix_packetsOf_iff (bytes : List (BitVec 8)) (packets : List MousePacket) :
    packets <+: packetsOf bytes ↔ ∃ before, before <+: bytes ∧ packetsOf before = packets := by
  induction bytes using packetsOf.induct generalizing packets with
  | case1 a b c rest hSkip ih =>
    rw [packetsOf_skip hSkip, ih]
    constructor
    · rintro ⟨before, hBefore, rfl⟩
      exact ⟨a :: before, cons_prefix_cons.mpr ⟨rfl, hBefore⟩, packetsOf_skip hSkip before⟩
    rintro ⟨before, hBefore, rfl⟩
    cases before with
    | nil => exact ⟨[], nil_prefix, rfl⟩
    | cons first before =>
      rcases cons_prefix_cons.mp hBefore with ⟨rfl, hRest⟩
      exact ⟨before, hRest, (packetsOf_skip hSkip before).symm⟩
  | case2 a b c rest hSync ih =>
    rw [packetsOf, if_neg hSync]
    constructor
    · intro hPackets
      cases packets with
      | nil => exact ⟨[], nil_prefix, rfl⟩
      | cons first packets =>
        rcases cons_prefix_cons.mp hPackets with ⟨rfl, hRest⟩
        rcases (ih packets).mp hRest with ⟨before, hBefore, rfl⟩
        refine ⟨a :: b :: c :: before, by simpa using hBefore, ?_⟩
        rw [packetsOf, if_neg hSync]
    rintro ⟨before, hBefore, rfl⟩
    match before with
    | [] => exact nil_prefix
    | [_] => exact nil_prefix
    | [_, _] => exact nil_prefix
    | _ :: _ :: _ :: before =>
      simp only [cons_prefix_cons] at hBefore
      rcases hBefore with ⟨rfl, rfl, rfl, hRest⟩
      rw [packetsOf, if_neg hSync, cons_prefix_cons]
      exact ⟨rfl, (ih _).mpr ⟨before, hRest, rfl⟩⟩
  | case3 bytes hShort =>
    have hLength : bytes.length < 3 := by
      match bytes with
      | [] | [_] | [_, _] => simp
      | a :: b :: c :: rest => exact (hShort a b c rest rfl).elim
    rw [packetsOf_short hLength, prefix_nil]
    constructor
    · rintro rfl
      exact ⟨[], nil_prefix, rfl⟩
    · rintro ⟨before, hBefore, rfl⟩
      exact packetsOf_short (Nat.lt_of_le_of_lt hBefore.length_le hLength)

end Stream

structure Agrees (area : MouseArea) (info : MouseInfo) (p : MousePacket) : Prop where
  buttons : p.leftButton ∨ p.middleButton ∨ p.rightButton ∨ info.buttons = .mouseNone
  left : p.xSign → p.byteX = 0 → info.x ≤ if p.xOverflow then 255 else 0
  down : p.ySign → p.byteY = 0 →
    (area.height - 1).toNat ≤ info.y + if p.yOverflow then 255 else 0

structure InArea (area : MouseArea) (info : MouseInfo) : Prop where
  x_ge : 0 ≤ info.x
  x_le : info.x ≤ (area.width - 1).toNat
  y_ge : 0 ≤ info.y
  y_le : info.y ≤ (area.height - 1).toNat

theorem clamp_range (size : BitVec 32) (value : Int) :
    0 ≤ clamp size value ∧ clamp size value ≤ (size - 1).toNat := by
  unfold clamp
  dsimp only
  split <;> split <;> omega

theorem inArea_decode (area : MouseArea) (info : MouseInfo) (p : MousePacket) :
    InArea area (decode area info p) :=
  ⟨(clamp_range _ _).1, (clamp_range _ _).2, (clamp_range _ _).1, (clamp_range _ _).2⟩

theorem displacement_eq : ∀ (sign overflow : Bool) (byte : BitVec 8),
    displacement sign overflow byte = if sign = true ∧ byte = 0 then -(if overflow then 255 else 0)
    else signedDisplacement sign overflow byte := by
  decide +kernel

theorem signedDisplacement_lost (overflow : Bool) :
    signedDisplacement true overflow 0 = -256 - if overflow then 255 else 0 := by
  cases overflow <;> decide

variable {size : BitVec 32}

theorem clamp_add_iff {x : Int} (hGe : 0 ≤ x) (hLe : x ≤ (size - 1).toNat) (sign overflow : Bool)
    (byte : BitVec 8) : clamp size (x + displacement sign overflow byte) =
    clamp size (x + signedDisplacement sign overflow byte) ↔
    (sign → byte = 0 → x ≤ if overflow then 255 else 0) := by
  rw [displacement_eq]
  by_cases hLost : sign = true ∧ byte = 0
  · rcases hLost with ⟨rfl, rfl⟩
    simp only [signedDisplacement_lost, clamp, and_self, if_true, forall_const]
    split <;> split <;> split <;> split <;> omega
  · rw [if_neg hLost]
    exact ⟨fun _ hSign hByte => (hLost ⟨hSign, hByte⟩).elim, fun _ => rfl⟩

theorem clamp_sub_iff {y : Int} (hGe : 0 ≤ y) (hLe : y ≤ (size - 1).toNat) (sign overflow : Bool)
    (byte : BitVec 8) : clamp size (y - displacement sign overflow byte) =
    clamp size (y - signedDisplacement sign overflow byte) ↔
    (sign → byte = 0 → (size - 1).toNat ≤ y + if overflow then 255 else 0) := by
  rw [displacement_eq]
  by_cases hLost : sign = true ∧ byte = 0
  · rcases hLost with ⟨rfl, rfl⟩
    simp only [signedDisplacement_lost, clamp, and_self, if_true, forall_const]
    split <;> split <;> split <;> split <;> omega
  · rw [if_neg hLost]
    exact ⟨fun _ hSign hByte => (hLost ⟨hSign, hByte⟩).elim, fun _ => rfl⟩

theorem press_iff (p : MousePacket) (buttons : MouseButton) : press p buttons = press p .mouseNone ↔
    p.leftButton ∨ p.middleButton ∨ p.rightButton ∨ buttons = .mouseNone := by
  unfold press
  cases p.leftButton <;> cases p.middleButton <;> cases p.rightButton <;> simp

theorem applyPacket_iff {area : MouseArea} {info : MouseInfo} (h : InArea area info)
    (p : MousePacket) : applyPacket area info p = decode area info p ↔ Agrees area info p := by
  rw [applyPacket, decode, MouseInfo.mk.injEq, press_iff, clamp_add_iff h.x_ge h.x_le,
    clamp_sub_iff h.y_ge h.y_le]
  exact ⟨fun ⟨hButtons, hLeft, hDown⟩ => ⟨hButtons, hLeft, hDown⟩,
    fun ⟨hButtons, hLeft, hDown⟩ => ⟨hButtons, hLeft, hDown⟩⟩

theorem inArea_decodeAll (area : MouseArea) (packets : List MousePacket) :
    InArea area (decodeAll area packets) := by
  induction packets using reverseRecOn with
  | nil => exact ⟨Int.le_refl 0, Int.natCast_nonneg _, Int.le_refl 0, Int.natCast_nonneg _⟩
  | append_singleton packets p _ =>
    rw [decodeAll, foldl_append]
    exact inArea_decode _ _ _

theorem decoded_iff (area : MouseArea) (bytes : List (BitVec 8)) :
    (∀ before data, before <+: bytes →
    (interrupts area {} (before ++ [data])).minfo = decodeAll area (packetsOf before)) ↔
    ∀ packets p, packets ++ [p] <+: packetsOf bytes → Agrees area (decodeAll area packets) p := by
  have hStep : ∀ packets p, packets.foldl (applyPacket area) {} = decodeAll area packets →
      ((packets ++ [p]).foldl (applyPacket area) {} = decodeAll area (packets ++ [p]) ↔
        Agrees area (decodeAll area packets) p) := by
    intro packets p h
    rw [← applyPacket_iff (inArea_decodeAll area packets), foldl_append, h, decodeAll,
      decodeAll, foldl_append]
    rfl
  have hSteps := prefixes_iff hStep (packetsOf bytes)
  have hStart : [].foldl (applyPacket area) {} = decodeAll area [] := rfl
  rw [and_iff_right hStart] at hSteps
  simp only [minfo_interrupts]
  rw [← hSteps]
  constructor
  · intro h packets hPackets
    rcases (prefix_packetsOf_iff bytes packets).mp hPackets with ⟨before, hBefore, rfl⟩
    exact h before 0 hBefore
  · intro h before _ hBefore
    exact h _ ((prefix_packetsOf_iff bytes _).mpr ⟨before, hBefore, rfl⟩)

theorem moved_nowhere : let area : MouseArea := ⟨1024, 768⟩
    let bytes : List (BitVec 8) := [0x09, 200, 0, 0x18, 0, 0]
    packetsOf bytes = [⟨0x09, 200, 0⟩, ⟨0x18, 0, 0⟩] ∧
      (interrupts area {} (bytes ++ [0])).minfo = ⟨.left, 200, 0⟩ ∧
      decodeAll area (packetsOf bytes) = ⟨.mouseNone, 0, 0⟩ := by
  decide

end PS2Mouse

end Fennix
