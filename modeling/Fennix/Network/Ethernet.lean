import Fennix.Library.Dispatch
import Fennix.Network.Address

/-
  Ethernet frames.

  A frame is built in memory of its own and handed to the card.
-/

namespace Fennix

open List Memory MediaAccessControl

structure Machine (σ : Type) where
  memory : Memory
  sent : List (List (BitVec 8))
  host : σ

structure DeviceInterface where
  mac : MediaAccessControl
  ip : InternetProtocol4

inductive FrameType
| ipv4
| arp
| rarp
| ipv6
deriving DecidableEq

namespace FrameType

def code : FrameType → BitVec 16
| ipv4 => 0x0800
| arp => 0x0806
| rarp => 0x8035
| ipv6 => 0x86DD

def ofCode (code : BitVec 16) : Option FrameType :=
  if code = 0x0800 then some ipv4
  else if code = 0x0806 then some arp
  else if code = 0x8035 then some rarp
  else if code = 0x86DD then some ipv6
  else none

theorem ofCode_code (type : FrameType) : ofCode type.code = some type := by
  cases type <;> decide

end FrameType

structure EthernetArgs where
  data : Nat
  length : BitVec 64

structure EthernetEvents (σ : Type) where
  type : BitVec 16
  onEthernetPacketReceived : EthernetArgs → Machine σ → Machine σ × Bool

namespace Ethernet

variable {σ : Type}

def sizeofHeader : Nat := 14

def send (interface : DeviceInterface) (mac : MediaAccessControl) (type : FrameType)
    (data : List (BitVec 8)) : List (BitVec 8) :=
  splitBytes 6 (b48 mac.toHex) ++ splitBytes 6 (b48 interface.mac.toHex) ++
    splitBytes 2 (b16 type.code) ++ data

def destinationMAC (m : Memory) (packet : Nat) : BitVec 64 :=
  m.word 64 packet 6

def sourceMAC (m : Memory) (packet : Nat) : BitVec 64 :=
  m.word 64 (packet + 6) 6

def typeField (m : Memory) (packet : Nat) : BitVec 16 :=
  m.word 16 (packet + 12) 2

def turnAround (interface : DeviceInterface) (m : Memory) (packet : Nat) : Memory :=
  (m.store packet 6 (sourceMAC m packet).toNat).store (packet + 6) 6 (b48 interface.mac.toHex).toNat

structure Received (σ : Type) where
  accepted : Bool
  calls : List (Call (EthernetEvents σ) (Machine σ) EthernetArgs)
  machine : Machine σ

def callHandlers (type : FrameType) (registered : List (EthernetEvents σ)) (packet : Nat)
    (length : BitVec 64) (s : Machine σ) :
    List (Call (EthernetEvents σ) (Machine σ) EthernetArgs) :=
  callsTo (fun e _ => e.type = type.code) (fun _ => ⟨packet + sizeofHeader, length⟩)
    EthernetEvents.onEthernetPacketReceived registered s

def receive (interface : DeviceInterface) (registered : List (EthernetEvents σ)) (s : Machine σ)
    (packet : Nat) (length : BitVec 64) : Received σ :=
  let destination := b48 (destinationMAC s.memory packet)
  if destination = 0xFFFFFFFFFFFF ∨ interface.mac.equalsHex destination = true then
    match FrameType.ofCode (b16 (typeField s.memory packet)) with
    | some type =>
      let calls := callHandlers type registered packet length s
      let s := stateAfter s calls
      -- each call overwrites the reply of the one before
      if (calls.getLast?.map Call.reply).getD false then
        ⟨true, calls,
          { s with memory := turnAround interface s.memory packet }⟩
      else ⟨true, calls, s⟩
    | none => ⟨true, [], s⟩
  else ⟨false, [], s⟩

section RoundTrips

variable {sender receiver : DeviceInterface} {mac : MediaAccessControl} {type : FrameType}
variable {payload : List (BitVec 8)} {m : Memory} {packet : Nat}
variable {registered : List (EthernetEvents σ)} {s : Machine σ}
variable {before behind : List (EthernetEvents σ)} {handler : EthernetEvents σ}

def Holds (m : Memory) (packet : Nat) (frame : List (BitVec 8)) : Prop :=
  m.bytes packet frame.length = frame

theorem send_eq : send sender mac type payload =
    mac.octets ++ (sender.mac.octets ++ (splitBytes 2 (b16 type.code) ++ payload)) := by
  rw [send, splitBytes_b48_toHex, splitBytes_b48_toHex, append_assoc, append_assoc]

theorem drop_send : (send sender mac type payload).drop sizeofHeader = payload := by
  rw [send_eq, ← append_assoc, ← append_assoc]
  exact drop_left' (by simp [sizeofHeader])

theorem take_send : (send sender mac type payload).take 6 = mac.octets := by
  rw [send_eq]
  exact take_left' (length_octets mac)

section

variable (h : Holds m packet (send sender mac type payload))

include h

theorem b48_destinationMAC : b48 (destinationMAC m packet) = mac.toHex := by
  rw [Holds, send_eq] at h
  have hMac : m.bytes packet 6 = mac.octets := (bytes_append h).1
  rw [destinationMAC, word, hMac, b48_joinBytes]

theorem b16_typeField : b16 (typeField m packet) = type.code := by
  rw [Holds, send_eq] at h
  have hRest := (bytes_append (bytes_append h).2).2
  have hType : m.bytes (packet + 12) 2 = splitBytes 2 (b16 type.code) :=
    (bytes_append hRest).1
  rw [typeField, word, hType, b16_joinBytes]

theorem holds_payload : Holds m (packet + sizeofHeader) payload := by
  rw [Holds, send_eq] at h
  have hRest := (bytes_append (bytes_append h).2).2
  exact (bytes_append hRest).2

theorem accepts_iff : (b48 (destinationMAC m packet) = 0xFFFFFFFFFFFF ∨ receiver.mac.equalsHex
    (b48 (destinationMAC m packet)) = true) ↔ mac = receiver.mac ∨ mac = broadcast := by
  rw [b48_destinationMAC h, ← toHex_broadcast, toHex_inj, equalsHex_toHex]
  exact Or.comm

end

theorem receive_rejected {length : BitVec 64}
    (h : Holds s.memory packet (send sender mac type payload))
    (hOther : ¬ (mac = receiver.mac ∨ mac = broadcast)) :
    receive receiver registered s packet length = ⟨false, [], s⟩ := by
  rw [receive]
  exact if_neg (fun hAccepts => hOther ((accepts_iff h).mp hAccepts))

theorem receive_accepted (registered : List (EthernetEvents σ)) (s : Machine σ) (length : BitVec 64)
    (h : Holds s.memory packet (send sender mac type payload))
    (hOwn : mac = receiver.mac ∨ mac = broadcast) :
    (receive receiver registered s packet length).accepted = true ∧
    (receive receiver registered s packet length).calls =
    callHandlers type registered packet length s := by
  rw [receive]
  simp only [if_pos ((accepts_iff h).mpr hOwn), b16_typeField h, FrameType.ofCode_code]
  split
  · exact ⟨rfl, rfl⟩
  · exact ⟨rfl, rfl⟩

theorem callHandlers_only (s : Machine σ) (length : BitVec 64) (hType : handler.type = type.code)
    (hOthers : ∀ e ∈ before ++ behind, e.type ≠ type.code) :
    callHandlers type (before ++ handler :: behind) packet length s =
    [⟨handler, ⟨packet + sizeofHeader, length⟩, s, (handler.onEthernetPacketReceived
    ⟨packet + sizeofHeader, length⟩ s).1, (handler.onEthernetPacketReceived
    ⟨packet + sizeofHeader, length⟩ s).2⟩] := by
  rw [callHandlers,
    callsTo_only before behind handler s (fun e he _ => decide_eq_false (hOthers e he))]
  exact if_pos (decide_eq_true hType)

section

variable (length : BitVec 64) (h : Holds s.memory packet (send sender mac type payload))
  (hType : handler.type = type.code) (hOthers : ∀ e ∈ before ++ behind, e.type ≠ type.code)

include length h hType hOthers

theorem receive_host :
    (receive receiver (before ++ handler :: behind) s packet length).machine.host =
    if mac = receiver.mac ∨ mac = broadcast then
    (handler.onEthernetPacketReceived ⟨packet + sizeofHeader, length⟩ s).1.host
    else s.host := by
  by_cases hOwn : mac = receiver.mac ∨ mac = broadcast
  · rw [if_pos hOwn, receive]
    simp only [if_pos ((accepts_iff h).mpr hOwn), b16_typeField h, FrameType.ofCode_code,
      callHandlers_only s length hType hOthers]
    split
    · rfl
    · rfl
  · rw [if_neg hOwn, receive_rejected h hOwn]

theorem receive_machine (hOwn : mac = receiver.mac ∨ mac = broadcast)
    (hQuiet : (handler.onEthernetPacketReceived ⟨packet + sizeofHeader, length⟩ s).2 = false) :
    (receive receiver (before ++ handler :: behind) s packet length).machine =
    (handler.onEthernetPacketReceived ⟨packet + sizeofHeader, length⟩ s).1 := by
  rw [receive]
  simp only [if_pos ((accepts_iff h).mpr hOwn), b16_typeField h, FrameType.ofCode_code,
    callHandlers_only s length hType hOthers]
  rw [if_neg]
  · rfl
  · simp [hQuiet]

end

theorem callHandlers_args {length : BitVec 64}
    {c : Call (EthernetEvents σ) (Machine σ) EthernetArgs}
    (hc : c ∈ callHandlers type registered packet length s) :
    c.args = ⟨packet + sizeofHeader, length⟩ :=
  (callsTo_wanted hc).2.2

theorem callHandlers_payload {length : BitVec 64}
    {earlier later : List (Call (EthernetEvents σ) (Machine σ) EthernetArgs)}
    {call : Call (EthernetEvents σ) (Machine σ) EthernetArgs}
    (h : Holds s.memory (packet + sizeofHeader) payload)
    (hCalls : callHandlers type registered packet length s = earlier ++ call :: later)
    (hKeep : ∀ c ∈ earlier, c.after.memory.bytes c.args.data payload.length =
    c.before.memory.bytes c.args.data payload.length) :
    call.before.memory.bytes call.args.data payload.length = payload := by
  have hArgs : ∀ c ∈ earlier ++ call :: later, c.args = ⟨packet + sizeofHeader, length⟩ := by
    intro c hc
    rw [← hCalls] at hc
    exact callHandlers_args hc
  rw [hArgs call (by simp)]
  have hFound := callsTo_observed (fun s => s.memory.bytes (packet + sizeofHeader)
      payload.length) hCalls (by
      intro c hc
      have hSame := hKeep c hc
      rwa [hArgs c (by simp [hc])] at hSame)
  exact hFound.trans h

theorem receive_send (sender receiver : DeviceInterface) (mac : MediaAccessControl)
    (type : FrameType) (payload : List (BitVec 8)) (registered : List (EthernetEvents σ))
    (s : Machine σ) (packet : Nat) (length : BitVec 64) :
    let frame := send sender mac type payload
    let received := receive receiver registered { s with memory := s.memory.place packet frame }
        packet length
    (received.accepted = true ↔ mac = receiver.mac ∨ mac = broadcast) ∧
      received.calls.map Call.event = (if received.accepted then
          registered.filter (fun e => e.type = type.code)
        else []) ∧
      ∀ earlier call later, received.calls = earlier ++ call :: later → (∀ c ∈ earlier,
          c.after.memory.bytes c.args.data payload.length =
            c.before.memory.bytes c.args.data payload.length) →
        call.before.memory.bytes call.args.data payload.length = payload := by
  intro frame received
  have h : Holds (s.memory.place packet frame) packet frame :=
    bytes_place s.memory packet frame
  by_cases hOwn : mac = receiver.mac ∨ mac = broadcast
  · have hReceived := receive_accepted registered { s with memory := s.memory.place packet frame }
      length h hOwn
    have hAccepted : received.accepted = true := hReceived.1
    have hCalled : received.calls = callHandlers type registered packet length
        { s with memory := s.memory.place packet frame } :=
      hReceived.2
    refine ⟨?_, ?_, ?_⟩
    · simp only [hAccepted, hOwn]
    · rw [if_pos hAccepted, hCalled]
      exact callsTo_events (fun e => e.type = type.code) (fun _ _ => rfl) registered _
    · intro earlier call later hSplit hKeep
      rw [hCalled] at hSplit
      exact callHandlers_payload (holds_payload h) hSplit hKeep
  have hReceived : received = ⟨false, [], _⟩ := receive_rejected h hOwn
  rw [hReceived]
  refine ⟨?_, rfl, ?_⟩
  · simp [hOwn]
  · intro earlier call later hCalls
    simp at hCalls

end RoundTrips

end Ethernet

end Fennix
