import Fennix.Network.ARP

/-
  What two hosts learn from each other.

  A hardware address is read from a packet as a number, with the least significant byte first, but
  taken apart from the most significant byte on.
-/

namespace Fennix

open List Memory MediaAccessControl Ethernet

namespace ARP

variable {τ : Type} (interface : DeviceInterface) (s : Machine (ARPState τ))
variable (earlier : List Arrival) {a : Arrival} {ip : InternetProtocol4}

theorem octets_fromHex_word (m : Memory) (a : Nat) :
    (fromHex (m.word 64 a 6)).octets = (m.bytes a 6).reverse := by
  rw [octets_fromHex, splitBytes_word m a 6 (by decide)]

theorem targetMAC_turnAround (m : Memory) (header : Nat) :
    targetMAC (turnAround interface m header) header = senderMAC m header := by
  rw [targetMAC, senderMAC, word, turnAround, bytes_store_other _ _ (by omega),
    bytes_store_other _ _ (by omega), bytes_store_other _ _ (by omega),
    bytes_store_other _ _ (by omega), bytes_store_same, senderMAC,
    splitBytes_word _ _ _ (by decide), word]

namespace Arrival

def wireMAC (a : Arrival) : List (BitVec 8) :=
  a.memory.bytes (a.args.data + 8) 6

def IsRequest (a : Arrival) : Prop :=
  b16 (operation a.memory a.args.data) = operationRequest

instance (a : Arrival) : Decidable a.IsRequest :=
  inferInstanceAs (Decidable (_ = _))

theorem octets_sender (a : Arrival) : a.sender.mac.octets = a.wireMAC.reverse :=
  octets_fromHex_word a.memory (a.args.data + 8)

end Arrival

theorem receiveAll_append (a : Arrival) : receiveAll s (earlier ++ [a]) =
    receive (receiveAll s earlier) a := by
  rw [receiveAll, foldl_append]
  rfl

theorem receive_request (hAccepted : a.Accepted) (hRequest : a.IsRequest) : ∃ frame,
    (receive s a).sent = s.sent ++ [frame] ∧ frame.take 6 = a.wireMAC.reverse := by
  have hAccepts : Accepts a.memory a.args.data := hAccepted
  have hOperation : b16 (operation a.memory a.args.data) = operationRequest := hRequest
  have hDestination := octets_fromHex_word a.memory (a.args.data + 8)
  rw [receive, onEthernetPacketReceived]
  simp only [if_pos hAccepts, if_pos hOperation]
  refine ⟨_, rfl, ?_⟩
  rw [take_send, targetMAC_turnAround]
  exact hDestination

theorem receive_silent (hAccepted : a.Accepted) (hOther : ¬ a.IsRequest) :
    (receive s a).sent = s.sent := by
  have hAccepts : Accepts a.memory a.args.data := hAccepted
  have hOperation : ¬ b16 (operation a.memory a.args.data) = operationRequest := hOther
  rw [receive, onEthernetPacketReceived]
  simp only [if_pos hAccepts, if_neg hOperation]

section

variable (tables : Nat → List DiscoveredAddress) (hIP : ip.equalsHex 0xFFFFFFFF = false)

include hIP

theorem resolve_known (hKnown : (search ip (tables 0)).mac.toHex ≠ 0xFFFFFFFFFFFF) :
    resolve interface tables ip = ⟨[], (search ip (tables 0)).mac.toHex⟩ := by
  rw [resolve, hIP]
  simp only [Bool.false_eq_true, if_false, if_neg hKnown]
  rw [requestTimeout, awaitReply, if_neg hKnown]

theorem resolve_unknown (hUnknown : (search ip (tables 0)).mac.toHex = 0xFFFFFFFFFFFF) :
    (resolve interface tables ip).sent =
    [send interface broadcast .arp (request interface ip)] := by
  rw [resolve, hIP]
  simp only [Bool.false_eq_true, if_false, if_pos hUnknown]

end

theorem search_later (later : List Arrival) (hAccepted : a.Accepted)
    (hLater : ∀ b ∈ later, b.Accepted → b.sender.ip ≠ a.sender.ip) : search a.sender.ip
    (receiveAll s (earlier ++ a :: later) ).host.discoveredAddresses = a.sender := by
  have hNone : later.filter (fun b => b.Accepted ∧ b.sender.ip = a.sender.ip) = [] := by
    rw [filter_eq_nil_iff]
    intro b hb
    simpa using hLater b hb
  rw [search_receiveAll, filter_append, filter_cons_of_pos (by simpa using hAccepted),
    hNone, getLast?_append]
  rfl

/-
  The bytes stand in the reply to the packet, and in every later frame to an address that the table
  tells, as long as the sender has not sent another packet.
-/
structure UsedAsReceived (s : Machine (ARPState τ)) (earlier : List Arrival) (a : Arrival)
    (bytes : List (BitVec 8)) : Prop where
  reply : ∀ frame, (receiveAll s (earlier ++ [a])).sent = (receiveAll s earlier).sent ++ [frame] →
    frame.take 6 = bytes
  later : ∀ later interface tables, (∀ b ∈ later, b.Accepted → b.sender.ip ≠ a.sender.ip) →
    tables 0 = (receiveAll s (earlier ++ a :: later) ).host.discoveredAddresses →
    a.sender.ip.equalsHex 0xFFFFFFFF = false →
    (resolve interface tables a.sender.ip).sent = [] →
    ∀ type data, (send interface (fromHex
          (resolve interface tables a.sender.ip).mac)
        type data).take 6 = bytes

theorem usedAsReceived_reverse (hAccepted : a.Accepted) :
    UsedAsReceived s earlier a a.wireMAC.reverse := by
  constructor
  · intro frame hSent
    rw [receiveAll_append] at hSent
    by_cases hRequest : a.IsRequest
    · rcases receive_request (receiveAll s earlier) hAccepted hRequest with ⟨reply, hReply, hBytes⟩
      rw [hReply, append_cancel_left_eq, cons.injEq] at hSent
      rw [← hSent.1, hBytes]
    · rw [receive_silent _ hAccepted hRequest] at hSent
      cases self_eq_append_right.mp hSent
  intro later interface tables hLater hTable hIP hKnown type data
  have hSearch := search_later s earlier later hAccepted hLater
  rw [← hTable] at hSearch
  by_cases hInvalid : (search a.sender.ip (tables 0)).mac.toHex = 0xFFFFFFFFFFFF
  · rw [resolve_unknown interface tables hIP hInvalid] at hKnown
    cases hKnown
  · rw [resolve_known interface tables hIP hInvalid, hSearch, take_send,
      fromHex_toHex, Arrival.octets_sender]

theorem UsedAsReceived.eq_reverse {s : Machine (ARPState τ)} {earlier : List Arrival}
    (hUsed : UsedAsReceived s earlier a a.wireMAC) (hAccepted : a.Accepted)
    (hSent : a.IsRequest ∨ a.sender.ip.equalsHex 0xFFFFFFFF = false) :
    a.wireMAC.reverse = a.wireMAC := by
  rcases hSent with hRequest | hIP
  · rcases receive_request (receiveAll s earlier) hAccepted hRequest with ⟨reply, hReply, hBytes⟩
    rw [← receiveAll_append] at hReply
    rw [← hBytes]
    exact hUsed.reply reply hReply
  by_cases hInvalid :
    a.sender.mac = broadcast
  · -- All the bytes are the same.
    have hOctets := a.octets_sender
    rw [hInvalid] at hOctets
    rw [← hOctets, ← reverse_reverse a.wireMAC, ← hOctets]
    rfl
  have hSearch := search_later s earlier [] hAccepted (by simp)
  have hKnown : a.sender.mac.toHex ≠ 0xFFFFFFFFFFFF := by
    rw [← toHex_broadcast, Ne, toHex_inj]
    exact hInvalid
  rw [← hSearch] at hKnown
  have hResolve := resolve_known a.interface (fun _ => (receiveAll s (earlier ++ [a])
      ).host.discoveredAddresses) hIP hKnown
  have hFrame := hUsed.later [] a.interface _ (by simp) rfl hIP (by rw [hResolve]) .ipv4 []
  rw [take_send, hResolve, hSearch, fromHex_toHex, Arrival.octets_sender] at hFrame
  exact hFrame

theorem usedAsReceived_iff (s : Machine (ARPState τ)) (earlier : List Arrival) (a : Arrival)
    (hAccepted : a.Accepted) : UsedAsReceived s earlier a a.wireMAC ↔
    a.wireMAC.reverse = a.wireMAC ∨ (¬ a.IsRequest ∧ a.sender.ip.equalsHex 0xFFFFFFFF = true) := by
  constructor
  · intro hUsed
    by_cases hSent : a.IsRequest ∨ a.sender.ip.equalsHex 0xFFFFFFFF = false
    · exact .inl (hUsed.eq_reverse hAccepted hSent)
    · rw [not_or, Bool.not_eq_false] at hSent
      exact .inr hSent
  rintro (hSame | ⟨hOther, hIP⟩)
  · have hUsed := usedAsReceived_reverse s earlier hAccepted
    rwa [hSame] at hUsed
  constructor
  · intro frame hSent
    rw [receiveAll_append, receive_silent _ hAccepted hOther] at hSent
    cases self_eq_append_right.mp hSent
  intro later interface tables _ _ hNot
  rw [hIP] at hNot
  cases hNot

def requestFrom (mac : List (BitVec 8)) : Arrival where
  interface := ⟨⟨2, 0, 0, 0, 0, 9⟩, ⟨10, 0, 0, 1⟩⟩
  memory := place (fun _ => 0) 0
    ([0, 1, 8, 0, 6, 4, 0, 1] ++ mac ++ [10, 0, 0, 2] ++ [0, 0, 0, 0, 0, 0] ++ [10, 0, 0, 1])
  args := ⟨0, 28⟩

theorem usedAsReceived_palindrome : UsedAsReceived (start (fun _ => 0) [] ()) []
    (requestFrom [2, 0, 7, 7, 0, 2]) (requestFrom [2, 0, 7, 7, 0, 2]).wireMAC :=
  (usedAsReceived_iff (start (fun _ => 0) [] ()) []
    (requestFrom [2, 0, 7, 7, 0, 2]) (by decide)).mpr (.inl (by decide))

theorem reply_to_reversed : ∃ frame, (requestFrom [2, 0, 0, 0, 0, 1]).Accepted ∧
    (requestFrom [2, 0, 0, 0, 0, 1]).wireMAC = [2, 0, 0, 0, 0, 1] ∧
    (receiveAll (start (fun _ => 0) [] ()) [requestFrom [2, 0, 0, 0, 0, 1]]).sent = [frame] ∧
    frame.take 6 = [1, 0, 0, 0, 0, 2] ∧ ¬ UsedAsReceived (start (fun _ => 0) [] ()) []
    (requestFrom [2, 0, 0, 0, 0, 1]) [2, 0, 0, 0, 0, 1] := by
  refine ⟨_, by decide, by decide, rfl, by decide, ?_⟩
  intro hUsed
  exact absurd (hUsed.reply _ rfl) (by decide)

structure Host (τ : Type) where
  interface : DeviceInterface
  before : List (EthernetEvents (ARPState τ))
  behind : List (EthernetEvents (ARPState τ))
  hOthers : ∀ e ∈ before ++ behind, e.type ≠ FrameType.arp.code
  machine : Machine (ARPState τ)

namespace Host

def deliver (host : Host τ) (packet : Nat) (frame : List (BitVec 8)) :
    Received (ARPState τ) :=
  Ethernet.receive host.interface (host.before ++ events host.interface :: host.behind)
    { host.machine with memory := host.machine.memory.place packet frame }
    packet (BitVec.ofNat 64 frame.length)

end Host

def Answers (a b : Host τ) (packetA packetB : Nat) (frame : List (BitVec 8)) : Prop :=
  ∃ reply, (b.deliver packetB frame).machine.sent = b.machine.sent ++ [reply] ∧
      (a.deliver packetA reply).accepted = true ∧
      (search b.interface.ip (a.deliver packetA reply ).machine.host.discoveredAddresses).mac =
        b.interface.mac

theorem not_accepts_request {interface : DeviceInterface} {m : Memory} {header : Nat}
    (h : Holds m header (request interface ip)) : ¬ Accepts m header := by
  have hType : m.bytes header 2 = splitBytes 2 htypeEthernet := (bytes_append h).1
  rintro ⟨hHardware, _⟩
  rw [hardwareType, word, hType] at hHardware
  exact absurd hHardware (by decide)

theorem resolve_sent {interface : DeviceInterface} {tables : Nat → List DiscoveredAddress}
    {frame : List (BitVec 8)} (hFrame : frame ∈ (resolve interface tables ip).sent) :
    frame = send interface broadcast .arp (request interface ip) := by
  rw [resolve] at hFrame
  split at hFrame
  · cases hFrame
  simp only at hFrame
  split at hFrame
  · exact mem_singleton.mp hFrame
  · cases hFrame

theorem machine_deliver_request (host : Host τ) (packet : Nat) (interface : DeviceInterface)
    (ip : InternetProtocol4) :
    let frame := Ethernet.send interface broadcast .arp (request interface ip)
    (host.deliver packet frame).machine = { host.machine with
      memory := host.machine.memory.place packet frame } := by
  intro frame
  have hHolds : Ethernet.Holds (host.machine.memory.place packet frame) packet frame :=
    bytes_place host.machine.memory packet frame
  have hIgnored := onEthernetPacketReceived_rejected host.interface
    ⟨packet + Ethernet.sizeofHeader, BitVec.ofNat 64 frame.length⟩
    { host.machine with memory := host.machine.memory.place packet frame }
    (not_accepts_request (Ethernet.holds_payload hHolds))
  rw [Host.deliver,
    Ethernet.receive_machine _ hHolds rfl host.hOthers (.inr rfl) (congrArg Prod.snd hIgnored)]
  exact congrArg Prod.fst hIgnored

theorem request_never_answered (a b : Host τ) (tables : Nat → List DiscoveredAddress)
    (packetA packetB : Nat) (frame : List (BitVec 8))
    (hFrame : frame ∈ (resolve a.interface tables b.interface.ip).sent) :
    ¬ Answers a b packetA packetB frame := by
  rintro ⟨reply, hSent, _⟩
  rw [resolve_sent hFrame, machine_deliver_request] at hSent
  cases self_eq_append_right.mp hSent

def hostA : Host Unit where
  interface := ⟨⟨2, 0, 0, 0, 0, 1⟩, ⟨10, 0, 0, 1⟩⟩
  before := []
  behind := []
  hOthers := by simp
  machine := start (fun _ => 0) [] ()

def hostB : Host Unit where
  interface := ⟨⟨2, 0, 0, 0, 0, 2⟩, ⟨10, 0, 0, 2⟩⟩
  before := []
  behind := []
  hOthers := by simp
  machine := start (fun _ => 0) [] ()

theorem request_never_answered_between_two : ¬ Answers hostA hostB 0 0
    (send hostA.interface broadcast .arp
    (request hostA.interface hostB.interface.ip)) :=
  request_never_answered hostA hostB (fun _ => []) 0 0 _ (by
      have hIP : hostB.interface.ip.equalsHex 0xFFFFFFFF = false := by
        decide
      rw [resolve_unknown hostA.interface (fun _ => []) hIP rfl]
      exact mem_singleton_self _)

theorem request_dropped : ∃ frame,
    (resolve hostA.interface (fun _ => []) hostB.interface.ip).sent = [frame] ∧
    (hostB.deliver 0 frame).accepted = true ∧ (hostB.deliver 0 frame).machine.sent = [] ∧
    (hostB.deliver 0 frame ).machine.host.discoveredAddresses = [] ∧
    ¬ Answers hostA hostB 0 0 frame := by
  refine ⟨_, rfl, by decide, by decide, by decide, ?_⟩
  rintro ⟨reply, hSent, _⟩
  have hNone : (hostB.deliver 0 (send hostA.interface broadcast .arp
    (request hostA.interface hostB.interface.ip))).machine.sent = [] := by
    decide
  rw [hNone] at hSent
  cases hSent

end ARP

end Fennix
