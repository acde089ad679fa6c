import Fennix.Network.IPv4

/-
  Datagrams.

  A datagram is sent as the data of a packet.
-/

namespace Fennix

open List

structure Socket where
  localIP : InternetProtocol4 := ⟨0xFF, 0xFF, 0xFF, 0xFF⟩
  localPort : BitVec 16 := 0
  remoteIP : InternetProtocol4 := ⟨0xFF, 0xFF, 0xFF, 0xFF⟩
  remotePort : BitVec 16 := 0
  listening : Bool := false
  eventHandler : Option Nat := none

structure Datagram where
  handler : Nat
  socket : Socket
  data : Nat
  length : BitVec 64
  memory : Memory

/- `fault` is set by a call through a null pointer. -/
structure UDPState where
  sockets : List Socket := []
  usuablePort : BitVec 16 := 0x200
  delivered : List Datagram := []
  fault : Bool := false

namespace UDP

def sizeofHeader : Nat := 8

def connect (interface : DeviceInterface) (u : UDPState) (ip : InternetProtocol4)
    (port : BitVec 16) : UDPState :=
  { u with
    usuablePort := u.usuablePort + 1
    sockets := u.sockets ++
      [{ localIP := interface.ip
         localPort := b16 u.usuablePort
         remoteIP := ip
         remotePort := b16 port }] }

def bind (socket : Socket) (handler : Nat) : Socket :=
  { socket with eventHandler := some handler }

/- The frame that is handed to the card. -/
def send (ipv4 : IPv4) (socket : Socket) (data : List (BitVec 8)) : List (BitVec 8) :=
  let totalLength := BitVec.ofNat 16 (data.length + sizeofHeader)
  let packet := splitBytes 2 socket.localPort ++ splitBytes 2 socket.remotePort ++
      splitBytes 2 (b16 totalLength) ++
      splitBytes 2 0#16 ++ data
  ipv4.send (packet.take totalLength.toNat) 0x11 socket.remoteIP

def sourcePort (m : Memory) (data : Nat) : BitVec 16 :=
  m.word 16 data 2

def destinationPort (m : Memory) (data : Nat) : BitVec 16 :=
  m.word 16 (data + 2) 2

def connectListening (args : IPv4Args) (m : Memory) : List Socket → List Socket × Bool
| [] => ([], false)
| socket :: rest =>
  if socket.localPort = destinationPort m args.data ∧ socket.localIP = args.destinationIP ∧
      socket.listening = true then
    ({ socket with
        listening := false
        remotePort := b16 (sourcePort m args.data)
        remoteIP := args.sourceIP } :: rest, true)
  else
    let others := connectListening args m rest
    (socket :: others.1, others.2)

def deliver (args : IPv4Args) (m : Memory) (u : UDPState) : UDPState :=
  match u.sockets.getLast? with
  | none => u
  | some socket =>
    match socket.eventHandler with
    | none => { u with fault := true }
    | some handler =>
      { u with delivered := u.delivered ++
        [⟨handler, socket, args.data + sizeofHeader, args.length, m⟩] }

def onIPv4PacketReceived (args : IPv4Args) (s : Machine UDPState) : Machine UDPState × Bool :=
  if args.length < 8 then (s, false)
  else
    let connected := connectListening args s.memory s.host.sockets
    if connected.2 then
      ({ s with host :=
        { s.host with sockets := connected.1 } }, true)
    else
      ({ s with host := deliver args s.memory s.host }, false)

def events : IPv4Events UDPState where
  protocol := 17
  onIPv4PacketReceived := onIPv4PacketReceived

theorem quiet_events : IPv4.Quiet events := by
  intro args s
  change (onIPv4PacketReceived args s).1.memory = s.memory
  unfold onIPv4PacketReceived
  split
  · rfl
  dsimp only
  split
  · rfl
  · rfl

def registered (interface : DeviceInterface) (before behind : List (EthernetEvents UDPState)) :
    List (EthernetEvents UDPState) :=
  before ++ IPv4.events interface [events] :: behind

section Delivery

variable {payload : List (BitVec 8)}

theorem send_eq (ipv4 : IPv4) (socket : Socket) (hLength : payload.length ≤ 1472) :
    ∃ bytes : List (BitVec 8), bytes.length = 8 ∧ send ipv4 socket payload =
    ipv4.send (bytes ++ payload) 0x11 socket.remoteIP := by
  refine ⟨splitBytes 2 socket.localPort ++ splitBytes 2 socket.remotePort ++
    splitBytes 2 (b16 (BitVec.ofNat 16 (payload.length + sizeofHeader))) ++
    splitBytes 2 0#16, by simp, ?_⟩
  rw [send, take_of_length_le]
  simp [sizeofHeader]
  omega

theorem delivered_onIPv4PacketReceived (args : IPv4Args) (s : Machine UDPState) :
    ∃ calls : List Datagram, (onIPv4PacketReceived args s).1.host.delivered =
    s.host.delivered ++ calls ∧ ∀ d ∈ calls, d.length = args.length := by
  unfold onIPv4PacketReceived deliver
  split
  · exact ⟨[], by simp, by simp⟩
  dsimp only
  split
  · exact ⟨[], by simp, by simp⟩
  split
  · exact ⟨[], by simp, by simp⟩
  split
  · exact ⟨[], by simp, by simp⟩
  · exact ⟨[_], rfl, by simp⟩

theorem handlerLength_ne {n : Nat} (hn : n ≤ 1472) {m : Memory} {packet : Nat}
    (hTotal : IPv4.totalLengthField m packet = IPv4.totalLength (n + 8)) :
    IPv4.clampedLength m packet (BitVec.ofNat 64 (n + 42)) - BitVec.ofNat 64 20 ≠
    BitVec.ofNat 64 n := by
  intro hEq
  have hClamped : (IPv4.clampedLength m packet (BitVec.ofNat 64 (n + 42))).toNat = n + 20 := by
    have hSum := congrArg (fun x => (x + BitVec.ofNat 64 20).toNat) hEq
    simp only [BitVec.sub_add_cancel] at hSum
    rw [hSum, BitVec.toNat_add, BitVec.toNat_ofNat, BitVec.toNat_ofNat]
    omega
  have hSwapped : (IPv4.totalLengthField m packet).toNat =
    (n + 28) % 256 * 256 + (n + 28) / 256 := by
    have hSize : (n + 8 + IPv4.sizeofHeader) % 2 ^ 16 = n + 28 := Nat.mod_eq_of_lt (by
        rw [IPv4.sizeofHeader]
        omega)
    rw [hTotal, IPv4.totalLength, toNat_swapHalves, BitVec.toNat_ofNat, hSize]
  rw [IPv4.clampedLength] at hClamped
  split at hClamped
  · rw [BitVec.toNat_ofNat] at hClamped
    omega
  · rw [BitVec.toNat_setWidth, hSwapped] at hClamped
    omega

theorem length_send (ipv4 : IPv4) (socket : Socket) (hLength : payload.length ≤ 1472) :
    (send ipv4 socket payload).length = payload.length + 42 := by
  rcases send_eq ipv4 socket hLength with ⟨bytes, hBytes, hSend⟩
  rw [hSend, IPv4.send, Ethernet.send_eq, IPv4.sealedHeader]
  simp only [length_append, IPv4.length_header, MediaAccessControl.length_octets,
    length_splitBytes, hBytes]
  omega

theorem delivered_length {ipv4 : IPv4} {socket : Socket} {receiver : DeviceInterface}
    {before behind : List (EthernetEvents UDPState)} {s : Machine UDPState} {packet : Nat}
    {d : Datagram} (hLength : payload.length ≤ 1472)
    (hOthers : ∀ e ∈ before ++ behind, e.type ≠ FrameType.ipv4.code)
    (hHolds : Ethernet.Holds s.memory packet (send ipv4 socket payload))
    (hNone : s.host.delivered = [])
    (hd : d ∈ (Ethernet.receive receiver (registered receiver before behind) s packet
    (BitVec.ofNat 64 (send ipv4 socket payload).length)).machine.host.delivered) :
    d.length ≠ BitVec.ofNat 64 payload.length := by
  rw [length_send ipv4 socket hLength] at hd
  rcases send_eq ipv4 socket hLength with ⟨bytes, hBytes, hSend⟩
  rw [hSend, IPv4.send] at hHolds
  have hFields := IPv4.fields_of_holds (Ethernet.holds_payload hHolds)
  rcases hFields with ⟨hIHL, hTotal, hProtocol, _⟩
  rw [length_append, hBytes, Nat.add_comm 8] at hTotal
  rw [registered, Ethernet.receive_host _ hHolds rfl hOthers] at hd
  split at hd
  · have hLong : ¬ BitVec.ofNat 64 (payload.length + 42) < 20 := by
      rw [BitVec.lt_def, BitVec.toNat_ofNat]
      change ¬ _ < 20
      omega
    rw [IPv4.events, IPv4.onEthernetPacketReceived_host hLong hProtocol] at hd
    split at hd
    · rcases delivered_onIPv4PacketReceived (IPv4.handlerArgs (packet + Ethernet.sizeofHeader)
        (IPv4.clampedLength s.memory (packet + Ethernet.sizeofHeader)
        (BitVec.ofNat 64 (payload.length + 42))) s) s with ⟨calls, hCalls, hGiven⟩
      have hMem : d ∈ calls := by
        rw [hNone, nil_append] at hCalls
        rw [← hCalls]
        exact hd
      rw [hGiven d hMem, IPv4.handlerArgs, hIHL]
      exact handlerLength_ne hLength hTotal
    · rw [hNone] at hd
      cases hd
  · rw [hNone] at hd
    cases hd

def DeliveredExactly (payload : List (BitVec 8)) (u : UDPState) : Prop :=
  ∃ d, u.delivered = [d] ∧ d.memory.bytes d.data payload.length = payload ∧
    d.length = BitVec.ofNat 64 payload.length

theorem never_delivered_exactly (ipv4 : IPv4) (socket : Socket) (payload : List (BitVec 8))
    (hLength : payload.length ≤ 1472) (receiver : DeviceInterface)
    (before behind : List (EthernetEvents UDPState))
    (hOthers : ∀ e ∈ before ++ behind, e.type ≠ FrameType.ipv4.code) (s : Machine UDPState)
    (hNone : s.host.delivered = []) (packet : Nat) :
    let frame := send ipv4 socket payload
    let received := Ethernet.receive receiver (registered receiver before behind)
        { s with memory := s.memory.place packet frame }
        packet (BitVec.ofNat 64 frame.length)
    ¬ DeliveredExactly payload received.machine.host := by
  intro frame received
  rintro ⟨d, hDelivered, _, hExact⟩
  have hd : d ∈ received.machine.host.delivered := by
    rw [hDelivered]
    exact mem_singleton_self d
  have hHolds : Ethernet.Holds (s.memory.place packet frame) packet frame :=
    Memory.bytes_place s.memory packet frame
  exact delivered_length (s := { s with memory := s.memory.place packet frame })
    hLength hOthers hHolds hNone hd hExact

def hostA : IPv4 where
  interface := ⟨⟨2, 0, 0, 0, 0, 1⟩, ⟨10, 0, 0, 1⟩⟩
  resolve := fun _ => 0x020000000002

def hostB : DeviceInterface :=
  ⟨⟨2, 0, 0, 0, 0, 2⟩, ⟨10, 0, 0, 10⟩⟩

def hostBState : UDPState where
  sockets :=
    [bind { localIP := hostB.ip, localPort := b16 7 } 1]

def toHostB : Socket where
  localIP := hostA.interface.ip
  localPort := b16 9
  remoteIP := hostB.ip
  remotePort := b16 7

theorem never_delivered_exactly_three_bytes : let frame := send hostA toHostB [1, 2, 3]
    let received := Ethernet.receive hostB (registered hostB [] [])
      ⟨Memory.place (fun _ => 0) 0 frame, [], hostBState⟩ 0
      (BitVec.ofNat 64 frame.length)
    ¬ DeliveredExactly [1, 2, 3] received.machine.host :=
  never_delivered_exactly hostA toHostB [1, 2, 3] (by decide)
    hostB [] [] (by simp) ⟨fun _ => 0, [], hostBState⟩ rfl 0

theorem three_bytes_as_many : let frame := send hostA toHostB [1, 2, 3]
    let received := Ethernet.receive hostB (registered hostB [] [])
      ⟨Memory.place (fun _ => 0) 0 frame, [], hostBState⟩ 0
      (BitVec.ofNat 64 frame.length)
    (∃ d, received.machine.host.delivered = [d] ∧ d.memory.bytes d.data 3 = [1, 2, 3] ∧
      d.length = 25) ∧
    ¬ DeliveredExactly [1, 2, 3] received.machine.host := by
  refine ⟨⟨_, rfl, by decide, by decide⟩, ?_⟩
  rintro ⟨d, hDelivered, _, hExact⟩
  cases hDelivered
  revert hExact
  decide

end Delivery

section Ports

variable {args : IPv4Args} {s : Machine UDPState}

def calls (args : IPv4Args) (s : Machine UDPState) : List Datagram :=
  (onIPv4PacketReceived args s).1.host.delivered.drop s.host.delivered.length

def Awaits (args : IPv4Args) (m : Memory) (socket : Socket) : Prop :=
  socket.localPort = destinationPort m args.data ∧ socket.localIP = args.destinationIP ∧
    socket.listening = true

theorem connectListening_iff (m : Memory) (sockets : List Socket) :
    (connectListening args m sockets).2 = true ↔ ∃ socket ∈ sockets, Awaits args m socket := by
  induction sockets with
  | nil => simp [connectListening]
  | cons socket rest ih =>
    rw [connectListening]
    split
    · rename_i hAwaits
      exact ⟨fun _ => ⟨socket, mem_cons_self, hAwaits⟩, fun _ => rfl⟩
    rename_i hNot
    simp only [ih, mem_cons, exists_eq_or_imp]
    exact ⟨Or.inr, fun h => h.resolve_left hNot⟩

theorem calls_eq (hBound : ∀ socket ∈ s.host.sockets, socket.eventHandler.isSome) :
    (calls args s).map Datagram.socket =
    if args.length < 8 ∨ (connectListening args s.memory s.host.sockets).2 = true then []
    else s.host.sockets.getLast?.toList := by
  rw [calls, onIPv4PacketReceived]
  by_cases hShort : args.length < 8
  · rw [if_pos hShort, if_pos (.inl hShort), drop_length, map_nil]
  rw [if_neg hShort]
  by_cases hAwaited : (connectListening args s.memory s.host.sockets).2 = true
  · rw [if_pos (Or.inr hAwaited), if_pos hAwaited, drop_length, map_nil]
  rw [if_neg (not_or.mpr ⟨hShort, hAwaited⟩), if_neg hAwaited, deliver]
  cases hLast : s.host.sockets.getLast? with
  | none => simp
  | some socket =>
    have hHandler := hBound socket (mem_of_getLast? hLast)
    rcases Option.isSome_iff_exists.mp hHandler with ⟨handler, hHandler⟩
    simp [hHandler]

theorem calls_to_port_iff (args : IPv4Args) (s : Machine UDPState)
    (hBound : ∀ socket ∈ s.host.sockets, socket.eventHandler.isSome) :
    (∀ d ∈ calls args s, d.socket ∈ s.host.sockets ∧
    d.socket.localPort = destinationPort s.memory args.data) ↔
    args.length < 8 ∨ (∃ socket ∈ s.host.sockets, Awaits args s.memory socket) ∨
    ∀ socket ∈ s.host.sockets.getLast?, socket.localPort = destinationPort s.memory args.data := by
  have hCalls : (∀ d ∈ calls args s, d.socket ∈ s.host.sockets ∧
    d.socket.localPort = destinationPort s.memory args.data) ↔
    ∀ socket ∈ (calls args s).map Datagram.socket, socket ∈ s.host.sockets ∧
    socket.localPort = destinationPort s.memory args.data := by simp
  rw [hCalls, calls_eq hBound, ← or_assoc, ← connectListening_iff]
  split
  · rename_i hNone
    exact ⟨fun _ => Or.inl hNone, fun _ _ hMem => absurd hMem not_mem_nil⟩
  rename_i hNone
  rw [or_iff_right hNone]
  simp only [Option.mem_toList, Option.mem_def]
  exact forall₂_congr (fun socket hLast => and_iff_right (mem_of_getLast? hLast))

end Ports

def twoSockets : UDPState :=
  let connected := connect hostB (connect hostB {} ⟨10, 0, 0, 1⟩ 7) ⟨10, 0, 0, 1⟩ 9
  { connected with sockets := connected.sockets.map (bind · 1) }

def portHost (port : BitVec 16) : Machine UDPState :=
  ⟨Memory.place (fun _ => 0) 2 (splitBytes 2 (b16 port)), [], twoSockets⟩

def portArgs : IPv4Args :=
  ⟨⟨10, 0, 0, 1⟩, hostB.ip, 0, 8⟩

theorem calls_to_port_iff_second : (∃ d, calls portArgs (portHost 0x201) = [d]) ∧
    ∀ d ∈ calls portArgs (portHost 0x201), d.socket ∈ (portHost 0x201).host.sockets ∧
    d.socket.localPort = destinationPort (portHost 0x201).memory portArgs.data := by
  refine ⟨⟨_, rfl⟩, (calls_to_port_iff portArgs (portHost 0x201) (by decide)).mpr ?_⟩
  refine Or.inr (.inr ?_)
  intro socket hLast
  cases hLast
  decide

theorem first_port_to_second :
    (∀ socket ∈ (portHost 0x200).host.sockets, socket.eventHandler.isSome) ∧
    ∃ d, calls portArgs (portHost 0x200) = [d] ∧ b16 d.socket.localPort = 0x201 ∧
    b16 (destinationPort (portHost 0x200).memory portArgs.data) = 0x200 :=
  ⟨by decide, _, rfl, by decide, by decide⟩

/-
  What `Send` does with its buffer: the size that is allocated, what is written, as offsets and
  sizes, and the length that is handed on.
-/
structure SendBuffer where
  allocated : Nat
  written : List (Nat × Nat)
  handed : BitVec 64

def sendBuffer (length : BitVec 64) : SendBuffer :=
  let totalLength := (length + BitVec.ofNat 64 sizeofHeader).setWidth 16
  { allocated := totalLength.toNat
    -- the ports, the length, the data and the checksum
    written := [(0, 2), (2, 2), (4, 2), (sizeofHeader, length.toNat), (6, 2)]
    handed := totalLength.setWidth 64 }

/- What `send` hands over is as long as the buffer says. -/
theorem send_handed (ipv4 : IPv4) (socket : Socket) (data : List (BitVec 8)) :
    ∃ packet, send ipv4 socket data = ipv4.send packet 0x11 socket.remoteIP ∧
    packet.length = (sendBuffer (BitVec.ofNat 64 data.length)).handed.toNat := by
  refine ⟨_, rfl, ?_⟩
  simp only [sendBuffer, length_take, length_append, length_splitBytes, sizeofHeader,
    BitVec.toNat_setWidth, BitVec.toNat_add, BitVec.toNat_ofNat]
  omega

def SendBuffer.Holds (buffer : SendBuffer) (length : BitVec 64) : Prop :=
  (∀ range ∈ buffer.written, range.1 + range.2 ≤ buffer.allocated) ∧
    buffer.handed.toNat = length.toNat + 8

theorem sendBuffer_holds_iff (length : BitVec 64) :
    (sendBuffer length).Holds length ↔ length.toNat + 8 < 2 ^ 16 := by
  have hLength := length.isLt
  have hSum : (length + BitVec.ofNat 64 sizeofHeader).toNat = (length.toNat + 8) % 2 ^ 64 :=
    BitVec.toNat_add _ _
  simp only [SendBuffer.Holds, sendBuffer, BitVec.toNat_setWidth, hSum, forall_mem_cons,
    not_mem_nil, IsEmpty.forall_iff, implies_true, and_true]
  rw [sizeofHeader]
  constructor
  · rintro ⟨_, hHanded⟩
    omega
  · intro hFits
    omega

theorem sendBuffer_empty : (sendBuffer 65528).allocated = 0 ∧
    (sizeofHeader, 65528) ∈ (sendBuffer 65528).written ∧ (sendBuffer 65528).handed = 0 ∧
    ¬ (sendBuffer 65528).Holds 65528 := by
  refine ⟨by decide, by decide, by decide, ?_⟩
  rintro ⟨_, hHanded⟩
  revert hHanded
  decide

end UDP

end Fennix
