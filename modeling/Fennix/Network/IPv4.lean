import Fennix.Network.Checksum
import Fennix.Network.Ethernet

/-
  Packets of the internet protocol.

  A packet is sent as the data of a frame, behind a header of 20 bytes.
-/

namespace Fennix

open List BitVec Memory

structure IPv4 where
  interface : DeviceInterface
  resolve : InternetProtocol4 → BitVec 64
  gatewayIP : InternetProtocol4 := ⟨0xFF, 0xFF, 0xFF, 0xFF⟩
  subnetworkMaskIP : InternetProtocol4 :=
    ⟨0xFF, 0xFF, 0xFF, 0xFF⟩

structure IPv4Args where
  sourceIP : InternetProtocol4
  destinationIP : InternetProtocol4
  data : Nat
  length : BitVec 64

structure IPv4Events (σ : Type) where
  protocol : BitVec 8
  onIPv4PacketReceived : IPv4Args → Machine σ → Machine σ × Bool

namespace IPv4

variable {σ : Type}

def sizeofHeader : Nat := 20

def versionAndIHL : BitVec 8 :=
  (4#8 <<< 4) ||| BitVec.ofNat 8 (sizeofHeader / 4)

def totalLength (length : Nat) : BitVec 16 :=
  swapHalves (BitVec.ofNat 16 (length + sizeofHeader))

def header (source destination : InternetProtocol4) (length : Nat) (protocol : BitVec 8)
    (headerChecksum : BitVec 16) : List (BitVec 8) :=
  [versionAndIHL, 0] ++ splitBytes 2 (totalLength length) ++
    splitBytes 2 0#16 ++ splitBytes 2 0#16 ++
    [64, protocol] ++ splitBytes 2 headerChecksum ++
    splitBytes 4 (b32 source.toHex) ++
    splitBytes 4 (b32 destination.toHex)

def sealedHeader (source destination : InternetProtocol4) (length : Nat)
    (protocol : BitVec 8) : List (BitVec 8) :=
  header source destination length protocol
    (calculateChecksum (header source destination length protocol 0#16))

def destinationRoute (ipv4 : IPv4) (destination : InternetProtocol4) : InternetProtocol4 :=
  let mask := ipv4.subnetworkMaskIP.toHex
  if b32 destination.toHex &&& mask ≠ b32 ipv4.interface.ip.toHex &&& mask then
    ipv4.subnetworkMaskIP
  else destination

def send (ipv4 : IPv4) (data : List (BitVec 8)) (protocol : BitVec 8)
    (destination : InternetProtocol4) : List (BitVec 8) :=
  Ethernet.send ipv4.interface
    (MediaAccessControl.fromHex (ipv4.resolve (ipv4.destinationRoute destination)))
    .ipv4
    (sealedHeader ipv4.interface.ip destination data.length protocol ++ data)

def ihl (m : Memory) (packet : Nat) : Nat :=
  (m packet &&& 0x0F#8).toNat

def totalLengthField (m : Memory) (packet : Nat) : BitVec 16 :=
  m.word 16 (packet + 2) 2

def protocolField (m : Memory) (packet : Nat) : BitVec 8 :=
  m (packet + 9)

def sourceField (m : Memory) (packet : Nat) : BitVec 32 :=
  m.word 32 (packet + 12) 4

def destinationField (m : Memory) (packet : Nat) : BitVec 32 :=
  m.word 32 (packet + 16) 4

def Accepts (ip : InternetProtocol4) (m : Memory) (packet : Nat) : Prop :=
  destinationField m packet = ip.toHex ∨ destinationField m packet = 0xFFFFFFFF ∨ ip.toHex = 0

instance (ip : InternetProtocol4) (m : Memory) (packet : Nat) : Decidable (Accepts ip m packet) :=
  inferInstanceAs (Decidable (_ ∨ _ ∨ _))

def clampedLength (m : Memory) (packet : Nat) (length : BitVec 64) : BitVec 64 :=
  let total := (totalLengthField m packet).setWidth 64
  if total > length then length else total

def handlerArgs (packet : Nat) (total : BitVec 64) (s : Machine σ) : IPv4Args where
  sourceIP := .fromHex (b32 (sourceField s.memory packet))
  destinationIP :=
    .fromHex (b32 (destinationField s.memory packet))
  data := packet + 4 * ihl s.memory packet
  length := total - BitVec.ofNat 64 (4 * ihl s.memory packet)

def callHandlers (ip : InternetProtocol4) (registered : List (IPv4Events σ)) (packet : Nat)
    (length : BitVec 64) (s : Machine σ) : List (Call (IPv4Events σ) (Machine σ) IPv4Args) :=
  if length < 20 then []
  else if Accepts ip s.memory packet then
    callsTo (fun e s => protocolField s.memory packet = e.protocol)
      (handlerArgs packet (clampedLength s.memory packet length))
      IPv4Events.onIPv4PacketReceived registered s
  else []

/- The packet is turned around. -/
def turnAround (m : Memory) (packet : Nat) : Memory :=
  let swapped := (((m.store (packet + 16) 4 (sourceField m packet).toNat).store
      (packet + 12) 4 (destinationField m packet).toNat).write
      (packet + 8) 0x40).store (packet + 10) 2 0
  swapped.store (packet + 10) 2
    (calculateChecksum (swapped.bytes packet (4 * (totalLengthField m packet).toNat))).toNat

def onEthernetPacketReceived (interface : DeviceInterface) (registered : List (IPv4Events σ))
    (args : EthernetArgs) (s : Machine σ) : Machine σ × Bool :=
  let calls := callHandlers interface.ip registered args.data args.length s
  let s := stateAfter s calls
  if calls.any Call.reply then
    let m := turnAround s.memory args.data
    ({ s with memory := m, sent := s.sent ++ [m.bytes args.data args.length.toNat] }, true)
  else (s, false)

def events (interface : DeviceInterface) (registered : List (IPv4Events σ)) : EthernetEvents σ where
  type := FrameType.ipv4.code
  onEthernetPacketReceived :=
    onEthernetPacketReceived interface registered

section Header

variable {source destination : InternetProtocol4} {length : Nat} {protocol : BitVec 8}
variable {checksum : BitVec 16}

theorem header_eq : header source destination length protocol checksum =
    ([0x45, 0] ++ splitBytes 2 (totalLength length) ++ [0, 0, 0, 0, 64, protocol]) ++
    (splitBytes 2 checksum ++ (source.octets ++ destination.octets)) := by
  have hSource := source.splitBytes_b32_toHex
  have hDestination := destination.splitBytes_b32_toHex
  have hZero : splitBytes 2 0#16 = [0, 0] := by decide
  have hFirst : versionAndIHL = 0x45 := by decide
  rw [header, hSource, hDestination, hZero, hFirst]
  simp only [List.append_assoc, List.cons_append, List.nil_append]

theorem length_header : (header source destination length protocol checksum).length = 20 := by
  rw [header_eq]
  simp

theorem addresses_header :
    ((header source destination length protocol checksum).drop 12).take 4 = source.octets ∧
    ((header source destination length protocol checksum).drop 16).take 4 = destination.octets := by
  rw [header_eq]
  exact ⟨rfl, rfl⟩

theorem splitBytes_totalLength : splitBytes 2 (totalLength length) =
    [byteAt (BitVec.ofNat 16 (length + 20)) 1, byteAt (BitVec.ofNat 16 (length + 20)) 0] := by
  rw [totalLength, swapHalves_eq, splitBytes_b16]
  rfl

theorem calculateChecksum_sealedHeader : calculateChecksum
    (sealedHeader source destination length protocol) = 0 := by
  rw [sealedHeader, header_eq, header_eq]
  exact calculateChecksum_stored _ _ (by simp) (by simp) (by simp)

end Header

theorem source_send (ipv4 : IPv4) (data : List (BitVec 8)) (protocol : BitVec 8)
    (destination : InternetProtocol4) :
    (((ipv4.send data protocol destination).drop Ethernet.sizeofHeader).drop 12).take 4 =
    ipv4.interface.ip.octets := by
  rw [send, Ethernet.drop_send, sealedHeader, header_eq]
  rfl

def sentSource (ipv4 : IPv4) : List (BitVec 8) :=
  (((ipv4.send [] 0 ⟨0, 0, 0, 0⟩).drop Ethernet.sizeofHeader).drop 12).take 4

theorem sentSource_eq (ipv4 : IPv4) : ipv4.sentSource = ipv4.interface.ip.octets :=
  ipv4.source_send [] 0 ⟨0, 0, 0, 0⟩

theorem send_header (ipv4 : IPv4) (data : List (BitVec 8)) (protocol : BitVec 8)
    (destination : InternetProtocol4) (hLength : data.length ≤ 65515) :
    let frame := ipv4.send data protocol destination
    let emitted := (frame.drop Ethernet.sizeofHeader).take 20
    emitted.length = 20 ∧ emitted.getD 0 0 = 0x45 ∧ (emitted.getD 2 0).toNat * 256 +
          (emitted.getD 3 0).toNat = data.length + 20 ∧
      (emitted.drop 12).take 4 = ipv4.interface.ip.octets ∧
      (emitted.drop 16).take 4 = destination.octets ∧
      calculateChecksum emitted = 0 := by
  intro frame emitted
  have hEmitted : emitted = sealedHeader ipv4.interface.ip destination data.length protocol := by
    change ((Ethernet.send _ _ _ _).drop _).take 20 = _
    rw [Ethernet.drop_send]
    exact take_left' length_header
  rw [hEmitted]
  refine ⟨length_header, ?_, ?_, addresses_header.1,
    addresses_header.2, calculateChecksum_sealedHeader⟩
  · rw [sealedHeader, header_eq]
    rfl
  rw [sealedHeader, header_eq, splitBytes_totalLength]
  change (byteAt _ 1).toNat * 256 + (byteAt _ 0).toNat = _
  rw [big_endian_halves, toNat_ofNat, Nat.mod_eq_of_lt (by omega)]

theorem send_header_three_bytes : let ipv4 : IPv4 :=
      { interface := ⟨⟨2, 0, 0, 0, 0, 1⟩, ⟨10, 0, 2, 15⟩⟩, resolve := fun _ => 0xFFFFFFFFFFFF }
    let frame := ipv4.send [1, 2, 3] 17 ⟨10, 0, 2, 2⟩
    let emitted := (frame.drop Ethernet.sizeofHeader).take 20
    (emitted.getD 2 0).toNat * 256 + (emitted.getD 3 0).toNat = 23 ∧
      (emitted.drop 12).take 4 = [10, 0, 2, 15] ∧
      calculateChecksum emitted = 0 := by
  intro ipv4 frame emitted
  have hHeader := send_header ipv4 [1, 2, 3] 17 ⟨10, 0, 2, 2⟩ (by decide)
  exact ⟨hHeader.2.2.1, hHeader.2.2.2.1, hHeader.2.2.2.2.2⟩

------ Received Packets

section Received

variable {source destination : InternetProtocol4} {length : Nat} {protocol : BitVec 8}
variable {data : List (BitVec 8)} {m : Memory} {packet : Nat}

theorem fields_of_holds
    (h : Ethernet.Holds m packet (sealedHeader source destination length protocol ++ data)) :
    ihl m packet = 5 ∧ totalLengthField m packet = totalLength length ∧
    protocolField m packet = protocol ∧ m.bytes (packet + 16) 4 = destination.octets ∧
    Ethernet.Holds m (packet + sizeofHeader) data := by
  have hParts := bytes_append h
  have hData : Ethernet.Holds m (packet + sizeofHeader) data := by
    have hBehind := hParts.2
    rwa [sealedHeader, length_header] at hBehind
  have hHeader := hParts.1
  rw [sealedHeader, header_eq, List.append_assoc, List.append_assoc] at hHeader
  have hFirst := bytes_append hHeader
  have hSecond := bytes_append hFirst.2
  have hThird := bytes_append hSecond.2
  have hFourth := bytes_append hThird.2
  have hFifth := bytes_append hFourth.2
  have hLengthBytes : m.bytes (packet + 2) 2 = splitBytes 2 (totalLength length) := hSecond.1
  refine ⟨?_, ?_, ?_, hFifth.2, hData⟩
  · have hByte : m packet = 0x45 := (cons.inj hFirst.1).1
    rw [ihl, hByte]
    decide
  · rw [totalLengthField, word, hLengthBytes]
    exact joinBytes_splitBytes _ rfl
  · have hByte : some (m (packet + 9)) = some protocol := congrArg (fun bs => bs[5]?) hThird.1
    exact Option.some.inj hByte

theorem onEthernetPacketReceived_host {interface : DeviceInterface} {handler : IPv4Events σ}
    {args : EthernetArgs} {s : Machine σ} (hLength : ¬ args.length < 20)
    (hProtocol : protocolField s.memory args.data = handler.protocol) :
    (onEthernetPacketReceived interface [handler] args s).1.host =
    if Accepts interface.ip s.memory args.data then
    (handler.onIPv4PacketReceived (handlerArgs args.data
    (clampedLength s.memory args.data args.length) s) s).1.host else s.host := by
  by_cases hAccepts : Accepts interface.ip s.memory args.data
  · rw [if_pos hAccepts, onEthernetPacketReceived]
    simp only [callHandlers, if_neg hLength, if_pos hAccepts, callsTo, hProtocol, decide_true,
      if_true]
    split
    · rfl
    · rfl
  rw [if_neg hAccepts, onEthernetPacketReceived]
  simp only [callHandlers, if_neg hLength, if_neg hAccepts]
  rfl

theorem accepts_iff {ip : InternetProtocol4} : Accepts ip m packet ↔
    m.bytes (packet + 16) 4 = ip.octets.reverse ∨ m.bytes (packet + 16) 4 = [255, 255, 255, 255] ∨
    ip.octets.reverse = [0, 0, 0, 0] := by
  have hAll : (0xFFFFFFFF : BitVec 32) = joinBytes 32 [255, 255, 255, 255] := by decide
  have hZero : (0 : BitVec 32) = joinBytes 32 [0, 0, 0, 0] := by
    decide
  rw [Accepts, destinationField, word, hAll, hZero, InternetProtocol4.toHex_eq,
    joinBytes_inj (by simp) (by simp), joinBytes_inj (by simp) (by simp),
    joinBytes_inj (by simp) (by simp)]

def Quiet (handler : IPv4Events σ) : Prop :=
  ∀ args s, (handler.onIPv4PacketReceived args s).1.memory = s.memory

theorem callHandlers_events {ip : InternetProtocol4} {registered : List (IPv4Events σ)}
    {received : BitVec 64} (s : Machine σ) (hQuiet : ∀ e ∈ registered, Quiet e)
    (hLength : ¬ received < 20) : (callHandlers ip registered packet received s).map Call.event =
    if Accepts ip s.memory packet then
    registered.filter (fun e => protocolField s.memory packet = e.protocol) else [] := by
  rw [callHandlers, if_neg hLength]
  by_cases hAccepts : Accepts ip s.memory packet
  · rw [if_pos hAccepts, if_pos hAccepts]
    apply callsTo_events_of_invariant (fun s' => s'.memory = s.memory)
    · intro e he args s' hSame
      exact (hQuiet e he args s').trans hSame
    · intro e s' hSame
      rw [hSame]
    · rfl
  · rw [if_neg hAccepts, if_neg hAccepts, map_nil]

/-
  Every packet for the address that is sent as the source, or for all, reaches the handlers of its
  protocol; a packet for any other address reaches none.
-/
def ReceivesOwn (ipv4 : IPv4) (registered : List (IPv4Events σ)) : Prop :=
  ∀ (s : Machine σ) (packet : Nat) (received : BitVec 64), ¬ received < 20 →
    (callHandlers ipv4.interface.ip registered packet received s).map Call.event =
      if s.memory.bytes (packet + 16) 4 = ipv4.sentSource ∨
          s.memory.bytes (packet + 16) 4 = [255, 255, 255, 255] then
        registered.filter (fun e => protocolField s.memory packet = e.protocol)
      else []

def packetFor (protocol : BitVec 8) (octets : List (BitVec 8)) : Memory :=
  place (place (fun _ => 0) 9 [protocol]) 16 octets

theorem fields_packetFor (protocol : BitVec 8) (ip : InternetProtocol4) :
    protocolField (packetFor protocol ip.octets) 0 = protocol ∧
    (packetFor protocol ip.octets).bytes (0 + 16) 4 = ip.octets :=
  ⟨rfl, bytes_place _ 16 ip.octets⟩

theorem receivesOwn_iff {ipv4 : IPv4} {registered : List (IPv4Events σ)} (host : σ)
    (hSome : registered ≠ []) (hQuiet : ∀ e ∈ registered, Quiet e)
    (hNonzero : ipv4.interface.ip.octets ≠ [0, 0, 0, 0]) : ReceivesOwn ipv4 registered ↔
    ipv4.interface.ip.octets.reverse = ipv4.interface.ip.octets := by
  have hReverse : ipv4.interface.ip.octets.reverse ≠ [0, 0, 0, 0] := by
    intro hEq
    rw [reverse_eq_iff] at hEq
    exact hNonzero hEq
  constructor
  · intro hOwn
    rcases exists_mem_of_ne_nil _ hSome with ⟨e, he⟩
    have hFields := fields_packetFor e.protocol ipv4.interface.ip
    have hCalls := hOwn ⟨packetFor e.protocol ipv4.interface.ip.octets, [], host⟩ 0 20 (by decide)
    rw [callHandlers_events _ hQuiet (by decide), sentSource_eq,
      if_pos (Or.inl hFields.2)] at hCalls
    by_contra hNot
    rw [if_neg] at hCalls
    · have hMem : e ∈ registered.filter (fun d => protocolField (packetFor e.protocol
          ipv4.interface.ip.octets) 0 = d.protocol) :=
        mem_filter.mpr ⟨he, decide_eq_true hFields.1⟩
      rw [← hCalls] at hMem
      cases hMem
    intro hAccepts
    rw [accepts_iff, hFields.2] at hAccepts
    rcases hAccepts with hThis | hAll | hZero
    · exact hNot hThis.symm
    · rw [hAll] at hNot
      exact hNot rfl
    · exact hReverse hZero
  intro hPalindrome s packet received hLength
  rw [callHandlers_events s hQuiet hLength, sentSource_eq]
  congr 1
  rw [accepts_iff, hPalindrome, eq_iff_iff]
  constructor
  · rintro (hThis | hAll | hZero)
    · exact .inl hThis
    · exact .inr hAll
    · exact (hNonzero hZero).elim
  rintro (hThis | hAll)
  · exact .inl hThis
  · exact .inr (.inl hAll)

end Received

section Payloads

def Inside (packet : Nat) (length : BitVec 64) (args : IPv4Args) : Prop :=
  ∀ i < args.length.toNat, packet ≤ args.data + i ∧ args.data + i < packet + length.toNat

theorem inside_iff {packet header : Nat} {length total : BitVec 64} {args : IPv4Args}
    (hHeader : header < 64) (hData : args.data = packet + Ethernet.sizeofHeader + header)
    (hArgs : args.length = total - BitVec.ofNat 64 header) :
    Inside packet length args ↔ header = total.toNat ∨
    header ≤ total.toNat ∧ Ethernet.sizeofHeader + total.toNat ≤ length.toNat := by
  have hTotal := total.isLt
  have hLength := length.isLt
  have hSize : args.length.toNat = (2 ^ 64 - header + total.toNat) % 2 ^ 64 := by
    rw [hArgs, toNat_sub, toNat_ofNat, Nat.mod_eq_of_lt (a := header) (by omega)]
  rw [Inside, hData, Ethernet.sizeofHeader]
  constructor
  · intro hInside
    by_cases hNone : header = total.toNat
    · exact .inl hNone
    · have hLast := (hInside (args.length.toNat - 1) (by omega)).2
      exact .inr (by omega)
  · intro hFits i hi
    omega

variable (receiver : DeviceInterface) (handlers : List (EthernetEvents σ))
  (registered : List (IPv4Events σ)) (s : Machine σ) (packet : Nat) (length : BitVec 64)

def EachPayload (P : Memory → Call (IPv4Events σ) (Machine σ) IPv4Args → Prop) : Prop :=
  ∀ c ∈ (Ethernet.receive receiver handlers s packet length).calls,
    c.event = events receiver registered →
      ∀ d ∈ callHandlers receiver.ip registered c.args.data c.args.length c.before,
        P c.before.memory d

theorem args_of_receive {c : Call (EthernetEvents σ) (Machine σ) EthernetArgs}
    (hc : c ∈ (Ethernet.receive receiver handlers s packet length).calls) :
    c.args = ⟨packet + Ethernet.sizeofHeader, length⟩ := by
  unfold Ethernet.receive at hc
  dsimp only at hc
  split at hc
  · split at hc
    · split at hc
      · exact Ethernet.callHandlers_args hc
      · exact Ethernet.callHandlers_args hc
    · cases hc
  · cases hc

theorem args_of_callHandlers {ip : InternetProtocol4} {s : Machine σ}
    {d : Call (IPv4Events σ) (Machine σ) IPv4Args}
    (hd : d ∈ callHandlers ip registered packet length s) :
    d.args = handlerArgs packet (clampedLength s.memory packet length) d.before := by
  unfold callHandlers at hd
  split at hd
  · cases hd
  split at hd
  · exact (callsTo_wanted hd).2.2
  · cases hd

def Fits (found : Memory) (d : Call (IPv4Events σ) (Machine σ) IPv4Args) : Prop :=
  let header := 4 * ihl d.before.memory (packet + Ethernet.sizeofHeader)
  let total := (clampedLength found (packet + Ethernet.sizeofHeader) length).toNat
  header = total ∨ header ≤ total ∧ Ethernet.sizeofHeader + total ≤ length.toNat

theorem payloads_inside_iff : EachPayload receiver handlers registered s packet length
    (fun _ d => Inside packet length d.args) ↔
    EachPayload receiver handlers registered s packet length (Fits packet length) := by
  have hEach : ∀ c ∈ (Ethernet.receive receiver handlers s packet length).calls,
    ∀ d ∈ callHandlers receiver.ip registered c.args.data c.args.length c.before,
    (Inside packet length d.args ↔ Fits packet length c.before.memory d) := by
    intro c hc d hd
    have hIHL : ihl d.before.memory (packet + Ethernet.sizeofHeader) ≤ 15 := Nat.and_le_right
    have hHandler := args_of_callHandlers registered _ _ hd
    rw [args_of_receive receiver handlers s packet length hc] at hHandler
    exact inside_iff (by omega) (congrArg IPv4Args.data hHandler)
      (congrArg IPv4Args.length hHandler)
  constructor
  · intro hInside c hc hEvent d hd
    exact (hEach c hc d hd).mp (hInside c hc hEvent d hd)
  · intro hFits c hc hEvent d hd
    exact (hEach c hc d hd).mpr (hFits c hc hEvent d hd)

end Payloads

def silent : IPv4Events Unit where
  protocol := 17
  onIPv4PacketReceived := fun _ s => (s, false)

def receiver : DeviceInterface :=
  ⟨⟨2, 0, 0, 0, 0, 2⟩, ⟨10, 0, 0, 10⟩⟩

def emptyPacket : List (BitVec 8) :=
  Ethernet.send receiver MediaAccessControl.broadcast .ipv4
    (header receiver.ip ⟨255, 255, 255, 255⟩ 0 17 0)

theorem payload_behind_frame : emptyPacket.length = 34 ∧
    ∃ c, (Ethernet.receive receiver [events receiver [silent]]
    ⟨place (fun _ => 0) 0 emptyPacket, [], ()⟩ 0 34).calls = [c] ∧
    c.event = events receiver [silent] ∧
    ∃ d, callHandlers receiver.ip [silent] c.args.data c.args.length c.before = [d] ∧
    d.args.data = 34 ∧ d.args.length = 14 ∧ ¬ Inside 0 34 d.args := by
  refine ⟨by decide, _, rfl, rfl, _, rfl, by decide, by decide, ?_⟩
  intro hInside
  have hFirst := (hInside 0 (by decide)).2
  revert hFirst
  decide

end IPv4

end Fennix
