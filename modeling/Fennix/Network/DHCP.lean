import Fennix.Network.UDP

/-
  The lease of an address.
-/

namespace Fennix

open List Option Memory InternetProtocol4

structure DHCPState where
  ip : InternetProtocol4 := ⟨0, 0, 0, 0⟩
  gateway : InternetProtocol4 := ⟨0, 0, 0, 0⟩
  subnetworkMask : InternetProtocol4 := ⟨0, 0, 0, 0⟩
  domainNameSystem : InternetProtocol4 := ⟨0, 0, 0, 0⟩
  received : Bool := false

namespace DHCP

def subnetMask : BitVec 8 := 1
def timeOffset : BitVec 8 := 2
def router : BitVec 8 := 3
def nameServer : BitVec 8 := 5
def domainNameServer : BitVec 8 := 6
def cookieServer : BitVec 8 := 8
def optionHostName : BitVec 8 := 12
def domainName : BitVec 8 := 15
def netbiosNameServers : BitVec 8 := 44
def netbiosNodeType : BitVec 8 := 46
def netbiosScope : BitVec 8 := 47
def requestedIP : BitVec 8 := 50
def optionMessageType : BitVec 8 := 53
def parameterRequestList : BitVec 8 := 55
def maxMessageSize : BitVec 8 := 57
def clientIdentifier : BitVec 8 := 61
def optionEnd : BitVec 8 := 255

def messageTypeDiscover : BitVec 8 := 1
def messageTypeOffer : BitVec 8 := 2
def messageTypeRequest : BitVec 8 := 3
def messageTypeAck : BitVec 8 := 5

def options (mac : MediaAccessControl) (hostName : List (BitVec 8)) (messageType : BitVec 8)
    (requestIP : BitVec 32) : List (BitVec 8) :=
  splitBytes 4 (b32 0x63825363#32) ++ [optionMessageType, messageTypeDiscover, messageType] ++
    -- of eight bytes that are copied, two are overwritten
    ([clientIdentifier, 0x07, 0x01] ++ splitBytes 6 (b48 mac.toHex)) ++
    ([requestedIP, 0x04] ++ splitBytes 4 requestIP) ++
    ([optionHostName, BitVec.ofNat 8 (1 + hostName.length)] ++ hostName) ++
    [0] ++
    [parameterRequestList, cookieServer, subnetMask, router,
      domainNameServer, domainName, netbiosNameServers,
      netbiosNodeType, netbiosScope, maxMessageSize] ++
    [optionEnd]

def fixedFields (mac : MediaAccessControl) : List (BitVec 8) :=
  [1, 1, 6, 0] ++ splitBytes 4 (b32 0xFE2EC005#32) ++ [0, 0] ++ splitBytes 2 (b16 0x40#16) ++
    replicate 16 0 ++
    (splitBytes 8 (b48 mac.toHex) ++ replicate 8 0) ++
    replicate 64 0 ++ replicate 128 0

def createPacket (mac : MediaAccessControl) (hostName : List (BitVec 8)) (messageType : BitVec 8)
    (requestIP : BitVec 32) : List (BitVec 8) :=
  let written := options mac hostName messageType requestIP
  fixedFields mac ++ (written ++ replicate (64 - written.length) 0)

def request (mac : MediaAccessControl) (hostName : List (BitVec 8))
    (ip : InternetProtocol4) : List (BitVec 8) :=
  createPacket mac hostName messageTypeRequest ip.toHex

/- The walk of `GetOption`; `some none` is a null pointer. -/
def walkOptions (m : Memory) (type : BitVec 8) : (fuel : Nat) → Nat → Option (Option Nat)
| 0, _ => none
| fuel + 1, option =>
  if m option = 0xff then some none
  else if m option = type then some (some (option + 2))
  else
    walkOptions m type fuel (option + (2 + (m (option + 1)).toNat))

def getOption (fuel : Nat) (m : Memory) (packet : Nat) (type : BitVec 8) : Option (Option Nat) :=
  walkOptions m type fuel (packet + 236 + 4)

def readOption (fuel : Nat) (m : Memory) (packet : Nat)
    (type : BitVec 8) : Option InternetProtocol4 :=
  match getOption fuel m packet type with
  | some (some p) =>
    some (.fromHex (m.word 32 p 4))
  | _ => none

def yourIP (m : Memory) (packet : Nat) : BitVec 32 :=
  m.word 32 (packet + 16) 4

def keepLease (fuel : Nat) (m : Memory) (packet : Nat) : Option DHCPState :=
  (readOption fuel m packet router).bind (fun gateway =>
    (readOption fuel m packet domainNameServer).bind
      (fun dns => (readOption fuel m packet subnetMask).map (fun mask =>
            { ip := .fromHex (yourIP m packet)
              gateway := gateway
              domainNameSystem := dns
              subnetworkMask := mask
              received := true })))

def onUDPPacketReceived (fuel : Nat) (mac : MediaAccessControl) (hostName : List (BitVec 8))
    (dhcp : DHCPState) (m : Memory) (packet : Nat) : Option (DHCPState × List (List (BitVec 8))) :=
  match getOption fuel m packet optionMessageType with
  | some (some messageType) =>
    if m messageType = timeOffset then
      some (dhcp, [request mac hostName (.fromHex (yourIP m packet))])
    else if m messageType = nameServer then
      (keepLease fuel m packet).map (fun dhcp => (dhcp, []))
    else some (dhcp, [])
  | _ => none

def configure (dhcp : DHCPState) (ipv4 : IPv4) : IPv4 :=
  { ipv4 with
    interface := { ipv4.interface with ip := .fromHex (b32 dhcp.ip.toHex) }
    subnetworkMaskIP := dhcp.subnetworkMask
    gatewayIP := dhcp.gateway }

def receiveAll (fuel : Nat) (mac : MediaAccessControl) (hostName : List (BitVec 8)) :
    DHCPState → List (Memory × Nat) → Option (DHCPState × List (List (BitVec 8)))
| dhcp, [] => some (dhcp, [])
| dhcp, message :: rest =>
  (onUDPPacketReceived fuel mac hostName dhcp message.1 message.2).bind (fun first =>
    (receiveAll fuel mac hostName first.1 rest).map (fun others => (others.1, first.2 ++ others.2)))

def HasType (fuel : Nat) (type : BitVec 8) (message : Memory × Nat) : Prop :=
  ∃ p, getOption fuel message.1 message.2 optionMessageType = some (some p) ∧ message.1 p = type

def CarriesOptions (fuel : Nat) (message : Memory × Nat) : Prop :=
  ∀ type ∈ [router, domainNameServer, subnetMask],
    ∃ p, getOption fuel message.1 message.2 type = some (some p)

def yourBytes (message : Memory × Nat) : List (BitVec 8) :=
  message.1.bytes (message.2 + 16) 4

theorem splitBytes_yourIP (message : Memory × Nat) : splitBytes 4 (yourIP message.1 message.2) =
    yourBytes message :=
  splitBytes_word _ _ _ (by decide)

theorem length_fixedFields (mac : MediaAccessControl) : (fixedFields mac).length = 236 := by
  simp only [fixedFields, length_append, length_replicate, length_splitBytes,
    length_cons, length_nil]

def encodeOption (option : BitVec 8 × List (BitVec 8)) : List (BitVec 8) :=
  option.1 :: BitVec.ofNat 8 option.2.length :: option.2

def emitted (mac : MediaAccessControl) (hostName : List (BitVec 8)) (messageType : BitVec 8)
    (requestIP : BitVec 32) : List (BitVec 8 × List (BitVec 8)) :=
  [(optionMessageType, [messageType]), (clientIdentifier, 1 :: mac.octets),
    (requestedIP, splitBytes 4 requestIP), (optionHostName, hostName ++ [0]),
    (parameterRequestList, [subnetMask, router, domainNameServer, domainName,
      netbiosNameServers, netbiosNodeType, netbiosScope, maxMessageSize])]

theorem options_eq (mac : MediaAccessControl) (hostName : List (BitVec 8)) (messageType : BitVec 8)
    (requestIP : BitVec 32) : options mac hostName messageType requestIP =
    splitBytes 4 (b32 0x63825363#32) ++
    ((emitted mac hostName messageType requestIP).flatMap encodeOption ++ [optionEnd]) := by
  simp [options, emitted, encodeOption, MediaAccessControl.splitBytes_b48_toHex, Nat.add_comm 1,
    messageTypeDiscover, cookieServer]

theorem length_encodeOption (option : BitVec 8 × List (BitVec 8)) :
    (encodeOption option).length = 2 + option.2.length :=
  Nat.add_comm _ 2

variable {a : Nat}

theorem holds_head {m : Memory} {type size : BitVec 8} {rest : List (BitVec 8)}
    (h : Ethernet.Holds m a (type :: size :: rest)) :
    m a = type ∧ m (a + 1) = size ∧ Ethernet.Holds m (a + 2) rest := by
  have hParts := bytes_append (show Ethernet.Holds m a ([type, size] ++ rest) from h)
  have hHead := cons.inj hParts.1
  exact ⟨hHead.1, (cons.inj hHead.2).1, hParts.2⟩

theorem holds_encodeOption {m : Memory} {option : Nat} {first : BitVec 8 × List (BitVec 8)}
    {others : List (BitVec 8 × List (BitVec 8))} {tail : List (BitVec 8)}
    (h : Ethernet.Holds m option ((first :: others).flatMap encodeOption ++ tail))
    (hFirst : first.2.length < 256) : m option = first.1 ∧ (m (option + 1)).toNat = first.2.length ∧
    Ethernet.Holds m (option + (2 + first.2.length)) (others.flatMap encodeOption ++ tail) := by
  rw [Ethernet.Holds, flatMap_cons, append_assoc] at h
  have hParts := bytes_append h
  rcases holds_head hParts.1 with ⟨hType, hSize, _⟩
  rw [length_encodeOption] at hParts
  refine ⟨hType, ?_, hParts.2⟩
  rw [hSize, BitVec.toNat_ofNat, Nat.mod_eq_of_lt hFirst]

def PassedBy (type : BitVec 8) (others : List (BitVec 8 × List (BitVec 8))) : Prop :=
  ∀ other ∈ others, other.1 ≠ 0xff ∧ other.1 ≠ type ∧ other.2.length < 256

section Walks

variable {m : Memory} {type : BitVec 8} {option : Nat} {value tail : List (BitVec 8)}
variable {others : List (BitVec 8 × List (BitVec 8))} (hOthers : PassedBy type others) (fuel : Nat)

include hOthers

theorem walkOptions_passed (h : Ethernet.Holds m option (others.flatMap encodeOption ++ tail)) :
    walkOptions m type (others.length + fuel) option =
    walkOptions m type fuel (option + (others.flatMap encodeOption).length) := by
  induction others generalizing option with
  | nil => rw [length_nil, Nat.zero_add]; rfl
  | cons other others ih =>
    have hOther := hOthers other mem_cons_self
    rcases holds_encodeOption h hOther.2.2 with ⟨hFirst, hLength, hRest⟩
    rw [length_cons, Nat.succ_add, walkOptions, hFirst, if_neg hOther.1, if_neg hOther.2.1,
      hLength, ih (fun o ho => hOthers o (mem_cons_of_mem other ho)) hRest, flatMap_cons,
      length_append, length_encodeOption, Nat.add_assoc]

theorem walkOptions_option (hType : type ≠ 0xff) (h : Ethernet.Holds m option
    (others.flatMap encodeOption ++ (encodeOption (type, value) ++ tail))) :
    walkOptions m type (others.length + (fuel + 1)) option =
    some (some (option + (others.flatMap encodeOption).length + 2)) ∧
    m (option + (others.flatMap encodeOption).length + 1) = BitVec.ofNat 8 value.length ∧
    m.bytes (option + (others.flatMap encodeOption).length + 2) value.length = value := by
  have hParts := bytes_append (bytes_append h).2
  rcases holds_head hParts.1 with ⟨hFirst, hSize, hValue⟩
  refine ⟨?_, hSize, hValue⟩
  rw [walkOptions_passed hOthers _ h]
  exact (if_neg (fun hEnd => hType (hFirst.symm.trans hEnd))).trans (if_pos hFirst)

end Walks

variable {messageType : BitVec 8} {requestIP : BitVec 32}

theorem holds_emitted {mac : MediaAccessControl} {hostName : List (BitVec 8)} {m : Memory}
    (h : Ethernet.Holds m (a + 236) (options mac hostName messageType requestIP)) :
    Ethernet.Holds m (a + 236 + 4)
    ((emitted mac hostName messageType requestIP).flatMap encodeOption ++ [optionEnd]) := by
  rw [options_eq] at h
  exact (bytes_append h).2

theorem getOption_createPacket {mac : MediaAccessControl} {hostName : List (BitVec 8)} {m : Memory}
    (h : Ethernet.Holds m a (createPacket mac hostName messageType requestIP)) :
    getOption 3 m a requestedIP = some (some (a + 254)) ∧ m (a + 253) = 4 ∧
    m.bytes (a + 254) 4 = splitBytes 4 requestIP := by
  have hOptions := (bytes_append h).2
  rw [length_fixedFields] at hOptions
  have hEmitted := holds_emitted (bytes_append hOptions).1
  have hPassed : PassedBy requestedIP
    [(optionMessageType, [messageType]), (clientIdentifier, 1 :: mac.octets)] := by
    simp [PassedBy, optionMessageType, clientIdentifier, requestedIP]
  exact walkOptions_option hPassed 0 (by decide) hEmitted

theorem request_of_offer {fuel : Nat} {mac : MediaAccessControl} {hostName : List (BitVec 8)}
    {offer : Memory × Nat} (dhcp : DHCPState) (hOffer : HasType fuel timeOffset offer) :
    onUDPPacketReceived fuel mac hostName dhcp offer.1 offer.2 =
    some (dhcp, [createPacket mac hostName messageTypeRequest (yourIP offer.1 offer.2)]) := by
  rcases hOffer with ⟨p, hFound, hType⟩
  rw [onUDPPacketReceived, hFound]
  simp only [if_pos hType, request, toHex_fromHex]

section Leases

variable {fuel : Nat} {mac : MediaAccessControl} {hostName : List (BitVec 8)}
variable {dhcp dhcp' : DHCPState} {message : Memory × Nat} {messages : List (Memory × Nat)}
variable {sent : List (List (BitVec 8))}

theorem readOption_of_found {type : BitVec 8}
    (h : ∃ p, getOption fuel message.1 message.2 type = some (some p)) :
    ∃ ip, readOption fuel message.1 message.2 type = some ip := by
  rcases h with ⟨p, hFound⟩
  exact ⟨_, by rw [readOption, hFound]⟩

theorem ip_of_acknowledgement (mac : MediaAccessControl) (hostName : List (BitVec 8))
    (dhcp : DHCPState) (hType : HasType fuel nameServer message)
    (hOptions : CarriesOptions fuel message) : ∃ lease, onUDPPacketReceived fuel mac hostName dhcp
    message.1 message.2 = some (lease, []) ∧
    lease.ip = .fromHex (yourIP message.1 message.2) := by
  rcases hType with ⟨p, hFound, hByte⟩
  have hOther : message.1 p ≠ timeOffset := by
    rw [hByte]
    decide
  rcases readOption_of_found (hOptions router (by decide)) with ⟨gateway, hGateway⟩
  rcases readOption_of_found (hOptions domainNameServer (by decide)) with ⟨dns, hDNS⟩
  rcases readOption_of_found (hOptions subnetMask (by decide)) with ⟨mask, hMask⟩
  refine ⟨⟨.fromHex (yourIP message.1 message.2), gateway, mask, dns, true⟩, ?_, rfl⟩
  rw [onUDPPacketReceived, hFound]
  simp only [if_neg hOther, if_pos hByte, keepLease, hGateway, hDNS, hMask, bind_some, map_some]

theorem same_of_not_acknowledgement {result : DHCPState × List (List (BitVec 8))}
    (hType : ¬ HasType fuel nameServer message)
    (hResult : onUDPPacketReceived fuel mac hostName dhcp message.1 message.2 = some result) :
    result.1 = dhcp := by
  rw [onUDPPacketReceived] at hResult
  split at hResult
  · rename_i p hFound
    split at hResult
    · cases hResult
      rfl
    split at hResult
    · rename_i hByte
      exact (hType ⟨p, hFound, hByte⟩).elim
    · cases hResult
      rfl
  · cases hResult

theorem same_of_no_acknowledgement
    (hTypes : ∀ message ∈ messages, ¬ HasType fuel nameServer message)
    (hRun : receiveAll fuel mac hostName dhcp messages = some (dhcp', sent)) : dhcp' = dhcp := by
  induction messages generalizing dhcp sent with
  | nil =>
    cases hRun
    rfl
  | cons message messages ih =>
    rw [receiveAll] at hRun
    rcases bind_eq_some_iff.mp hRun with ⟨first, hFirst, hRest⟩
    rcases map_eq_some_iff.mp hRest with ⟨others, hOthers, hEq⟩
    cases hEq
    have hSame := same_of_not_acknowledgement (hTypes message mem_cons_self) hFirst
    rw [← hSame]
    exact ih (fun other hOther => hTypes other (mem_cons_of_mem message hOther)) hOthers

theorem ip_of_run {acknowledgement : Memory × Nat} {before behind : List (Memory × Nat)}
    (hType : HasType fuel nameServer acknowledgement)
    (hOptions : CarriesOptions fuel acknowledgement)
    (hLast : ∀ message ∈ behind, ¬ HasType fuel nameServer message)
    (hRun : receiveAll fuel mac hostName dhcp (before ++ acknowledgement :: behind) =
    some (dhcp', sent)) : dhcp'.ip = .fromHex (yourIP acknowledgement.1 acknowledgement.2) := by
  induction before generalizing dhcp sent with
  | nil =>
    rw [nil_append, receiveAll] at hRun
    rcases bind_eq_some_iff.mp hRun with ⟨first, hFirst, hRest⟩
    rcases map_eq_some_iff.mp hRest with ⟨others, hOthers, hEq⟩
    cases hEq
    rcases ip_of_acknowledgement mac hostName dhcp hType hOptions with ⟨lease, hLease, hIP⟩
    rw [hLease] at hFirst
    cases hFirst
    rw [same_of_no_acknowledgement hLast hOthers, hIP]
  | cons message before ih =>
    rw [cons_append, receiveAll] at hRun
    rcases bind_eq_some_iff.mp hRun with ⟨first, hFirst, hRest⟩
    rcases map_eq_some_iff.mp hRest with ⟨others, hOthers, hEq⟩
    cases hEq
    exact ih hOthers

theorem octets_configure (ipv4 : IPv4) (hIP : dhcp.ip = .fromHex (yourIP message.1 message.2)) :
    (configure dhcp ipv4).interface.ip.octets = yourBytes message := by
  change (fromHex (b32 dhcp.ip.toHex)).octets = _
  rw [hIP, toHex_fromHex, octets_fromHex_b32, splitBytes_yourIP]

end Leases

theorem lease_propagates (fuel : Nat) (mac : MediaAccessControl) (hostName : List (BitVec 8))
    (y : List (BitVec 8)) (offer acknowledgement : Memory × Nat)
    (hOffer : HasType fuel messageTypeOffer offer) (hOffered : yourBytes offer = y)
    (hAck : HasType fuel messageTypeAck acknowledgement)
    (hOptions : CarriesOptions fuel acknowledgement) (hLeased : yourBytes acknowledgement = y) :
    (∀ dhcp, ∃ packet, onUDPPacketReceived fuel mac hostName dhcp offer.1
    offer.2 = some (dhcp, [packet]) ∧ ∀ m a, Ethernet.Holds m a packet →
    ∃ p, getOption 3 m a requestedIP = some (some p) ∧ m (p - 1) = 4 ∧ m.bytes p 4 = y) ∧
    ∀ dhcp dhcp' sent before behind, (∀ message ∈ behind, ¬ HasType fuel messageTypeAck message) →
    receiveAll fuel mac hostName dhcp (before ++ acknowledgement :: behind) =
    some (dhcp', sent) → ∀ (ipv4 : IPv4) data protocol destination,
    ((((configure dhcp' ipv4).send data protocol destination).drop
    Ethernet.sizeofHeader).drop 12).take 4 = y := by
  constructor
  · intro dhcp
    refine ⟨_, request_of_offer dhcp hOffer, ?_⟩
    intro m a hHolds
    rcases getOption_createPacket hHolds with ⟨hFound, hLength, hValue⟩
    refine ⟨a + 254, hFound, hLength, ?_⟩
    rw [hValue, splitBytes_yourIP, hOffered]
  intro dhcp dhcp' sent before behind hLast hRun ipv4 data protocol destination
  have hIP := ip_of_run hAck hOptions hLast hRun
  rw [IPv4.source_send, octets_configure ipv4 hIP, hLeased]

def messageWith (y options : List (BitVec 8)) : Memory × Nat :=
  (place (place (fun _ => 0) 16 y) 240 options, 0)

def offerOf (y : List (BitVec 8)) : Memory × Nat :=
  messageWith y [53, 1, 2, 255]

def ackOf (y : List (BitVec 8)) : Memory × Nat :=
  messageWith y [53, 1, 5, 1, 4, 255, 255, 255, 0, 3, 4, 192, 168, 1, 1, 6, 4, 8, 8, 8, 8, 255]

theorem carriesOptions_of_found {message : Memory × Nat}
    (hRouter : getOption 8 message.1 message.2 router = some (some 251))
    (hServer : getOption 8 message.1 message.2 domainNameServer = some (some 257))
    (hMask : getOption 8 message.1 message.2 subnetMask = some (some 245)) :
    CarriesOptions 8 message := by
  intro type hType
  simp only [mem_cons, not_mem_nil, or_false] at hType
  rcases hType with rfl | rfl | rfl
  · exact ⟨251, hRouter⟩
  · exact ⟨257, hServer⟩
  · exact ⟨245, hMask⟩

theorem lease_propagates_192_168_1_7 : ∃ dhcp sent, receiveAll 8 ⟨2, 0, 0, 0, 0, 1⟩ [] {}
    [offerOf [192, 168, 1, 7], ackOf [192, 168, 1, 7]] = some (dhcp, sent) ∧
    ∀ (ipv4 : IPv4) data protocol destination,
    ((((configure dhcp ipv4).send data protocol destination).drop
    Ethernet.sizeofHeader).drop 12).take 4 = [192, 168, 1, 7] := by
  have hReturns : ∃ result, receiveAll 8 ⟨2, 0, 0, 0, 0, 1⟩ [] {} [offerOf [192, 168, 1, 7],
      ackOf [192, 168, 1, 7]] = some result := ⟨_, rfl⟩
  rcases hReturns with ⟨⟨dhcp, sent⟩, hRun⟩
  have hLease := lease_propagates 8 ⟨2, 0, 0, 0, 0, 1⟩ []
    [192, 168, 1, 7] (offerOf [192, 168, 1, 7]) (ackOf [192, 168, 1, 7])
    ⟨242, by decide, by decide⟩ (by decide) ⟨242, by decide, by decide⟩
    (carriesOptions_of_found (by decide) (by decide) (by decide)) (by decide)
  exact ⟨dhcp, sent, hRun, hLease.2 {} dhcp sent [_] [] (by simp) hRun⟩

------ The Own Address

theorem own_address_iff {σ : Type} (fuel : Nat) (mac : MediaAccessControl)
    (hostName : List (BitVec 8)) (acknowledgement : Memory × Nat)
    (before behind : List (Memory × Nat)) (dhcp dhcp' : DHCPState) (sent : List (List (BitVec 8)))
    (hAck : HasType fuel messageTypeAck acknowledgement)
    (hOptions : CarriesOptions fuel acknowledgement)
    (hLast : ∀ message ∈ behind, ¬ HasType fuel messageTypeAck message)
    (hRun : receiveAll fuel mac hostName dhcp
    (before ++ acknowledgement :: behind) = some (dhcp', sent))
    (hNonzero : yourBytes acknowledgement ≠ [0, 0, 0, 0]) (ipv4 : IPv4) (host : σ)
    (registered : List (IPv4Events σ)) (hSome : registered ≠ [])
    (hQuiet : ∀ e ∈ registered, IPv4.Quiet e) : IPv4.ReceivesOwn (configure dhcp' ipv4) registered ↔
    (yourBytes acknowledgement).reverse = yourBytes acknowledgement := by
  have hOctets := octets_configure ipv4 (ip_of_run hAck hOptions hLast hRun)
  rw [← hOctets] at hNonzero ⊢
  exact IPv4.receivesOwn_iff host hSome hQuiet hNonzero

theorem own_address_iff_10_0_0_10 : ∃ dhcp sent, receiveAll 8 ⟨2, 0, 0, 0, 0, 1⟩ [] {}
    [ackOf [10, 0, 0, 10]] = some (dhcp, sent) ∧ IPv4.ReceivesOwn (configure dhcp UDP.hostA)
    [UDP.events] := by
  have hReturns : ∃ result, receiveAll 8 ⟨2, 0, 0, 0, 0, 1⟩ [] {}
      [ackOf [10, 0, 0, 10]] = some result := ⟨_, rfl⟩
  rcases hReturns with ⟨⟨dhcp, sent⟩, hRun⟩
  refine ⟨dhcp, sent, hRun, ?_⟩
  refine (own_address_iff 8 ⟨2, 0, 0, 0, 0, 1⟩ [] (ackOf [10, 0, 0, 10]) [] [] {} dhcp sent
    ⟨242, by decide, by decide⟩
    (carriesOptions_of_found (by decide) (by decide) (by decide)) (by simp) hRun
    (by decide) UDP.hostA {} [UDP.events] (by simp) ?_).mpr (by decide)
  intro e he
  rw [mem_singleton.mp he]
  exact UDP.quiet_events

theorem own_packet_dropped : ∃ dhcp sent, receiveAll 8 ⟨2, 0, 0, 0, 0, 1⟩ [] {}
    [ackOf [192, 168, 1, 7]] = some (dhcp, sent) ∧
    (IPv4.callHandlers (configure dhcp UDP.hostA).interface.ip [UDP.events] 0
    20 ⟨IPv4.packetFor 17 [192, 168, 1, 7], [], {}⟩).length = 0 ∧
    ¬ IPv4.ReceivesOwn (configure dhcp UDP.hostA) [UDP.events] := by
  refine ⟨_, _, rfl, rfl, ?_⟩
  intro hOwn
  have hLength := congrArg length (hOwn ⟨IPv4.packetFor 17 [192, 168, 1, 7], [], {}⟩ 0 20
      (by decide))
  revert hLength
  decide

def sentBytes (ip : InternetProtocol4) : List (BitVec 8) :=
  ip.octets.reverse

theorem splitBytes_toHex (ip : InternetProtocol4) : splitBytes 4 ip.toHex = sentBytes ip := by
  rw [toHex_eq, splitBytes_joinBytes (by simp) (by decide), sentBytes]

def Agree (mask source destination : List (BitVec 8)) : Prop :=
  zipWith (· &&& ·) destination mask = zipWith (· &&& ·) source mask

instance (mask source destination : List (BitVec 8)) : Decidable (Agree mask source destination) :=
  inferInstanceAs (Decidable (_ = _))

theorem masked_eq_iff (source destination mask : InternetProtocol4) :
    b32 destination.toHex &&& mask.toHex = b32 source.toHex &&& mask.toHex ↔
    Agree (sentBytes mask) source.octets destination.octets := by
  have hSplit : ∀ x y : BitVec 32, splitBytes 4 (x &&& y) =
    zipWith (· &&& ·) (splitBytes 4 x) (splitBytes 4 y) := by
    intro x y
    simp [splitBytes, byteAt_and, zipWith_map]
  have hBytes : ∀ x y : BitVec 32, x = y ↔ splitBytes 4 x = splitBytes 4 y := by
    intro x y
    refine ⟨congrArg (splitBytes 4), fun hEq => ?_⟩
    rw [← joinBytes_splitBytes (n := 4) x rfl, hEq, joinBytes_splitBytes y rfl]
  rw [hBytes, hSplit, hSplit, splitBytes_toHex, splitBytes_b32_toHex,
    splitBytes_b32_toHex, Agree]

def nextHop (dhcp : DHCPState) (destination : InternetProtocol4) : List (BitVec 8) :=
  if Agree (sentBytes dhcp.subnetworkMask) (sentBytes dhcp.ip) destination.octets then
    destination.octets
  else sentBytes dhcp.gateway

theorem destinationRoute_iff (dhcp : DHCPState) (ipv4 : IPv4) (destination : InternetProtocol4) :
    ((configure dhcp ipv4).destinationRoute destination).octets = nextHop dhcp destination ↔
    Agree (sentBytes dhcp.subnetworkMask) (sentBytes dhcp.ip) destination.octets ∨
    dhcp.subnetworkMask.octets = sentBytes dhcp.gateway := by
  have hOwn : (configure dhcp ipv4).interface.ip.octets = sentBytes dhcp.ip := by
    change (fromHex (b32 dhcp.ip.toHex)).octets = _
    rw [octets_fromHex_b32, splitBytes_toHex]
  have hMask : (configure dhcp ipv4).subnetworkMaskIP = dhcp.subnetworkMask := rfl
  simp only [IPv4.destinationRoute, Ne, masked_eq_iff, hMask, hOwn, nextHop]
  by_cases hAgree : Agree (sentBytes dhcp.subnetworkMask) (sentBytes dhcp.ip) destination.octets
  · rw [if_neg (not_not.mpr hAgree), if_pos hAgree]
    exact ⟨fun _ => Or.inl hAgree, fun _ => rfl⟩
  · rw [if_pos hAgree, if_neg hAgree]
    exact ⟨Or.inr, fun h => h.resolve_left hAgree⟩

def lease : DHCPState where
  ip := ⟨15, 2, 0, 10⟩
  gateway := ⟨2, 2, 0, 10⟩
  subnetworkMask := ⟨0, 255, 255, 255⟩

theorem mask_resolved :
    ((configure lease UDP.hostA).destinationRoute ⟨8, 8, 8, 8⟩).octets = [0, 255, 255, 255] ∧
    nextHop lease ⟨8, 8, 8, 8⟩ = [10, 0, 2, 2] := by
  decide

end DHCP

end Fennix
