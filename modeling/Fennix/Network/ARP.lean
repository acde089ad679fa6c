import Fennix.Library.Directory
import Fennix.Network.Ethernet

/-
  Resolution of addresses.
-/

namespace Fennix

open List

structure DiscoveredAddress where
  mac : MediaAccessControl
  ip : InternetProtocol4

structure ARPState (τ : Type) where
  discoveredAddresses : List DiscoveredAddress
  others : τ

namespace ARP

variable {τ : Type}

inductive DAType
| add
| del
| search
| update
deriving DecidableEq

def setMAC (ip : InternetProtocol4) (mac : MediaAccessControl) :
    List DiscoveredAddress → List DiscoveredAddress
| [] => []
| entry :: table =>
  if entry.ip = ip then { entry with mac := mac } :: table
  else entry :: setMAC ip mac table

def manageDA (type : DAType) (ip : InternetProtocol4) (mac : MediaAccessControl)
    (table : List DiscoveredAddress) : List DiscoveredAddress × Option DiscoveredAddress :=
  match type with
  | .add => (table ++ [⟨mac, ip⟩], some ⟨mac, ip⟩)
  | .del =>
    (table.eraseP (fun entry => entry.ip = ip), table.find? (fun entry => entry.ip = ip))
  | .search =>
    (table, table.find? (fun entry => entry.ip = ip))
  | .update =>
    (setMAC ip mac table, (setMAC ip mac table).find? (fun entry => entry.ip = ip))

def invalidMAC : MediaAccessControl :=
  ⟨0xFF, 0xFF, 0xFF, 0xFF, 0xFF, 0xFF⟩

def invalidIP : InternetProtocol4 :=
  ⟨0xFF, 0xFF, 0xFF, 0xFF⟩

def invalidRet : DiscoveredAddress :=
  ⟨invalidMAC, invalidIP⟩

def search (targetIP : InternetProtocol4) (table : List DiscoveredAddress) : DiscoveredAddress :=
  (manageDA .search targetIP ⟨0, 0, 0, 0, 0, 0⟩ table).2.getD invalidRet

def operationRequest : BitVec 16 := 1

def operationReply : BitVec 16 := 2

def htypeEthernet : BitVec 16 := 1

def sizeofHeader : Nat := 28

section Fields

variable (m : Memory) (header : Nat)

def hardwareType : BitVec 16 :=
  m.word 16 header 2

def protocolType : BitVec 16 :=
  m.word 16 (header + 2) 2

def operation : BitVec 16 :=
  m.word 16 (header + 6) 2

def senderMAC : BitVec 64 :=
  m.word 64 (header + 8) 6

def senderIP : BitVec 32 :=
  m.word 32 (header + 14) 4

def targetMAC : BitVec 64 :=
  m.word 64 (header + 18) 6

def Accepts : Prop :=
  b16 (hardwareType m header) = htypeEthernet ∧ b16 (protocolType m header) = FrameType.ipv4.code

instance : Decidable (Accepts m header) :=
  inferInstanceAs (Decidable (_ ∧ _))

def discovered : DiscoveredAddress where
  mac := MediaAccessControl.fromHex (senderMAC m header)
  ip := InternetProtocol4.fromHex (senderIP m header)

end Fields

def discover (m : Memory) (header : Nat) (table : List DiscoveredAddress) :
    List DiscoveredAddress :=
  let sender := discovered m header
  match (manageDA .search sender.ip sender.mac table).2 with
  | none => (manageDA .add sender.ip sender.mac table).1
  | some _ => (manageDA .update sender.ip sender.mac table).1

def turnAround (interface : DeviceInterface) (m : Memory) (header : Nat) : Memory :=
  let m := m.store (header + 18) 6 (senderMAC m header).toNat
  let m := m.store (header + 24) 4 (senderIP m header).toNat
  let m := m.store (header + 8) 6 (b48 interface.mac.toHex).toNat
  let m := m.store (header + 14) 4 (b32 interface.ip.toHex).toNat
  m.store (header + 6) 2 (b16 operationReply).toNat

def onEthernetPacketReceived (interface : DeviceInterface) (args : EthernetArgs)
    (s : Machine (ARPState τ)) : Machine (ARPState τ) × Bool :=
  if Accepts s.memory args.data then
    let host := { s.host with
      discoveredAddresses := discover s.memory args.data s.host.discoveredAddresses }
    if b16 (operation s.memory args.data) = operationRequest then
      let m := turnAround interface s.memory args.data
      let reply := Ethernet.send interface (MediaAccessControl.fromHex (targetMAC m args.data))
        .arp (m.bytes args.data sizeofHeader)
      (⟨m, s.sent ++ [reply], host⟩, false)
    else ({ s with host := host }, false)
  else (s, false)

def events (interface : DeviceInterface) : EthernetEvents (ARPState τ) where
  type := FrameType.arp.code
  onEthernetPacketReceived :=
    onEthernetPacketReceived interface

def request (interface : DeviceInterface) (ip : InternetProtocol4) : List (BitVec 8) :=
  splitBytes 2 htypeEthernet ++ (splitBytes 2 FrameType.ipv4.code ++ [6, 4] ++
      splitBytes 2 operationRequest ++
      splitBytes 6 interface.mac.toHex ++
      splitBytes 4 interface.ip.toHex ++
      splitBytes 6 0xFFFFFFFFFFFF#64 ++
      splitBytes 4 ip.toHex)

def requestTimeout : Nat := 10

/- The loop that waits for an answer. -/
def awaitReply (ip : InternetProtocol4) (tables : Nat → List DiscoveredAddress) :
    (left round : Nat) → (ret : BitVec 64) → BitVec 64
| 0, _, _ => 0
| left + 1, round, ret =>
  if ret = 0xFFFFFFFFFFFF then
    if left = 0 then 0
    else
      awaitReply ip tables left (round + 1) (search ip (tables round)).mac.toHex
  else ret

structure Resolved where
  sent : List (List (BitVec 8))
  mac : BitVec 64

def resolve (interface : DeviceInterface) (tables : Nat → List DiscoveredAddress)
    (ip : InternetProtocol4) : Resolved :=
  if ip.equalsHex 0xFFFFFFFF = true then ⟨[], 0xFFFFFFFFFFFF⟩
  else
    let ret := (search ip (tables 0)).mac.toHex
    ⟨if ret = 0xFFFFFFFFFFFF then
        [Ethernet.send interface MediaAccessControl.broadcast .arp (request interface ip)]
      else [],
      awaitReply ip tables requestTimeout 1 ret⟩

structure Arrival where
  interface : DeviceInterface
  memory : Memory
  args : EthernetArgs

namespace Arrival

def Accepted (a : Arrival) : Prop :=
  Accepts a.memory a.args.data

instance (a : Arrival) : Decidable a.Accepted :=
  inferInstanceAs (Decidable (Accepts _ _))

def sender (a : Arrival) : DiscoveredAddress :=
  discovered a.memory a.args.data

end Arrival

def receive (s : Machine (ARPState τ)) (a : Arrival) : Machine (ARPState τ) :=
  (onEthernetPacketReceived a.interface a.args { s with memory := a.memory }).1

def receiveAll (s : Machine (ARPState τ)) (arrivals : List Arrival) : Machine (ARPState τ) :=
  arrivals.foldl receive s

def start (m : Memory) (sent : List (List (BitVec 8))) (others : τ) : Machine (ARPState τ) :=
  ⟨m, sent, ⟨[], others⟩⟩

def senders (arrivals : List Arrival) : List DiscoveredAddress :=
  (arrivals.filter (fun a => a.Accepted)).map Arrival.sender

------ The Table as a Directory

theorem search_eq (ip : InternetProtocol4) (table : List DiscoveredAddress) : search ip table =
    (Directory.lookup DiscoveredAddress.ip ip table).getD invalidRet :=
  rfl

theorem setMAC_eq (entry : DiscoveredAddress) (table : List DiscoveredAddress) :
    setMAC entry.ip entry.mac table = Directory.replace DiscoveredAddress.ip entry table := by
  induction table with
  | nil => rfl
  | cons first table ih =>
    rw [setMAC, Directory.replace, ih]
    by_cases hSame : first.ip = entry.ip
    · rw [if_pos hSame, if_pos hSame, hSame]
    · rw [if_neg hSame, if_neg hSame]

theorem discover_eq (m : Memory) (header : Nat) (table : List DiscoveredAddress) :
    discover m header table = Directory.enter DiscoveredAddress.ip table (discovered m header) := by
  rw [Directory.enter, ← setMAC_eq]
  change (match Directory.lookup DiscoveredAddress.ip (discovered m header).ip table with
      | none => _
      | some _ => _) = _
  cases Directory.lookup DiscoveredAddress.ip (discovered m header).ip table
  · rfl
  · rfl

section

variable (interface : DeviceInterface) (args : EthernetArgs) (s : Machine (ARPState τ))

theorem onEthernetPacketReceived_rejected (hOther : ¬ Accepts s.memory args.data) :
    onEthernetPacketReceived interface args s = (s, false) :=
  if_neg hOther

theorem table_onEthernetPacketReceived :
    (onEthernetPacketReceived interface args s).1.host.discoveredAddresses =
    if Accepts s.memory args.data then Directory.enter DiscoveredAddress.ip
    s.host.discoveredAddresses (discovered s.memory args.data)
    else s.host.discoveredAddresses := by
  rw [onEthernetPacketReceived, ← discover_eq]
  split
  · split
    · rfl
    · rfl
  · rfl

end

theorem table_receive (s : Machine (ARPState τ)) (a : Arrival) :
    (receive s a).host.discoveredAddresses = if a.Accepted then Directory.enter DiscoveredAddress.ip
    s.host.discoveredAddresses a.sender else s.host.discoveredAddresses :=
  table_onEthernetPacketReceived a.interface a.args { s with memory := a.memory }

theorem table_receiveAll (s : Machine (ARPState τ)) (arrivals : List Arrival) :
    (receiveAll s arrivals).host.discoveredAddresses = Directory.enterAll DiscoveredAddress.ip
    s.host.discoveredAddresses (senders arrivals) := by
  induction arrivals generalizing s with
  | nil => rfl
  | cons a arrivals ih =>
    rw [receiveAll, foldl_cons]
    refine (ih (receive s a)).trans ?_
    rw [table_receive, senders, senders]
    by_cases hAccepted : a.Accepted
    · rw [if_pos hAccepted, filter_cons_of_pos (by simpa using hAccepted)]
      rfl
    · rw [if_neg hAccepted, filter_cons_of_neg (by simpa using hAccepted)]

theorem search_receiveAll (s : Machine (ARPState τ)) (arrivals : List Arrival)
    (ip : InternetProtocol4) : search ip (receiveAll s arrivals).host.discoveredAddresses =
    ((arrivals.filter (fun a => a.Accepted ∧ a.sender.ip = ip)).getLast?.map Arrival.sender).getD
    (search ip s.host.discoveredAddresses) := by
  have hSame : Directory.latest DiscoveredAddress.ip ip (senders arrivals) =
      (arrivals.filter (fun a => a.Accepted ∧ a.sender.ip = ip)).getLast?.map Arrival.sender := by
    rw [Directory.latest, senders, filter_map, filter_filter, getLast?_map]
    congr 2
    apply filter_congr
    intro a ha
    simp [Bool.and_comm]
  rw [search_eq, table_receiveAll, Directory.lookup_enterAll, hSame, search_eq]
  cases getLast? (arrivals.filter _)
  · rfl
  · rfl

theorem table_learns_latest (m : Memory) (sent : List (List (BitVec 8))) (others : τ)
    (arrivals : List Arrival) :
    let table := fun arrivals =>
      (receiveAll (start m sent others) arrivals).host.discoveredAddresses
    ((table arrivals).map DiscoveredAddress.ip).Nodup ∧ (∀ earlier a later,
        arrivals = earlier ++ a :: later →
        ¬ a.Accepted →
        table (earlier ++ [a]) = table earlier) ∧
      ∀ ip, search ip (table arrivals) =
          match (arrivals.filter (fun a => a.Accepted ∧ a.sender.ip = ip)).getLast? with
          | some a => ⟨a.sender.mac, ip⟩
          | none => invalidRet := by
  intro table
  refine ⟨?_, ?_, ?_⟩
  · change ((receiveAll (start m sent others) arrivals).host.discoveredAddresses.map _).Nodup
    rw [table_receiveAll]
    exact Directory.unique_enterAll (senders arrivals) nodup_nil
  · intro earlier a later _ hOther
    change (receiveAll _ _).host.discoveredAddresses = (receiveAll _ _).host.discoveredAddresses
    rw [table_receiveAll, table_receiveAll, senders, senders, filter_append,
      filter_cons_of_neg (by simpa using hOther), filter_nil, append_nil]
  · intro ip
    refine (search_receiveAll (start m sent others) arrivals ip).trans ?_
    cases hLast : (arrivals.filter (fun a => a.Accepted ∧ a.sender.ip = ip)).getLast? with
    | none => rfl
    | some a =>
      have ha := of_mem_filter (mem_of_getLast? hLast)
      have hIP : a.sender.ip = ip := by
        simpa using (of_decide_eq_true ha).2
      rw [← hIP]
      rfl

end ARP

end Fennix
