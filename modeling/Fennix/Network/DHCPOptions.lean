import Fennix.Network.DHCP

/-
  The options of a message, as they are written and as they are read.
-/

namespace Fennix

open List Option Memory

namespace DHCP

def optionPuts (mac : MediaAccessControl) (hostName : List (BitVec 8)) (messageType : BitVec 8)
    (requestIP : BitVec 32) : List Put :=
  [⟨splitBytes 4 (b32 0x63825363#32), 4⟩, .byte optionMessageType, .byte messageTypeDiscover,
    .byte messageType, .byte clientIdentifier, .byte 0x07, .byte 0x01,
    -- the address is copied as a number of 64 bits
    ⟨splitBytes 8 (b48 mac.toHex), 6⟩, .byte requestedIP, .byte 0x04,
    ⟨splitBytes 4 (b32 0x0a00020e#32), 0⟩, ⟨splitBytes 4 requestIP, 4⟩, .byte optionHostName,
    .byte (BitVec.ofNat 8 (1 + hostName.length)), ⟨hostName, hostName.length⟩, .byte 0,
    .byte parameterRequestList, .byte cookieServer, .byte subnetMask, .byte router,
    .byte domainNameServer, .byte domainName, .byte netbiosNameServers, .byte netbiosNodeType,
    .byte netbiosScope, .byte maxMessageSize, .byte optionEnd]

variable {option : Nat}

section Writing

variable (mac : MediaAccessControl) (hostName : List (BitVec 8)) (messageType : BitVec 8)
  (requestIP : BitVec 32)

theorem passed_optionPuts : (optionPuts mac hostName messageType requestIP).flatMap Put.passed =
    options mac hostName messageType requestIP := by
  have hAddress : (splitBytes 8 (b48 mac.toHex)).take 6 = splitBytes 6 (b48 mac.toHex) := rfl
  have hFour : ∀ x : BitVec 32, (splitBytes 4 x).take 4 = splitBytes 4 x :=
    fun x => take_of_length_le (by simp)
  simp [optionPuts, Put.passed, Put.byte, options, hAddress, hFour]

theorem holds_optionPuts (m : Memory) (a : Nat) :
    Ethernet.Holds (Put.run (optionPuts mac hostName messageType requestIP) a m) a
    (options mac hostName messageType requestIP) := by
  have hBytes := Put.bytes_run (optionPuts mac hostName messageType requestIP) a m
    (by simp [optionPuts, Put.byte])
  rwa [passed_optionPuts] at hBytes

theorem walkOptions_mem {m : Memory} {opts : List (BitVec 8 × List (BitVec 8))}
    {tail : List (BitVec 8)} (h : Ethernet.Holds m option (opts.flatMap encodeOption ++ tail))
    (hTypes : (opts.map Prod.fst).Nodup) (hOpts : ∀ o ∈ opts, o.1 ≠ 0xff ∧ o.2.length < 256)
    {o : BitVec 8 × List (BitVec 8)} (ho : o ∈ opts) (fuel : Nat) :
    ∃ p, walkOptions m o.1 (opts.length + fuel) option = some (some p) ∧
    m (p - 1) = BitVec.ofNat 8 o.2.length ∧ m.bytes p o.2.length = o.2 := by
  rcases append_of_mem ho with ⟨before, behind, rfl⟩
  rw [map_append, map_cons, nodup_append] at hTypes
  have hPassed : PassedBy o.1 before := by
    intro other hOther
    have hOption := hOpts other (mem_append_left _ hOther)
    exact ⟨hOption.1, hTypes.2.2 _ (mem_map_of_mem hOther) _ mem_cons_self, hOption.2⟩
  rw [flatMap_append, flatMap_cons, append_assoc, append_assoc] at h
  rw [length_append, length_cons, Nat.add_assoc, Nat.succ_add]
  exact ⟨_, walkOptions_option hPassed _ (hOpts o ho).1 h⟩

theorem options_found (m : Memory) (a : Nat) (mac : MediaAccessControl) (hostName : List (BitVec 8))
    (messageType : BitVec 8) (requestIP : BitVec 32) (hName : hostName.length ≤ 28) :
    let puts := optionPuts mac hostName messageType requestIP
    let written := Put.run puts (a + 236) m
    (∀ range ∈ Put.ranges puts (a + 236), a + 236 ≤ range.1 ∧ range.2 ≤ a + 236 + 64) ∧
      (∀ o ∈ emitted mac hostName messageType requestIP, ∃ p,
        getOption 6 written a o.1 = some (some p) ∧
          written (p - 1) = BitVec.ofNat 8 o.2.length ∧ written.bytes p o.2.length = o.2) ∧
      ∀ type, (∀ o ∈ emitted mac hostName messageType requestIP, o.1 ≠ type) →
        getOption 6 written a type = some none := by
  intro puts written
  have hHolds := holds_emitted (holds_optionPuts mac hostName messageType requestIP m (a + 236))
  have hOpts : ∀ o ∈ emitted mac hostName messageType requestIP, o.1 ≠ 0xff ∧ o.2.length < 256 := by
    simp [emitted, optionMessageType, clientIdentifier, requestedIP, optionHostName,
      parameterRequestList]
    omega
  have hTypes : Nodup [optionMessageType, clientIdentifier, requestedIP, optionHostName,
    parameterRequestList] := by decide
  refine ⟨?_, ?_, ?_⟩
  · simp [puts, optionPuts, Put.ranges, Put.byte]
    omega
  · intro o ho
    exact walkOptions_mem hHolds hTypes hOpts ho 1
  · intro type hType
    have hPassed : PassedBy type (emitted mac hostName messageType requestIP) :=
      fun o ho => ⟨(hOpts o ho).1, hType o ho, (hOpts o ho).2⟩
    have hEnd := (cons.inj (bytes_append hHolds).2).1
    exact (walkOptions_passed hPassed 1 hHolds).trans (if_pos hEnd)

end Writing

theorem options_found_Fennix : let name : List (BitVec 8) := [0x46, 0x65, 0x6E, 0x6E, 0x69, 0x78]
    let written := Put.run (optionPuts ⟨2, 0, 0, 0, 0, 1⟩ name 1 0) 236 (fun _ => 0)
    ∃ p, getOption 6 written 0 optionHostName = some (some p) ∧
    written.bytes p 7 = name ++ [0] := by
  intro name written
  have hFound := (options_found (fun _ => 0) 0 ⟨2, 0, 0, 0, 0, 1⟩ name 1 0 (by decide)).2.1
  rcases hFound (optionHostName, name ++ [0]) (by decide) with ⟨p, hp, _, hValue⟩
  exact ⟨p, hp, hValue⟩

structure Trace where
  reads : List Nat
  moves : List (Nat × Nat)

def traceOptions (m : Memory) (type : BitVec 8) : (fuel : Nat) → Nat → Option (Trace × Option Nat)
| 0, _ => none
| fuel + 1, option =>
  if m option = 0xff then some (⟨[option], []⟩, none)
  -- the length is read before the types are compared
  else if m option = type then some (⟨[option, option + 1], []⟩, some (option + 2))
  else
    (traceOptions m type fuel (option + (2 + (m (option + 1)).toNat))).map (fun walk =>
      (⟨option :: (option + 1) :: walk.1.reads,
        (option, option + (2 + (m (option + 1)).toNat)) :: walk.1.moves⟩, walk.2))

def traceRead (fuel : Nat) (m : Memory) (packet : Nat) (type : BitVec 8)
    (size : Nat) : Option (Trace × Nat) :=
  (traceOptions m type fuel (packet + 236 + 4)).bind (fun walk =>
    walk.2.map (fun p => (⟨walk.1.reads ++ range' p size, walk.1.moves⟩, p)))

def traceOptionsOf (fuel : Nat) (m : Memory) (packet : Nat) :
    List (BitVec 8) → Option (List Trace)
| [] => some []
| type :: types =>
  (traceRead fuel m packet type 4).bind (fun read =>
    (traceOptionsOf fuel m packet types).map (fun traces => read.1 :: traces))

def traceReceived (fuel : Nat) (m : Memory) (packet : Nat) : Option (List Trace) :=
  let your : Trace := ⟨range' (packet + 16) 4, []⟩
  (traceRead fuel m packet optionMessageType 1).bind (fun kind =>
    if m kind.2 = timeOffset then some [kind.1, your]
    else if m kind.2 = nameServer then
      (traceOptionsOf fuel m packet [router, domainNameServer, subnetMask]).map (fun traces =>
        kind.1 :: your :: traces)
    else some [kind.1])

structure Trace.Good (m : Memory) (packet length : Nat) (trace : Trace) : Prop where
  received : ∀ a ∈ trace.reads, packet ≤ a ∧ a < packet + length
  pads : ∀ move ∈ trace.moves, m move.1 = 0 → move.2 = move.1 + 1

def Safe (m : Memory) (packet length : Nat) : Prop :=
  ∃ fuel traces, traceReceived fuel m packet = some traces ∧
    ∀ trace ∈ traces, trace.Good m packet length

theorem walk_traceOptions (m : Memory) (type : BitVec 8) (fuel option : Nat) :
    (traceOptions m type fuel option).map Prod.snd = walkOptions m type fuel option := by
  induction fuel generalizing option with
  | zero => rfl
  | succ fuel ih =>
    rw [traceOptions, walkOptions]
    split
    · rfl
    split
    · rfl
    · rw [Option.map_map, ← ih]
      rfl

theorem traceReceived_isSome (fuel : Nat) (mac : MediaAccessControl) (hostName : List (BitVec 8))
    (dhcp : DHCPState) (m : Memory) (packet : Nat) : (traceReceived fuel m packet).isSome =
    (onUDPPacketReceived fuel mac hostName dhcp m packet).isSome := by
  have hRead : ∀ type, readOption fuel m packet type =
      (traceRead fuel m packet type 4).map (fun read => .fromHex (m.word 32 read.2 4)) := by
    intro type
    rw [readOption, getOption, ← walk_traceOptions, traceRead]
    rcases traceOptions m type fuel (packet + 236 + 4) with _ | ⟨trace, _ | p⟩ <;> rfl
  rw [traceReceived, onUDPPacketReceived, getOption, ← walk_traceOptions, keepLease, hRead, hRead,
    hRead, traceRead]
  rcases traceOptions m optionMessageType fuel (packet + 236 + 4) with _ | ⟨trace, _ | p⟩
  · rfl
  · rfl
  · simp only [map_some, bind_some]
    split
    · rfl
    split
    · simp only [traceOptionsOf]
      cases traceRead fuel m packet router 4 <;>
        cases traceRead fuel m packet domainNameServer 4 <;>
        cases traceRead fuel m packet subnetMask 4 <;> rfl
    · rfl

def Complete (type : BitVec 8) (others : List (BitVec 8 × List (BitVec 8))) : Prop :=
  PassedBy type others ∧ ∀ other ∈ others, other.1 ≠ 0

def Carries (received : List (BitVec 8)) (type : BitVec 8) (value : List (BitVec 8)) : Prop :=
  ∃ others size rest, Complete type others ∧
    received = others.flatMap encodeOption ++ type :: size :: (value ++ rest)

section Reading

variable {m : Memory} {packet length : Nat} {type : BitVec 8}

theorem bytes_head (m : Memory) (a n : Nat) :
    m.bytes a (2 + n) = m a :: m (a + 1) :: m.bytes (a + 2) n :=
  m.bytes_add a 2 n

variable {trace : Trace}

theorem good_passed {next : Nat} (hNext : option + 2 ≤ next) : Trace.Good m packet length
    ⟨option :: (option + 1) :: trace.reads, (option, next) :: trace.moves⟩ ↔
    (packet ≤ option ∧ option + 1 < packet + length ∧ m option ≠ 0) ∧
    trace.Good m packet length := by
  constructor
  · rintro ⟨hReceived, hPads⟩
    have hFirst := hReceived option mem_cons_self
    have hSecond := hReceived (option + 1) (mem_cons_of_mem _ mem_cons_self)
    refine ⟨⟨hFirst.1, hSecond.2, fun hPad => ?_⟩, ?_, ?_⟩
    · have hMove : next = option + 1 := hPads (option, next) mem_cons_self hPad
      omega
    · exact fun a ha => hReceived a (mem_cons_of_mem _ (mem_cons_of_mem _ ha))
    · exact fun move hMove => hPads move (mem_cons_of_mem _ hMove)
  rintro ⟨⟨hStart, hEnd, hPad⟩, hReceived, hPads⟩
  refine ⟨?_, ?_⟩
  · simp only [forall_mem_cons]
    exact ⟨⟨hStart, by omega⟩, ⟨by omega, hEnd⟩, hReceived⟩
  · simp only [forall_mem_cons]
    exact ⟨fun hZero => (hPad hZero).elim, hPads⟩
variable {fuel : Nat}

theorem traceOptions_of_carried {others : List (BitVec 8 × List (BitVec 8))} {size : BitVec 8}
    {rest : List (BitVec 8)} (hType : type ≠ 0xff) (hOthers : Complete type others)
    (hFuel : others.length < fuel) (hStart : packet ≤ option)
    (h : Ethernet.Holds m option (others.flatMap encodeOption ++ type :: size :: rest))
    (hLength : option + (others.flatMap encodeOption ++ type :: size :: rest).length =
    packet + length) : ∃ trace, traceOptions m type fuel option =
    some (trace, some (option + (others.flatMap encodeOption).length + 2)) ∧
    trace.Good m packet length := by
  obtain ⟨fuel, rfl⟩ : ∃ k, fuel = k + 1 := ⟨fuel - 1, by omega⟩
  induction others generalizing option fuel with
  | nil =>
    rw [traceOptions, (holds_head h).1, if_neg hType, if_pos rfl]
    simp only [flatMap_nil, nil_append, length_cons, length_nil] at hLength ⊢
    refine ⟨_, rfl, ?_, by simp⟩
    simp
    omega
  | cons other others ih =>
    have hOther := hOthers.1 other mem_cons_self
    rcases holds_encodeOption h hOther.2.2 with ⟨hFirst, hSize, hRest⟩
    rw [length_cons] at hFuel
    simp only [flatMap_cons, length_append, length_encodeOption, length_cons] at hLength
    obtain ⟨fuel, rfl⟩ : ∃ k, fuel = k + 1 := ⟨fuel - 1, by omega⟩
    have hTail : Complete type others :=
      ⟨fun o ho => hOthers.1 o (mem_cons_of_mem other ho),
        fun o ho => hOthers.2 o (mem_cons_of_mem other ho)⟩
    rcases ih hTail (by omega) hRest (by simp only [length_append, length_cons]; omega)
      fuel (by omega) with ⟨trace, hTrace, hGood⟩
    rw [traceOptions, hFirst, if_neg hOther.1, if_neg hOther.2.1, hSize, hTrace]
    have hNext : option + 2 ≤ option + (2 + other.2.length) := by omega
    refine ⟨_, ?_, (good_passed hNext).mpr ⟨⟨hStart, by omega, ?_⟩, hGood⟩⟩
    · simp only [map_some, flatMap_cons, length_append, length_encodeOption, Nat.add_assoc]
    · rw [hFirst]
      exact hOthers.2 other mem_cons_self

variable {p : Nat}

theorem carried_of_traceOptions (h : traceOptions m type fuel option = some (trace, some p))
    (hGood : trace.Good m packet length) : ∃ others size rest, Complete type others ∧
    m.bytes option (packet + length - option) =
    others.flatMap encodeOption ++ type :: size :: rest ∧
    p = option + (others.flatMap encodeOption).length + 2 := by
  induction fuel generalizing option trace with
  | zero => cases h
  | succ fuel ih =>
    rw [traceOptions] at h
    split at h
    · cases h
    rename_i hEnd
    split at h
    · rename_i hFound
      cases h
      have hLast := (hGood.received (option + 1) (by simp)).2
      obtain ⟨k, hk⟩ : ∃ k, packet + length - option = 2 + k :=
        ⟨packet + length - option - 2, by omega⟩
      refine ⟨[], m (option + 1), m.bytes (option + 2) k, ⟨by simp [PassedBy], by simp⟩, ?_, rfl⟩
      rw [hk, bytes_head, hFound]
      rfl
    rename_i hOther
    rcases map_eq_some_iff.mp h with ⟨⟨walked, found⟩, hWalk, hEq⟩
    cases hEq
    rw [good_passed (by omega)] at hGood
    rcases ih hWalk hGood.2 with ⟨others, size, rest, hOthers, hBytes, rfl⟩
    have hSome := congrArg List.length hBytes
    simp only [length_bytes, length_append, length_cons] at hSome
    refine ⟨(m option, m.bytes (option + 2) (m (option + 1)).toNat) :: others, size, rest,
      ⟨?_, ?_⟩, ?_, ?_⟩
    · simp only [PassedBy, forall_mem_cons, length_bytes]
      exact ⟨⟨hEnd, hOther, (m (option + 1)).isLt⟩, hOthers.1⟩
    · simp only [forall_mem_cons]
      exact ⟨hGood.1.2.2, hOthers.2⟩
    · have hSplit : packet + length - option = 2 + (m (option + 1)).toNat +
        (packet + length - (option + (2 + (m (option + 1)).toNat))) := by omega
      rw [hSplit, bytes_add, hBytes, bytes_head, flatMap_cons, encodeOption]
      simp
    · simp only [flatMap_cons, length_append, length_encodeOption, length_bytes]
      omega
variable {value : List (BitVec 8)}

theorem traceRead_of_carries (hType : type ≠ 0xff)
    (h : Carries (m.bytes (packet + 236 + 4) (length - 240)) type value) :
    ∃ least, ∀ fuel ≥ least, ∃ trace p, traceRead fuel m packet type value.length =
    some (trace, p) ∧ trace.Good m packet length ∧ m.bytes p value.length = value := by
  rcases h with ⟨others, size, rest, hOthers, hBytes⟩
  have hLength := congrArg List.length hBytes
  rw [length_bytes] at hLength
  rw [hLength] at hBytes
  have hValue := bytes_append (holds_head (bytes_append hBytes).2).2.2
  simp only [length_append, length_cons] at hLength
  refine ⟨others.length + 1, fun fuel hFuel => ?_⟩
  have hEnd : packet + 236 + 4 + (others.flatMap encodeOption ++ type :: size ::
    (value ++ rest)).length = packet + length := by
    simp only [length_append, length_cons]
    omega
  rcases traceOptions_of_carried hType hOthers hFuel (by omega) hBytes hEnd
    with ⟨trace, hTrace, hReceived, hPads⟩
  rw [traceRead, hTrace]
  refine ⟨_, _, rfl, ⟨fun a ha => ?_, hPads⟩, hValue.1⟩
  rcases mem_append.mp ha with hWalked | hRead
  · exact hReceived a hWalked
  · rw [mem_range'_1] at hRead
    omega

theorem carries_of_traceRead {size : Nat} (h : traceRead fuel m packet type size = some (trace, p))
    (hSize : 0 < size) (hGood : trace.Good m packet length) :
    Carries (m.bytes (packet + 236 + 4) (length - 240)) type (m.bytes p size) := by
  rcases bind_eq_some_iff.mp h with ⟨⟨walked, found⟩, hWalk, hFound⟩
  rcases map_eq_some_iff.mp hFound with ⟨q, rfl, hEq⟩
  cases hEq
  have hLast := (hGood.received (p + (size - 1)) (mem_append_right _
    (mem_range'_1.mpr (by omega)))).2
  have hWalked : walked.Good m packet length :=
    ⟨fun a ha => hGood.received a (mem_append_left _ ha), hGood.pads⟩
  rcases carried_of_traceOptions hWalk hWalked with ⟨others, kind, rest, hOthers, hBytes, hp⟩
  have hEnd : packet + length - (packet + 236 + 4) = length - 240 := by omega
  rw [hEnd] at hBytes
  have hLength := congrArg List.length hBytes
  rw [length_bytes] at hLength
  have hHolds := hBytes
  rw [hLength] at hHolds
  have hRest := (holds_head (bytes_append hHolds).2).2.2
  rw [← hp] at hRest
  simp only [length_append, length_cons] at hLength
  refine ⟨others, kind, m.bytes (p + size) (rest.length - size), hOthers, ?_⟩
  rw [← bytes_add, Nat.add_sub_cancel' (by omega), hRest, hBytes]

theorem good_yourIP (h : Carries (m.bytes (packet + 236 + 4) (length - 240)) type value) :
    Trace.Good m packet length ⟨range' (packet + 16) 4, []⟩ := by
  rcases h with ⟨others, size, rest, _, hBytes⟩
  have hLength := congrArg List.length hBytes
  simp only [length_bytes, length_append, length_cons] at hLength
  refine ⟨fun a ha => ?_, by simp⟩
  rw [mem_range'_1] at ha
  omega

def CarriesAll (received : List (BitVec 8)) (types : List (BitVec 8)) : Prop :=
  ∀ type ∈ types, ∃ value, value.length = 4 ∧ Carries received type value

variable {types : List (BitVec 8)}

theorem traceOptionsOf_of_carries (hTypes : ∀ type ∈ types, type ≠ 0xff)
    (h : CarriesAll (m.bytes (packet + 236 + 4) (length - 240)) types) :
    ∃ least, ∀ fuel ≥ least, ∃ traces, traceOptionsOf fuel m packet types = some traces ∧
    ∀ trace ∈ traces, trace.Good m packet length := by
  induction types with
  | nil => exact ⟨0, fun fuel _ => ⟨[], rfl, by simp⟩⟩
  | cons type types ih =>
    rw [forall_mem_cons] at hTypes
    rw [CarriesAll, forall_mem_cons] at h
    rcases h with ⟨⟨value, hFour, hCarries⟩, hRest⟩
    rcases traceRead_of_carries hTypes.1 hCarries with ⟨least, hFirst⟩
    rcases ih hTypes.2 hRest with ⟨leastRest, hOthers⟩
    refine ⟨least + leastRest, fun fuel hFuel => ?_⟩
    rcases hFirst fuel (by omega) with ⟨trace, p, hTrace, hGood, _⟩
    rcases hOthers fuel (by omega) with ⟨traces, hTraces, hAll⟩
    rw [hFour] at hTrace
    refine ⟨trace :: traces, ?_, forall_mem_cons.mpr ⟨hGood, hAll⟩⟩
    rw [traceOptionsOf, hTrace, bind_some, hTraces, map_some]

theorem carries_of_traceOptionsOf {traces : List Trace}
    (h : traceOptionsOf fuel m packet types = some traces)
    (hGood : ∀ trace ∈ traces, trace.Good m packet length) :
    CarriesAll (m.bytes (packet + 236 + 4) (length - 240)) types := by
  induction types generalizing traces with
  | nil => exact fun _ hMem => absurd hMem not_mem_nil
  | cons type types ih =>
    rcases bind_eq_some_iff.mp h with ⟨read, hRead, hRest⟩
    rcases map_eq_some_iff.mp hRest with ⟨others, hOthers, rfl⟩
    rw [forall_mem_cons] at hGood
    exact forall_mem_cons.mpr
      ⟨⟨_, length_bytes _ _ _, carries_of_traceRead hRead (by decide) hGood.1⟩, ih hOthers hGood.2⟩

theorem safe_iff (m : Memory) (packet length : Nat) : Safe m packet length ↔
    ∃ kind, Carries (m.bytes (packet + 236 + 4) (length - 240)) optionMessageType [kind] ∧
    (kind = messageTypeAck → CarriesAll (m.bytes (packet + 236 + 4) (length - 240))
    [router, domainNameServer, subnetMask]) := by
  constructor
  · rintro ⟨fuel, traces, hTraces, hGood⟩
    rcases bind_eq_some_iff.mp hTraces with ⟨⟨trace, p⟩, hKind, hRest⟩
    have hRead := fun hTrace : trace.Good m packet length =>
      carries_of_traceRead hKind Nat.one_pos hTrace
    dsimp only at hRest
    split at hRest
    · rename_i hOffer
      cases hRest
      refine ⟨m p, hRead (hGood trace mem_cons_self), fun hAck => ?_⟩
      rw [hOffer] at hAck
      exact absurd hAck (by decide)
    split at hRest
    · rcases map_eq_some_iff.mp hRest with ⟨others, hOthers, rfl⟩
      simp only [forall_mem_cons] at hGood
      exact ⟨m p, hRead hGood.1, fun _ => carries_of_traceOptionsOf hOthers hGood.2.2⟩
    rename_i hOther
    cases hRest
    exact ⟨m p, hRead (hGood trace mem_cons_self), fun hAck => (hOther hAck).elim⟩
  rintro ⟨kind, hKind, hOptions⟩
  have hYour := good_yourIP hKind
  rcases traceRead_of_carries (by decide) hKind with ⟨least, hRead⟩
  -- what the message is read as, once its kind is known
  have hReceived : ∀ fuel ≥ least, ∃ trace, trace.Good m packet length ∧
    traceReceived fuel m packet =
        if kind = timeOffset then some [trace, ⟨range' (packet + 16) 4, []⟩]
        else if kind = nameServer then
          (traceOptionsOf fuel m packet [router, domainNameServer, subnetMask]).map
            (fun traces => trace :: ⟨range' (packet + 16) 4, []⟩ :: traces)
        else some [trace] := by
    intro fuel hFuel
    rcases hRead fuel hFuel with ⟨trace, p, hTrace, hGood, hByte⟩
    have hKindByte : m p = kind := (cons.inj hByte).1
    refine ⟨trace, hGood, ?_⟩
    rw [← hKindByte]
    exact congrArg (fun read => bind read _) hTrace
  by_cases hAck : kind = nameServer
  · rcases traceOptionsOf_of_carries (by decide) (hOptions hAck) with ⟨leastRest, hRest⟩
    rcases hReceived (least + leastRest) (by omega) with ⟨trace, hGood, hTrace⟩
    rcases hRest (least + leastRest) (by omega) with ⟨traces, hTraces, hAll⟩
    rw [hTraces, if_pos hAck, if_neg (by rw [hAck]; decide)] at hTrace
    refine ⟨_, _, hTrace, ?_⟩
    simp only [forall_mem_cons]
    exact ⟨hGood, hYour, hAll⟩
  rcases hReceived least (Nat.le_refl _) with ⟨trace, hGood, hTrace⟩
  rw [if_neg hAck] at hTrace
  split at hTrace
  · refine ⟨_, _, hTrace, ?_⟩
    simp only [forall_mem_cons]
    exact ⟨hGood, hYour, by simp⟩
  · exact ⟨_, _, hTrace, forall_mem_singleton.mpr hGood⟩

end Reading

theorem null_pointer_read : let message := messageWith [0, 0, 0, 0] [255]
    (∀ fuel mac hostName dhcp,
      onUDPPacketReceived fuel mac hostName dhcp message.1 message.2 = none) ∧
    ¬ Safe message.1 message.2 241 := by
  intro message
  have hNone : ∀ fuel, traceReceived fuel message.1 message.2 = none := by
    intro fuel
    rw [traceReceived, traceRead]
    cases fuel with
    | zero => rfl
    | succ fuel =>
      rw [traceOptions, if_pos (by decide)]
      rfl
  constructor
  · intro fuel mac hostName dhcp
    have hFails := traceReceived_isSome fuel mac hostName dhcp message.1 message.2
    rw [hNone] at hFails
    exact not_isSome_iff_eq_none.mp (by simp [← hFails])
  rintro ⟨fuel, traces, hTraces, _⟩
  rw [hNone] at hTraces
  cases hTraces

end DHCP

end Fennix
