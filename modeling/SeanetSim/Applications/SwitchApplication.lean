import Mathlib.Logic.Function.Basic
import SeanetSim.Applications.SeanetHeader
import SeanetSim.Network.AddressMap

/-!
# The Seanet switch

`SwitchApplicationv4`: the state of one switch, the tables that all switches share, and what a
switch does when it starts (`startApplication`) and when its socket delivers a packet (`frontEnd`).
A packet is seen through what the handlers read of it: its Seanet header, the identifier in its
first 20 bytes, and the time stamp that a probe carries in front of its bytes.
-/

namespace SeanetSim

open AddressMap SeanetProtocol

/-- Simulation time, in time steps. -/
abbrev Time := ℤ

/-- The bytes of an `Address`: four address bytes, and for a socket address the port after them. -/
abbrev Address := List UInt8

/-- The values of the attribute `TreeType` that the code tells apart. -/
inductive TreeType
  | seanet
  | spt
  | other
  deriving DecidableEq, Repr

/-- The identifiers listed under a key; `none` is the null pointer that a switch stores when it
starts. -/
abbrev CastTable (M : Type → Type) := M (Option (List SeanetEID))

/-- The addresses an identifier resolves to; an inner `none` is a null pointer. -/
abbrev ResolutionTable := SeanetEID → Option (Option (List Ipv4Address))

/-- The tables all switches share. -/
structure Tables (M : Type → Type) where
  unicastTable : CastTable M
  multicastTable : CastTable M
  resolutionTable : ResolutionTable

/-- A switch: its attributes, the addresses of the interfaces of its node, and its own tables. -/
structure SwitchApplicationv4 (M : Type → Type) where
  treeType : TreeType
  isEntrySwitch : Bool
  interfaces : List Ipv4Address
  started : Bool
  localAddress : Option Ipv4Address
  delayTable : M Time
  eidTable : SeanetEID → UInt8

/-- A packet as the handlers read it. -/
structure Packet where
  header : SeanetHeader
  eid : SeanetEID
  ts : Time

inductive Payload
  | eid (e : SeanetEID)
  | stamped (ts : Time)
  deriving DecidableEq

/-- A packet handed to the socket, with the address it is sent to. -/
structure Datagram where
  header : SeanetHeader
  payload : Payload
  dest : Ipv4Address
  deriving DecidableEq

namespace SwitchApplicationv4

variable {M : Type → Type} [AddressMap M]

/-! ## Tables -/

def checkDuplicate (head : List SeanetEID) (buf : SeanetEID) : Bool := head.any fun e => e == buf

def addCastTable (table : CastTable M) (i4a : Ipv4Address) (buf : SeanetEID) : CastTable M :=
  match find table i4a with
  | none => store table i4a (some [buf])
  | some none => store table i4a (some [buf])
  | some (some l) => if checkDuplicate l buf then table else store table i4a (some (l ++ [buf]))

def addEIDNAINFO (table : ResolutionTable) (se : SeanetEID) (i4a : Ipv4Address) : ResolutionTable :=
  let i4a := i4a.setInterfaceNum 0
  match table se with
  | none => Function.update table se (some (some [i4a]))
  | some none => table -- `insert` leaves the null entry in place
  | some (some l) =>
    if l.any fun a => a.same i4a then table
    else Function.update table se (some (some (l ++ [i4a])))

/-- The two calls that list an identifier under an interface and under interface 0. -/
def addBoth (table : CastTable M) (i4a : Ipv4Address) (buf : SeanetEID) : CastTable M :=
  addCastTable (addCastTable table i4a buf) (i4a.setInterfaceNum 0) buf

/-- Registration of an identifier at this switch. -/
def regist (T : Tables M) (i4a : Ipv4Address) (buf : SeanetEID) : Tables M where
  multicastTable := addBoth T.multicastTable i4a buf
  unicastTable := addBoth T.unicastTable i4a buf
  resolutionTable := addEIDNAINFO T.resolutionTable buf i4a

/-! ## Choice of nodes -/

def getSwitchSocre (T : Tables M) (ad : Ipv4Address) : ℕ :=
  match find T.multicastTable ad, find T.unicastTable ad with
  | some (some meidL), some (some ueidL) => ueidL.length + meidL.length
  | _, _ => 0

/-- The least loaded address of the delay table, the last one of several; without delays, the
switch itself. -/
def getRootNode (sw : SwitchApplicationv4 M) (T : Tables M) (self : Ipv4Address) : Ipv4Address :=
  match toList sw.delayTable with
  | [] => self
  | e :: l => ((e :: l).foldl (fun selected it =>
      if getSwitchSocre T it.1 ≤ selected.2 then (it.1, getSwitchSocre T it.1) else selected)
      (e.1, 10000)).1

/-- The root node a source DR registers at: in the tree type `SPT` itself. -/
def chooseRN (sw : SwitchApplicationv4 M) (T : Tables M) (self i4a : Ipv4Address) : Ipv4Address :=
  match sw.treeType with
  | .seanet => getRootNode sw T self
  | .spt => i4a
  | .other => .uninitialized

/-- One round of the loops that look for the shortest known delay. -/
def closer (delay : Ipv4Address → Option Time) (shortest : Ipv4Address × Time)
    (temp : Ipv4Address) :
    Ipv4Address × Time :=
  match delay temp with
  | some d => if d < shortest.2 then (temp, d) else shortest
  | none => shortest

def findNearestNode (sw : SwitchApplicationv4 M) (T : Tables M) (se : SeanetEID) : Ipv4Address :=
  match T.resolutionTable se with
  | none => .uninitialized
  | some none => .uninitialized
  | some (some l) =>
    if sw.treeType = .spt then l.getLastD .uninitialized
    else (l.foldl (closer (find sw.delayTable)) (l.headD .uninitialized, 1000000000)).1

/-! ## Sending -/

def sendPacket (buffer : SeanetEID) (ssenh : SeanetHeader) (dst : Address) : Datagram :=
  ⟨ssenh, .eid buffer, .deserialize dst⟩

def neighInfoDetec (now : Time) (dstIp : Address) : Datagram :=
  ⟨.ofTypesDst neighInfoApplication neighInfoReceive isDst, .stamped now, .deserialize dstIp⟩

def neighInfoReply (now : Time) (dstIp : Address) : Datagram :=
  ⟨.ofTypesDst neighInfoApplication SeanetProtocol.neighInfoReply isDst, .stamped now,
    .deserialize dstIp⟩

/-- Every tenth key of the multicast table is probed, this switch's own address excepted. -/
def detecAllNeighborDelay (T : Tables M) (self : Ipv4Address) (now : Time) : List Datagram :=
  (toList T.multicastTable).zipIdx.filterMap fun (e, total) =>
    if total % 10 = 0 ∧ e.1.same self = false then some (neighInfoDetec now e.1.serialize) else none

/-! ## Handlers -/

/-- What a handler leaves: the switch, the shared tables, and the packets it sends. -/
structure Outcome (M : Type → Type) where
  sw : SwitchApplicationv4 M
  tables : Tables M
  sent : List Datagram

def requestDataHandle (sw : SwitchApplicationv4 M) (T : Tables M) (se : SeanetEID)
    (source : Address) : Outcome M :=
  if sw.eidTable se ≠ 0 then
    ⟨sw, T, [sendPacket se (.ofTypes switchApplication replyData) source]⟩
  else ⟨sw, T, []⟩

def addEIDTable (sw : SwitchApplicationv4 M) (se : SeanetEID) (value : UInt8) :
    SwitchApplicationv4 M :=
  if sw.eidTable se = 0 then { sw with eidTable := Function.update sw.eidTable se value } else sw

def receiveDataHandle (sw : SwitchApplicationv4 M) (T : Tables M) (self : Ipv4Address)
    (se : SeanetEID) : Outcome M :=
  ⟨sw.addEIDTable se 1, { T with resolutionTable := addEIDNAINFO T.resolutionTable se self }, []⟩

def switchProtocolHandle (sw : SwitchApplicationv4 M) (T : Tables M) (self : Ipv4Address)
    (pkt : Packet) (source : Address) : Outcome M :=
  if pkt.header.protocolType = requestData then requestDataHandle sw T pkt.eid source
  else if pkt.header.protocolType = reseiveData then receiveDataHandle sw T self pkt.eid
  else ⟨sw, T, []⟩

/-- A measured delay is recorded for the keys of the multicast table only. -/
def neigthInfoProtocolHandle (sw : SwitchApplicationv4 M) (T : Tables M) (now : Time)
    (pkt : Packet) (source : Address) : Outcome M :=
  if pkt.header.protocolType = neighInfoReceive then ⟨sw, T, [neighInfoReply now source]⟩
  else if pkt.header.protocolType = SeanetProtocol.neighInfoReply then
    let ipv4 := (Ipv4Address.deserialize source).setInterfaceNum 0
    if (find T.multicastTable ipv4).isSome then
      ⟨{ sw with delayTable := store sw.delayTable ipv4 (now - pkt.ts) }, T, []⟩
    else ⟨sw, T, []⟩
  else ⟨sw, T, []⟩

/-- `REGIST_TO_SOURCE_DR`: the source DR chooses the root node and registers there. -/
def registToSourceDRHandle (sw : SwitchApplicationv4 M) (T : Tables M) (self i4a : Ipv4Address)
    (buffer : SeanetEID) : Outcome M :=
  let rni4a := chooseRN sw T self i4a
  if rni4a.same i4a then ⟨sw, regist T i4a buffer, []⟩
  else ⟨sw, T, [sendPacket buffer (.ofTypes multicastApplication registToRN) rni4a.serialize]⟩

/-- `REGIST_TO_RN` at the root node. -/
def registToRNHandle (sw : SwitchApplicationv4 M) (T : Tables M) (i4a : Ipv4Address)
    (now : Time) (buffer : SeanetEID) (source : Address) : Outcome M :=
  ⟨sw, regist T i4a buffer,
    [neighInfoReply now (Ipv4Address.deserialize source).serialize]⟩

/-- `GRAFITING_REQUEST` at the node it is addressed to. -/
def graftingRequestHandle (sw : SwitchApplicationv4 M) (T : Tables M) (i4a : Ipv4Address)
    (now : Time) (buffer : SeanetEID) (source : Address) : Outcome M :=
  ⟨sw, { T with multicastTable := addBoth T.multicastTable i4a buffer },
    [sendPacket buffer (.ofTypes multicastApplication multicastDataTrans) source,
      neighInfoReply now source]⟩

/-- `REGIST_TO_DEST_DR`: the receiving DR grafts to the nearest node of the tree. -/
def registToDestDRHandle (sw : SwitchApplicationv4 M) (T : Tables M) (i4a : Ipv4Address)
    (buffer : SeanetEID) : Outcome M :=
  let T := { T with multicastTable := addBoth T.multicastTable i4a buffer }
  ⟨sw, T, [sendPacket buffer (.ofTypes multicastApplication graftingRequest)
    (findNearestNode sw T buffer).serialize]⟩

/-- A multicast packet at a node it only passes through. -/
def transitHandle (sw : SwitchApplicationv4 M) (T : Tables M) (i4a : Ipv4Address) (now : Time)
    (pkt : Packet) (source : Address) : Outcome M :=
  if pkt.header.protocolType = registToRN then
    ⟨sw, { T with unicastTable := addBoth T.unicastTable i4a pkt.eid }, []⟩
  else if pkt.header.protocolType = graftingRequest then
    ⟨sw, { T with
      multicastTable := addBoth T.multicastTable i4a pkt.eid
      resolutionTable := addEIDNAINFO T.resolutionTable pkt.eid i4a }, [neighInfoReply now source]⟩
  else ⟨sw, T, []⟩

/-- A multicast packet at the node it is addressed to. -/
def multicastHandle (sw : SwitchApplicationv4 M) (T : Tables M) (self i4a : Ipv4Address)
    (now : Time) (pkt : Packet) (source : Address) : Outcome M :=
  if pkt.header.protocolType = registToSourceDR then registToSourceDRHandle sw T self i4a pkt.eid
  else if pkt.header.protocolType = registToRN then registToRNHandle sw T i4a now pkt.eid source
  else if pkt.header.protocolType = graftingRequest then
    graftingRequestHandle sw T i4a now pkt.eid source
  else if pkt.header.protocolType = registToDestDR then registToDestDRHandle sw T i4a pkt.eid
  else ⟨sw, T, []⟩

/-- `FrontEnd` on one packet received from `source` at time `now` by a switch whose local address
is `self`. -/
def frontEnd (sw : SwitchApplicationv4 M) (T : Tables M) (self : Ipv4Address) (now : Time)
    (pkt : Packet) (source : Address) : Outcome M :=
  let i4a := self.setInterfaceNum pkt.header.interfaceNum.toUInt32
  if pkt.header.dst = notDst then
    if pkt.header.applicationType = multicastApplication then transitHandle sw T i4a now pkt source
    else ⟨sw, T, []⟩
  else if pkt.header.applicationType = switchApplication then
    switchProtocolHandle sw T self pkt source
  else if pkt.header.applicationType = neighInfoApplication then
    neigthInfoProtocolHandle sw T now pkt source
  else if pkt.header.applicationType = multicastApplication then
    multicastHandle sw T self i4a now pkt source
  else ⟨sw, T, []⟩

/-- `StartApplication`: the first interface that is not the loopback names the switch and gets an
empty entry in both cast tables.  A switch that has started does not do it again. -/
def startApplication (sw : SwitchApplicationv4 M) (T : Tables M) :
    SwitchApplicationv4 M × Tables M :=
  if sw.started then (sw, T)
  else match sw.interfaces.find? fun a => !a.same .getLoopback with
    | none => ({ sw with started := true }, T)
    | some addri =>
      ({ sw with started := true, localAddress := some addri.viaAddress },
        { T with
          multicastTable := store T.multicastTable addri none
          unicastTable := store T.unicastTable addri none })

end SwitchApplicationv4

end SeanetSim
