import AvSync.Identity
import AvSync.Lib.SoftState
import AvSync.Limits

/-!
# LAN discovery

`DiscoveryCore`, which multicast and broadcast discovery share. A peer announces itself with a
beacon, and lists the peers whose beacons it has heard within the time to live.
-/

namespace AvSync

/-- The UDP beacon payload. -/
structure DiscoveryPacket where
  peerId : PeerId
  name : String
  session : Option String
  port : UInt16
  deriving DecidableEq

/-- A peer discovered on the LAN. -/
structure PeerAdvertisement where
  peerId : PeerId
  name : String
  session : Option String
  addr : IpAddr × UInt16
  lastSeenMs : UInt64

/-- The encoding of a beacon. -/
structure BeaconCodec where
  encode : DiscoveryPacket → List UInt8
  decode : List UInt8 → Option DiscoveryPacket

/-- The socket is that of the network: what it receives is an argument of `poll`. -/
structure DiscoveryCore where
  localId : PeerId
  name : String
  session : Option String
  listenPort : UInt16
  known : BTreeMap PeerId (PeerAdvertisement × UInt64)
  ttlMs : UInt64

/-- What is read from the socket in one poll, each datagram with its sender's address. -/
structure Reception where
  datagrams : List (IpAddr × List UInt8)
  nowMs : UInt64

namespace DiscoveryCore

/-- The length of the receive buffer. -/
def bufferLength : ℕ := 1024

def defaultTtlMs : UInt64 := 10000

def bind (localId : PeerId) (name : String) (session : Option String) (listenPort : UInt16)
    (ttlMs : UInt64) : DiscoveryCore := ⟨localId, name, session, listenPort, ∅, ttlMs⟩

variable (codec : BeaconCodec) (core : DiscoveryCore)

def packet : DiscoveryPacket := ⟨core.localId, core.name, core.session, core.listenPort⟩

/-- The datagram that is sent. -/
def advertise : List UInt8 := codec.encode core.packet

/-- What a datagram advertises, unless it does not decode or is one's own. -/
def heard (nowMs : UInt64) (datagram : IpAddr × List UInt8) : Option PeerAdvertisement :=
  match codec.decode (datagram.2.take bufferLength) with
  | some packet =>
    if packet.peerId = core.localId then none
    else some ⟨packet.peerId, packet.name, packet.session, (datagram.1, packet.port), nowMs⟩
  | none => none

def receive (nowMs : UInt64) (datagram : IpAddr × List UInt8) : DiscoveryCore :=
  match core.heard codec nowMs datagram with
  | some a => { core with known := core.known.insert a.peerId (a, nowMs) }
  | none => core

/-- A beacon heard at `seen` still counts. -/
def fresh (ttlMs now seen : UInt64) : Bool := decide (saturatingSub now seen ≤ ttlMs)

def poll (r : Reception) : DiscoveryCore :=
  let core := r.datagrams.foldl (fun core d => core.receive codec r.nowMs d) core
  { core with known := core.known.filter fun _ e => fresh core.ttlMs r.nowMs e.2 }

/-- What `poll` returns. -/
def listed : List PeerAdvertisement := core.known.toList.map fun e => e.2.1

def polls (rs : List Reception) : DiscoveryCore := rs.foldl (poll codec) core

/-- What is heard of a peer last. -/
def lastHeard (p : PeerId) (r : Reception) : Option PeerAdvertisement :=
  (r.datagrams.filterMap (core.heard codec r.nowMs)).reverse.find? fun a => a.peerId = p

/-- The advertisement is the last one of its peer, and at every poll since, that was within the time
to live. -/
def Stands (rs : List Reception) (a : PeerAdvertisement) : Prop :=
  ∃ before r after, rs = before ++ r :: after ∧ core.lastHeard codec a.peerId r = some a ∧
    ∀ q ∈ after, core.lastHeard codec a.peerId q = none ∧
      saturatingSub q.nowMs r.nowMs ≤ core.ttlMs

end DiscoveryCore

end AvSync
