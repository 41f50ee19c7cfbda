import AvSync.Relay

/-!
# Runs of the relay

What connections have shown and sent over a run, and what the relay owes them: room confinement,
a complete log, and members that can be reached.
-/

namespace AvSync

namespace RelayServer

variable (s : RelayServer)

/-! ## Confinement -/

def firstAccepted (c : ConnId) : Option RelayFrame :=
  (s.accepts.reverse.find? fun a => a.1 = c).map Prod.snd

/-- The first accepted frame of `c` proves that it may be `peer` in `room`. -/
def Proved (sha256 : List UInt8 → Bytes32) (secret : String) (c : ConnId) (room : String)
    (peer : PeerId) : Prop :=
  ∃ frame, s.firstAccepted c = some frame ∧ frame.room = room ∧ frame.sender = peer ∧
    frame.join = some ⟨peer, room, roomTokenProof sha256 secret room⟩

/-- Frames are forwarded under the name their connection proved, to connections that proved the
same room. -/
def ForwardsConfined (sha256 : List UInt8 → Bytes32) (secret : String) : Prop :=
  ∀ d ∈ s.forwarded, s.Proved sha256 secret d.source d.frame.room d.frame.sender ∧
    ∃ peer, s.Proved sha256 secret d.member d.frame.room peer

/-! ## The log -/

/-- The operations in a message that peers apply one by one. -/
def carried : SyncMessage → List TaggedOperation
  | .operation op => [op]
  | .batch ops => ops
  | _ => []

/-- The log of a room has `op`. -/
def OnRecord (room : String) (op : TaggedOperation) : Prop :=
  ∃ store, s.store = some store ∧ op ∈ store.loadOps room

/-- A snapshot request for the room that is looked up now gets `op`. -/
def Answers (room : String) (op : TaggedOperation) : Prop :=
  ∀ c conn frame, s.connections c = some conn → conn.stage = .persisting frame →
    frame.message = .requestSnapshot → frame.room = room →
      ∃ stored, (s.persist c).stage c = some (.replying frame stored) ∧ op ∈ stored

/-- What has been forwarded is within the limits and on record, and snapshots have it. -/
def Recorded : Prop :=
  ∀ d ∈ s.forwarded, ∀ op ∈ carried d.frame.message,
    op.Valid ∧ s.OnRecord d.frame.room op ∧ s.Answers d.frame.room op

/-- No batch reaches a member unless its operations are within the limits and on record, as those
are that have come alone before. -/
def BatchRecorded (a : RelayEvent) : Prop :=
  ∀ c conn frame ops, a = .forward c → s.connections c = some conn →
    conn.stage = .forwarding frame → frame.message = .batch ops →
      s.rooms.recipients frame.room frame.sender frame.target ≠ [] →
        ∀ op ∈ ops, op.Valid ∧ s.OnRecord frame.room op

/-! ## Membership -/

/-- `c` has had a frame accepted as `peer` in `room`. -/
def SentAs (c : ConnId) (room : String) (peer : PeerId) : Prop :=
  ∃ frame, (c, frame) ∈ s.accepts ∧ frame.room = room ∧ frame.sender = peer

def isOpen (c : ConnId) : Bool :=
  match s.stage c with
  | none => false
  | some (.closing _) => false
  | some _ => true

/-- The open connection that has sent as `peer` in `room` last. -/
def latestOpen (room : String) (peer : PeerId) : Option ConnId :=
  (s.accepts.find? fun a => a.2.room = room ∧ a.2.sender = peer ∧ s.isOpen a.1).map Prod.fst

/-- The members of `room` have `peer` on the channel of `c`, so frames to it or to the room get
there. -/
def Reaches (c : ConnId) (room : String) (peer : PeerId) : Prop :=
  s.rooms.lookup room peer = some c ∧
    ∀ sender, c ∈ s.rooms.recipients room sender (some peer) ∧
      (sender ≠ peer → c ∈ s.rooms.recipients room sender none)

def MembersFollow : Prop :=
  ∀ c room peer, s.latestOpen room peer = some c → s.Reaches c room peer

/-- The event takes the task of `c` out of its loop. -/
def Leaves (sha256 : List UInt8 → Bytes32) (a : RelayEvent) (c : ConnId) : Prop :=
  ∃ conn, s.connections c = some conn ∧ conn.stage = .reading ∧
    (a = .hangup c ∨ ∃ frame, a = .receive c frame ∧
      ∀ conn', authorize sha256 s.auth conn frame = some conn' →
        ¬s.rooms.Admits frame.room frame.sender s.maxRoomMembers)

/-- The event takes `peer` out of `room`. -/
def TakesOut (a : RelayEvent) (room : String) (peer : PeerId) : Prop :=
  ∃ c conn rest, a = .cleanup c ∧ s.connections c = some conn ∧
    conn.stage = .closing ((room, peer) :: rest)

/-- A connection that goes away leaves no other one that has sent under a name it sent under last,
and a member is taken out only if no open connection has sent under its name. -/
def MembersKept (sha256 : List UInt8 → Bytes32) (a : RelayEvent) : Prop :=
  (∀ c, s.Leaves sha256 a c → ∀ room peer, s.latestOpen room peer = some c →
    ∀ c', s.isOpen c' → s.SentAs c' room peer → c' = c) ∧
  ∀ room peer, s.TakesOut a room peer → ∀ c, s.isOpen c → ¬s.SentAs c room peer

end RelayServer

end AvSync
