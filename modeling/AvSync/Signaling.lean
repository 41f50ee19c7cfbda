import AvSync.Lib.Machine
import AvSync.Rooms

/-!
# The signaling server

`SignalingServer` exchanges WebRTC offers, answers and candidates between the members of a room. A
frame is handled under the lock on the rooms, so a step is one frame, one close, or one member taken
out after a close. The histories (`joins`, `delivered`) are not state of the server.
-/

namespace AvSync

/-- The payload of a signaling frame. -/
inductive SignalPayload where
  | join (tokenProof : Option Bytes32)
  | leave
  | offer (sdp : String)
  | answer (sdp : String)
  | iceCandidate (candidate mid : String)
  deriving DecidableEq

/-- One signaling envelope. -/
structure SignalFrame where
  room : String
  /-- The `from` field. -/
  sender : PeerId
  /-- The `to` field. -/
  target : Option PeerId
  payload : SignalPayload
  deriving DecidableEq

inductive SignalStage where
  | reading
  | closing (joined : List (String × PeerId))

/-- The variables of one connection's task. -/
structure SignalConnection where
  joined : List (String × PeerId)
  stage : SignalStage

/-- One frame sent into the channel of one member. -/
structure SignalDelivery where
  source : ConnId
  frame : SignalFrame
  member : ConnId
  deriving DecidableEq

/-- The server, with the joins it has accepted and the frames it has delivered. -/
structure SignalingServer where
  auth : RoomAuth
  maxRoomMembers : ℕ
  rooms : Rooms
  connections : ConnId → Option SignalConnection
  joins : List (ConnId × SignalFrame)
  delivered : List SignalDelivery

inductive SignalEvent where
  | accept (c : ConnId)
  | receive (c : ConnId) (frame : SignalFrame)
  | hangup (c : ConnId)
  | cleanup (c : ConnId)

namespace SignalingServer

def serveFull (maxRoomMembers : ℕ) (auth : RoomAuth) : SignalingServer where
  auth := auth
  maxRoomMembers := maxRoomMembers
  rooms := ∅
  connections _ := none
  joins := []
  delivered := []

variable (s : SignalingServer) (c : ConnId)

def setConnection (conn : SignalConnection) : SignalingServer :=
  { s with connections := Function.update s.connections c (some conn) }

/-- `break`: the task goes on to take its members out. -/
def close (conn : SignalConnection) : SignalingServer :=
  s.setConnection c { conn with stage := .closing conn.joined }

/-- Room authorization of a join. -/
def authorize (sha256 : List UInt8 → Bytes32) (auth : RoomAuth) (room : String)
    (tokenProof : Option Bytes32) : Bool :=
  match auth with
  | .token secret => tokenProof = some (roomTokenProof sha256 secret room)
  | .open => true

def join (sha256 : List UInt8 → Bytes32) (conn : SignalConnection) (frame : SignalFrame)
    (tokenProof : Option Bytes32) : SignalingServer :=
  if authorize sha256 s.auth frame.room tokenProof then
    if s.rooms.Admits frame.room frame.sender s.maxRoomMembers then
      { s.setConnection c { conn with joined := conn.joined ++ [(frame.room, frame.sender)] } with
        rooms := s.rooms.register frame.room frame.sender c
        joins := s.joins ++ [(c, frame)] }
    else { s with rooms := s.rooms.enter frame.room }.close c conn
  else s.close c conn

def route (frame : SignalFrame) : SignalingServer :=
  { s with delivered := s.delivered ++
      (s.rooms.recipients frame.room frame.sender frame.target).map fun member =>
        ⟨c, frame, member⟩ }

def receive (sha256 : List UInt8 → Bytes32) (frame : SignalFrame) : SignalingServer :=
  match s.connections c with
  | some conn =>
    match conn.stage with
    | .reading =>
      match frame.payload with
      | .leave => s.close c conn
      | .join tokenProof => s.join c sha256 conn frame tokenProof
      | _ => s.route c frame
    | .closing _ => s
  | none => s

def hangup : SignalingServer :=
  match s.connections c with
  | some conn =>
    match conn.stage with
    | .reading => s.close c conn
    | .closing _ => s
  | none => s

def cleanup : SignalingServer :=
  match s.connections c with
  | some conn =>
    match conn.stage with
    | .closing ((room, peer) :: rest) =>
      { s.setConnection c { conn with stage := .closing rest } with
        rooms := s.rooms.unregister room peer }
    | _ => s
  | none => s

/-- A connection that is served from here on. -/
def accept : SignalingServer :=
  match s.connections c with
  | some _ => s
  | none => s.setConnection c ⟨[], .reading⟩

def step (sha256 : List UInt8 → Bytes32) (s : SignalingServer) : SignalEvent → SignalingServer
  | .accept c => s.accept c
  | .receive c frame => s.receive c sha256 frame
  | .hangup c => s.hangup c
  | .cleanup c => s.cleanup c

def machine (sha256 : List UInt8 → Bytes32) : Machine SignalingServer SignalEvent where
  step := step sha256
  enabled _ _ := True

/-! ## What the server owes a room -/

/-- Each frame delivered came from a connection that had joined the room as its sender, with a
valid proof. -/
def Authorized (sha256 : List UInt8 → Bytes32) (secret : String) : Prop :=
  ∀ d ∈ s.delivered, ∃ join, (d.source, join) ∈ s.joins ∧ join.room = d.frame.room ∧
    join.sender = d.frame.sender ∧
      join.payload = .join (some (roomTokenProof sha256 secret d.frame.room))

/-- A frame that is routed to a member names a room and a peer its connection has joined. -/
def RoutesOwn (a : SignalEvent) : Prop :=
  ∀ c conn frame, a = .receive c frame → s.connections c = some conn → conn.stage = .reading →
    frame.payload ≠ .leave → (∀ tokenProof, frame.payload ≠ .join tokenProof) →
      s.rooms.recipients frame.room frame.sender frame.target ≠ [] →
        (frame.room, frame.sender) ∈ conn.joined

end SignalingServer

end AvSync
