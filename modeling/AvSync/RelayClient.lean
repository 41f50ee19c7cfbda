import AvSync.Media
import AvSync.Relay

/-!
# Clients of the relay

`RelayClientTransport` tunnels the messages of an engine through the relay. Each client has one
connection, a queue of frames to go out on it, and a channel of messages that its task has read.
What the server sends to a connection waits in the channel of that connection. A frame may be lost
in either direction: it does not decode within the limits, or the connection ends.
-/

namespace AvSync

/-- `RelayClientTransport`, the client of a room. `connected` is whether its task still runs. -/
structure RelayClientTransport (room : String) where
  outbound : List RelayFrame
  inbox : List (PeerId × SyncMessage)
  peers : List PeerId
  connected : Bool

/-- The relay, its clients in their rooms, and what the server has sent to each connection. -/
structure RelaySession (rooms : PeerId → String) where
  server : RelayServer
  clients : (p : PeerId) → RelayClientTransport (rooms p)
  channels : ConnId → List RelayFrame
  clock : ℕ → UInt64

/-- The task of a connection is at work on the operation, on behalf of the room. -/
inductive RelayStage.Carries (o : TaggedOperation) : RelayStage → String → Prop
  | persisting {frame : RelayFrame} : o ∈ frame.message.contents →
      Carries o (.persisting frame) frame.room
  | replying {frame : RelayFrame} {stored : List TaggedOperation} : o ∈ stored →
      Carries o (.replying frame stored) frame.room
  | forwarding {frame : RelayFrame} : o ∈ frame.message.contents →
      Carries o (.forwarding frame) frame.room

namespace RelayServer

variable (s : RelayServer)

/-- A task is at work on the operation on behalf of the room, or the room's log has it. -/
def Has (room : String) (o : TaggedOperation) : Prop :=
  (∃ c stage, s.stage c = some stage ∧ stage.Carries o room) ∨
    ∃ store, s.store = some store ∧ o ∈ store.loadOps room

/-- The rooms are one, or one file is the log of both. -/
def Shares (r r' : String) : Prop :=
  r = r' ∨ s.store.isSome ∧ SessionStore.stemFor r = SessionStore.stemFor r'

end RelayServer

/-- What the task of a connection does next, apart from reading. -/
inductive RelayTask where
  | accept | persist | reply | forward | hangup | cleanup

def RelayTask.event (c : ConnId) : RelayTask → RelayEvent
  | .accept => .accept c
  | .persist => .persist c
  | .reply => .reply c
  | .forward => .forward c
  | .hangup => .hangup c
  | .cleanup => .cleanup c

/-- What happens between the calls of the engines. -/
inductive RelaySessionEvent where
  /-- The server reads the next frame of a client. -/
  | upload (p : PeerId)
  | loseUpload (p : PeerId)
  | serve (c : ConnId) (task : RelayTask)
  /-- The task of a client reads the next frame. -/
  | download (p : PeerId)
  | loseDownload (p : PeerId)
  | disconnect (p : PeerId)

namespace RelaySession

variable {rooms : PeerId → String}

/-- The connection of a client. -/
def connOf (p : PeerId) : ConnId := ⟨p.raw.toNat⟩

/-- The first frame of a client, with a proof of the room's secret if it has that. -/
def joinFrame (sha256 : List UInt8 → Bytes32) (p : PeerId) (room : String)
    (secret : Option String) : RelayFrame where
  room := room
  sender := p
  target := none
  message := .requestSnapshot
  join := secret.map fun secret => ⟨p, room, roomTokenProof sha256 secret room⟩

/-- Clients that have just connected to a server. -/
def connect (sha256 : List UInt8 → Bytes32) (server : RelayServer) (rooms : PeerId → String)
    (secret : PeerId → Option String) (clock : ℕ → UInt64) : RelaySession rooms where
  server := server
  clients p := ⟨[joinFrame sha256 p (rooms p) (secret p)], [], [], true⟩
  channels _ := []
  clock := clock

variable (s : RelaySession rooms) (p : PeerId)

def setClient (client : RelayClientTransport (rooms p)) : RelaySession rooms :=
  { s with clients := Function.update s.clients p client }

/-- A message put into the queue of a client. -/
def push (target : Option PeerId) (msg : SyncMessage) : RelaySession rooms :=
  s.setClient p { s.clients p with
    outbound := (s.clients p).outbound ++ [⟨rooms p, p, target, msg, none⟩] }

/-- The transport of a client. -/
def host : Host (RelaySession rooms) where
  sendTo q msg s :=
    if (s.clients p).connected then (.ok (), s.push p (some q) msg) else (.error .disconnected, s)
  broadcast msg s :=
    if (s.clients p).connected then (.ok (), s.push p none msg) else (.error .disconnected, s)
  tryRecv s :=
    match (s.clients p).inbox with
    | m :: rest => (.ok (some m), s.setClient p { s.clients p with inbox := rest })
    | [] => if (s.clients p).connected then (.ok none, s) else (.error .disconnected, s)
  peers s := (s.clients p).peers
  nowMs s := (s.clock 0, { s with clock := fun n => s.clock (n + 1) })

/-- What a step of the server has sent, by the connection it is for. -/
def sent (before after : RelayServer) (c : ConnId) : List RelayFrame :=
  ((after.forwarded.drop before.forwarded.length ++
    after.answered.drop before.answered.length).filter fun d => d.member = c).map (·.frame)

/-- A step of the server. -/
def serve (sha256 : List UInt8 → Bytes32) (a : RelayEvent) : RelaySession rooms :=
  { s with
    server := s.server.step sha256 a
    channels := fun c => s.channels c ++ sent s.server (s.server.step sha256 a) c }

/-- A frame read by the task of a client, that is not its own: its sender is a peer from then on. -/
def take (frame : RelayFrame) : RelaySession rooms :=
  if (s.clients p).connected ∧ frame.sender ≠ p then
    s.setClient p { s.clients p with
      inbox := (s.clients p).inbox ++ [(frame.sender, frame.message)]
      peers := if frame.sender ∈ (s.clients p).peers then (s.clients p).peers
        else ((s.clients p).peers ++ [frame.sender]).insertionSort (· ≤ ·) }
  else s

def happen (sha256 : List UInt8 → Bytes32) :
    RelaySessionEvent → RelaySession rooms → RelaySession rooms
  | .upload p, s =>
    match (s.clients p).outbound, s.server.stage (connOf p) with
    | frame :: rest, some .reading =>
      (s.setClient p { s.clients p with outbound := rest }).serve sha256
        (.receive (connOf p) frame)
    | _, _ => s
  | .loseUpload p, s =>
    s.setClient p { s.clients p with outbound := (s.clients p).outbound.tail }
  | .serve c task, s => s.serve sha256 (task.event c)
  | .download p, s =>
    match s.channels (connOf p) with
    | frame :: rest =>
      { s with channels := Function.update s.channels (connOf p) rest }.take p frame
    | [] => s
  | .loseDownload p, s =>
    { s with channels := Function.update s.channels (connOf p) (s.channels (connOf p)).tail }
  | .disconnect p, s => s.setClient p { s.clients p with connected := false }

/-- Where an operation is on its way in a room: in a queue, with the server, in a channel, or
read. -/
inductive Carries (s : RelaySession rooms) (o : TaggedOperation) : String → Prop
  | outbound {p : PeerId} {frame : RelayFrame} : frame ∈ (s.clients p).outbound →
      o ∈ frame.message.contents → Carries s o (rooms p)
  | server {room : String} : s.server.Has room o → Carries s o room
  | channel {p : PeerId} {frame : RelayFrame} : frame ∈ s.channels (connOf p) →
      o ∈ frame.message.contents → Carries s o (rooms p)
  | inbox {p : PeerId} {m : PeerId × SyncMessage} : m ∈ (s.clients p).inbox →
      o ∈ m.2.contents → Carries s o (rooms p)

/-- The relay, with a name for each group of rooms that share a log. -/
def medium {γ : Type} (sha256 : List UInt8 → Bytes32) (key : String → γ) :
    Medium (RelaySession rooms) RelaySessionEvent γ where
  host := host
  happen := happen sha256
  group p := key (rooms p)
  Holds s g o := ∃ room, key room = g ∧ s.Carries o room

/-- Engines on fresh timelines, connected to a server that has started. -/
def meet (sha256 : List UInt8 → Bytes32) (maxRoomMembers : ℕ) (auth : RoomAuth)
    (store : Option SessionStore) (rooms : PeerId → String) (secret : PeerId → Option String)
    (clock : ℕ → UInt64) (config : PeerId → EngineConfig) : Ensemble (RelaySession rooms) :=
  .new (connect sha256 (.serveFull maxRoomMembers auth store) rooms secret clock) config

/-- Engines that sync through the relay. -/
def machine (sha256 : List UInt8 → Bytes32) (rooms : PeerId → String) :
    Machine (Ensemble (RelaySession rooms)) (EnsembleEvent RelaySessionEvent) :=
  Ensemble.machine (medium sha256 id)

end RelaySession

end AvSync
