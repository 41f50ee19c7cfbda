import AvSync.Lib.Machine
import AvSync.Message
import AvSync.Rooms

/-!
# The relay server

`RelayServer` routes sync messages by room. Each connection has a task of its own, and the tasks
share the member table and the store behind locks, so a step is one lock section of one task, and a
run is any interleaving of them. Reading a frame ends where the task has registered the sender;
then the frame is recorded or answered, and forwarded. A task that leaves its loop takes its
members out one lock section at a time.

The histories (`accepts`, `forwarded`) are not state of the server.
-/

namespace AvSync

/-- A room-join authorization proof. -/
structure RelayJoinProof where
  peerId : PeerId
  room : String
  tokenProof : Bytes32
  deriving DecidableEq

/-- A relayed sync message. -/
structure RelayFrame where
  room : String
  /-- The `from` field. -/
  sender : PeerId
  /-- The `to` field. -/
  target : Option PeerId
  message : SyncMessage
  join : Option RelayJoinProof

/-! ## The store -/

/-- An unbounded session store: the records in each log file, by the stem of its name. -/
structure SessionStore where
  files : BTreeMap String (List TaggedOperation)

namespace SessionStore

variable (store : SessionStore) (room : String)

def stemFor : String :=
  room.map fun c => if c.isAlphanum || c = '-' || c = '_' then c else '_'

def appendOp (op : TaggedOperation) : SessionStore where
  files := store.files.insert (stemFor room) (store.files[stemFor room]?.getD [] ++ [op])

def loadOps : List TaggedOperation := store.files[stemFor room]?.getD []

variable {store room} {r : String} {op o : TaggedOperation}

/-- Rooms whose names have one stem share a log. -/
theorem loadOps_congr (h : stemFor r = stemFor room) : store.loadOps r = store.loadOps room := by
  rw [loadOps, loadOps, h]

theorem mem_loadOps_appendOp : o ∈ (store.appendOp r op).loadOps room ↔
    o ∈ store.loadOps room ∨ o = op ∧ stemFor r = stemFor room := by
  unfold loadOps appendOp
  rw [BTreeMap.getElem?_insert_if]
  split_ifs with h
  · simp [h]
  · simp [h]

end SessionStore

/-! ## Connections -/

/-- Where a connection's task stands. -/
inductive RelayStage where
  | reading
  | persisting (frame : RelayFrame)
  | replying (frame : RelayFrame) (stored : List TaggedOperation)
  | forwarding (frame : RelayFrame)
  | closing (joined : List (String × PeerId))

/-- The variables of one connection's task. -/
structure RelayConnection where
  joined : List (String × PeerId)
  bound : Option (String × PeerId)
  stage : RelayStage

/-- One frame sent into the channel of one member, on behalf of a connection. -/
structure RelayDelivery where
  source : ConnId
  frame : RelayFrame
  member : ConnId

/-- The server, with what its tasks have done so far: the frames accepted, newest first, and the
frames forwarded and snapshots sent. -/
structure RelayServer where
  auth : RoomAuth
  maxRoomMembers : ℕ
  rooms : Rooms
  store : Option SessionStore
  connections : ConnId → Option RelayConnection
  accepts : List (ConnId × RelayFrame)
  forwarded : List RelayDelivery
  answered : List RelayDelivery

/-- What the tasks can do next: `receive` is a frame that is within the sender's budget and
decodes; `hangup` is a close, a read error or an exhausted budget. -/
inductive RelayEvent where
  | accept (c : ConnId)
  | receive (c : ConnId) (frame : RelayFrame)
  | persist (c : ConnId)
  | reply (c : ConnId)
  | forward (c : ConnId)
  | hangup (c : ConnId)
  | cleanup (c : ConnId)

namespace RelayServer

def serveFull (maxRoomMembers : ℕ) (auth : RoomAuth) (store : Option SessionStore) :
    RelayServer where
  auth := auth
  maxRoomMembers := maxRoomMembers
  rooms := ∅
  store := store
  connections _ := none
  accepts := []
  forwarded := []
  answered := []

variable (s : RelayServer) (c : ConnId)

def setConnection (conn : RelayConnection) : RelayServer :=
  { s with connections := Function.update s.connections c (some conn) }

def stage : Option RelayStage := (s.connections c).map RelayConnection.stage

/-- `break`: the task goes on to take its members out. -/
def close (conn : RelayConnection) : RelayServer :=
  s.setConnection c { conn with stage := .closing conn.joined }

/-- Room authorization: the connection as bound by the frame, or nothing if the frame closes it. -/
def authorize (sha256 : List UInt8 → Bytes32) (auth : RoomAuth) (conn : RelayConnection)
    (frame : RelayFrame) : Option RelayConnection :=
  match auth, conn.bound with
  | .token secret, none =>
    match frame.join with
    | none => none
    | some proof =>
      if proof.room ≠ frame.room ∨ proof.peerId ≠ frame.sender ∨
          proof.tokenProof ≠ roomTokenProof sha256 secret frame.room then none
      else some { conn with bound := some (frame.room, frame.sender) }
  | .token _, some (boundRoom, boundPeer) =>
    if boundRoom ≠ frame.room ∨ boundPeer ≠ frame.sender then none else some conn
  | .open, _ => some conn

/-- Where a task goes on with an accepted frame: one with an operation above the limits is
dropped. -/
def stageFor (frame : RelayFrame) : RelayStage :=
  match frame.message with
  | .operation op => if op.Valid then .persisting frame else .reading
  | _ => .persisting frame

/-- The sender's membership in the addressed room, registered or refreshed. -/
def registerSender (conn : RelayConnection) (frame : RelayFrame) : RelayServer :=
  if s.rooms.Admits frame.room frame.sender s.maxRoomMembers then
    { s.setConnection c
        { conn with
          joined := if s.rooms.lookup frame.room frame.sender = none then
              conn.joined ++ [(frame.room, frame.sender)]
            else conn.joined
          stage := stageFor frame } with
      rooms := s.rooms.register frame.room frame.sender c
      accepts := (c, frame) :: s.accepts }
  else { s with rooms := s.rooms.enter frame.room }.close c conn

def receive (sha256 : List UInt8 → Bytes32) (frame : RelayFrame) : RelayServer :=
  match s.connections c with
  | some conn =>
    match conn.stage with
    | .reading =>
      match authorize sha256 s.auth conn frame with
      | none => s.close c conn
      | some conn' => s.registerSender c conn' frame
    | _ => s
  | none => s

/-- The server's answer to a snapshot request. -/
def snapshotFrame (frame : RelayFrame) (stored : List TaggedOperation) : RelayFrame where
  room := frame.room
  sender := ⟨0⟩
  target := some frame.sender
  message := .snapshot ⟨stored⟩
  join := none

/-- An operation is appended to the room's log; a snapshot request is answered from it, unless it
is empty. -/
def persist : RelayServer :=
  match s.connections c with
  | some conn =>
    match conn.stage with
    | .persisting frame =>
      match frame.message with
      | .operation op =>
        { s.setConnection c { conn with stage := .forwarding frame } with
          store := s.store.map fun store => store.appendOp frame.room op }
      | .requestSnapshot =>
        let stored := (s.store.map fun store => store.loadOps frame.room).getD []
        s.setConnection c { conn with
          stage := if stored = [] then .forwarding frame else .replying frame stored }
      | _ => s.setConnection c { conn with stage := .forwarding frame }
    | _ => s
  | none => s

def reply : RelayServer :=
  match s.connections c with
  | some conn =>
    match conn.stage with
    | .replying frame stored =>
      { s.setConnection c { conn with stage := .reading } with
        answered := s.answered ++ (s.rooms.lookup frame.room frame.sender).toList.map fun member =>
          ⟨c, snapshotFrame frame stored, member⟩ }
    | _ => s
  | none => s

def forward : RelayServer :=
  match s.connections c with
  | some conn =>
    match conn.stage with
    | .forwarding frame =>
      { s.setConnection c { conn with stage := .reading } with
        forwarded := s.forwarded ++
          (s.rooms.recipients frame.room frame.sender frame.target).map fun member =>
            ⟨c, frame, member⟩ }
    | _ => s
  | none => s

def hangup : RelayServer :=
  match s.connections c with
  | some conn =>
    match conn.stage with
    | .reading => s.close c conn
    | _ => s
  | none => s

def cleanup : RelayServer :=
  match s.connections c with
  | some conn =>
    match conn.stage with
    | .closing ((room, peer) :: rest) =>
      { s.setConnection c { conn with stage := .closing rest } with
        rooms := s.rooms.unregister room peer }
    | _ => s
  | none => s

/-- A connection that is served from here on. -/
def accept : RelayServer :=
  match s.connections c with
  | some _ => s
  | none => s.setConnection c ⟨[], none, .reading⟩

variable (sha256 : List UInt8 → Bytes32)

def step (s : RelayServer) : RelayEvent → RelayServer
  | .accept c => s.accept c
  | .receive c frame => s.receive c sha256 frame
  | .persist c => s.persist c
  | .reply c => s.reply c
  | .forward c => s.forward c
  | .hangup c => s.hangup c
  | .cleanup c => s.cleanup c

def machine : Machine RelayServer RelayEvent where
  step := step sha256
  enabled _ _ := True

end RelayServer

end AvSync
