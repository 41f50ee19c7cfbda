import AvSync.Reliability
import AvSync.Lib.Machine

/-!
# The sync engine

`SyncEngine` applies local edits and broadcasts them, and polls a transport for what other peers
send. The transport and the system clock are a parameter: functions over a state of their own, so
that any pattern of successes, failures and inbound messages is that of some transport.
-/

namespace AvSync

/-- What an engine runs on: a transport and the system clock, with their state. -/
structure Host (σ : Type) where
  sendTo : PeerId → SyncMessage → σ → Except SyncError Unit × σ
  broadcast : SyncMessage → σ → Except SyncError Unit × σ
  tryRecv : σ → Except SyncError (Option (PeerId × SyncMessage)) × σ
  peers : σ → List PeerId
  nowMs : σ → UInt64 × σ

structure EngineConfig where
  offlineQueue : Bool
  /-- In milliseconds. -/
  ackTimeout : ℕ
  maxResends : UInt32
  maxMessagesPerTick : ℕ
  offlineCapacity : ℕ

/-- The default configuration. -/
def EngineConfig.default : EngineConfig := ⟨true, 1000, 4, 4096, 10000⟩

/-- Events surfaced to the application. -/
inductive SyncEvent where
  | peerJoined (peer : PeerId)
  | peerLeft (peer : PeerId)
  | remoteOperation (op : TaggedOperation)
  | snapshotMerged (applied total : ℕ)
  | playhead (update : PlayheadUpdate)
  | transportControl (control : TransportControl)
  | presence (update : PresenceUpdate)
  | clockSync (message : ClockSyncMessage)

structure SyncEngine (σ : Type) where
  crdt : TimelineCrdt
  transport : σ
  config : EngineConfig
  reliability : ReliabilityManager
  offline : OfflineQueue
  events : List SyncEvent
  knownPeers : List PeerId

namespace SyncEngine

variable {σ : Type}

/-- An engine on a timeline and a transport. -/
def withConfig (crdt : TimelineCrdt) (transport : σ) (config : EngineConfig) : SyncEngine σ where
  crdt := crdt
  transport := transport
  config := config
  reliability := .new config.ackTimeout config.maxResends
  offline := .new config.offlineCapacity
  events := []
  knownPeers := []

variable (H : Host σ) (e : SyncEngine σ)

def pushEvent (event : SyncEvent) : SyncEngine σ := { e with events := e.events ++ [event] }

/-- `self.transport.send_to(..)` -/
def sendTo (peer : PeerId) (msg : SyncMessage) : Except SyncError Unit × SyncEngine σ :=
  let (reply, transport) := H.sendTo peer msg e.transport
  (reply, { e with transport := transport })

/-- `self.transport.broadcast(..)` -/
def broadcast (msg : SyncMessage) : Except SyncError Unit × SyncEngine σ :=
  let (reply, transport) := H.broadcast msg e.transport
  (reply, { e with transport := transport })

/-- `now_ms()` -/
def nowMs : UInt64 × SyncEngine σ :=
  let (now, transport) := H.nowMs e.transport
  (now, { e with transport := transport })

/-- Tracks a message that has been broadcast, if it is an operation. -/
def trackSent (msg : SyncMessage) : SyncEngine σ :=
  match msg with
  | .operation op =>
    let (now, e) := e.nowMs H
    { e with reliability := e.reliability.track op now }
  | _ => e

/-! ## Sending -/

/-- Broadcasts a message with offline handling. -/
def dispatch (msg : SyncMessage) : SyncEngine σ :=
  match e.broadcast H msg with
  | (.ok (), e) => e.trackSent H msg
  | (.error _, e) =>
    if e.config.offlineQueue then { e with offline := e.offline.enqueue msg } else e

/-- Applies a local operation and broadcasts it. `none` when the timeline's own call does not
return. -/
def applyLocal (operation : TimelineOperation) : Option (TaggedOperation × SyncEngine σ) :=
  (e.crdt.applyLocal operation).map fun (tagged, crdt) =>
    (tagged, { e with crdt := crdt }.dispatch H (.operation tagged))

/-- Broadcasts a request for a state snapshot. -/
def requestSnapshot : SyncEngine σ := e.dispatch H .requestSnapshot

/-- One message of the drained queue. One that cannot be broadcast is dropped. -/
def flushMessage (msg : SyncMessage) : SyncEngine σ :=
  match e.broadcast H msg with
  | (.ok (), e) => e.trackSent H msg
  | (.error _, e) => e

/-- Drains the offline queue into the transport. -/
def flushOfflineQueue : SyncEngine σ :=
  let (queue, offline) := e.offline.drain
  queue.foldl (fun e msg => e.flushMessage H msg) { e with offline := offline }

/-! ## Peers -/

/-- Sends a joining peer the full state, and flushes the offline queue. -/
def handlePeerJoin (peer : PeerId) : Except SyncError Unit × SyncEngine σ :=
  match e.sendTo H peer (.snapshot e.crdt.snapshot) with
  | (.error err, e) => (.error err, e)
  | (.ok (), e) => (.ok (), e.flushOfflineQueue H)

/-- One of the peers the transport lists. -/
def noticePeer (peer : PeerId) : SyncEngine σ :=
  if peer ∈ e.knownPeers then e
  else ((e.pushEvent (.peerJoined peer)).handlePeerJoin H peer).2

/-- Fires the events of membership changes and pushes a snapshot to joiners. -/
def detectPeerChanges : SyncEngine σ :=
  let current := H.peers e.transport
  let e := current.foldl (fun e peer => e.noticePeer H peer) e
  let departed := e.knownPeers.filter fun p => p ∉ current
  let e := departed.foldl (fun e peer => e.pushEvent (.peerLeft peer)) e
  { e with knownPeers := current }

/-! ## Receiving -/

/-- An inbound operation: applied and acknowledged if it is within the limits. -/
def handleOperation (peer : PeerId) (op : TaggedOperation) : SyncEngine σ :=
  match op.operation.validate with
  | .error _ => e
  | .ok () =>
    let e := { e with crdt := e.crdt.applyRemote op }
    ((e.sendTo H peer (.ack op.opId)).2).pushEvent (.remoteOperation op)

/-- An inbound message. -/
def handleMessage (peer : PeerId) (msg : SyncMessage) : SyncEngine σ :=
  match msg with
  | .operation op => e.handleOperation H peer op
  | .batch ops => ops.foldl (fun e op => e.handleOperation H peer op) e
  | .ack opId => { e with reliability := (e.reliability.onAck opId peer).2 }
  | .requestSnapshot => (e.sendTo H peer (.snapshot e.crdt.snapshot)).2
  | .snapshot snapshot =>
    let before := e.crdt.operationLog.length
    let e := { e with crdt := e.crdt.mergeSnapshot snapshot }
    e.pushEvent (.snapshotMerged (e.crdt.operationLog.length - before) snapshot.ops.length)
  | .playheadUpdate update => e.pushEvent (.playhead update)
  | .transportControl control => e.pushEvent (.transportControl control)
  | .presenceUpdate update => e.pushEvent (.presence update)
  | .clockSync message => e.pushEvent (.clockSync message)

/-- The receive loop, for at most `n` messages, with the number it has handled. -/
def receiveLoop : ℕ → SyncEngine σ → ℕ × SyncEngine σ
  | 0, e => (0, e)
  | n + 1, e =>
    match H.tryRecv e.transport with
    | (.ok (some (peer, msg)), transport) =>
      let (handled, e) := receiveLoop n ({ e with transport := transport }.handleMessage H peer msg)
      (handled + 1, e)
    | (_, transport) => (0, { e with transport := transport })

/-- Broadcasts the operations whose acknowledgment has timed out. -/
def resendDue : SyncEngine σ :=
  let (now, e) := e.nowMs H
  let (due, reliability) := e.reliability.dueForResend now
  due.foldl (fun e op => (e.broadcast H (.operation op)).2) { e with reliability := reliability }

/-- Polls the transport, and returns the number of messages handled. -/
def processMessages : ℕ × SyncEngine σ :=
  let e := e.detectPeerChanges H
  let (handled, e) := receiveLoop H e.config.maxMessagesPerTick e
  (handled, e.resendDue H)

end SyncEngine

end AvSync
