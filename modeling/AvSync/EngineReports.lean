import AvSync.EngineRuns

/-!
# What an engine reports and sends

The operations an engine reports to the application along a run, what it makes of the operations
of other peers, and the snapshots it sends to the peers that join.
-/

namespace AvSync

/-- A call of an engine whose timeline changes through its own entry points only. -/
inductive EngineCall (σ : Type) where
  | applyLocal (operation : TimelineOperation)
  | processMessages
  | handlePeerJoin (peer : PeerId)
  | flushOfflineQueue
  | requestSnapshot
  | takeEvents
  | crdtMut (k : Call)
  | transportMut (f : σ → σ)

/-- A host with a record of what it has sent to single peers. -/
def Host.recording {σ : Type} (H : Host σ) : Host (σ × List (PeerId × SyncMessage)) where
  sendTo peer msg s :=
    let (reply, t) := H.sendTo peer msg s.1
    (reply, t, match reply with
      | .ok () => s.2 ++ [(peer, msg)]
      | .error _ => s.2)
  broadcast msg s := ((H.broadcast msg s.1).1, (H.broadcast msg s.1).2, s.2)
  tryRecv s := ((H.tryRecv s.1).1, (H.tryRecv s.1).2, s.2)
  peers s := H.peers s.1
  nowMs s := ((H.nowMs s.1).1, (H.nowMs s.1).2, s.2)

/-- An event, the record left as it is. -/
def EngineEvent.recorded {σ : Type} :
    EngineEvent σ → EngineEvent (σ × List (PeerId × SyncMessage))
  | .applyLocal operation => .applyLocal operation
  | .processMessages => .processMessages
  | .handlePeerJoin peer => .handlePeerJoin peer
  | .flushOfflineQueue => .flushOfflineQueue
  | .requestSnapshot => .requestSnapshot
  | .crdtMut f => .crdtMut f
  | .transportMut f => .transportMut (Prod.map f id)

/-- The operations among the events. -/
def remoteOperations (events : List SyncEvent) : List TaggedOperation :=
  events.filterMap fun
    | .remoteOperation op => some op
    | _ => none

/-- The operations a message carries, but for those of a snapshot. -/
def SyncMessage.operations : SyncMessage → List TaggedOperation
  | .operation op => [op]
  | .batch ops => ops
  | _ => []

/-- No id twice, and no id of `own`. -/
def Once (own : List OperationId) (l : List TaggedOperation) : Prop :=
  (l.map (·.opId)).Nodup ∧ ∀ o ∈ l, o.opId ∉ own

instance (own : List OperationId) (l : List TaggedOperation) : Decidable (Once own l) :=
  inferInstanceAs (Decidable (_ ∧ _))

namespace SyncEngine

variable {σ : Type} (H : Host σ)

/-- Hands over the events since the last call. -/
def takeEvents (e : SyncEngine σ) : List SyncEvent × SyncEngine σ :=
  (e.events, { e with events := [] })

/-- The engine after a call. -/
def call (e : SyncEngine σ) : EngineCall σ → SyncEngine σ
  | .applyLocal operation => e.step H (.applyLocal operation)
  | .processMessages => e.step H .processMessages
  | .handlePeerJoin peer => e.step H (.handlePeerJoin peer)
  | .flushOfflineQueue => e.step H .flushOfflineQueue
  | .requestSnapshot => e.step H .requestSnapshot
  | .takeEvents => e.takeEvents.2
  | .crdtMut k => e.step H (.crdtMut fun c => (c.call k).getD c)
  | .transportMut f => e.step H (.transportMut f)

/-! ## Events -/

/-- The events a call hands over. -/
def yieldedBy (e : SyncEngine σ) : EngineCall σ → List SyncEvent
  | .takeEvents => e.takeEvents.1
  | _ => []

/-- The events `take_events` hands over along a run. -/
def yielded : SyncEngine σ → List (EngineCall σ) → List SyncEvent
  | _, [] => []
  | e, a :: l => e.yieldedBy a ++ yielded (e.call H a) l

/-- The operations within the limits that reach a call in operation and batch messages, as often
as they reach it. -/
def deliveredBy (e : SyncEngine σ) : EngineCall σ → List TaggedOperation
  | .processMessages =>
    let e := e.detectPeerChanges H
    (inbox H e.config.maxMessagesPerTick e).flatMap fun m =>
      m.2.2.operations.filter fun o => decide o.Valid
  | _ => []

/-- The operations that reach a run. -/
def delivered : SyncEngine σ → List (EngineCall σ) → List TaggedOperation
  | _, [] => []
  | e, a :: l => e.deliveredBy H a ++ delivered (e.call H a) l

/-- The id of the operation a call creates, if it does. -/
def createdBy (e : SyncEngine σ) : EngineCall σ → List OperationId
  | .applyLocal operation => ((e.applyLocal H operation).map (·.1.opId)).toList
  | .crdtMut k =>
    if (e.crdt.call k).isSome then
      ((e.crdt.issued k).map fun operation => (e.crdt.tagNext operation).opId).toList
    else []
  | _ => []

/-- The ids of the operations a run creates. -/
def created : SyncEngine σ → List (EngineCall σ) → List OperationId
  | _, [] => []
  | e, a :: l => e.createdBy H a ++ created (e.call H a) l

/-- The ids of the local peer: those its log starts out with, and those the run creates. -/
def own (e : SyncEngine σ) (l : List (EngineCall σ)) : List OperationId :=
  ((e.crdt.operationLog.map (·.opId)).filter fun i => i.peer = e.crdt.localPeerId) ++
    created H e l

/-! ## Operations of other peers -/

/-- An operation message is taken in: the operation is applied, acknowledged and reported. -/
structure Accepts (e : SyncEngine σ) (peer : PeerId) (op : TaggedOperation) : Prop where
  applied : (e.handleMessage H peer (.operation op)).crdt = e.crdt.applyRemote op
  acknowledged : (e.handleMessage H peer (.operation op)).transport =
    (H.sendTo peer (.ack op.opId) e.transport).2
  reported : (e.handleMessage H peer (.operation op)).events = e.events ++ [.remoteOperation op]

/-! ## Snapshots sent -/

/-- The peers that join, as the events have them. -/
def joinedPeers (events : List SyncEvent) : List PeerId :=
  events.filterMap fun
    | .peerJoined peer => some peer
    | _ => none

/-- The snapshots among what has been sent. -/
def sentSnapshots (sends : List (PeerId × SyncMessage)) : List (PeerId × TimelineSnapshot) :=
  sends.filterMap fun
    | (peer, .snapshot snapshot) => some (peer, snapshot)
    | _ => none

/-- What a peer that joins is owed, and what it is sent. -/
inductive Mark where
  /-- The peer joins, the log being `log`. -/
  | joined (peer : PeerId) (log : List TaggedOperation)
  /-- A snapshot has been sent to the peer. -/
  | sent (peer : PeerId) (snapshot : TimelineSnapshot)

/-- An engine on a host that records what it has sent. -/
abbrev Recorded (σ : Type) : Type := SyncEngine (σ × List (PeerId × SyncMessage))

/-- The engine, with nothing recorded yet. -/
def recorded (e : SyncEngine σ) : Recorded σ := { e with transport := (e.transport, []) }

/-- The joins that have been reported from `e` to `e'`, and the snapshots sent. -/
def marksOf (e e' : Recorded σ) : List Mark :=
  ((joinedPeers e'.events).drop (joinedPeers e.events).length).map
      (fun peer => .joined peer e.crdt.operationLog) ++
    ((sentSnapshots e'.transport.2).drop (sentSnapshots e.transport.2).length).map
      fun s => .sent s.1 s.2

/-- The marks of the peers the transport lists, one after the other: each is reported, and then
sent a snapshot. -/
def noticeMarks : Recorded σ → List PeerId → List Mark
  | _, [] => []
  | e, p :: l => marksOf e (e.noticePeer H.recording p) ++ noticeMarks (e.noticePeer H.recording p) l

/-- The marks of an event. -/
def marksBy (e : Recorded σ) (a : EngineEvent σ) : List Mark :=
  match a with
  | .processMessages =>
    let current := H.peers e.transport.1
    noticeMarks H e current ++
      marksOf (current.foldl (fun e peer => e.noticePeer H.recording peer) e)
        (e.processMessages H.recording).2
  | a => marksOf e (e.step H.recording a.recorded)

/-- The marks of a run. -/
def marks : Recorded σ → List (EngineEvent σ) → List Mark
  | _, [] => []
  | e, a :: l => marksBy H e a ++ marks (e.step H.recording a.recorded) l

/-- Since it joined last, the peer has been sent a snapshot with all of the log there was then. -/
def Served (l : List Mark) (peer : PeerId) : Prop :=
  ∃ l₁ log l₂, l = l₁ ++ .joined peer log :: l₂ ∧ (∀ log', .joined peer log' ∉ l₂) ∧
    ∃ snapshot, .sent peer snapshot ∈ l₂ ∧ ∀ o ∈ log, o ∈ snapshot.ops

/-! ## Pushes that succeed -/

/-- A snapshot can be sent to the peer. -/
def Sends (e : SyncEngine σ) (peer : PeerId) : Prop :=
  (H.sendTo peer (.snapshot e.crdt.snapshot) e.transport).1 = .ok ()

/-- The push to `peer` succeeds, the last time it is among the peers listed. -/
def Pushes (e : SyncEngine σ) (current : List PeerId) (peer : PeerId) : Prop :=
  ∃ l₁ l₂, current = l₁ ++ peer :: l₂ ∧ peer ∉ l₂ ∧
    (l₁.foldl (fun e p => e.noticePeer H p) e).Sends H peer

/-- A request of `peer` for a snapshot is handled, and the answer succeeds. -/
def Answers (e : SyncEngine σ) (peer : PeerId) : Prop :=
  ∃ m ∈ inbox H e.config.maxMessagesPerTick e, m.2 = (peer, .requestSnapshot) ∧ m.1.Sends H peer

/-- For each peer that joins in an event the push succeeds, or the answer to a request that comes
in the same event. -/
def JoinersServed (e : SyncEngine σ) (a : EngineEvent σ) : Prop :=
  a = .processMessages → ∀ p ∈ H.peers e.transport, p ∉ e.knownPeers →
    e.Pushes H (H.peers e.transport) p ∨ (e.detectPeerChanges H).Answers H p

end SyncEngine

end AvSync
