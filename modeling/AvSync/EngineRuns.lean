import AvSync.Engine
import AvSync.Calls

/-!
# Runs of a sync engine

The public calls of an engine as events, between which the transport and the timeline may be
changed from outside in any way. What a run has issued, where an issued operation is accounted
for, and what a run has taken in from the network.
-/

namespace AvSync

/-- A call of an engine, or a change through one of its mutable handles. -/
inductive EngineEvent (σ : Type) where
  | applyLocal (operation : TimelineOperation)
  | processMessages
  | handlePeerJoin (peer : PeerId)
  | flushOfflineQueue
  | requestSnapshot
  | crdtMut (f : TimelineCrdt → TimelineCrdt)
  /-- Peers that join or leave, messages that arrive, links that fail. -/
  | transportMut (f : σ → σ)

/-- Where an operation is accounted for. -/
inductive Accounted (r : ReliabilityManager) (q : OfflineQueue) (op : TaggedOperation) : Prop
  | queued : .operation op ∈ q.queue → Accounted r q op
  | tracked {entry : PendingEntry} : r.pending[op.opId]? = some entry → entry.op = op →
      Accounted r q op
  | acked : op.opId ∈ r.ackedPeers → Accounted r q op
  | givenUp {entry : PendingEntry} : entry ∈ r.givenUp → entry.op = op →
      r.maxResends.toNat ≤ entry.resends → Accounted r q op
  | evicted : .operation op ∈ q.evicted → Accounted r q op

/-- The first operation of each id in a list, but for the ids seen before. -/
def unseen : Finset OperationId → List TaggedOperation → List TaggedOperation
  | _, [] => []
  | seen, o :: l => if o.opId ∈ seen then unseen seen l else o :: unseen (insert o.opId seen) l

namespace SyncEngine

variable {σ : Type} (H : Host σ)

/-- The engine after an event. A local call that does not return leaves it as it was. -/
def step (e : SyncEngine σ) : EngineEvent σ → SyncEngine σ
  | .applyLocal operation => ((e.applyLocal H operation).map (·.2)).getD e
  | .processMessages => (e.processMessages H).2
  | .handlePeerJoin peer => (e.handlePeerJoin H peer).2
  | .flushOfflineQueue => e.flushOfflineQueue H
  | .requestSnapshot => e.requestSnapshot H
  | .crdtMut f => { e with crdt := f e.crdt }
  | .transportMut f => { e with transport := f e.transport }

/-- Engines under events. -/
def machine : Machine (SyncEngine σ) (EngineEvent σ) := ⟨step H, fun _ _ => True⟩

/-- The operation an event returns, if it is a local call. -/
def issuedBy (e : SyncEngine σ) : EngineEvent σ → List TaggedOperation
  | .applyLocal operation => ((e.applyLocal H operation).map (·.1)).toList
  | _ => []

/-- The operations the local calls of a run have returned. -/
def issued : SyncEngine σ → List (EngineEvent σ) → List TaggedOperation
  | _, [] => []
  | e, a :: l => e.issuedBy H a ++ issued (e.step H a) l

/-- Where an engine accounts for an operation. -/
abbrev Accounts (e : SyncEngine σ) (op : TaggedOperation) : Prop :=
  Accounted e.reliability e.offline op

/-! ## Flushes -/

/-- Each operation of a flush is broadcast, unless a peer has acknowledged it already. -/
def FlushKeeps : SyncEngine σ → List SyncMessage → Prop
  | _, [] => True
  | e, msg :: l =>
    (∀ op, msg = .operation op →
      op.opId ∈ e.reliability.ackedPeers ∨ (e.broadcast H msg).1 = .ok ()) ∧
    FlushKeeps (e.flushMessage H msg) l

/-- The flush of the whole queue. -/
def QueueKeeps (e : SyncEngine σ) : Prop :=
  FlushKeeps H { e with offline := e.offline.drain.2 } e.offline.drain.1

/-- The flush for a joining peer, which follows if the snapshot can be sent. -/
def JoinKeeps (e : SyncEngine σ) (peer : PeerId) : Prop :=
  (e.sendTo H peer (.snapshot e.crdt.snapshot)).1 = .ok () →
    QueueKeeps H (e.sendTo H peer (.snapshot e.crdt.snapshot)).2

/-- The flushes for the peers that are new. -/
def PeersKeep : SyncEngine σ → List PeerId → Prop
  | _, [] => True
  | e, p :: l =>
    (p ∉ e.knownPeers → JoinKeeps H (e.pushEvent (.peerJoined p)) p) ∧
    PeersKeep (e.noticePeer H p) l

/-- No operation that is tracked or queued has the id of the next local one. -/
def NextFresh (e : SyncEngine σ) : Prop :=
  ∀ op, (e.crdt.tagNext op).opId ∉ e.reliability.pending ∧
    ∀ o, .operation o ∈ e.offline.queue → o.opId ≠ (e.crdt.tagNext op).opId

/-- The flushes of an event keep every operation, and a local operation gets an id of its own. -/
def Keeps (e : SyncEngine σ) : EngineEvent σ → Prop
  | .applyLocal _ => e.NextFresh
  | .processMessages => PeersKeep H e (H.peers e.transport)
  | .handlePeerJoin peer => JoinKeeps H e peer
  | .flushOfflineQueue => QueueKeeps H e
  | _ => True

/-! ## Inbound operations -/

/-- The messages the receive loop handles, each with the engine that handles it. -/
def inbox : ℕ → SyncEngine σ → List (SyncEngine σ × PeerId × SyncMessage)
  | 0, _ => []
  | n + 1, e =>
    match H.tryRecv e.transport with
    | (.ok (some (peer, msg)), transport) =>
      let e := { e with transport := transport }
      (e, peer, msg) :: inbox n (e.handleMessage H peer msg)
    | _ => []

/-- Every operation of a snapshot that is not seen yet is within the limits. -/
def SnapshotChecked (e : SyncEngine σ) : SyncMessage → Prop
  | .snapshot snapshot =>
    ∀ o ∈ unseen e.crdt.seen (TimelineCrdt.sortByRank snapshot.ops), o.Valid
  | _ => True

/-- The snapshots an event takes in are checked. -/
def InboxChecked (e : SyncEngine σ) : EngineEvent σ → Prop
  | .processMessages =>
    let e := e.detectPeerChanges H
    ∀ m ∈ inbox H e.config.maxMessagesPerTick e, m.1.SnapshotChecked m.2.2
  | _ => True

/-- The operations by which an event lengthens the log, if it processes messages. -/
def enteredBy (e : SyncEngine σ) : EngineEvent σ → List TaggedOperation
  | .processMessages => (e.processMessages H).2.crdt.operationLog.drop e.crdt.operationLog.length
  | _ => []

/-- The operations that enter the log from the network along a run. -/
def entered : SyncEngine σ → List (EngineEvent σ) → List TaggedOperation
  | _, [] => []
  | e, a :: l => e.enteredBy H a ++ entered (e.step H a) l

end SyncEngine

end AvSync
