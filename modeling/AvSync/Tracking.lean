import AvSync.EngineRuns

/-!
# Operations under acknowledgment

The tracker as a machine of its own, and an operation that an engine has broadcast: what becomes
of it until every peer that was connected has acknowledged it.
-/

namespace AvSync

/-- A call of the tracker. -/
inductive TrackerCall where
  | track (op : TaggedOperation) (nowMs : UInt64)
  | onAck (opId : OperationId) (sender : PeerId)
  | dueForResend (nowMs : UInt64)
  | forget (opId : OperationId)

/-- No call of the list tracks `i`. -/
def Untracked (i : OperationId) (l : List TrackerCall) : Prop :=
  ∀ op now, .track op now ∈ l → op.opId ≠ i

namespace ReliabilityManager

/-- The tracker after a call. -/
def call (r : ReliabilityManager) : TrackerCall → ReliabilityManager
  | .track op now => r.track op now
  | .onAck opId sender => (r.onAck opId sender).2
  | .dueForResend now => (r.dueForResend now).2
  | .forget opId => r.forget opId

/-- Trackers under calls. -/
def machine : Machine ReliabilityManager TrackerCall := ⟨call, fun _ _ => True⟩

/-- Tracked now, `op` is not due again once every peer has acknowledged it, until it is tracked
again. -/
def StopsResending (r : ReliabilityManager) (op : TaggedOperation) (now : UInt64) : Prop :=
  ∀ (peers : List PeerId) (l : List TrackerCall), peers ≠ [] → Untracked op.opId l →
    (∀ p ∈ peers, .onAck op.opId p ∈ l) →
    ∀ t, ∀ o ∈ ((machine.run (r.track op now) l).dueForResend t).1, o.opId ≠ op.opId

/-- Every peer of the list has acknowledged `op`, or it has been resent as often as allowed. -/
def Settles (r : ReliabilityManager) (op : TaggedOperation) (peers : List PeerId) : Prop :=
  (∃ acked, r.ackedPeers[op.opId]? = some acked ∧ ∀ p ∈ peers, p ∈ acked) ∨
    ∃ entry ∈ r.givenUp, entry.op = op ∧ r.maxResends.toNat ≤ entry.resends

/-- `op` is tracked until it is settled. -/
def Follows (r : ReliabilityManager) (op : TaggedOperation) (peers : List PeerId) : Prop :=
  (∃ entry, r.pending[op.opId]? = some entry ∧ entry.op = op) ∨ r.Settles op peers

end ReliabilityManager

namespace SyncEngine

variable {σ : Type} (H : Host σ)

/-- The acknowledgments an event handles. -/
def acks (e : SyncEngine σ) : EngineEvent σ → List (OperationId × PeerId)
  | .processMessages =>
    let e := e.detectPeerChanges H
    (inbox H e.config.maxMessagesPerTick e).filterMap fun m =>
      match m.2.2 with
      | .ack opId => some (opId, m.2.1)
      | _ => none
  | _ => []

/-- A local operation gets an id of its own, and the first acknowledgments of `op` come from all
the peers at once. -/
def AckedByAll (op : TaggedOperation) (peers : List PeerId) (e : SyncEngine σ)
    (a : EngineEvent σ) : Prop :=
  (∀ operation, a = .applyLocal operation → e.NextFresh) ∧
    (op.opId ∈ e.reliability.pending → op.opId ∉ e.reliability.ackedPeers →
      (∃ p, (op.opId, p) ∈ e.acks H a) → ∀ p ∈ peers, (op.opId, p) ∈ e.acks H a)

end SyncEngine

end AvSync
