import AvSync.Message

/-!
# Acknowledgments and the offline queue

Operations that have been broadcast are tracked until a peer acknowledges them or they have been
resent often enough. Messages that could not be broadcast wait in a bounded queue. Both structures
also carry a history that the code does not keep and nothing here reads: the entries given up, the
messages dropped for capacity, and how often an entry has been resent.
-/

namespace AvSync

/-- An operation awaiting acknowledgment. -/
structure PendingEntry where
  op : TaggedOperation
  lastSentMs : UInt64
  attempts : UInt32
  /-- History: how often the operation has been resent. -/
  resends : ℕ

/-- Tracks operations awaiting peer acknowledgments. The hash maps are ordered maps here; the
order in which the hash map would list the operations that are due is not specified. -/
structure ReliabilityManager where
  pending : BTreeMap OperationId PendingEntry
  ackTimeoutMs : UInt64
  maxResends : UInt32
  ackedPeers : BTreeMap OperationId (List PeerId)
  /-- History: the entries dropped for exceeding the budget. -/
  givenUp : List PendingEntry

namespace ReliabilityManager

/-- A manager with the given timeout, in milliseconds, and resend budget. -/
def new (ackTimeout : ℕ) (maxResends : UInt32) : ReliabilityManager :=
  ⟨∅, UInt64.ofNat ackTimeout, maxResends, ∅, []⟩

/-- Starts tracking a broadcast operation. -/
def track (r : ReliabilityManager) (op : TaggedOperation) (nowMs : UInt64) :
    ReliabilityManager :=
  { r with pending := r.pending.insert op.opId ⟨op, nowMs, 1, 0⟩ }

/-- Records an acknowledgment, and tells whether it is the first for a tracked operation. -/
def onAck (r : ReliabilityManager) (opId : OperationId) (sender : PeerId) :
    Bool × ReliabilityManager :=
  match r.ackedPeers[opId]? with
  | some peers =>
    (false, if sender ∈ peers then r
      else { r with ackedPeers := r.ackedPeers.insert opId (peers ++ [sender]) })
  | none =>
    (decide (opId ∈ r.pending),
      { r with
        ackedPeers := r.ackedPeers.insert opId [sender]
        pending := r.pending.erase opId })

/-- Whether the acknowledgment of an entry has timed out. -/
def isDue (r : ReliabilityManager) (nowMs : UInt64) (entry : PendingEntry) : Bool :=
  decide (r.ackTimeoutMs ≤ saturatingSub nowMs entry.lastSentMs)

/-- Whether an entry has used up its attempts. -/
def isSpent (r : ReliabilityManager) (entry : PendingEntry) : Bool :=
  decide (r.maxResends < entry.attempts)

/-- What becomes of an entry: kept as it is, dropped, or counted as sent once more. The counter is
the unchecked `+= 1`, which wraps. -/
def retainEntry (r : ReliabilityManager) (nowMs : UInt64) (entry : PendingEntry) :
    Option PendingEntry :=
  if !r.isDue nowMs entry then some entry
  else if r.isSpent entry then none
  else some { entry with
    attempts := entry.attempts + 1, lastSentMs := nowMs, resends := entry.resends + 1 }

/-- The operations whose acknowledgment has timed out, and the entries left once those over the
budget have been dropped. -/
def dueForResend (r : ReliabilityManager) (nowMs : UInt64) :
    List TaggedOperation × ReliabilityManager :=
  let timedOut := r.pending.toList.filter fun e => r.isDue nowMs e.2
  ((timedOut.filter fun e => !r.isSpent e.2).map (·.2.op),
    { r with
      pending := r.pending.filterMap fun _ entry => r.retainEntry nowMs entry
      givenUp := r.givenUp ++ (timedOut.filter fun e => r.isSpent e.2).map (·.2) })

/-- Stops tracking an operation without an acknowledgment. -/
def forget (r : ReliabilityManager) (opId : OperationId) : ReliabilityManager :=
  { r with pending := r.pending.erase opId, ackedPeers := r.ackedPeers.erase opId }

end ReliabilityManager

/-! ## The offline queue -/

/-- A bounded queue of messages captured while the peer has no connections. -/
structure OfflineQueue where
  queue : List SyncMessage
  capacity : ℕ
  /-- History: the messages dropped for capacity. -/
  evicted : List SyncMessage

namespace OfflineQueue

/-- A queue of at most `capacity` messages, and of one at least. -/
def new (capacity : ℕ) : OfflineQueue := ⟨[], max capacity 1, []⟩

/-- Enqueues a message, dropping the oldest when full. -/
def enqueue (q : OfflineQueue) (message : SyncMessage) : OfflineQueue :=
  if q.capacity ≤ q.queue.length then
    { q with
      queue := q.queue.tail ++ [message]
      evicted := q.evicted ++ q.queue.head?.toList }
  else { q with queue := q.queue ++ [message] }

/-- Removes and returns all queued messages, in order. -/
def drain (q : OfflineQueue) : List SyncMessage × OfflineQueue := (q.queue, { q with queue := [] })

end OfflineQueue

end AvSync
