import AvSync.History

/-!
# The timeline engine

`TimelineCrdt` stamps local edits, applies remote ones once each, buffers those whose targets do
not exist yet and retries the buffer whenever a remote operation has been taken in.
-/

namespace AvSync

structure TimelineCrdt where
  session : Session
  operationLog : List TaggedOperation
  seen : Finset OperationId
  vectorClock : VectorClock
  lamport : LamportClock
  localPeerId : PeerId
  pending : List TaggedOperation
  history : History
  resolutionEvents : List ResolutionEvent

/-- A replication snapshot: the operation log. -/
structure TimelineSnapshot where
  ops : List TaggedOperation

namespace TimelineCrdt

/-- An empty timeline. -/
def new (localPeerId : PeerId) : TimelineCrdt where
  session := .new
  operationLog := []
  seen := ∅
  vectorClock := .new
  lamport := ⟨0⟩
  localPeerId := localPeerId
  pending := []
  history := .new 256
  resolutionEvents := []

/-- `view` -/
def view (c : TimelineCrdt) : Option Session.SessionView := c.session.materialize

/-! ## Local operations -/

/-- `apply_local_internal` once the inverse is known: stamps the operation, applies it, and logs
it. A local operation that misses its target joins the buffer; the buffer is not retried here. -/
def stamp (c : TimelineCrdt) (operation : TimelineOperation) (inverse : Option TimelineOperation) :
    TaggedOperation × TimelineCrdt :=
  let (lamport, clock) := c.lamport.tick
  let vectorClock := c.vectorClock.increment c.localPeerId
  let tagged : TaggedOperation := ⟨⟨lamport, c.localPeerId⟩, operation, lamport, vectorClock,
    c.localPeerId⟩
  let c := { c with lamport := clock, vectorClock := vectorClock }
  let c :=
    match c.session.apply operation ⟨lamport, c.localPeerId⟩ with
    | (.ok _, session) =>
      { c with
        session := session
        history := inverse.elim c.history fun inverse => c.history.record ⟨operation, inverse⟩ }
    | (.error _, session) => { c with session := session, pending := c.pending ++ [tagged] }
  (tagged, { c with
    operationLog := c.operationLog ++ [tagged]
    seen := insert tagged.opId c.seen })

/-- Applies a local operation and records its inverse. `none` when computing the inverse does not
return. -/
def applyLocal (c : TimelineCrdt) (operation : TimelineOperation) :
    Option (TaggedOperation × TimelineCrdt) :=
  (computeInverse operation c.session).map (c.stamp operation)

/-- Applies the inverse of the most recent entry as a local operation that is not recorded. -/
def undo (c : TimelineCrdt) : Option TaggedOperation × TimelineCrdt :=
  match c.history.popUndo with
  | none => (none, c)
  | some (entry, history) =>
    let (tagged, c) := { c with history := history }.stamp entry.inverse none
    (some tagged, { c with history := c.history.pushRedo entry })

/-- Applies the most recently undone operation again. -/
def redo (c : TimelineCrdt) : Option TaggedOperation × TimelineCrdt :=
  match c.history.popRedo with
  | none => (none, c)
  | some (entry, history) =>
    let (tagged, c) := { c with history := history }.stamp entry.forward none
    (some tagged, { c with history := c.history.pushUndo entry })

/-! ## Conflict events -/

/-- The conflict class of an operation and its clip. -/
def conflictClass : TimelineOperation → Option (ConflictKind × ClipId)
  | .moveClip clipId .. => some (.move, clipId)
  | .deleteClip clipId => some (.delete, clipId)
  | .splitClip clipId .. => some (.split, clipId)
  | _ => none

/-- The event an incoming operation raises against the prior one of its class, when the two are
concurrent. -/
def conflictEvent (kind : ConflictKind) (clipId : ClipId) (incoming prior : TaggedOperation) :
    Option ResolutionEvent :=
  if !incoming.vectorClock.isConcurrent prior.vectorClock then none
  else
    match incoming.operation, prior.operation with
    | .splitClip _ incomingFrame incomingNew, .splitClip _ priorFrame priorNew =>
      if incomingFrame ≠ priorFrame ∨ incomingNew = priorNew then none
      else some ⟨kind, clipId, incoming.tag, decide (incomingNew < priorNew),
        "same split point, smaller clip id wins"⟩
    | _, _ => some (resolveTagConflict kind clipId prior.tag incoming.tag)

/-- Records how a conflict with the latest earlier operation of the same class is resolved. The
last logged operation is skipped: the incoming one has just been logged. -/
def observeResolution (c : TimelineCrdt) (incoming : TaggedOperation) : TimelineCrdt :=
  match conflictClass incoming.operation with
  | none => c
  | some (kind, clipId) =>
    match c.operationLog.dropLast.reverse.find? fun op =>
        op.opId ≠ incoming.opId ∧ conflictClass op.operation = some (kind, clipId) with
    | none => c
    | some prior =>
      { c with resolutionEvents :=
          c.resolutionEvents ++ (conflictEvent kind clipId incoming prior).toList }

/-! ## Remote operations -/

/-- One buffered operation of a retry pass: the timeline, whether an operation has applied so
far, and the operations that wait on. -/
def drainStep (acc : TimelineCrdt × Bool × List TaggedOperation) (op : TaggedOperation) :
    TimelineCrdt × Bool × List TaggedOperation :=
  let c := acc.1.observeResolution op
  match c.session.apply op.operation op.tag with
  | (.ok _, session) => ({ c with session := session }, true, acc.2.2)
  | (.error _, session) => ({ c with session := session }, acc.2.1, acc.2.2 ++ [op])

/-- One pass over the buffer, and whether an operation applied. -/
def drainPass (c : TimelineCrdt) : TimelineCrdt × Bool :=
  let (c, progress, stillWaiting) := c.pending.foldl drainStep ({ c with pending := [] }, false, [])
  ({ c with pending := stillWaiting }, progress)

/-- Passes until one makes no progress, at most `n` of them. -/
def drainLoop : ℕ → TimelineCrdt → TimelineCrdt
  | 0, c => c
  | n + 1, c =>
    let (c, progress) := c.drainPass
    if progress then drainLoop n c else c

/-- `drain_pending`. Every pass but the last shortens the buffer, so the bound is not reached. -/
def drainPending (c : TimelineCrdt) : TimelineCrdt := drainLoop (c.pending.length + 1) c

/-- Applies a remote operation: once, and with the buffer retried after it. -/
def applyRemote (c : TimelineCrdt) (op : TaggedOperation) : TimelineCrdt :=
  if op.opId ∈ c.seen then c
  else
    let c := { c with
      vectorClock := (c.vectorClock.merge op.vectorClock).witness op.peerId op.lamportTs
      lamport := c.lamport.observe op.lamportTs
      seen := insert op.opId c.seen
      operationLog := c.operationLog ++ [op] }
    let c := c.observeResolution op
    let c :=
      match c.session.apply op.operation op.tag with
      | (.ok _, session) => { c with session := session }
      | (.error _, session) => { c with session := session, pending := c.pending ++ [op] }
    c.drainPending

/-! ## Snapshots -/

/-- `ops.sort_by_key(|op| op.rank())`, which is stable. -/
def sortByRank (ops : List TaggedOperation) : List TaggedOperation :=
  ops.insertionSort fun a b => a.rank ≤ b.rank

def snapshot (c : TimelineCrdt) : TimelineSnapshot := ⟨c.operationLog⟩

/-- Feeds operations to `apply_remote` one after the other. -/
def deliver (c : TimelineCrdt) (ops : List TaggedOperation) : TimelineCrdt :=
  ops.foldl applyRemote c

/-- Replays a snapshot in rank order. -/
def fromSnapshot (snapshot : TimelineSnapshot) (localPeerId : PeerId) : TimelineCrdt :=
  (new localPeerId).deliver (sortByRank snapshot.ops)

/-- Merges a snapshot in rank order. -/
def mergeSnapshot (c : TimelineCrdt) (snapshot : TimelineSnapshot) : TimelineCrdt :=
  c.deliver (sortByRank snapshot.ops)

/-- The required targets of an operation that a session lacks. -/
def missingTargets (op : TimelineOperation) (s : Session) : List RequiredTarget :=
  op.requiredTargets.filter fun
    | .clip id => decide (id ∉ s.clips)
    | .track id => decide (id ∉ s.tracks)

end TimelineCrdt

end AvSync
