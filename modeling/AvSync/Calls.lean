import AvSync.Compaction
import AvSync.Replay

/-!
# Calls on a timeline

The entry points that change a timeline, as calls. A run is a list of them; a call that does not
return ends it, and the state is then `none`.
-/

namespace AvSync

/-- A call of a mutating entry point. -/
inductive Call where
  | applyLocal (operation : TimelineOperation)
  | undo
  | redo
  | applyRemote (op : TaggedOperation)
  | mergeSnapshot (snapshot : TimelineSnapshot)

/-- The remote operations a call hands over, in order. -/
def Call.received : Call → List TaggedOperation
  | .applyRemote op => [op]
  | .mergeSnapshot snapshot => TimelineCrdt.sortByRank snapshot.ops
  | _ => []

namespace TimelineCrdt

/-- The timeline after a call, if the call returns. -/
def call (c : TimelineCrdt) : Call → Option TimelineCrdt
  | .applyLocal operation => (c.applyLocal operation).map (·.2)
  | .undo => some c.undo.2
  | .redo => some c.redo.2
  | .applyRemote op => some (c.applyRemote op)
  | .mergeSnapshot snapshot => some (c.mergeSnapshot snapshot)

/-- A timeline under calls. -/
def engine : Machine (Option TimelineCrdt) Call where
  step c k := c.bind (·.call k)
  enabled c k := (c.bind (·.call k)).isSome

/-- The state after a list of calls on a fresh timeline. -/
abbrev afterCalls (peer : PeerId) (calls : List Call) : Option TimelineCrdt :=
  engine.run (some (new peer)) calls

/-- The local operation a call issues. -/
def issued (c : TimelineCrdt) : Call → Option TimelineOperation
  | .applyLocal operation => some operation
  | .undo => c.history.popUndo.map (·.1.inverse)
  | .redo => c.history.popRedo.map (·.1.forward)
  | .applyRemote _ | .mergeSnapshot _ => none

/-- The next local operation, as it would be stamped. -/
def tagNext (c : TimelineCrdt) (operation : TimelineOperation) : TaggedOperation :=
  let lamport := (c.lamport.tick).1
  ⟨⟨lamport, c.localPeerId⟩, operation, lamport, c.vectorClock.increment c.localPeerId,
    c.localPeerId⟩

/-- Each operation in the buffer misses a target. -/
def AllWait (c : TimelineCrdt) : Prop :=
  ∀ o ∈ c.pending, missingTargets o.operation c.session ≠ []

/-- The local operation of a call, if any, creates nothing that a buffered operation requires. -/
def UnblocksNone (c : TimelineCrdt) (k : Call) : Prop :=
  ∀ op, c.issued k = some op → ∀ o ∈ c.pending, ∀ r ∈ o.operation.requiredTargets,
    ¬c.session.Creates op r

/-- The operations the calls of a run create on the timeline, in order. -/
def created : Option TimelineCrdt → List Call → List TaggedOperation
  | none, _ | some _, [] => []
  | some c, k :: ks =>
    match c.call k with
    | none => []
    | some c' => ((c.issued k).map c.tagNext).toList ++ created (some c') ks

/-- The stamp of a local operation `t` of `c` is ahead of the stamps before it: of the `earlier`
local operations, of the ids seen, of the register tags; and the timeline's own entry of the
vector clock has gone up by one. -/
structure Advances (c : TimelineCrdt) (earlier : List TaggedOperation) (t : TaggedOperation) :
    Prop where
  id_gt : ∀ o ∈ earlier, o.opId < t.opId
  id_fresh : t.opId ∉ c.seen
  tag_gt : ∀ u ∈ registerTags c.session, u < t.tag
  entry_succ : (t.vectorClock.get c.localPeerId).toNat =
    (c.vectorClock.get c.localPeerId).toNat + 1
  entry_gt : ∀ o ∈ earlier, o.vectorClock.get c.localPeerId < t.vectorClock.get c.localPeerId

/-- A remote operation whose id, if it names the local peer, is not ahead of the Lamport counter
once its timestamp has been observed. -/
def Honest (c : TimelineCrdt) (o : TaggedOperation) : Prop :=
  o.opId.peer = c.localPeerId → o.opId.lamport ≤ max c.lamport.counter o.lamportTs

instance (c : TimelineCrdt) (o : TaggedOperation) : Decidable (c.Honest o) :=
  inferInstanceAs (Decidable (_ → _))

/-- The remote operations of a call are honest, and a local one finds both counters below the
maximum. -/
def StampSafe (c : TimelineCrdt) (k : Call) : Prop :=
  (∀ o ∈ k.received, c.Honest o) ∧ ((c.issued k).isSome →
    c.lamport.counter < u64Max ∧ c.vectorClock.get c.localPeerId < u64Max)

instance (c : TimelineCrdt) (k : Call) : Decidable (c.StampSafe k) :=
  inferInstanceAs (Decidable (_ ∧ _))

end TimelineCrdt

end AvSync
