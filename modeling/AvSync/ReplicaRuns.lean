import AvSync.Calls

/-!
# Runs of a replica

Calls and compactions, in any order. What `observe_resolution` looks at along such a run, and the
ids the replica issues; a replica is rebuilt from its snapshot under the same id.
-/

namespace AvSync

/-- A call of a mutating entry point, compaction included. -/
inductive Upkeep where
  | call (k : Call)
  | compact

/-- An operation as `observe_resolution` looks at it, and the log at that time. -/
structure Observation where
  log : List TaggedOperation
  op : TaggedOperation

namespace Observation

variable (b : Observation)

/-- The latest earlier operation of the same class. -/
def prior : Option TaggedOperation :=
  (TimelineCrdt.conflictClass b.op.operation).bind fun cls =>
    b.log.dropLast.reverse.find? fun op =>
      op.opId ≠ b.op.opId ∧ TimelineCrdt.conflictClass op.operation = some cls

/-- The event that is recorded. -/
def event : Option ResolutionEvent :=
  (TimelineCrdt.conflictClass b.op.operation).bind fun cls =>
    b.prior.bind fun prior => TimelineCrdt.conflictEvent cls.1 cls.2 b.op prior

/-- The other operations of the same class in the log. -/
def rivals : List TaggedOperation :=
  b.log.filter fun op => op.opId ≠ b.op.opId ∧
    TimelineCrdt.conflictClass op.operation = TimelineCrdt.conflictClass b.op.operation

/-- An event about a move or a delete names the operation the winner exactly if its tag is above
the tags of all others. -/
def TellsWinner : Prop :=
  ∀ event, b.event = some event → event.kind ≠ .split →
    (event.opWon = true ↔ ∀ o ∈ b.rivals, o.tag < b.op.tag)

/-- Where a move or a delete is concurrent with the latest other one, and some other one in the log
is above it, the latest is. -/
def LatestDecides : Prop :=
  ∀ prior, b.prior = some prior → b.op.vectorClock.isConcurrent prior.vectorClock = true →
    (∀ x f n, b.op.operation ≠ .splitClip x f n) →
    (∃ o ∈ b.rivals, b.op.tag ≤ o.tag) → b.op.tag ≤ prior.tag

end Observation

namespace TimelineCrdt

def maintain (c : TimelineCrdt) : Upkeep → Option TimelineCrdt
  | .call k => c.call k
  | .compact => some c.compact

/-- A timeline under calls and compactions. -/
def maintained : Machine (Option TimelineCrdt) Upkeep where
  step c u := c.bind (·.maintain u)
  enabled c u := (c.bind (·.maintain u)).isSome

/-! ## Observations -/

/-- `apply_remote` up to the retry of the buffer, for an operation that has not been seen. -/
def receive (c : TimelineCrdt) (op : TaggedOperation) : TimelineCrdt :=
  let c := { c with
    vectorClock := (c.vectorClock.merge op.vectorClock).witness op.peerId op.lamportTs
    lamport := c.lamport.observe op.lamportTs
    seen := insert op.opId c.seen
    operationLog := c.operationLog ++ [op] }
  let c := c.observeResolution op
  match c.session.apply op.operation op.tag with
  | (.ok _, session) => { c with session := session }
  | (.error _, session) => { c with session := session, pending := c.pending ++ [op] }

/-- The observations of the retry passes. -/
def drainObserved : ℕ → TimelineCrdt → List Observation
  | 0, _ => []
  | n + 1, c =>
    c.pending.map (⟨c.operationLog, ·⟩) ++
      if c.drainPass.2 then drainObserved n c.drainPass.1 else []

/-- The observations of a remote operation. -/
def observedBy (c : TimelineCrdt) (op : TaggedOperation) : List Observation :=
  if op.opId ∈ c.seen then []
  else
    let c := c.receive op
    ⟨c.operationLog, op⟩ :: drainObserved (c.pending.length + 1) c

/-- The observations of remote operations one after the other. -/
def deliverObserved : TimelineCrdt → List TaggedOperation → List Observation
  | _, [] => []
  | c, op :: ops => c.observedBy op ++ deliverObserved (c.applyRemote op) ops

/-- The observations of a call. -/
def callObserved (c : TimelineCrdt) : Upkeep → List Observation
  | .call k => c.deliverObserved k.received
  | .compact => []

/-- The observations of a run. -/
def observed : Option TimelineCrdt → List Upkeep → List Observation
  | none, _ | some _, [] => []
  | some c, k :: ks => c.callObserved k ++ observed (c.maintain k) ks

/-- No operation that waits once `op` has been taken in, `op` included if it misses its target,
raises an event when it is retried. -/
def QuietRetries (c : TimelineCrdt) (op : TaggedOperation) : Prop :=
  op.opId ∉ c.seen →
    ∀ o ∈ c.pending ++ (if c.session.Succeeds op then [] else [op]),
      (⟨c.operationLog ++ [op], o⟩ : Observation).event = none

instance (c : TimelineCrdt) (op : TaggedOperation) : Decidable (c.QuietRetries op) :=
  inferInstanceAs (Decidable (_ → _))

/-- The retries for each of the remote operations raise no event. -/
def QuietDeliveries : TimelineCrdt → List TaggedOperation → Prop
  | _, [] => True
  | c, op :: ops => c.QuietRetries op ∧ QuietDeliveries (c.applyRemote op) ops

instance decidableQuietDeliveries : (c : TimelineCrdt) → (ops : List TaggedOperation) →
    Decidable (c.QuietDeliveries ops)
  | _, [] => .isTrue trivial
  | c, op :: ops =>
    have := decidableQuietDeliveries (c.applyRemote op) ops
    inferInstanceAs (Decidable (c.QuietRetries op ∧ QuietDeliveries (c.applyRemote op) ops))

/-- The retries of a call raise no event. -/
def QuietCall (c : Option TimelineCrdt) (k : Call) : Prop :=
  ∀ c', c = some c' → c'.QuietDeliveries k.received

/-- The operations an observation of which raised an event, as often as one did. -/
def raised (l : List Observation) : List OperationId :=
  (l.filter fun b => b.event.isSome).map (·.op.opId)

/-! ## Rebuilt replicas -/

/-- The id a call issues, if it returns. -/
def issuedId (c : TimelineCrdt) : Upkeep → List OperationId
  | .call k =>
    if (c.call k).isSome then ((c.issued k).map fun op => (c.tagNext op).opId).toList else []
  | .compact => []

/-- The ids a run issues. -/
def issuedIds : Option TimelineCrdt → List Upkeep → List OperationId
  | none, _ | some _, [] => []
  | some c, k :: ks => c.issuedId k ++ issuedIds (c.maintain k) ks

/-- The remote operations of a call are other peers' and below the greatest timestamp. -/
def FromOthers (peer : PeerId) : Upkeep → Prop
  | .call k => ∀ o ∈ k.received, o.opId.peer ≠ peer ∧ o.peerId ≠ peer ∧ o.lamportTs < u64Max
  | .compact => True

/-- Of the operations, one has the timestamp `t` or a later one, or none has the one before `t`
(and `t` is not the first). -/
def PassesBy (ops : List TaggedOperation) (t : UInt64) : Prop :=
  (t < u64Max ∧ ∃ o ∈ ops, t ≤ o.lamportTs) ∨
    (t ≠ 1 ∧ ∀ o ∈ ops, saturatingAdd o.lamportTs 1 ≠ t)

instance (ops : List TaggedOperation) (t : UInt64) : Decidable (PassesBy ops t) :=
  inferInstanceAs (Decidable (_ ∨ _))

/-- The replica rebuilt from its snapshot issues no id again with its next edit. -/
def IssuesAnew (c : TimelineCrdt) (peer : PeerId) (ids : List OperationId) : Prop :=
  ∀ operation tagged c', (fromSnapshot c.snapshot peer).applyLocal operation =
    some (tagged, c') → tagged.opId ∉ ids

end TimelineCrdt

end AvSync
