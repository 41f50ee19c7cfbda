import AvSync.Editing
import AvSync.EngineRuns

/-!
# Engines on a loopback fabric

`LoopbackTransport::fabric` connects engines in one process: what one sends is put into the
channels of all the others, and no end is dropped. A run interleaves the calls of the engines with
links that fail and come back between calls. A channel has room for 4096 messages, and a send into
a full one waits until its end reads. A call runs alone here, so one that comes to wait does not
return, and is no call of these runs.
-/

namespace AvSync

/-- The operations a message carries, those of a snapshot included. -/
def SyncMessage.contents : SyncMessage → List TaggedOperation
  | .operation op => [op]
  | .batch ops => ops
  | .snapshot s => s.ops
  | _ => []

/-- The capacity of a `sync_channel`. -/
def channelCapacity : ℕ := 4096

/-- The ends of a fabric: their channels, their `fail_sends` flags, and the readings of the system
clock to come. It is blocked once a send has found a channel full. -/
structure Fabric where
  ids : List PeerId
  distinct : ids.Nodup
  inbox : PeerId → List (PeerId × SyncMessage)
  failSends : PeerId → Bool
  clock : ℕ → UInt64
  blocked : Bool

namespace Fabric

/-- `LoopbackTransport::fabric` -/
def fabric (ids : List PeerId) (distinct : ids.Nodup) (clock : ℕ → UInt64) : Fabric :=
  ⟨ids, distinct, fun _ => [], fun _ => false, clock, false⟩

variable (f : Fabric) (p : PeerId)

/-- The ends that an end is connected to. -/
def others : List PeerId := f.ids.filter (· ≠ p)

/-- A message from `p` in the channel of each other end. -/
def deliver (msg : SyncMessage) : Fabric :=
  { f with
    inbox := fun q => if q ∈ f.others p then f.inbox q ++ [(p, msg)] else f.inbox q
    blocked := f.blocked || (f.others p).any fun q => channelCapacity ≤ (f.inbox q).length }

/-- The transport of `p`. A message to one peer is delivered to all connected ends. -/
def host : Host Fabric where
  sendTo _ msg f :=
    if f.failSends p then (.error (.transport "loopback send failure"), f)
    else (.ok (), f.deliver p msg)
  broadcast msg f :=
    if f.failSends p || (f.others p).isEmpty then
      (.error (.transport "no connected peers"), f)
    else (.ok (), f.deliver p msg)
  tryRecv f :=
    match f.inbox p with
    | [] => (.ok none, f)
    | m :: rest => (.ok (some m), { f with inbox := Function.update f.inbox p rest })
  peers f := if f.failSends p then [] else f.others p
  nowMs f := (f.clock 0, { f with clock := fun n => f.clock (n + 1) })

end Fabric

/-- The engines of a fabric. The transport an engine holds is the fabric as it was when it was
called last. -/
structure Collaboration where
  fabric : Fabric
  engines : PeerId → SyncEngine Fabric

inductive CollaborationEvent where
  | call (p : PeerId) (a : EngineEvent Fabric)
  | setFailSends (p : PeerId) (fail : Bool)

namespace Collaboration

/-- Engines on fresh timelines. -/
def new (f : Fabric) (config : PeerId → EngineConfig) : Collaboration :=
  ⟨f, fun p => .withConfig (.new p) f (config p)⟩

variable (C : Collaboration)

/-- The engine of `p`, on the fabric as it is. -/
def engine (p : PeerId) : SyncEngine Fabric := { C.engines p with transport := C.fabric }

def step : CollaborationEvent → Collaboration
  | .call p a =>
    let e := (C.engine p).step (Fabric.host p) a
    ⟨e.transport, Function.update C.engines p e⟩
  | .setFailSends p fail =>
    { C with fabric := { C.fabric with failSends := Function.update C.fabric.failSends p fail } }

/-- A call by one of the ends, to an entry point of the engine, that returns. -/
def Enabled : CollaborationEvent → Prop
  | .call p a => p ∈ C.fabric.ids ∧
    (match a with
    | .applyLocal operation => ((C.engine p).applyLocal (Fabric.host p) operation).isSome
    | .crdtMut _ | .transportMut _ => False
    | _ => True) ∧ (C.step (.call p a)).fabric.blocked = false
  | .setFailSends .. => True

def machine : Machine Collaboration CollaborationEvent := ⟨step, Enabled⟩

/-- No operation in a log introduces `r`. -/
def Unused (r : RequiredTarget) : Prop :=
  ∀ q ∈ C.fabric.ids, (C.engines q).crdt.Unused r

/-- A local edit is within the limits and finds the Lamport counter below its maximum. The queue is
not flushed by hand while the link is down. -/
def Transmits : CollaborationEvent → Prop
  | .call p (.applyLocal operation) =>
    operation.validate = .ok () ∧ (C.engines p).crdt.lamport.counter < u64Max
  | .call p .flushOfflineQueue => C.fabric.failSends p = false
  | _ => True

/-- A local edit finds its targets and the Lamport counter below its maximum, and what it brings in
has an id that nothing has used. -/
def EditsOwn : CollaborationEvent → Prop
  | .call p (.applyLocal operation) =>
    (C.engines p).crdt.session.HasTargets operation ∧
      (∀ r, operation.introduced = some r → C.Unused r) ∧
        (C.engines p).crdt.lamport.counter < u64Max
  | _ => True

/-! ## Where an operation is -/

/-- An engine has `o` in its offline queue, or has dropped it from there. -/
def Queues (e : SyncEngine Fabric) (o : TaggedOperation) : Prop :=
  ∃ msg, (msg ∈ e.offline.queue ∨ msg ∈ e.offline.evicted) ∧ o ∈ msg.contents

/-- `q` has `o` in its log, or will find it in its channel, or it waits in an offline queue or has
been dropped from one that was full. -/
def Reaches (q : PeerId) (o : TaggedOperation) : Prop :=
  o ∈ (C.engines q).crdt.operationLog ∨ (∃ m ∈ C.fabric.inbox q, o ∈ m.2.contents) ∨
    ∃ r ∈ C.fabric.ids, Queues (C.engines r) o

/-- Nothing is on its way, and no queue has overflowed. -/
def Quiet : Prop :=
  ∀ q ∈ C.fabric.ids, C.fabric.inbox q = [] ∧ (C.engines q).offline.queue = [] ∧
    (C.engines q).offline.evicted = []

/-- Every link is up. -/
def Connected : Prop := ∀ p ∈ C.fabric.ids, C.fabric.failSends p = false

/-- What waits in a queue waits for a peer to join: an engine flushes its queue when it notices
one, and at no other time of its own. -/
def Flushable : Prop :=
  ∀ p ∈ C.fabric.ids, (C.engines p).offline.queue = [] ∨
    ∃ q ∈ C.fabric.others p, q ∉ (C.engines p).knownPeers

/-- One call of `process_messages` for each of `ids`. -/
def round (ids : List PeerId) : List CollaborationEvent :=
  ids.map fun p => .call p .processMessages

end Collaboration

end AvSync
