import AvSync.TimelineCrdt
import AvSync.Lib.Machine
import AvSync.Lib.Causality

/-!
# Replicas that exchange operations

Any number of timelines, each of which creates operations and is handed operations that any of
them has created, in any order, again and again or never. Beside them stands the causal history
of the run, which reads no clock.
-/

namespace AvSync

/-- A timeline for each peer, and what has happened. -/
structure Net where
  replica : PeerId → TimelineCrdt
  history : CausalHistory PeerId TaggedOperation

/-- Something a replica does. -/
inductive NetEvent where
  | create (peer : PeerId) (operation : TimelineOperation)
  | deliver (peer : PeerId) (op : TaggedOperation)

namespace Net

/-- Fresh timelines, and no operation. -/
def new : Net := ⟨TimelineCrdt.new, .empty⟩

/-- The net after an event. -/
def step (N : Net) : NetEvent → Net
  | .create p operation =>
    match (N.replica p).applyLocal operation with
    | none => N
    | some (op, c) => ⟨Function.update N.replica p c, N.history.create p op⟩
  | .deliver p op =>
    ⟨Function.update N.replica p ((N.replica p).applyRemote op), N.history.learn p op⟩

/-- A local call returns, and what is delivered has been created. -/
def Enabled (N : Net) : NetEvent → Prop
  | .create p operation => ((N.replica p).applyLocal operation).isSome
  | .deliver _ op => op ∈ N.history.created

/-- Nets under events. -/
def machine : Machine Net NetEvent := ⟨step, Enabled⟩

/-- A local operation finds the Lamport counter below its maximum. -/
def Ticks (N : Net) : NetEvent → Prop
  | .create p _ => (N.replica p).lamport.counter < u64Max
  | .deliver .. => True

instance (N : Net) : (e : NetEvent) → Decidable (N.Ticks e)
  | .create p _ => inferInstanceAs (Decidable ((N.replica p).lamport.counter < u64Max))
  | .deliver .. => .isTrue trivial

/-- A local operation finds both counters below their maximum. A delivery of an operation that is
new to the replica finds its timestamp counted already, in the entry of its creator, by the
replica's vector clock or the operation's. -/
def Counted (N : Net) : NetEvent → Prop
  | .create p _ =>
    (N.replica p).lamport.counter < u64Max ∧ (N.replica p).vectorClock.get p < u64Max
  | .deliver p op => op.opId ∉ (N.replica p).seen →
    op.lamportTs ≤ max ((N.replica p).vectorClock.get op.peerId) (op.vectorClock.get op.peerId)

end Net

end AvSync
