import AvSync.LocalRuns
import AvSync.Network

/-!
# Replicas that edit together

Every replica of a net edits what it has, and brings in entities under ids of their own, while
operations reach it in any order, again and again or never.
-/

namespace AvSync

namespace Net

/-- No operation introduces `r`. -/
def Unused (N : Net) (r : RequiredTarget) : Prop :=
  ∀ o ∈ N.history.created, o.operation.introduced ≠ some r

/-- A local edit finds its targets and the Lamport counter below its maximum, and what it brings in
has an id that nothing has used. -/
def EditsOwn (N : Net) : NetEvent → Prop
  | .create p operation =>
    (N.replica p).session.HasTargets operation ∧
      (∀ r, operation.introduced = some r → N.Unused r) ∧
        (N.replica p).lamport.counter < u64Max
  | .deliver .. => True

/-- Two replicas know the same operations. -/
def SameLog (N : Net) (p q : PeerId) : Prop :=
  ∀ o, o ∈ (N.replica p).operationLog ↔ o ∈ (N.replica q).operationLog

end Net

namespace TimelineCrdt

/-- Two timelines show the same: their sessions, the view, which there is, and the operations that
wait. -/
structure Agree (c d : TimelineCrdt) : Prop where
  session : c.session = d.session
  view : ∃ v, c.view = some v ∧ d.view = some v
  pending : ∀ o, o ∈ c.pending ↔ o ∈ d.pending

end TimelineCrdt

end AvSync
