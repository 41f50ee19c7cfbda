import AvSync.Ancestry
import AvSync.Calls

/-!
# Runs of one user

A run of local edits, undos and redos. Every insert and every split brings in an id of its own;
any other edit finds its target.
-/

namespace AvSync

/-- The entity an insert or a split introduces. -/
def TimelineOperation.introduced : TimelineOperation → Option RequiredTarget
  | insertClip x .. => some (.clip x)
  | splitClip _ _ n => some (.clip n)
  | insertTrack x .. => some (.track x)
  | _ => none

namespace Session

instance (s : Session) : (r : RequiredTarget) → Decidable (s.HasTarget r)
  | .clip x => inferInstanceAs (Decidable (x ∈ s.clips))
  | .track x => inferInstanceAs (Decidable (x ∈ s.tracks))

instance (s : Session) (op : TimelineOperation) : Decidable (s.HasTargets op) :=
  inferInstanceAs (Decidable (∀ r ∈ op.requiredTargets, s.HasTarget r))

end Session

namespace TimelineCrdt

/-- No operation of the log introduces `r`. -/
def Unused (c : TimelineCrdt) (r : RequiredTarget) : Prop :=
  ∀ o ∈ c.operationLog, o.operation.introduced ≠ some r

instance (c : TimelineCrdt) (r : RequiredTarget) : Decidable (c.Unused r) :=
  inferInstanceAs (Decidable (∀ o ∈ c.operationLog, o.operation.introduced ≠ some r))

/-- `op` introduces an entity nothing has introduced, or edits entities that are there. -/
def Admits (c : TimelineCrdt) (op : TimelineOperation) : Prop :=
  match op.introduced with
  | some r => c.Unused r
  | none => c.session.HasTargets op

instance (c : TimelineCrdt) (op : TimelineOperation) : Decidable (c.Admits op) :=
  match h : op.introduced with
  | some r => decidable_of_iff (c.Unused r) (by simp only [Admits, h])
  | none => decidable_of_iff (c.session.HasTargets op) (by simp only [Admits, h])

/-- A call of the one user. -/
def UserCall (c : TimelineCrdt) : Call → Prop
  | .applyLocal op => c.Admits op
  | .undo | .redo => True
  | .applyRemote _ | .mergeSnapshot _ => False

instance (c : TimelineCrdt) : (k : Call) → Decidable (c.UserCall k)
  | .applyLocal op => inferInstanceAs (Decidable (c.Admits op))
  | .undo | .redo => .isTrue trivial
  | .applyRemote _ | .mergeSnapshot _ => .isFalse id

/-- A local operation finds the Lamport counter below its maximum. -/
def Ticks (c : TimelineCrdt) (k : Call) : Prop :=
  (c.issued k).isSome → c.lamport.counter < u64Max

instance (c : TimelineCrdt) (k : Call) : Decidable (c.Ticks k) :=
  inferInstanceAs (Decidable (_ → _))

/-- No insert that the call issues writes to a split child. -/
def InsertsRoots (c : TimelineCrdt) (k : Call) : Prop :=
  ∀ x r d p, c.issued k = some (.insertClip x r d p) → c.session.parentOf x = none

/-- No insert that the call issues writes to a detached split child. -/
def InsertsAttached (c : TimelineCrdt) (k : Call) : Prop :=
  ∀ x r d p, c.issued k = some (.insertClip x r d p) →
    ∀ clip, c.session.clips[x]? = some clip → clip.parent ≠ none → clip.detached = false

end TimelineCrdt

end AvSync
