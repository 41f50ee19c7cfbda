import AvSync.TimelineCrdt
import AvSync.Lib.Machine

/-!
# Replaying operations on a session

The session as a machine whose events are tagged operations: each runs `Session.apply`, and is
enabled where that succeeds.
-/

namespace AvSync

namespace TimelineOperation

/-- The clip whose registers the operation writes. -/
def editedClip : TimelineOperation → Option ClipId
  | insertClip x .. | moveClip x .. | deleteClip x | trimClip x .. | updateClipMetadata x _ =>
    some x
  | _ => none

/-- The track whose registers the operation writes. -/
def editedTrack : TimelineOperation → Option TrackId
  | insertTrack x .. | updateTrackMetadata x _ | deleteTrack x => some x
  | _ => none

end TimelineOperation

/-- An operation as a peer with an empty vector clock stamps it. -/
def TaggedOperation.of (lamport peer : UInt64) (op : TimelineOperation) : TaggedOperation :=
  ⟨⟨lamport, ⟨peer⟩⟩, op, lamport, .new, ⟨peer⟩⟩

namespace Session

/-- The session after an attempt to apply `o`. -/
def exec (s : Session) (o : TaggedOperation) : Session := (s.apply o.operation o.tag).2

/-- `o` applies. -/
def Succeeds (s : Session) (o : TaggedOperation) : Prop :=
  (s.apply o.operation o.tag).1 = .ok ()

instance (s : Session) (o : TaggedOperation) : Decidable (s.Succeeds o) :=
  match h : (s.apply o.operation o.tag).1 with
  | .ok () => .isTrue h
  | .error _ => .isFalse fun h' => by rw [Succeeds, h] at h'; cases h'

/-- Sessions under tagged operations. -/
def machine : Machine Session TaggedOperation := ⟨exec, Succeeds⟩

/-- The session after attempting operations one after the other. -/
abbrev replay (s : Session) (ops : List TaggedOperation) : Session := machine.run s ops

/-- Every operation applies where it is attempted. -/
abbrev Applies (s : Session) (ops : List TaggedOperation) : Prop := machine.Valid s ops

/-- The operations that apply when they are attempted one after the other. -/
def applied : Session → List TaggedOperation → List TaggedOperation
  | _, [] => []
  | s, o :: l => if s.Succeeds o then o :: applied (s.exec o) l else applied (s.exec o) l

/-- The operations that fail when they are attempted one after the other. -/
def rejected : Session → List TaggedOperation → List TaggedOperation
  | _, [] => []
  | s, o :: l => if s.Succeeds o then rejected (s.exec o) l else o :: rejected (s.exec o) l

/-- The entity of a target is there. -/
def HasTarget (s : Session) : RequiredTarget → Prop
  | .clip id => id ∈ s.clips
  | .track id => id ∈ s.tracks

/-- Every entity `op` requires is there. -/
def HasTargets (s : Session) (op : TimelineOperation) : Prop :=
  ∀ r ∈ op.requiredTargets, s.HasTarget r

/-- `op` misses an entity it needs. A split of a clip into itself is ignored and needs none. -/
def Misses (s : Session) (op : TimelineOperation) : Prop :=
  ¬s.HasTargets op ∧ ∀ c f, op ≠ .splitClip c f c

/-- Applying `op` leaves the entity `r` behind, whether or not it was there before. -/
def Creates (s : Session) : TimelineOperation → RequiredTarget → Prop
  | .insertClip x .., .clip y => x = y
  | .splitClip c _ n, .clip y => n = y ∧ c ∈ s.clips
  | .insertTrack x .., .track y => x = y
  | _, _ => False

/-- `op` splits a clip that is not there, and yet changes the child: the claim takes the child from
a larger one, or it is the child's claim, or the child's first, and the tag revives it. -/
def RewritesChild (s : Session) (op : TimelineOperation) (t : OpTag) : Prop :=
  ∃ c f n child, op = .splitClip c f n ∧ c ≠ n ∧ c ∉ s.clips ∧ s.clips[n]? = some child ∧
    ((∃ k, child.originClaim = some k ∧ (⟨c, f⟩ : Claim) < k) ∨
      child.originClaim.getD ⟨c, f⟩ = ⟨c, f⟩ ∧ child.alive.tag < t)

/-- `op` writes registers of an entity that is there, and does nothing else. -/
def Settled (s : Session) : TimelineOperation → Prop
  | .insertClip x .. => x ∈ s.clips
  | .splitClip .. => False
  | .insertTrack x .. => x ∈ s.tracks
  | op => s.HasTargets op

end Session

end AvSync
