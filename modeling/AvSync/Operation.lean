import AvSync.Merge

/-!
# Timeline operations

The replicated vocabulary: eleven operations with absolute payloads, and the tagged form peers
exchange. The wall-clock timestamp of a tagged operation is for display only and left out.
-/

namespace AvSync

/-- Unique identifier of a clip. -/
structure ClipId where
  raw : UInt64

namespace ClipId

theorem raw_injective : Function.Injective raw := by
  rintro ⟨a⟩ ⟨b⟩ h
  simpa using h

instance : LinearOrder ClipId := LinearOrder.lift' raw raw_injective

end ClipId

/-- Unique identifier of a track. -/
structure TrackId where
  raw : UInt64

namespace TrackId

theorem raw_injective : Function.Injective raw := by
  rintro ⟨a⟩ ⟨b⟩ h
  simpa using h

instance : LinearOrder TrackId := LinearOrder.lift' raw raw_injective

end TrackId

inductive TrimEdge where
  | start
  | «end»
  deriving DecidableEq

inductive TrackKind where
  | audio
  | video
  | midi
  | bus
  deriving DecidableEq

/-- Data of a newly created clip. -/
structure ClipData where
  name : String
  source : String
  startFrame : UInt64
  durationFrames : UInt64
  color : UInt32
  deriving DecidableEq

/-- `ClipData::new` -/
def ClipData.new (name : String) (startFrame durationFrames : UInt64) : ClipData :=
  ⟨name, "", startFrame, durationFrames, 0xFFAACC88⟩

/-- Per-field clip updates, `none` leaving a field unchanged. -/
structure ClipMetadataUpdate where
  name : Option String := none
  source : Option String := none
  color : Option UInt32 := none
  gain : Option F32 := none
  muted : Option Bool := none
  locked : Option Bool := none
  deriving DecidableEq

/-- Data of a newly created track. -/
structure TrackData where
  name : String
  kind : TrackKind
  volumeDb : F32
  muted : Bool
  solo : Bool
  deriving DecidableEq

/-- `TrackData::new` -/
def TrackData.new (name : String) : TrackData := ⟨name, .audio, ⟨0⟩, false, false⟩

structure TrackMetadataUpdate where
  name : Option String := none
  volumeDb : Option F32 := none
  muted : Option Bool := none
  solo : Option Bool := none
  position : Option UInt64 := none
  deriving DecidableEq

structure SessionMetadataUpdate where
  name : Option String := none
  sampleRate : Option UInt32 := none
  tempoBpm : Option F64 := none
  timeSignatureNumerator : Option UInt32 := none
  timeSignatureDenominator : Option UInt32 := none
  deriving DecidableEq

/-- What an automation envelope is attached to. -/
inductive TargetId where
  | clip (id : ClipId)
  | track (id : TrackId)

namespace TargetId

/-- Clips sort before tracks. -/
def key : TargetId → ClipId ⊕ₗ TrackId
  | clip c => toLex (.inl c)
  | track t => toLex (.inr t)

theorem key_injective : Function.Injective key := by
  rintro (a | a) (b | b) h <;> simp_all [key]

instance : LinearOrder TargetId := LinearOrder.lift' key key_injective

end TargetId

/-- The parameter an automation envelope controls. -/
inductive EnvelopeType where
  | volume
  | pan
  | mute
  | custom (name : String)

namespace EnvelopeType

/-- The variant first, then the name of a custom parameter. -/
def key : EnvelopeType → ℕ ×ₗ String
  | volume => toLex (0, "")
  | pan => toLex (1, "")
  | mute => toLex (2, "")
  | custom name => toLex (3, name)

theorem key_injective : Function.Injective key := by
  rintro (_ | _ | _ | a) (_ | _ | _ | b) h <;> simp_all [key]

instance : LinearOrder EnvelopeType := LinearOrder.lift' key key_injective

end EnvelopeType

inductive Interpolation where
  | linear
  | step
  | smooth
  deriving DecidableEq

structure EnvelopePoint where
  frame : UInt64
  value : F32
  interpolation : Interpolation
  deriving DecidableEq

inductive TimelineOperation where
  | insertClip (clipId : ClipId) (trackId : TrackId) (clip : ClipData) (position : UInt64)
  | moveClip (clipId : ClipId) (newTrackId : TrackId) (newStartFrame newPosition : UInt64)
  | deleteClip (clipId : ClipId)
  | splitClip (clipId : ClipId) (splitFrame : UInt64) (newClipId : ClipId)
  | trimClip (clipId : ClipId) (newStartFrame newDuration : UInt64) (edge : TrimEdge)
  | updateClipMetadata (clipId : ClipId) (updates : ClipMetadataUpdate)
  | insertTrack (trackId : TrackId) (track : TrackData) (position : UInt64)
  | updateTrackMetadata (trackId : TrackId) (updates : TrackMetadataUpdate)
  | deleteTrack (trackId : TrackId)
  | updateEnvelope (targetId : TargetId) (envelopeType : EnvelopeType)
      (points : List EnvelopePoint)
  | updateSessionMetadata (updates : SessionMetadataUpdate)
  deriving DecidableEq

/-- A target entity an operation requires to already exist. -/
inductive RequiredTarget where
  | clip (id : ClipId)
  | track (id : TrackId)
  deriving DecidableEq

/-- The entities an operation reads or mutates and does not create. -/
def TimelineOperation.requiredTargets : TimelineOperation → List RequiredTarget
  | insertClip .. => []
  | moveClip clipId .. | splitClip clipId .. | trimClip clipId .. | updateClipMetadata clipId _ =>
    [.clip clipId]
  | deleteClip clipId => [.clip clipId]
  | insertTrack .. => []
  | updateTrackMetadata trackId _ => [.track trackId]
  | deleteTrack trackId => [.track trackId]
  | updateEnvelope (.clip c) .. => [.clip c]
  | updateEnvelope (.track t) .. => [.track t]
  | updateSessionMetadata _ => []

/-- An operation with the metadata for ordering and conflict resolution. -/
structure TaggedOperation where
  opId : OperationId
  operation : TimelineOperation
  lamportTs : UInt64
  vectorClock : VectorClock
  peerId : PeerId

namespace TaggedOperation

/-- The application rank `(lamport, peer)`. -/
def rank (o : TaggedOperation) : UInt64 ×ₗ PeerId := toLex (o.lamportTs, o.peerId)

/-- The register tag the operation writes with. -/
def tag (o : TaggedOperation) : OpTag := ⟨o.lamportTs, o.peerId⟩

end TaggedOperation

/-! ## Conflict events -/

/-- What a conflict is about: `"move"`, `"delete"` or `"split"`. -/
inductive ConflictKind where
  | move
  | delete
  | split
  deriving DecidableEq

/-- How a concurrent move, delete or split was resolved. -/
structure ResolutionEvent where
  kind : ConflictKind
  clipId : ClipId
  op : OpTag
  opWon : Bool
  reason : String
  deriving DecidableEq

/-- The event for two concurrent tagged writes: the higher tag wins. -/
def resolveTagConflict (kind : ConflictKind) (clipId : ClipId) (previous incoming : OpTag) :
    ResolutionEvent :=
  ⟨kind, clipId, incoming, decide (previous < incoming), "higher (lamport, peer) tag wins"⟩

end AvSync
