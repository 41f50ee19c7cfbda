import AvSync.State

/-!
# Undo and redo

Every recorded local operation carries its inverse, computed against the session before it was
applied. Undoing applies the inverse as a fresh local operation.
-/

namespace AvSync

/-- A recorded operation and its inverse. -/
structure HistoryEntry where
  forward : TimelineOperation
  inverse : TimelineOperation
  deriving DecidableEq

/-- Bounded undo/redo stacks, the most recent entry first. -/
structure History where
  undoStack : List HistoryEntry
  redoStack : List HistoryEntry
  capacity : ℕ

namespace History

/-- An empty history with the given undo depth. -/
def new (capacity : ℕ) : History := ⟨[], [], max capacity 1⟩

/-- Pushes a new entry and clears redo; a full stack drops its oldest entry. -/
def record (h : History) (entry : HistoryEntry) : History :=
  let undoStack := if h.capacity ≤ h.undoStack.length then h.undoStack.dropLast else h.undoStack
  { h with undoStack := entry :: undoStack, redoStack := [] }

def popUndo (h : History) : Option (HistoryEntry × History) :=
  match h.undoStack with
  | [] => none
  | entry :: rest => some (entry, { h with undoStack := rest })

def pushRedo (h : History) (entry : HistoryEntry) : History :=
  { h with redoStack := entry :: h.redoStack }

def popRedo (h : History) : Option (HistoryEntry × History) :=
  match h.redoStack with
  | [] => none
  | entry :: rest => some (entry, { h with redoStack := rest })

def pushUndo (h : History) (entry : HistoryEntry) : History :=
  { h with undoStack := entry :: h.undoStack }

end History

/-! ## Inverses -/

/-- The insert that brings a resolved clip back. -/
def reinsertClip (clipId : ClipId) (prev : Session.ResolvedClip) : TimelineOperation :=
  .insertClip clipId prev.values.trackId
    ⟨prev.values.name, prev.values.source, prev.startFrame, prev.durationFrames,
      prev.values.color⟩
    prev.values.orderHint

/-- The inverse of `UpdateSessionMetadata`. -/
def computeSessionMetadataInverse (updates : SessionMetadataUpdate)
    (current : Session.SessionMetadata) : TimelineOperation :=
  .updateSessionMetadata {
    name := updates.name.map fun _ => current.name
    sampleRate := updates.sampleRate.map fun _ => current.sampleRate
    tempoBpm := updates.tempoBpm.map fun _ => current.tempoBpm
    timeSignatureNumerator := updates.timeSignatureNumerator.map fun _ => current.timeSignature.1
    timeSignatureDenominator :=
      updates.timeSignatureDenominator.map fun _ => current.timeSignature.2 }

/-- The inverse of `op` against the session before it, if it has one. The outer `none` is a walk
up the parent links that does not return. -/
def computeInverse (op : TimelineOperation) (s : Session) : Option (Option TimelineOperation) :=
  match op with
  | .insertClip clipId .. =>
    if clipId ∈ s.clips then (s.resolveClip clipId).map fun prev => prev.map (reinsertClip clipId)
    else some (some (.deleteClip clipId))
  | .moveClip clipId .. => (s.resolveClip clipId).map fun prev => prev.map fun prev =>
      .moveClip clipId prev.values.trackId prev.startFrame prev.values.orderHint
  | .deleteClip clipId => (s.resolveClip clipId).map fun prev => prev.map (reinsertClip clipId)
  | .splitClip _ _ newClipId =>
    if newClipId ∈ s.clips then some none else some (some (.deleteClip newClipId))
  | .trimClip clipId _ _ edge => (s.resolveClip clipId).map fun prev => prev.map fun prev =>
      .trimClip clipId prev.startFrame prev.durationFrames edge
  | .updateClipMetadata clipId updates => (s.resolveClip clipId).map fun prev =>
      prev.map fun prev => .updateClipMetadata clipId {
        name := updates.name.map fun _ => prev.values.name
        source := updates.source.map fun _ => prev.values.source
        color := updates.color.map fun _ => prev.values.color
        gain := updates.gain.map fun _ => prev.values.gain
        muted := updates.muted.map fun _ => prev.values.muted
        locked := updates.locked.map fun _ => prev.values.locked }
  | .insertTrack trackId .. =>
    match s.tracks[trackId]? with
    | some prev => some (some (.insertTrack trackId prev.toTrackData prev.orderHint.value))
    | none => some (some (.deleteTrack trackId))
  | .updateTrackMetadata trackId updates => some <| s.tracks[trackId]?.map fun prev =>
      .updateTrackMetadata trackId {
        name := updates.name.map fun _ => prev.name.value
        volumeDb := updates.volumeDb.map fun _ => prev.volumeDb.value
        muted := updates.muted.map fun _ => prev.muted.value
        solo := updates.solo.map fun _ => prev.solo.value
        position := updates.position.map fun _ => prev.orderHint.value }
  | .deleteTrack trackId => some <| s.tracks[trackId]?.map fun prev =>
      .insertTrack trackId prev.toTrackData prev.orderHint.value
  | .updateEnvelope targetId envelopeType _ =>
    some (some (.updateEnvelope targetId envelopeType
      ((s.envelopes.get targetId envelopeType).getD [])))
  | .updateSessionMetadata updates => s.materialize.map fun view =>
      some (computeSessionMetadataInverse updates view.metadata)

end AvSync
