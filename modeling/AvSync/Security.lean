import AvSync.State

/-!
# Limits on untrusted input

The shared error type, and the structural limits an operation of unknown origin is checked
against.
-/

namespace AvSync

/-- Errors produced across the crates. -/
inductive SyncError where
  | serialization (message : String)
  | transport (message : String)
  | peerNotFound (peer : PeerId)
  | duplicateOperation (opId : OperationId)
  | unknownTarget (target : UnknownTarget)
  | invalidOperation (message : String)
  | disconnected
  | timeout
  deriving DecidableEq

/-- Longest accepted string field, in bytes. -/
def maxStringBytes : ℕ := 4 * 1024

/-- Most points accepted in one envelope update. -/
def maxEnvelopePoints : ℕ := 100000

/-- Checks one string field against the byte limit. -/
def validateString (value field : String) : Except SyncError Unit :=
  if maxStringBytes < value.utf8ByteSize then
    .error (.invalidOperation (field ++ " of " ++ toString value.utf8ByteSize ++
      " bytes exceeds the " ++ toString maxStringBytes ++ " byte limit"))
  else .ok ()

/-- Checks a field that may be absent. -/
def validateOption (value : Option String) (field : String) : Except SyncError Unit :=
  match value with
  | some v => validateString v field
  | none => .ok ()

/-- Checks the structural payload limits of an operation. -/
def TimelineOperation.validate : TimelineOperation → Except SyncError Unit
  | insertClip _ _ clip _ => do
    validateString clip.name "clip name"
    validateString clip.source "clip source"
  | updateClipMetadata _ updates => do
    validateOption updates.name "clip name"
    validateOption updates.source "clip source"
  | insertTrack _ track _ => validateString track.name "track name"
  | updateTrackMetadata _ updates => validateOption updates.name "track name"
  | updateEnvelope _ envelopeType points =>
    if maxEnvelopePoints < points.length then
      .error (.invalidOperation ("envelope point count " ++ toString points.length ++
        " exceeds limit " ++ toString maxEnvelopePoints))
    else
      match envelopeType with
      | .custom name => validateString name "envelope parameter name"
      | _ => .ok ()
  | updateSessionMetadata updates => validateOption updates.name "session name"
  | moveClip .. | deleteClip _ | splitClip .. | trimClip .. | deleteTrack _ => .ok ()

/-- An operation within its limits. -/
def TaggedOperation.Valid (o : TaggedOperation) : Prop := o.operation.validate = .ok ()

instance (o : TaggedOperation) : Decidable o.Valid :=
  match h : o.operation.validate with
  | .ok () => .isTrue h
  | .error _ => .isFalse fun h' => by rw [TaggedOperation.Valid, h] at h'; cases h'

end AvSync
