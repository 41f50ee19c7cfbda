import AvSync.Edits

/-!
# Deltas between views

`compute_delta` lists the operations that lead from one view to another, and `apply_delta` applies
them to a session. Values are compared with `==`, on floats as IEEE 754 has it.
-/

namespace AvSync

namespace F32

def isNaN (a : F32) : Bool := decide (0x7F800000 < a.bits &&& 0x7FFFFFFF)

def isZero (a : F32) : Bool := a.bits &&& 0x7FFFFFFF = 0

/-- `==` of `f32`: a NaN equals nothing, and the two zeros are equal. -/
def eq (a b : F32) : Bool :=
  !a.isNaN && !b.isNaN && (decide (a = b) || (a.isZero && b.isZero))

end F32

namespace F64

def isNaN (a : F64) : Bool := decide (0x7FF0000000000000 < a.bits &&& 0x7FFFFFFFFFFFFFFF)

def isZero (a : F64) : Bool := a.bits &&& 0x7FFFFFFFFFFFFFFF = 0

/-- `==` of `f64` -/
def eq (a b : F64) : Bool :=
  !a.isNaN && !b.isNaN && (decide (a = b) || (a.isZero && b.isZero))

end F64

def EnvelopePoint.eq (a b : EnvelopePoint) : Bool :=
  decide (a.frame = b.frame) && a.value.eq b.value && decide (a.interpolation = b.interpolation)

namespace Session

/-! ## Equality of views -/

def SessionMetadata.eq (a b : SessionMetadata) : Bool :=
  decide (a.name = b.name) && decide (a.sampleRate = b.sampleRate) && a.tempoBpm.eq b.tempoBpm &&
    decide (a.timeSignature = b.timeSignature)

def TrackView.eq (a b : TrackView) : Bool :=
  decide (a.trackId = b.trackId) && decide (a.name = b.name) && decide (a.kind = b.kind) &&
    a.volumeDb.eq b.volumeDb && decide (a.muted = b.muted) && decide (a.solo = b.solo) &&
      decide (a.position = b.position)

def ClipView.eq (a b : ClipView) : Bool :=
  decide (a.clipId = b.clipId) && decide (a.values.trackId = b.values.trackId) &&
    decide (a.values.name = b.values.name) && decide (a.values.source = b.values.source) &&
      decide (a.values.color = b.values.color) && a.values.gain.eq b.values.gain &&
        decide (a.values.muted = b.values.muted) && decide (a.values.locked = b.values.locked) &&
          decide (a.startFrame = b.startFrame) && decide (a.durationFrames = b.durationFrames) &&
            decide (a.values.orderHint = b.values.orderHint)

/-- `==` of point lists -/
def pointsEq (a b : List EnvelopePoint) : Bool := a.isEqv b EnvelopePoint.eq

namespace SessionView

/-- `==` of views -/
def eq (v w : SessionView) : Bool :=
  v.metadata.eq w.metadata && v.tracks.isEqv w.tracks TrackView.eq &&
    v.clips.isEqv w.clips ClipView.eq &&
    v.envelopes.toList.isEqv w.envelopes.toList fun a b => decide (a.1 = b.1) && pointsEq a.2 b.2

/-- `SessionView::clip` -/
def clip (v : SessionView) (clipId : ClipId) : Option ClipView :=
  v.clips.find? fun c => decide (c.clipId = clipId)

/-- `SessionView::track` -/
def track (v : SessionView) (trackId : TrackId) : Option TrackView :=
  v.tracks.find? fun t => decide (t.trackId = trackId)

end SessionView

/-- A view as `materialize` computes it: the tracks and the clips each once and in order, and each
clip on a listed track, with frames that do not run over. -/
structure SessionView.WellFormed (v : SessionView) : Prop where
  trackIds : (v.tracks.map (·.trackId)).Nodup
  trackOrder : v.tracks.Pairwise fun a b => trackKey a < trackKey b
  clipIds : (v.clips.map (·.clipId)).Nodup
  clipOrder : v.clips.Pairwise fun a b =>
    clipKey (Std.ExtTreeMap.ofList (v.tracks.map fun t => (t.trackId, t.position))) a <
      clipKey (Std.ExtTreeMap.ofList (v.tracks.map fun t => (t.trackId, t.position))) b
  placed : ∀ c ∈ v.clips, ∃ t ∈ v.tracks, t.trackId = c.values.trackId
  frames : ∀ c ∈ v.clips, 0 < c.durationFrames ∧
    c.startFrame.toNat + c.durationFrames.toNat < 2 ^ 64

/-! ## Computing a delta -/

/-- The update of a field, if it has changed. -/
def changed {α : Type} (same : Bool) (value : α) : Option α := if same then none else some value

def trackUpdates (prev track : TrackView) : TrackMetadataUpdate where
  name := changed (prev.name = track.name) track.name
  volumeDb := changed (prev.volumeDb.eq track.volumeDb) track.volumeDb
  muted := changed (prev.muted = track.muted) track.muted
  solo := changed (prev.solo = track.solo) track.solo
  position := changed (prev.position = track.position) track.position

/-- The insert of a track, or its changed fields. The kind of a track is not compared. -/
def trackDelta (old : SessionView) (track : TrackView) : List TimelineOperation :=
  match old.track track.trackId with
  | none => [.insertTrack track.trackId
      ⟨track.name, track.kind, track.volumeDb, track.muted, track.solo⟩ track.position]
  | some prev =>
    let updates := trackUpdates prev track
    if updates = {} then [] else [.updateTrackMetadata track.trackId updates]

def sessionUpdates (old new : SessionMetadata) : SessionMetadataUpdate where
  name := changed (old.name = new.name) new.name
  sampleRate := changed (old.sampleRate = new.sampleRate) new.sampleRate
  tempoBpm := changed (old.tempoBpm.eq new.tempoBpm) new.tempoBpm
  timeSignatureNumerator := changed (old.timeSignature = new.timeSignature) new.timeSignature.1
  timeSignatureDenominator := changed (old.timeSignature = new.timeSignature) new.timeSignature.2

def sessionDelta (old new : SessionMetadata) : List TimelineOperation :=
  let updates := sessionUpdates old new
  if updates = {} then [] else [.updateSessionMetadata updates]

def clipUpdates (prev clip : ClipView) : ClipMetadataUpdate where
  name := changed (prev.values.name = clip.values.name) clip.values.name
  source := changed (prev.values.source = clip.values.source) clip.values.source
  color := changed (prev.values.color = clip.values.color) clip.values.color
  gain := changed (prev.values.gain.eq clip.values.gain) clip.values.gain
  muted := changed (prev.values.muted = clip.values.muted) clip.values.muted
  locked := changed (prev.values.locked = clip.values.locked) clip.values.locked

/-- The insert of a clip, or its move, trim and changed fields. -/
def clipDelta (old : SessionView) (clip : ClipView) : List TimelineOperation :=
  match old.clip clip.clipId with
  | none => [.insertClip clip.clipId clip.values.trackId ⟨clip.values.name, clip.values.source,
      clip.startFrame, clip.durationFrames, clip.values.color⟩ clip.values.orderHint]
  | some prev =>
    let updates := clipUpdates prev clip
    (if prev.values.trackId ≠ clip.values.trackId ∨ prev.startFrame ≠ clip.startFrame ∨
        prev.values.orderHint ≠ clip.values.orderHint then
      [.moveClip clip.clipId clip.values.trackId clip.startFrame clip.values.orderHint] else []) ++
    (if prev.durationFrames ≠ clip.durationFrames then
      [.trimClip clip.clipId clip.startFrame clip.durationFrames .end] else []) ++
    (if updates = {} then [] else [.updateClipMetadata clip.clipId updates])

/-- The update of an envelope whose points have changed. -/
def envelopeDelta (old : SessionView) (e : (TargetId ×ₗ EnvelopeType) × List EnvelopePoint) :
    List TimelineOperation :=
  if old.envelopes[e.1]?.any (pointsEq · e.2) then []
  else [.updateEnvelope (ofLex e.1).1 (ofLex e.1).2 e.2]

/-- `compute_delta` -/
def computeDelta (old new : SessionView) : List TimelineOperation :=
  new.tracks.flatMap (trackDelta old) ++
  (old.tracks.filter fun t => (new.track t.trackId).isNone).map (.deleteTrack ·.trackId) ++
  sessionDelta old.metadata new.metadata ++
  new.clips.flatMap (clipDelta old) ++
  (old.clips.filter fun c => (new.clip c.clipId).isNone).map (.deleteClip ·.clipId) ++
  new.envelopes.toList.flatMap (envelopeDelta old)

/-! ## Applying a delta -/

/-- `apply_delta`: the results are ignored. -/
def applyDelta (s : Session) (delta : List TimelineOperation) (baseTag : OpTag) : Session :=
  delta.zipIdx.foldl (fun s e =>
    (s.apply e.1 ⟨saturatingAdd baseTag.lamport (UInt64.ofNat e.2), baseTag.peer⟩).2) s

/-- What no number of deltas transfers: tracks keep their kind, no envelope goes, and none comes
without its target. -/
structure Transferable (s : Session) (old new : SessionView) : Prop where
  kinds : ∀ u ∈ new.tracks, ∀ w, old.track u.trackId = some w → w.kind = u.kind
  kept : ∀ κ ∈ old.envelopes, κ ∈ new.envelopes
  known : ∀ κ ∈ new.envelopes, match (ofLex κ).1 with
    | .clip x => x ∈ s.clips ∨ ∃ c ∈ new.clips, c.clipId = x
    | .track t => t ∈ s.tracks ∨ ∃ u ∈ new.tracks, u.trackId = t

/-- Where one delta leaves nothing behind in a session without splits: the clips it inserts have the
default gain and flags; a clip that keeps its length is not cut at the end of the timeline; no clip
out of view is on a track that is to be seen. -/
structure Transfers (s : Session) (old new : SessionView) : Prop
    extends s.Transferable old new where
  inserted : ∀ c ∈ new.clips, old.clip c.clipId = none →
    F32.one.eq c.values.gain = true ∧ c.values.muted = false ∧ c.values.locked = false
  lengths : ∀ c ∈ new.clips, ∀ w d, old.clip c.clipId = some w → s.clips[c.clipId]? = some d →
    w.durationFrames = c.durationFrames → d.lengthAt c.startFrame = c.durationFrames
  hidden : ∀ x d, s.clips[x]? = some d → old.clip x = none → new.clip x = none →
    d.alive.value = true → 0 < d.lengthAt d.startFrame.value → new.track d.track.value = none

end Session

end AvSync
