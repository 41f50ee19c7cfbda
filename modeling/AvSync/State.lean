import AvSync.ClipCrdt
import AvSync.TrackCrdt

/-!
# The session

`Session.apply` applies an operation; `Session.materialize` computes the visible timeline. A
mutation that fails half way returns its error together with the session as it stands by then.

The parent-chain loop of `resolve_clip` and the recursion of `resolve_full_range` have no bound
of their own in the code. Here they take the number of steps they may make, and answer `none`
when those run out: `none` as the result of `materialize` is a call that does not return.
-/

namespace AvSync

/-- `SyncError::UnknownTarget`, the only error `Session::apply` returns. -/
structure UnknownTarget where
  kind : String
  id : UInt64
  deriving DecidableEq

/-- Session-level metadata registers. -/
@[ext] structure SessionMetadataState where
  name : LwwReg String
  sampleRate : LwwReg UInt32
  tempoBpm : LwwReg F64
  tsNumerator : LwwReg UInt32
  tsDenominator : LwwReg UInt32

namespace SessionMetadataState

/-- The default metadata: 48 kHz, 120 bpm, four four. -/
def default : SessionMetadataState where
  name := .newInitial "Untitled Session"
  sampleRate := .newInitial 48000
  tempoBpm := .newInitial ⟨0x405E000000000000⟩
  tsNumerator := .newInitial 4
  tsDenominator := .newInitial 4

/-- The per-field writes of an `UpdateSessionMetadata`. -/
def update (m : SessionMetadataState) (updates : SessionMetadataUpdate) (tag : OpTag) :
    SessionMetadataState where
  name := m.name.setOption updates.name tag
  sampleRate := m.sampleRate.setOption updates.sampleRate tag
  tempoBpm := m.tempoBpm.setOption updates.tempoBpm tag
  tsNumerator := m.tsNumerator.setOption updates.timeSignatureNumerator tag
  tsDenominator := m.tsDenominator.setOption updates.timeSignatureDenominator tag

end SessionMetadataState

/-- The timeline state, as a bag of per-entity records. -/
@[ext] structure Session where
  metadata : SessionMetadataState
  tracks : BTreeMap TrackId TrackCrdt
  clips : BTreeMap ClipId ClipCrdt
  envelopes : EnvelopeStore

namespace Session

/-- The empty session. -/
def new : Session := ⟨.default, ∅, ∅, ⟨∅⟩⟩

/-! ## Applying operations -/

def unknownClip (clipId : ClipId) : UnknownTarget := ⟨"clip", clipId.raw⟩

def unknownTrack (trackId : TrackId) : UnknownTarget := ⟨"track", trackId.raw⟩

/-- Stores a clip record. -/
def setClip (s : Session) (clipId : ClipId) (c : ClipCrdt) : Session :=
  { s with clips := s.clips.insert clipId c }

/-- Stores a track record. -/
def setTrack (s : Session) (trackId : TrackId) (t : TrackCrdt) : Session :=
  { s with tracks := s.tracks.insert trackId t }

/-- Applies `op` to an existing clip record, the branch the four clip edits share. -/
def applyToClip (s : Session) (clipId : ClipId) (op : TimelineOperation) (tag : OpTag) :
    Except UnknownTarget Unit × Session :=
  match s.clips[clipId]? with
  | none => (.error (unknownClip clipId), s)
  | some c => (.ok (), s.setClip clipId (c.apply op tag))

/-- Applies `op` to an existing track record. -/
def applyToTrack (s : Session) (trackId : TrackId) (op : TimelineOperation) (tag : OpTag) :
    Except UnknownTarget Unit × Session :=
  match s.tracks[trackId]? with
  | none => (.error (unknownTrack trackId), s)
  | some t => (.ok (), s.setTrack trackId (t.apply op tag))

/-- Gives the child `newClipId` to the smaller `claim`: the split point of the previous owner is
dropped if it still names the child. -/
def reparent (s : Session) (newClipId : ClipId) (current claim : Claim) : Session :=
  let s :=
    match s.clips[current.clip]? with
    | some oldParent =>
      if oldParent.splits[current.offset]? = some newClipId then
        s.setClip current.clip { oldParent with splits := oldParent.splits.erase current.offset }
      else s
    | none => s
  { s with clips := s.clips.modify newClipId fun child =>
      { child with originClaim := some claim, parent := some ⟨claim.clip, claim.offset⟩ } }

/-- Records a split point on the parent clip and creates the child. The split with the smallest
`(parent, offset)` claim owns the child; a losing one does nothing. -/
def applySplit (s : Session) (clipId : ClipId) (splitFrame : UInt64) (newClipId : ClipId)
    (tag : OpTag) : Except UnknownTarget Unit × Session :=
  if clipId = newClipId then (.ok (), s)
  else
    let claim : Claim := ⟨clipId, splitFrame⟩
    match s.clips[newClipId]? with
    | some child =>
      let current := child.originClaim.getD claim
      if current < claim then (.ok (), s)
      else
        let s := if claim < current then s.reparent newClipId current claim else s
        let s := { s with clips := s.clips.modify newClipId fun child =>
          { child with alive := child.alive.set true tag } }
        -- the child is already rewritten when the parent turns out to be missing
        match s.clips[clipId]? with
        | none => (.error (unknownClip clipId), s)
        | some c => (.ok (), s.setClip clipId (c.recordSplit splitFrame newClipId))
    | none =>
      match s.clips[clipId]? with
      | none => (.error (unknownClip clipId), s)
      | some c =>
        let s := s.setClip clipId (c.apply (.splitClip clipId splitFrame newClipId) tag)
        (.ok (), s.setClip newClipId { ClipCrdt.fromSplit tag with
          parent := some ⟨clipId, splitFrame⟩
          originClaim := some claim })

/-- The entity an envelope update misses, if any. -/
def missingEnvelopeTarget (s : Session) : TargetId → Option UnknownTarget
  | .clip c => if c ∈ s.clips then none else some (unknownClip c)
  | .track t => if t ∈ s.tracks then none else some (unknownTrack t)

/-- Applies an operation to the session. -/
def apply (s : Session) (op : TimelineOperation) (tag : OpTag) :
    Except UnknownTarget Unit × Session :=
  match op with
  | .insertClip clipId trackId clip position =>
    match s.clips[clipId]? with
    | some c => (.ok (), s.setClip clipId (c.apply op tag))
    | none => (.ok (), s.setClip clipId (.fromInsert trackId clip position tag))
  | .deleteClip clipId => s.applyToClip clipId op tag
  | .moveClip clipId .. | .trimClip clipId .. | .updateClipMetadata clipId _ =>
    s.applyToClip clipId op tag
  | .splitClip clipId splitFrame newClipId => s.applySplit clipId splitFrame newClipId tag
  | .insertTrack trackId track position =>
    match s.tracks[trackId]? with
    | some t => (.ok (), s.setTrack trackId (t.apply op tag))
    | none => (.ok (), s.setTrack trackId (.fromInsert track position tag))
  | .updateTrackMetadata trackId _ => s.applyToTrack trackId op tag
  | .deleteTrack trackId => s.applyToTrack trackId op tag
  | .updateEnvelope targetId envelopeType points =>
    match s.missingEnvelopeTarget targetId with
    | some err => (.error err, s)
    | none => (.ok (), { s with envelopes := s.envelopes.set targetId envelopeType points tag })
  | .updateSessionMetadata updates =>
    (.ok (), { s with metadata := s.metadata.update updates tag })

/-- The tags of the five session-metadata registers. -/
def sessionMetadataTags (s : Session) : List OpTag :=
  [s.metadata.name.tag, s.metadata.sampleRate.tag, s.metadata.tempoBpm.tag,
    s.metadata.tsNumerator.tag, s.metadata.tsDenominator.tag]

/-! ## Resolving clips -/

/-- The eight values a clip inherits while its registers are unwritten. -/
structure Inherited where
  name : String
  source : String
  color : UInt32
  gain : F32
  muted : Bool
  locked : Bool
  orderHint : UInt64
  trackId : TrackId
  deriving DecidableEq

/-- The clip's own values. -/
def Inherited.own (c : ClipCrdt) : Inherited :=
  ⟨c.name.value, c.source.value, c.color.value, c.gain.value, c.muted.value, c.locked.value,
    c.orderHint.value, c.track.value⟩

/-- The value `parent` passes down a register that is unwritten at `cur`. -/
def inheritReg {α : Type} (cur parent : LwwReg α) (acc : α) : α :=
  if cur.tag = .initial then parent.value else acc

/-- One level of the parent-chain loop. -/
def Inherited.step (acc : Inherited) (cur parent : ClipCrdt) : Inherited where
  name := inheritReg cur.name parent.name acc.name
  source := inheritReg cur.source parent.source acc.source
  color := inheritReg cur.color parent.color acc.color
  gain := inheritReg cur.gain parent.gain acc.gain
  muted := inheritReg cur.muted parent.muted acc.muted
  locked := inheritReg cur.locked parent.locked acc.locked
  orderHint := inheritReg cur.orderHint parent.orderHint acc.orderHint
  trackId := inheritReg cur.track parent.track acc.trackId

/-- The parent-chain loop of `resolve_clip`. -/
def inheritLoop (s : Session) : ℕ → ClipCrdt → Inherited → Option Inherited
  | 0, _, _ => none
  | fuel + 1, cur, acc =>
    match cur.parent with
    | none => some acc
    | some link =>
      match s.clips[link.clip]? with
      | none => some acc
      | some parent => s.inheritLoop fuel parent (acc.step cur parent)

/-- The `[start, tail)` range of a piece at `offset` of a parent with range `[pStart, pTail)`. -/
def childRange (parent : ClipCrdt) (offset pStart pTail : UInt64) : UInt64 × UInt64 :=
  let myStart := saturatingAdd pStart offset
  let boundary := saturatingAdd pStart
    ((parent.nextSplitBoundaryAfter offset).getD (saturatingSub pTail pStart))
  (myStart, max (min boundary pTail) myStart)

/-- The range the geometry registers give. -/
def ownRange (c : ClipCrdt) : UInt64 × UInt64 :=
  (c.startFrame.value, saturatingAdd c.startFrame.value c.durationFrames.value)

/-- A clip's full `[start, tail)` range: the segment it would occupy without split points of its
own. The inner `none` is a clip without geometry. -/
def resolveFullRange (s : Session) : ℕ → ClipCrdt → Option (Option (UInt64 × UInt64))
  | 0, _ => none
  | fuel + 1, c =>
    match c.parent with
    | none =>
      if c.startFrame.tag = .initial ∨ c.durationFrames.tag = .initial then some none
      else some (some (ownRange c))
    | some link =>
      if c.detached then some (some (ownRange c))
      else
        match s.clips[link.clip]? with
        | none => some none
        | some parent =>
          if parent.alive.value then
            (s.resolveFullRange fuel parent).map fun range =>
              range.map fun (pStart, pTail) => childRange parent link.offset pStart pTail
          else some none

/-- A clip's visible `(start, duration)`: its full range capped by its earliest split point. -/
def resolveGeometry (s : Session) (fuel : ℕ) (c : ClipCrdt) : Option (Option (UInt64 × UInt64)) :=
  (s.resolveFullRange fuel c).map fun range =>
    range.map fun (start, tail) =>
      let full := saturatingSub tail start
      (start, min (c.firstSplitOffset.getD full) full)

/-- A fully resolved clip. -/
structure ResolvedClip where
  clipId : ClipId
  values : Inherited
  startFrame : UInt64
  durationFrames : UInt64
  visible : Bool
  deriving DecidableEq

/-- `resolve_clip` with a given number of steps for its walks. The inner `none` is a clip that
does not exist. -/
def resolveClipIn (s : Session) (fuel : ℕ) (clipId : ClipId) : Option (Option ResolvedClip) :=
  match s.clips[clipId]? with
  | none => some none
  | some c => do
    let values ← s.inheritLoop fuel c (.own c)
    let geometry ← s.resolveGeometry fuel c
    let trackOk := (s.tracks[values.trackId]?.map (·.alive.value)).getD false
    let (startFrame, durationFrames) := geometry.getD (0, 0)
    let visible :=
      c.alive.value && geometry.isSome && trackOk && decide (0 < durationFrames)
    return some ⟨clipId, values, startFrame, durationFrames, visible⟩

/-- The steps a walk up the parent links can make without meeting a clip twice, and one more. -/
def fuel (s : Session) : ℕ := s.clips.size + 1

/-- `Session::resolve_clip` -/
def resolveClip (s : Session) (clipId : ClipId) : Option (Option ResolvedClip) :=
  s.resolveClipIn s.fuel clipId

/-! ## The materialized view -/

/-- Materialized session metadata. -/
structure SessionMetadata where
  name : String
  sampleRate : UInt32
  tempoBpm : F64
  timeSignature : UInt32 × UInt32
  deriving DecidableEq

/-- One materialized track. -/
structure TrackView where
  trackId : TrackId
  name : String
  kind : TrackKind
  volumeDb : F32
  muted : Bool
  solo : Bool
  position : UInt64
  deriving DecidableEq

/-- One visible clip. -/
structure ClipView where
  clipId : ClipId
  values : Inherited
  startFrame : UInt64
  durationFrames : UInt64
  deriving DecidableEq

/-- The materialized, ordered view of a session. -/
@[ext] structure SessionView where
  metadata : SessionMetadata
  tracks : List TrackView
  clips : List ClipView
  envelopes : BTreeMap (TargetId ×ₗ EnvelopeType) (List EnvelopePoint)

def metadataView (s : Session) : SessionMetadata where
  name := s.metadata.name.value
  sampleRate := s.metadata.sampleRate.value
  tempoBpm := s.metadata.tempoBpm.value
  timeSignature := (s.metadata.tsNumerator.value, s.metadata.tsDenominator.value)

def trackView (trackId : TrackId) (t : TrackCrdt) : TrackView where
  trackId := trackId
  name := t.name.value
  kind := t.kind.value
  volumeDb := t.volumeDb.value
  muted := t.muted.value
  solo := t.solo.value
  position := t.orderHint.value

/-- The sort key of a track. -/
def trackKey (t : TrackView) : UInt64 ×ₗ TrackId := toLex (t.position, t.trackId)

/-- The live tracks in order. -/
def trackViews (s : Session) : List TrackView :=
  ((s.tracks.toList.filter (·.2.alive.value)).map fun e => trackView e.1 e.2).insertionSort
    fun a b => trackKey a ≤ trackKey b

/-- The sort key of a clip: its track's position, then track, start, hint and id. -/
def clipKey (trackOrder : BTreeMap TrackId UInt64) (c : ClipView) :
    UInt64 ×ₗ TrackId ×ₗ UInt64 ×ₗ UInt64 ×ₗ ClipId :=
  toLex (trackOrder[c.values.trackId]?.getD u64Max, toLex (c.values.trackId,
    toLex (c.startFrame, toLex (c.values.orderHint, c.clipId))))

/-- The visible clips among resolved ones, in order. -/
def clipViews (tracks : List TrackView) (resolved : List ResolvedClip) : List ClipView :=
  let trackOrder := Std.ExtTreeMap.ofList (tracks.map fun t => (t.trackId, t.position))
  ((resolved.filter (·.visible)).map fun c =>
    ⟨c.clipId, c.values, c.startFrame, c.durationFrames⟩).insertionSort
      fun a b => clipKey trackOrder a ≤ clipKey trackOrder b

/-- `materialize` with a given number of steps for the walks. -/
def materializeIn (s : Session) (fuel : ℕ) : Option SessionView := do
  let resolved ← s.clips.keys.mapM (s.resolveClipIn fuel)
  return {
    metadata := s.metadataView
    tracks := s.trackViews
    clips := clipViews s.trackViews resolved.reduceOption
    envelopes := s.envelopes.envelopes.map fun _ reg => reg.value }

/-- `Session::materialize` -/
def materialize (s : Session) : Option SessionView := s.materializeIn s.fuel

end Session

end AvSync
