import AvSync.Operation

/-!
# Tracks and envelopes

A track is a bag of registers. An envelope is one register per `(target, envelope type)` with the
whole point list.
-/

namespace AvSync

/-- CRDT state of one track. -/
@[ext] structure TrackCrdt where
  alive : LwwReg Bool
  name : LwwReg String
  kind : LwwReg TrackKind
  volumeDb : LwwReg F32
  muted : LwwReg Bool
  solo : LwwReg Bool
  orderHint : LwwReg UInt64

namespace TrackCrdt

/-- The record an `InsertTrack` creates. -/
def fromInsert (track : TrackData) (position : UInt64) (tag : OpTag) : TrackCrdt where
  alive := ⟨true, tag⟩
  name := ⟨track.name, tag⟩
  kind := ⟨track.kind, tag⟩
  volumeDb := ⟨track.volumeDb, tag⟩
  muted := ⟨track.muted, tag⟩
  solo := ⟨track.solo, tag⟩
  orderHint := ⟨position, tag⟩

/-- Applies an operation to the record. -/
def apply (t : TrackCrdt) (op : TimelineOperation) (tag : OpTag) : TrackCrdt :=
  match op with
  | .insertTrack _ track position =>
    { alive := t.alive.set true tag
      name := t.name.set track.name tag
      kind := t.kind.set track.kind tag
      volumeDb := t.volumeDb.set track.volumeDb tag
      muted := t.muted.set track.muted tag
      solo := t.solo.set track.solo tag
      orderHint := t.orderHint.set position tag }
  | .updateTrackMetadata _ updates =>
    { t with
      name := t.name.setOption updates.name tag
      volumeDb := t.volumeDb.setOption updates.volumeDb tag
      muted := t.muted.setOption updates.muted tag
      solo := t.solo.setOption updates.solo tag
      orderHint := t.orderHint.setOption updates.position tag }
  | .deleteTrack _ => { t with alive := t.alive.set false tag }
  | _ => t

/-- The track's creation payload as it currently stands. -/
def toTrackData (t : TrackCrdt) : TrackData :=
  ⟨t.name.value, t.kind.value, t.volumeDb.value, t.muted.value, t.solo.value⟩

/-- The tags of the track's registers. -/
def tags (t : TrackCrdt) : List OpTag :=
  [t.alive.tag, t.name.tag, t.kind.tag, t.volumeDb.tag, t.muted.tag, t.solo.tag, t.orderHint.tag]

end TrackCrdt

/-! ## Envelopes -/

instance envelopeOrd : Std.TransOrd (TargetId ×ₗ EnvelopeType) := inferInstance

/-- All automation envelopes of a session. -/
structure EnvelopeStore where
  envelopes : BTreeMap (TargetId ×ₗ EnvelopeType) (LwwReg (List EnvelopePoint))

namespace EnvelopeStore

/-- Replaces the points of an envelope if the tag wins. -/
def set (e : EnvelopeStore) (target : TargetId) (envelopeType : EnvelopeType)
    (points : List EnvelopePoint) (tag : OpTag) : EnvelopeStore :=
  let key := toLex (target, envelopeType)
  ⟨e.envelopes.insert key ((e.envelopes[key]?.getD (.newInitial [])).set points tag)⟩

/-- The current points of an envelope that has ever been set. -/
def get (e : EnvelopeStore) (target : TargetId) (envelopeType : EnvelopeType) :
    Option (List EnvelopePoint) :=
  e.envelopes[toLex (target, envelopeType)]?.map (·.value)

/-- The tag of each stored envelope's last write. -/
def tags (e : EnvelopeStore) : List OpTag := e.envelopes.toList.map (·.2.tag)

end EnvelopeStore

end AvSync
