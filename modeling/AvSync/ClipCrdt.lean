import AvSync.Operation

/-!
# The clip record

A bag of registers, an optional parent link, the split points recorded on the clip, and the flag
set once the clip has geometry of its own.
-/

namespace AvSync

/-- The parent link of a clip created by a split. -/
structure ClipParent where
  clip : ClipId
  /-- The clip's start, relative to the parent's start. -/
  offset : UInt64
  deriving DecidableEq

/-- A `(parent, offset)` claim to own a split child, ordered as the pair. -/
structure Claim where
  clip : ClipId
  offset : UInt64

namespace Claim

def key (c : Claim) : ClipId ×ₗ UInt64 := toLex (c.clip, c.offset)

theorem key_injective : Function.Injective key := by
  rintro ⟨c, f⟩ ⟨c', f'⟩ h
  simpa [key] using h

instance : LinearOrder Claim := LinearOrder.lift' key key_injective

end Claim

/-- CRDT state of one clip. -/
@[ext] structure ClipCrdt where
  parent : Option ClipParent
  alive : LwwReg Bool
  track : LwwReg TrackId
  startFrame : LwwReg UInt64
  durationFrames : LwwReg UInt64
  name : LwwReg String
  source : LwwReg String
  color : LwwReg UInt32
  gain : LwwReg F32
  muted : LwwReg Bool
  locked : LwwReg Bool
  orderHint : LwwReg UInt64
  detached : Bool
  splits : BTreeMap UInt64 ClipId
  originClaim : Option Claim

namespace ClipCrdt

/-- The record an `InsertClip` creates. -/
def fromInsert (trackId : TrackId) (clip : ClipData) (position : UInt64) (tag : OpTag) :
    ClipCrdt where
  parent := none
  alive := ⟨true, tag⟩
  track := ⟨trackId, tag⟩
  startFrame := ⟨clip.startFrame, tag⟩
  durationFrames := ⟨clip.durationFrames, tag⟩
  name := ⟨clip.name, tag⟩
  source := ⟨clip.source, tag⟩
  color := ⟨clip.color, tag⟩
  gain := ⟨F32.one, tag⟩
  muted := ⟨false, tag⟩
  locked := ⟨false, tag⟩
  orderHint := ⟨position, tag⟩
  detached := false
  splits := ∅
  originClaim := none

/-- The right-hand record a split creates: every register but liveness is unwritten. -/
def fromSplit (tag : OpTag) : ClipCrdt where
  parent := none
  alive := ⟨true, tag⟩
  track := .newInitial ⟨0⟩
  startFrame := .newInitial 0
  durationFrames := .newInitial 0
  name := .newInitial ""
  source := .newInitial ""
  color := .newInitial 0
  gain := .newInitial F32.one
  muted := .newInitial false
  locked := .newInitial false
  orderHint := .newInitial 0
  detached := false
  splits := ∅
  originClaim := none

/-- Records a split point; at one offset the smaller clip id wins. -/
def recordSplit (c : ClipCrdt) (offset : UInt64) (newClipId : ClipId) : ClipCrdt :=
  match c.splits[offset]? with
  | some old =>
    if newClipId < old then { c with splits := c.splits.insert offset newClipId } else c
  | none => { c with splits := c.splits.insert offset newClipId }

/-- Applies per-field metadata updates. -/
def applyMetadata (c : ClipCrdt) (updates : ClipMetadataUpdate) (tag : OpTag) : ClipCrdt :=
  { c with
    name := c.name.setOption updates.name tag
    source := c.source.setOption updates.source tag
    color := c.color.setOption updates.color tag
    gain := c.gain.setOption updates.gain tag
    muted := c.muted.setOption updates.muted tag
    locked := c.locked.setOption updates.locked tag }

/-- Applies an operation to the record. An insert writes every register, the defaults included;
a move or a trim detaches the clip. -/
def apply (c : ClipCrdt) (op : TimelineOperation) (tag : OpTag) : ClipCrdt :=
  match op with
  | .insertClip _ trackId clip position =>
    { c with
      alive := c.alive.set true tag
      track := c.track.set trackId tag
      startFrame := c.startFrame.set clip.startFrame tag
      durationFrames := c.durationFrames.set clip.durationFrames tag
      name := c.name.set clip.name tag
      source := c.source.set clip.source tag
      color := c.color.set clip.color tag
      gain := c.gain.set F32.one tag
      muted := c.muted.set false tag
      locked := c.locked.set false tag
      orderHint := c.orderHint.set position tag }
  | .moveClip _ newTrackId newStartFrame newPosition =>
    { c with
      track := c.track.set newTrackId tag
      startFrame := c.startFrame.set newStartFrame tag
      orderHint := c.orderHint.set newPosition tag
      detached := true }
  | .deleteClip _ => { c with alive := c.alive.set false tag }
  | .splitClip _ splitFrame newClipId => c.recordSplit splitFrame newClipId
  | .trimClip _ newStartFrame newDuration _ =>
    { c with
      startFrame := c.startFrame.set newStartFrame tag
      durationFrames := c.durationFrames.set newDuration tag
      detached := true }
  | .updateClipMetadata _ updates => c.applyMetadata updates tag
  | _ => c

/-- The clip's earliest own split point. -/
def firstSplitOffset (c : ClipCrdt) : Option UInt64 := c.splits.firstKey

/-- The next split point after `offset`. The range starts at `offset.saturating_add(1)`. -/
def nextSplitBoundaryAfter (c : ClipCrdt) (offset : UInt64) : Option UInt64 :=
  c.splits.firstKeyFrom (saturatingAdd offset 1)

/-- The tags of the clip's registers. -/
def tags (c : ClipCrdt) : List OpTag :=
  [c.alive.tag, c.track.tag, c.startFrame.tag, c.durationFrames.tag, c.name.tag, c.source.tag,
    c.color.tag, c.gain.tag, c.muted.tag, c.locked.tag, c.orderHint.tag]

end ClipCrdt

end AvSync
