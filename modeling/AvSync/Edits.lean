import AvSync.Compaction
import AvSync.Lineage

/-!
# Single edits

What decides the effect of one edit on a session: whether its tag wins everywhere, whether the
clip has geometry of its own, and which clips take their range from which.
-/

namespace AvSync

namespace ClipCrdt

/-- The visible length of a range: the range up to the clip's first split point. -/
def visibleLength (c : ClipCrdt) (r : UInt64 × UInt64) : UInt64 :=
  min (c.firstSplitOffset.getD (saturatingSub r.2 r.1)) (saturatingSub r.2 r.1)

/-- The clip has geometry of its own: it was not split off, or it has been moved or trimmed. -/
def OwnGeometry (c : ClipCrdt) : Prop := c.parent = none ∨ c.detached = true

instance (c : ClipCrdt) : Decidable c.OwnGeometry := inferInstanceAs (Decidable (_ ∨ _))

/-- The visible length the clip's own duration gives it at `start`. -/
def lengthAt (c : ClipCrdt) (start : UInt64) : UInt64 :=
  c.visibleLength (start, saturatingAdd start c.durationFrames.value)

end ClipCrdt

namespace Session

/-- The tag is greater than every tag in the session. -/
def Newest (s : Session) (t : OpTag) : Prop := ∀ u ∈ TimelineCrdt.registerTags s, u < t

instance (s : Session) (t : OpTag) : Decidable (s.Newest t) :=
  inferInstanceAs (Decidable (∀ u ∈ TimelineCrdt.registerTags s, u < t))

/-- The track is there and has not been deleted. -/
def LiveTrack (s : Session) (t : TrackId) : Prop :=
  ∃ r, s.tracks[t]? = some r ∧ r.alive.value = true

/-- `y` is `x`, or a piece whose range is derived from the range of `x`: neither it nor a piece
between them has geometry of its own. -/
inductive Follows (s : Session) : ClipId → ClipId → Prop
  | refl (x : ClipId) : Follows s x x
  | step {y x : ClipId} {c : ClipCrdt} {link : ClipParent} : s.clips[y]? = some c →
      c.parent = some link → c.detached = false → Follows s link.clip x → Follows s y x

/-- No record has the id, and none links to it. An id that no operation has used is unknown. -/
structure Unknown (s : Session) (n : ClipId) : Prop where
  absent : n ∉ s.clips
  unlinked : ∀ (y : ClipId) (c : ClipCrdt) (link : ClipParent), s.clips[y]? = some c →
    c.parent = some link → link.clip ≠ n

instance (s : Session) (n : ClipId) : Decidable (s.Unknown n) :=
  decidable_of_iff (n ∉ s.clips ∧ ∀ e ∈ s.clips.toList, e.2.parent.map (·.clip) ≠ some n) <| by
    constructor
    · rintro ⟨h, hlink⟩
      refine ⟨h, fun y c link hy hl hn => hlink (y, c) ?_ ?_⟩
      · exact Std.ExtTreeMap.mem_toList_iff_getElem?_eq_some.mpr hy
      · rw [hl, Option.map_some, hn]
    · rintro ⟨h, hlink⟩
      refine ⟨h, fun e he hn => ?_⟩
      obtain ⟨link, hl, hn⟩ := Option.map_eq_some_iff.mp hn
      exact hlink e.1 e.2 link (Std.ExtTreeMap.mem_toList_iff_getElem?_eq_some.mp he) hl hn

/-- A clip moved to `start` on a live track keeps its visible length `length`, and lands on that
track: no clip above it dictates another track, and its own duration gives it that length. -/
def KeptByMove (s : Session) (x : ClipId) (track : TrackId) (start length : UInt64) : Prop :=
  ∃ c above, s.Lineage x (c :: above) ∧ ¬Field.track.Overrides above track ∧
    c.lengthAt start = length

/-- The values an insert gives a clip. -/
def insertedValues (track : TrackId) (clip : ClipData) (position : UInt64) : Inherited :=
  ⟨clip.name, clip.source, clip.color, F32.one, false, false, position, track⟩

/-- A duration, capped by the clip's own first split point. -/
def cappedLength (s : Session) (x : ClipId) (duration : UInt64) : UInt64 :=
  min ((s.clips[x]?.bind (·.firstSplitOffset)).getD duration) duration

/-- An insert of `x` on a live track overwrites the clip: no clip above it dictates another value,
and the inserted range ends before the frames do, or is the range the clip has as a piece. -/
def OverwrittenBy (s : Session) (x : ClipId) (track : TrackId) (clip : ClipData)
    (position : UInt64) : Prop :=
  if x ∈ s.clips then
    ∃ c above, s.Lineage x (c :: above) ∧
      (∀ φ : Field, ¬φ.Overrides above (φ.get (insertedValues track clip position))) ∧
      if c.OwnGeometry then
        clip.startFrame.toNat + (s.cappedLength x clip.durationFrames).toNat ≤ u64Max.toNat
      else
        ∃ r, s.resolveClip x = some (some r) ∧ r.startFrame = clip.startFrame ∧
          r.durationFrames = s.cappedLength x clip.durationFrames
  else clip.startFrame.toNat + clip.durationFrames.toNat ≤ u64Max.toNat

end Session

end AvSync
