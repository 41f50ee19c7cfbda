import AvSync.Replication
import AvSync.Ancestry
import Mathlib.Order.Interval.Set.Basic

/-!
# The pieces of one clip

Operation sets that insert a track and a clip on it and split the clip, and pieces of it, over
and over. No move or trim is among them, and no delete.
-/

namespace AvSync

/-- The frames a clip is inserted with. -/
def ClipData.frames (d : ClipData) : Set ℕ :=
  Set.Ico d.startFrame.toNat (d.startFrame.toNat + d.durationFrames.toNat)

/-- The frames a visible clip shows. -/
def Session.ClipView.frames (c : Session.ClipView) : Set ℕ :=
  Set.Ico c.startFrame.toNat (c.startFrame.toNat + c.durationFrames.toNat)

/-- The full range of a clip. -/
def Session.rangeOf (s : Session) (y : ClipId) : Option (UInt64 × UInt64) :=
  s.clips[y]?.bind fun c => (s.resolveFullRange s.fuel c).join

/-- The set inserts track `t`, inserts clip `x` on it, and splits clips. The children are fresh
and differ, and so do the split points. -/
structure OpSet.SplitsOf (D : OpSet) (x : ClipId) (t : TrackId) (d : ClipData) : Prop where
  kinds : ∀ o ∈ D.ops, (∃ r p, o.operation = .insertTrack t r p) ∨
    (∃ p, o.operation = .insertClip x t d p) ∨ ∃ c f n, o.operation = .splitClip c f n
  has_track : ∃ r p, D.Has (.insertTrack t r p)
  has_clip : ∃ p, D.Has (.insertClip x t d p)
  child_fresh : ∀ {c f n}, D.Has (.splitClip c f n) → n ≠ x
  child_once : ∀ o ∈ D.ops, ∀ o' ∈ D.ops, ∀ {c f n c' f'}, o.operation = .splitClip c f n →
    o'.operation = .splitClip c' f' n → o = o'
  point_once : ∀ o ∈ D.ops, ∀ o' ∈ D.ops, ∀ {c f n n'}, o.operation = .splitClip c f n →
    o'.operation = .splitClip c f n' → o = o'
  lamport_pos : ∀ o ∈ D.ops, 1 ≤ o.lamportTs
  fits : d.startFrame.toNat + d.durationFrames.toNat ≤ u64Max.toNat

end AvSync
