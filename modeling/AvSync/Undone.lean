import AvSync.Calls
import AvSync.Edits
import AvSync.Pieces

/-!
# An edit undone right away

Undoing a local edit applies its inverse, which was computed from what the clip showed before the
edit and is written into the registers of its record.
-/

namespace AvSync

/-- The timeline after a local operation that is undone right away. -/
def TimelineCrdt.applyUndo (c : TimelineCrdt) (operation : TimelineOperation) :
    Option TimelineCrdt :=
  (c.applyLocal operation).map fun r => r.2.undo.2

/-- The fields an update sets. -/
def ClipMetadataUpdate.Sets (u : ClipMetadataUpdate) : Field → Prop
  | .name => u.name.isSome
  | .source => u.source.isSome
  | .color => u.color.isSome
  | .gain => u.gain.isSome
  | .muted => u.muted.isSome
  | .locked => u.locked.isSome
  | .orderHint | .track => False

/-- The operation updates fields of a clip, a track or the session, or an envelope. -/
def TimelineOperation.IsUpdate : TimelineOperation → Prop
  | updateClipMetadata .. | updateTrackMetadata .. | updateEnvelope .. |
    updateSessionMetadata .. => True
  | _ => False

namespace Session

def Visible (s : Session) (x : ClipId) : Prop :=
  ∃ r, s.resolveClip x = some (some r) ∧ r.visible = true

/-- `y` descends from `x`, and `l` holds the records from `y` up to the child of `x`. -/
inductive Below (s : Session) (x : ClipId) : ClipId → List ClipCrdt → Prop
  | here : Below s x x []
  | child {y : ClipId} {c : ClipCrdt} {link : ClipParent} {l : List ClipCrdt} :
      s.clips[y]? = some c → c.parent = some link → Below s x link.clip l → Below s x y (c :: l)

/-- Written into the register of `x`, the value that `x` shows in the field is no news to the clips
of `P` at and below `x`: a record above dictates it, or the register was written before, or `x` is
a root, or the child of `x` on the way has not written the field, or the records below `x` settle
on that value by themselves. -/
def PassesOn (s : Session) (x : ClipId) (φ : Field) (P : ClipId → Prop) : Prop :=
  ∀ c above, s.Lineage x (c :: above) → ∀ y l, P y → s.Below x y l →
    Inheritance.donor φ.Written above ≠ none ∨ φ.Written c ∨ above = [] ∨
      (∀ z ∈ l.getLast?, ¬φ.Written z) ∨
        Inheritance.settled φ.Written φ.value l = Inheritance.settled φ.Written φ.value (c :: above)

/-- What an update writes, its inverse can take back: the envelope was there, and the fields of a
clip pass on what they show. -/
def TakesBack (s : Session) : TimelineOperation → Prop
  | .updateClipMetadata x u => ∀ φ, u.Sets φ → s.PassesOn x φ s.Visible
  | .updateEnvelope y k _ => (s.envelopes.get y k).isSome
  | _ => True

/-! ## Geometry -/

def VisibleAs (s : Session) (x : ClipId) (r : ResolvedClip) : Prop :=
  s.resolveClip x = some (some r) ∧ r.visible = true

/-- The frame after the last one of the clip. -/
def ResolvedClip.endFrame (r : ResolvedClip) : ℕ := r.startFrame.toNat + r.durationFrames.toNat

/-- Which clip, on which track, over which frames. -/
def ClipView.place (w : ClipView) : ClipId × TrackId × UInt64 × UInt64 :=
  (w.clipId, w.values.trackId, w.startFrame, w.durationFrames)

/-- `y` follows `x`, the clips between them are alive, and its range is `q` when that of `x`
is `r`. -/
inductive Derives (s : Session) (x : ClipId) (r : UInt64 × UInt64) :
    ClipId → UInt64 × UInt64 → Prop
  | here : Derives s x r x r
  | piece {y : ClipId} {c p : ClipCrdt} {link : ClipParent} {q : UInt64 × UInt64} : y ≠ x →
      s.clips[y]? = some c → c.parent = some link → c.detached = false →
      s.clips[link.clip]? = some p → (link.clip ≠ x → p.alive.value = true) →
      Derives s x r link.clip q → Derives s x r y (childRange p link.offset q.1 q.2)

/-- `y` is `p`, or follows it as one of the pieces split off before `f` or through one of them. -/
def StemsBefore (s : Session) (p : ClipId) (f : UInt64) (y : ClipId) : Prop :=
  y = p ∨ ∃ q c link, s.clips[q]? = some c ∧ c.parent = some link ∧ link.clip = p ∧
    c.detached = false ∧ link.offset < f ∧ s.Follows y q

/-- No visible clip that stems from `p` before `f` ends after `f`. -/
def ClearsSplit (s : Session) (p : ClipId) (f : UInt64) : Prop :=
  ∀ r, s.resolveClip p = some (some r) → ∀ y u, s.StemsBefore p f y → s.VisibleAs y u →
    u.endFrame ≤ r.startFrame.toNat + f.toNat

/-- No visible clip that follows `x` ends after `x`. -/
def EndsLast (s : Session) (x : ClipId) : Prop :=
  ∀ r, s.resolveClip x = some (some r) → ∀ y u, s.Follows y x → s.VisibleAs y u →
    u.endFrame ≤ r.endFrame

/-- Were `x` to end at its own duration, the clips that follow it, as far as they are alive and on
a live track, would keep their visible lengths. -/
def KeepsLengths (s : Session) (x : ClipId) : Prop :=
  ∀ c r, s.clips[x]? = some c → s.resolveClip x = some (some r) → ∀ y e q u,
    s.Derives x (r.startFrame, saturatingAdd r.startFrame c.durationFrames.value) y q →
    s.clips[y]? = some e → e.alive.value = true → s.resolveClip y = some (some u) →
    s.LiveTrack u.values.trackId → e.visibleLength q = u.durationFrames

/-- The operation splits a visible clip into an unknown id, or moves or trims a visible clip. -/
def Reshapes (s : Session) : TimelineOperation → Prop
  | .splitClip p _ n => s.Visible p ∧ s.Unknown n
  | .moveClip x .. | .trimClip x .. => s.Visible x
  | _ => False

/-- The inverse of a split, a move or a trim puts every clip back where it was. -/
def PutsBack (s : Session) : TimelineOperation → Prop
  | .splitClip p f _ => s.ClearsSplit p f
  | .moveClip x .. => s.PassesOn x .track s.Visible ∧ s.KeepsLengths x
  | .trimClip x .. => s.EndsLast x
  | _ => True

/-! ## Inserting again -/

/-- What a clip that shows `a` shows once it has been deleted and inserted again. -/
def Inherited.reset (a : Inherited) : Inherited :=
  { a with gain := F32.one, muted := false, locked := false }

/-- The value of a field below a record with `above` above it, at the end of the records `l`, once
the record holds `v`, where a clip showed `old`. -/
def fieldUnder (φ : Field) (above l : List ClipCrdt) (v old : φ.Value) : Option φ.Value :=
  if Inheritance.donor φ.Written above = none then
    Inheritance.settledUnder φ.Written φ.value v l
  else some old

/-- The range of a clip that shows `u` once its start and its duration are written back. -/
def rangeReset (s : Session) (x : ClipId) (c : ClipCrdt) (u : ResolvedClip) :
    Option (UInt64 × UInt64) :=
  if c.OwnGeometry then some (u.startFrame, saturatingAdd u.startFrame u.durationFrames)
  else s.rangeOf x

/-- With `x` alive over the range `range`, the clip `y`, alive or `x` itself, has frames. -/
def HasFrames (s : Session) (x : ClipId) (range : Option (UInt64 × UInt64)) (y : ClipId) : Prop :=
  ∃ e q, s.clips[y]? = some e ∧ (y = x ∨ e.alive.value = true) ∧ 0 < e.visibleLength q ∧
    ((∃ r ∈ range, s.Derives x r y q) ∨ ¬s.Follows y x ∧ s.rangeOf y = some q)

/-- An insert of what `x` shows changes nothing. A visible clip at or below `x` keeps its values,
and ends no later than `x` if it follows `x` and `x` has geometry of its own. A hidden one has no
frames, or is on no live track. -/
def Reinsertable (s : Session) (x : ClipId) : Prop :=
  ∀ c above u, s.Lineage x (c :: above) → s.resolveClip x = some (some u) →
    ∀ y l w, s.Below x y l → s.resolveClip y = some (some w) →
      (w.visible = true →
        (∀ φ : Field, fieldUnder φ above l (φ.get u.values.reset) (φ.get w.values) =
          some (φ.get w.values)) ∧
        (c.OwnGeometry → s.Follows y x → w.endFrame ≤ u.endFrame)) ∧
      (w.visible = false → s.HasFrames x (s.rangeReset x c u) y →
        ∀ t, fieldUnder .track above l u.values.trackId w.values.trackId = some t →
          ¬s.LiveTrack t)

end Session

/-- The operation inserts or deletes a clip or a track. -/
def TimelineOperation.IsLifecycle : TimelineOperation → Prop
  | insertClip .. | deleteClip _ | insertTrack .. | deleteTrack _ => True
  | _ => False

/-- The inverse of an insert or a delete brings back what was there. -/
def TimelineCrdt.BringsBack (c : TimelineCrdt) : TimelineOperation → Prop
  | .insertClip x .. => x ∈ c.session.clips → c.session.Reinsertable x
  | .deleteClip x => if x ∈ c.session.clips then c.session.Reinsertable x
      else c.history.undoStack = []
  | .insertTrack t .. => t ∈ c.session.tracks → c.session.LiveTrack t
  | .deleteTrack t => if t ∈ c.session.tracks then c.session.LiveTrack t
      else c.history.undoStack = []
  | _ => True

end AvSync
