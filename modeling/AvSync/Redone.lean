import AvSync.LocalRuns
import AvSync.Undone

/-!
# Edits undone and done again

The edits of one user, the last of them undone one after the other and done again one after the
other. An edit done again writes what it wrote before; what an undo wrote besides stays.
-/

namespace AvSync

/-- The value the operation sets in a field of the clip, other than by a split. -/
def TimelineOperation.sets (op : TimelineOperation) (x : ClipId) (φ : Field) : Option φ.Value :=
  match op with
  | insertClip y track clip position =>
    if y = x then
      some (φ.get ⟨clip.name, clip.source, clip.color, F32.one, false, false, position, track⟩)
    else none
  | moveClip y track _ position =>
    if y = x then
      match φ with
      | .track => some track
      | .orderHint => some position
      | _ => none
    else none
  | updateClipMetadata y u =>
    if y = x then
      match φ with
      | .name => u.name
      | .source => u.source
      | .color => u.color
      | .gain => u.gain
      | .muted => u.muted
      | .locked => u.locked
      | .orderHint | .track => none
    else none
  | _ => none

/-- What edits that are undone and done again, the latest first, leave in a field of the clip: what
the inverse of the first to delete the clip sets there, unless one of the edits sets the field. -/
def leftover (entries : List HistoryEntry) (x : ClipId) (φ : Field) : Option φ.Value :=
  if ∃ e ∈ entries, (e.forward.sets x φ).isSome then none
  else (entries.filterMap fun e =>
    if e.forward = .deleteClip x then e.inverse.sets x φ else none).getLast?

/-- The record with some of its fields overwritten. -/
def ClipCrdt.overwrite (c : ClipCrdt) (f : (φ : Field) → Option φ.Value) (tag : OpTag) : ClipCrdt :=
  { c with
    name := (f .name).elim c.name (⟨·, tag⟩)
    source := (f .source).elim c.source (⟨·, tag⟩)
    color := (f .color).elim c.color (⟨·, tag⟩)
    gain := (f .gain).elim c.gain (⟨·, tag⟩)
    muted := (f .muted).elim c.muted (⟨·, tag⟩)
    locked := (f .locked).elim c.locked (⟨·, tag⟩)
    orderHint := (f .orderHint).elim c.orderHint (⟨·, tag⟩)
    track := (f .track).elim c.track (⟨·, tag⟩) }

def Session.overwrite (s : Session) (f : ClipId → (φ : Field) → Option φ.Value) (tag : OpTag) :
    Session :=
  { s with clips := s.clips.map fun x c => c.overwrite (f x) tag }

namespace TimelineCrdt

/-- An edit whose id, if it introduces one, is fresh, and whose targets exist. -/
def EditCall (c : TimelineCrdt) : Call → Prop
  | .applyLocal op => c.Admits op ∧ c.session.HasTargets op
  | _ => False

instance (c : TimelineCrdt) : (k : Call) → Decidable (c.EditCall k)
  | .applyLocal op => inferInstanceAs (Decidable (c.Admits op ∧ c.session.HasTargets op))
  | .undo | .redo | .applyRemote _ | .mergeSnapshot _ => .isFalse id

/-- The timeline after `k` undos. -/
def undoTimes (k : ℕ) (c : TimelineCrdt) : TimelineCrdt := (fun c => c.undo.2)^[k] c

/-- The timeline after `k` redos. -/
def redoTimes (k : ℕ) (c : TimelineCrdt) : TimelineCrdt := (fun c => c.redo.2)^[k] c

/-- The session with every field overwritten by what the last `k` edits leave in it once they are
undone and done again. -/
def overwritten (c : TimelineCrdt) (k : ℕ) : Session :=
  c.session.overwrite (leftover (c.history.undoStack.take k)) ⟨c.lamport.tick.1, c.localPeerId⟩

/-- What the last `k` edits leave in the fields of clips they delete changes no value that a visible
clip has or inherits. -/
def Retraces (c : TimelineCrdt) (k : ℕ) : Prop :=
  ∀ (y : ClipId) (u w : Session.ResolvedClip), c.session.resolveClip y = some (some u) →
    (c.overwritten k).resolveClip y = some (some w) →
      u.visible = true ∨ w.visible = true → u.values = w.values

end TimelineCrdt

end AvSync
