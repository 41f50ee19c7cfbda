import AvSync.Ancestry
import AvSync.Lib.Inheritance

/-!
# The fields a clip inherits

Eight fields of a clip are inherited along its lineage: the record of the clip, of its parent, and
so on to the top.
-/

namespace AvSync

/-- A field that a clip inherits while its register is unwritten. -/
inductive Field where
  | name
  | source
  | color
  | gain
  | muted
  | locked
  | orderHint
  | track

namespace Field

/-- The values of a field. -/
abbrev Value : Field → Type
  | name | source => String
  | color => UInt32
  | gain => F32
  | muted | locked => Bool
  | orderHint => UInt64
  | track => TrackId

/-- The register of a field. -/
def reg : (φ : Field) → ClipCrdt → LwwReg φ.Value
  | name, c => c.name
  | source, c => c.source
  | color, c => c.color
  | gain, c => c.gain
  | muted, c => c.muted
  | locked, c => c.locked
  | orderHint, c => c.orderHint
  | track, c => c.track

/-- The field of a resolved clip. -/
def get : (φ : Field) → Session.Inherited → φ.Value
  | name, a => a.name
  | source, a => a.source
  | color, a => a.color
  | gain, a => a.gain
  | muted, a => a.muted
  | locked, a => a.locked
  | orderHint, a => a.orderHint
  | track, a => a.trackId

def value (φ : Field) (c : ClipCrdt) : φ.Value := (φ.reg c).value

/-- The register has been written. -/
def Written (φ : Field) (c : ClipCrdt) : Prop := (φ.reg c).tag ≠ .initial

instance (φ : Field) : DecidablePred φ.Written :=
  fun c => inferInstanceAs (Decidable ((φ.reg c).tag ≠ .initial))

/-- The records above a clip dictate another value than `v`: the topmost unwritten one among those
with a parent takes another value from it. -/
abbrev Overrides (φ : Field) (above : List ClipCrdt) (v : φ.Value) : Prop :=
  Inheritance.Overrides φ.Written φ.value above v

end Field

namespace Session

/-- `l` holds the records of `x`, of its parent, and so on to the top. -/
inductive Lineage (s : Session) : ClipId → List ClipCrdt → Prop
  | top {x : ClipId} {c : ClipCrdt} : s.clips[x]? = some c →
      (∀ link, c.parent = some link → link.clip ∉ s.clips) → Lineage s x [c]
  | child {x : ClipId} {c : ClipCrdt} {link : ClipParent} {l : List ClipCrdt} :
      s.clips[x]? = some c → c.parent = some link → Lineage s link.clip l → Lineage s x (c :: l)

end Session

end AvSync
