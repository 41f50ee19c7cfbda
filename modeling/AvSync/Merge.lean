import AvSync.Clock

/-!
# Last-writer-wins registers

Every mutable field of the timeline is an `LwwReg`: a value with the tag of the write that set
it. A write is accepted when its tag is strictly greater.
-/

namespace AvSync

/-- The `(lamport, peer)` tag of a register write. -/
structure OpTag where
  lamport : UInt64
  peer : PeerId

namespace OpTag

def key (a : OpTag) : UInt64 ×ₗ PeerId := toLex (a.lamport, a.peer)

theorem key_injective : Function.Injective key := by
  rintro ⟨l, p⟩ ⟨l', p'⟩ h
  simpa [key] using h

instance : LinearOrder OpTag := LinearOrder.lift' key key_injective

theorem lt_iff {a b : OpTag} :
    a < b ↔ a.lamport < b.lamport ∨ a.lamport = b.lamport ∧ a.peer < b.peer :=
  Prod.Lex.lt_iff

/-- The tag of a register's initial value. -/
def initial : OpTag := ⟨0, ⟨0⟩⟩

theorem initial_le (t : OpTag) : initial ≤ t := by
  rw [← not_lt, lt_iff]
  rintro (h | ⟨-, h⟩)
  · exact absurd h (UInt64.not_lt_zero)
  · exact absurd (show t.peer.raw < 0 from h) (UInt64.not_lt_zero)

end OpTag

/-- A last-writer-wins register. -/
structure LwwReg (α : Type) where
  value : α
  tag : OpTag

namespace LwwReg

variable {α : Type}

/-- A register with an initial value. -/
def newInitial (value : α) : LwwReg α := ⟨value, .initial⟩

/-- Writes `value` at `tag` if the tag is strictly greater. -/
def set (r : LwwReg α) (value : α) (tag : OpTag) : LwwReg α :=
  if r.tag < tag then ⟨value, tag⟩ else r

/-- `if let Some(v) = value { self.set(v, tag) }` -/
def setOption (r : LwwReg α) (value : Option α) (tag : OpTag) : LwwReg α :=
  match value with
  | some v => r.set v tag
  | none => r

end LwwReg

end AvSync
