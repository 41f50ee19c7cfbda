import AvSync.Base

/-!
# Peers, operation ids and logical clocks

`PeerId`, `OperationId`, `LamportClock` and `VectorClock` of the utils crate. A vector clock is
the sparse map the code keeps; a peer without an entry counts as zero.
-/

namespace AvSync

/-- Unique identifier of a peer. -/
structure PeerId where
  raw : UInt64

namespace PeerId

theorem raw_injective : Function.Injective raw := by
  rintro ⟨a⟩ ⟨b⟩ h
  simpa using h

instance : LinearOrder PeerId := LinearOrder.lift' raw raw_injective

instance lawfulBEq : LawfulBEq PeerId := inferInstance

end PeerId

/-- Unique identifier of a replicated operation, ordered by `(lamport, peer)`. -/
structure OperationId where
  lamport : UInt64
  peer : PeerId

namespace OperationId

/-- The pair whose lexicographic order the ids have. -/
def key (a : OperationId) : UInt64 ×ₗ PeerId := toLex (a.lamport, a.peer)

theorem key_injective : Function.Injective key := by
  rintro ⟨l, p⟩ ⟨l', p'⟩ h
  simpa [key] using h

instance : LinearOrder OperationId := LinearOrder.lift' key key_injective

theorem lt_iff {a b : OperationId} :
    a < b ↔ a.lamport < b.lamport ∨ a.lamport = b.lamport ∧ a.peer < b.peer :=
  Prod.Lex.lt_iff

end OperationId

/-! ## The Lamport clock -/

structure LamportClock where
  counter : UInt64

namespace LamportClock

/-- The next local timestamp, and the clock advanced to it. -/
def tick (c : LamportClock) : UInt64 × LamportClock :=
  let next := saturatingAdd c.counter 1
  (next, ⟨next⟩)

/-- The clock kept at or above a timestamp observed from a remote peer. -/
def observe (c : LamportClock) (remote : UInt64) : LamportClock :=
  if c.counter < remote then ⟨remote⟩ else c

theorem observe_counter (c : LamportClock) (remote : UInt64) :
    (c.observe remote).counter = max c.counter remote := by
  unfold observe
  split_ifs with h
  · rw [max_eq_right h.le]
  · rw [max_eq_left (not_lt.mp h)]

end LamportClock

/-! ## The vector clock -/

structure VectorClock where
  clocks : BTreeMap PeerId UInt64

namespace VectorClock

/-- The empty clock. -/
def new : VectorClock := ⟨∅⟩

/-- The counter of `peer`, zero when absent. -/
def get (v : VectorClock) (peer : PeerId) : UInt64 := v.clocks[peer]?.getD 0

/-- Counts one event of `peer`. The addition is the unchecked `+= 1`, which wraps. -/
def increment (v : VectorClock) (peer : PeerId) : VectorClock :=
  ⟨v.clocks.insert peer (v.get peer + 1)⟩

/-- Sets the counter of `peer` to at least `value`. -/
def witness (v : VectorClock) (peer : PeerId) (value : UInt64) : VectorClock :=
  ⟨v.clocks.insert peer (if v.get peer < value then value else v.get peer)⟩

/-- The component-wise maximum with `other`, one `witness` for each of its entries. -/
def merge (v other : VectorClock) : VectorClock :=
  other.clocks.toList.foldl (fun acc e => acc.witness e.1 e.2) v

/-- The value pass of `happensBefore` over the entries left: `none` once an entry exceeds the
other clock's, else whether one was strictly less. -/
def valuePass (other : VectorClock) : List (PeerId × UInt64) → Bool → Option Bool
  | [], strictlyLess => some strictlyLess
  | (peer, value) :: rest, strictlyLess =>
    if other.get peer < value then none
    else valuePass other rest (strictlyLess || decide (value < other.get peer))

/-- Whether every event `v` counts is counted by `other`, and one more is. -/
def happensBefore (v other : VectorClock) : Bool :=
  match valuePass other v.clocks.toList false with
  | none => false
  | some true => true
  | some false => other.clocks.keys.any fun peer => !v.clocks.contains peer

/-- Whether neither clock happens before the other and they differ. Entries are compared key by
key, so an entry of zero differs from none. -/
def isConcurrent (v other : VectorClock) : Bool :=
  !v.happensBefore other && !other.happensBefore v && !(v.clocks.toList == other.clocks.toList)

/-- No counter is greater than the other clock's, an absent one counting as zero. -/
def Below (v other : VectorClock) : Prop := ∀ p, v.get p ≤ other.get p

/-- The comparisons are those of the counters, one by one. -/
structure ComparesCounters (v other : VectorClock) : Prop where
  happensBefore_iff : v.happensBefore other = true ↔ v.Below other ∧ ∃ p, v.get p < other.get p
  isConcurrent_iff : v.isConcurrent other = true ↔ ¬v.Below other ∧ ¬other.Below v

/-- The counters differ, or `other` has no entry that `v` has not. -/
def ShowsNoMore (v other : VectorClock) : Prop :=
  (∃ p, v.get p ≠ other.get p) ∨ ∀ p ∈ other.clocks, p ∈ v.clocks

end VectorClock

end AvSync
