import AvSync.Compaction
import AvSync.Replay

/-!
# Operation sets and deliveries

What peers exchange: a finite set of operations with distinct ids. A delivery hands every one of
them to a replica at least once, in any order.
-/

namespace AvSync

/-- A finite set of operations with distinct ids. -/
structure OpSet where
  ops : List TaggedOperation
  distinct : (ops.map (·.opId)).Nodup

namespace OpSet

/-- The operation is in the set. -/
def Has (D : OpSet) (op : TimelineOperation) : Prop := ∃ o ∈ D.ops, o.operation = op

/-- Each id is the `(lamport, peer)` pair the operation is stamped with. -/
def Stamped (D : OpSet) : Prop := ∀ o ∈ D.ops, o.opId = ⟨o.lamportTs, o.peerId⟩

/-- `l` holds every operation of the set, and no other, any number of times. -/
def Delivers (D : OpSet) (l : List TaggedOperation) : Prop := ∀ o, o ∈ l ↔ o ∈ D.ops

/-- No clip id is the child of two splits, and none is both split off and inserted. -/
structure FreshIds (D : OpSet) : Prop where
  stamped : D.Stamped
  split_once : ∀ o ∈ D.ops, ∀ o' ∈ D.ops, ∀ {c f n c' f'}, o.operation = .splitClip c f n →
    o'.operation = .splitClip c' f' n → o = o'
  not_inserted : ∀ {c f n r d p}, D.Has (.splitClip c f n) → ¬D.Has (.insertClip n r d p)

end OpSet

namespace TimelineCrdt

/-- A fresh timeline fed with `l`. -/
def replica (peer : PeerId) (l : List TaggedOperation) : TimelineCrdt := (new peer).deliver l

end TimelineCrdt

end AvSync
