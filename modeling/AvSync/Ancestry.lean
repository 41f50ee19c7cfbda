import AvSync.Replay
import AvSync.Lib.ParentLinks

/-!
# The parent links of a session

The walks that resolve a clip follow the parent links of the records. Only a split sets a link,
and it does so without looking at ancestry.
-/

namespace AvSync

namespace Session

/-- The parent of a clip. -/
def parentOf (s : Session) (x : ClipId) : Option ClipId :=
  (s.clips[x]?.bind (·.parent)).map (·.clip)

/-- The parent links form a forest. -/
def Forest (s : Session) : Prop := ParentLinks.Forest s.parentOf

/-- `x` is `y`, or its chain of parents leads through `y`. -/
def Descends (s : Session) (x y : ClipId) : Prop := ParentLinks.Reaches s.parentOf x y

/-- A split of `c` at `f` into `n` sets the parent of `n`: it creates `n`, or takes it over from a
larger claim. -/
def Links (s : Session) (c : ClipId) (f : UInt64) (n : ClipId) : Prop :=
  c ≠ n ∧ (n ∉ s.clips ∧ c ∈ s.clips ∨
    ∃ child k, s.clips[n]? = some child ∧ child.originClaim = some k ∧ (⟨c, f⟩ : Claim) < k)

/-- `o` does not link a clip below one of its own descendants. -/
def KeepsForest (s : Session) (o : TaggedOperation) : Prop :=
  ∀ c f n, o.operation = .splitClip c f n → s.Links c f n → ¬s.Descends c n

end Session

end AvSync
