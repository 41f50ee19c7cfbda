import AvSync.Replication

/-!
# Ownership of split children

Splits of different clips, or at different offsets, may name one child. Each makes a
`(parent, offset)` claim on it, and the smallest claim is to own the child on every replica.
-/

namespace AvSync

namespace TimelineOperation

/-- What the operation sets the liveness of `x` to. -/
def liveness (op : TimelineOperation) (x : ClipId) : Option Bool :=
  match op with
  | insertClip y .. | splitClip _ _ y => if y = x then some true else none
  | deleteClip y => if y = x then some false else none
  | _ => none

end TimelineOperation

namespace Session

/-- The claim that owns `n`. -/
def claimOf (s : Session) (n : ClipId) : Option Claim := s.clips[n]?.bind (·.originClaim)

/-- The child a clip records at the split point `k`. -/
def pointOf (s : Session) (k : Claim) : Option ClipId :=
  s.clips[k.clip]?.bind (·.splits[k.offset]?)

/-- The liveness register of `x`. -/
def aliveOf (s : Session) (x : ClipId) : Option (LwwReg Bool) := s.clips[x]?.map (·.alive)

/-- `n` is there, and `k` owns it. -/
def OwnedBy (s : Session) (k : Claim) (n : ClipId) : Prop :=
  ∃ child, s.clips[n]? = some child ∧ child.originClaim = some k ∧
    child.parent = some ⟨k.clip, k.offset⟩

end Session

namespace OpSet

variable (D : OpSet)

/-- A split of the set makes the claim `k` on `n`. -/
def Claims (k : Claim) (n : ClipId) : Prop := D.Has (.splitClip k.clip k.offset n)

/-- `k` is the smallest claim on `n`. -/
def Owns (k : Claim) (n : ClipId) : Prop := D.Claims k n ∧ ∀ k', D.Claims k' n → k ≤ k'

/-- Splits may share a child. The parents are inserted, the children are not. -/
structure SharedIds : Prop where
  stamped : D.Stamped
  parent_inserted : ∀ {k n}, D.Claims k n → ∃ r d p, D.Has (.insertClip k.clip r d p)
  child_not_inserted : ∀ {k n r d p}, D.Claims k n → ¬D.Has (.insertClip n r d p)

/-- What the replicas `c` and `c'` of the set are to agree on. -/
structure Agreed (c c' : TimelineCrdt) : Prop where
  view : ∃ v, c.view = some v ∧ c'.view = some v
  owner : ∀ k n, D.Owns k n → c.session.OwnedBy k n ∧ c'.session.OwnedBy k n
  alive : ∀ x : ClipId,
    c.session.clips[x]?.map (·.alive.value) = c'.session.clips[x]?.map (·.alive.value)
  parent : ∀ x : ClipId, c.session.clips[x]?.map (·.parent) = c'.session.clips[x]?.map (·.parent)
  splits : ∀ x : ClipId, c.session.clips[x]?.map (·.splits) = c'.session.clips[x]?.map (·.splits)

/-- Every two deliveries of the set agree. -/
def Agrees : Prop :=
  ∀ l m p q, D.Delivers l → D.Delivers m →
    D.Agreed (TimelineCrdt.replica p l) (TimelineCrdt.replica q m)

/-- The last word on the liveness of `n` is an owner's or a delete's: no delete names `n`, or a
split of the owner is newer than the deletes, or a delete is newer than the splits. -/
inductive LivenessSettled (D : OpSet) (n : ClipId) : Prop
  | undeleted : ¬D.Has (.deleteClip n) → LivenessSettled D n
  | owned {o : TaggedOperation} {k : Claim} : o ∈ D.ops →
      o.operation = .splitClip k.clip k.offset n → D.Owns k n →
      (∀ d ∈ D.ops, d.operation = .deleteClip n → d.tag < o.tag) → LivenessSettled D n
  | deleted {d : TaggedOperation} : d ∈ D.ops → d.operation = .deleteClip n →
      (∀ o ∈ D.ops, ∀ k : Claim, o.operation = .splitClip k.clip k.offset n → o.tag < d.tag) →
      LivenessSettled D n

/-- Where `k` owns a child, it owns one that is smaller than each child it loses. -/
def PointSettled (D : OpSet) (k : Claim) : Prop :=
  ∀ l, D.Claims k l → ¬D.Owns k l → ∀ n, D.Owns k n → ∃ n', D.Owns k n' ∧ n' < l

end OpSet

end AvSync
