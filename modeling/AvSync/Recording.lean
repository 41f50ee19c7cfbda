import AvSync.Editing

/-!
# Recordings of a session

A recording is a log of operations with the wall-clock times of their capture, in that order. A
replay feeds those it includes to `apply_remote`, and may sleep between them. The times of different
peers come from different clocks, so an operation may be replayed before one it depends on.
-/

namespace AvSync

/-- An operation with its `timestamp`, in nanoseconds from the epoch. -/
structure RecordedOperation where
  operation : TaggedOperation
  timestamp : ℤ

/-- What a replay needs of `f64`: the comparison with zero, and `Duration::div_f64` in nanoseconds,
which is `none` where that panics: the quotient is too large for a duration. -/
structure DurationScaling where
  positive : F64 → Bool
  divF64 : ℕ → F64 → Option ℕ

inductive ReplaySpeed where
  | instant
  | realtime (factor : F64)

/-- `SessionRecording`. It is sorted when it is made. -/
structure SessionRecording where
  ops : List RecordedOperation
  sorted : ops.Pairwise fun a b => a.timestamp ≤ b.timestamp

/-- A timeline while a recording is replayed into it, and for how long the replay has slept. -/
structure Replaying where
  crdt : TimelineCrdt
  previous : Option ℤ
  slept : List ℕ

/-- Which operations a replay includes: `replay_all` and `replay_until`. -/
inductive ReplayRequest where
  | all
  | until (cutoff : ℤ)

def ReplayRequest.includes : ReplayRequest → RecordedOperation → Bool
  | .all, _ => true
  | .until cutoff, op => decide (op.timestamp ≤ cutoff)

namespace SessionRecording

def new (ops : List RecordedOperation) : SessionRecording where
  ops := ops.insertionSort fun a b => a.timestamp ≤ b.timestamp
  sorted := List.pairwise_insertionSort _ _

def timeRange (recording : SessionRecording) : Option (ℤ × ℤ) :=
  match recording.ops.head?, recording.ops.getLast? with
  | some first, some last => some (first.timestamp, last.timestamp)
  | _, _ => none

variable (D : DurationScaling) (recording : SessionRecording)

/-- For how long a replay sleeps before an operation that was captured at `timestamp`, if it does.
`none` when it panics. -/
def pause (speed : ReplaySpeed) (previous : Option ℤ) (timestamp : ℤ) : Option (Option ℕ) :=
  match speed, previous with
  | .realtime factor, some prev =>
    -- the gap is an error when the previous operation is the later one
    if D.positive factor ∧ prev ≤ timestamp then
      (D.divF64 (timestamp - prev).toNat factor).map fun scaled =>
        if 0 < scaled then some scaled else none
    else some none
  | _, _ => some none

def replayOne (speed : ReplaySpeed) (s : Replaying) (op : RecordedOperation) : Option Replaying :=
  (pause D speed s.previous op.timestamp).map fun pause =>
    { crdt := s.crdt.applyRemote op.operation
      previous := some op.timestamp
      slept := s.slept ++ pause.toList }

/-- `none` when the replay panics. -/
def replayMatching (crdt : TimelineCrdt) (speed : ReplaySpeed)
    (included : RecordedOperation → Bool) : Option Replaying :=
  recording.ops.foldlM (fun s op => if included op then replayOne D speed s op else some s)
    ⟨crdt, none, []⟩

/-- `replay_all` or `replay_until`. -/
def replay (crdt : TimelineCrdt) (speed : ReplaySpeed) (request : ReplayRequest) :
    Option Replaying :=
  recording.replayMatching D crdt speed request.includes

/-- One replay after the other into the same timeline. -/
def replays (crdt : TimelineCrdt) (requests : List (ReplaySpeed × ReplayRequest)) :
    Option TimelineCrdt :=
  requests.foldlM (fun c k => (recording.replay D c k.1 k.2).map (·.crdt)) crdt

/-! ## Gaps -/

/-- The gaps between successive times. -/
def gaps : List ℤ → List ℕ
  | a :: b :: l => (b - a).toNat :: gaps (b :: l)
  | _ => []

/-- The speed can be kept over these times: each gap can be scaled, if it is to be. -/
def Paced (speed : ReplaySpeed) (times : List ℤ) : Prop :=
  ∀ factor, speed = .realtime factor → D.positive factor = true →
    ∀ gap ∈ gaps times, (D.divF64 gap factor).isSome

/-- The times of the operations that a replay includes. -/
def includedTimes (request : ReplayRequest) : List ℤ :=
  (recording.ops.filter request.includes).map (·.timestamp)

end SessionRecording

end AvSync
