import AvSync.TimelineCrdt

/-!
# Compaction of the operation log

Kept are the operations whose tag some register carries, the first insert of each entity, and
every split.
-/

namespace AvSync

namespace TimelineCrdt

/-- Whether an operation is a split. -/
def isSplit : TimelineOperation → Bool
  | .splitClip .. => true
  | _ => false

/-- Keeps the operation a register's tag names, if the log has it. -/
def retainTag (byId : Finset OperationId) (keep : Finset OperationId) (tag : OpTag) :
    Finset OperationId :=
  if tag = .initial then keep
  else
    let id : OperationId := ⟨tag.lamport, tag.peer⟩
    if id ∈ byId then insert id keep else keep

/-- The bootstrap scan: the first insert of each clip and of each track is kept. -/
def bootstrap : List TaggedOperation → Finset ClipId → Finset TrackId → Finset OperationId →
    Finset OperationId
  | [], _, _, keep => keep
  | op :: ops, seenClips, seenTracks, keep =>
    match op.operation with
    | .insertClip clipId .. =>
      if clipId ∈ seenClips then bootstrap ops seenClips seenTracks keep
      else bootstrap ops (insert clipId seenClips) seenTracks (insert op.opId keep)
    | .insertTrack trackId .. =>
      if trackId ∈ seenTracks then bootstrap ops seenClips seenTracks keep
      else bootstrap ops seenClips (insert trackId seenTracks) (insert op.opId keep)
    | _ => bootstrap ops seenClips seenTracks keep

/-- The tags of every register of a session, in the order the scan meets them. -/
def registerTags (s : Session) : List OpTag :=
  (s.clips.toList.flatMap fun e => e.2.tags) ++ (s.tracks.toList.flatMap fun e => e.2.tags) ++
    s.envelopes.tags ++ s.sessionMetadataTags

/-- The ids of the operations that survive compaction. -/
def keptIds (ops : List TaggedOperation) (s : Session) : Finset OperationId :=
  let byId := (ops.map (·.opId)).toFinset
  let keep := ((ops.filter fun op => isSplit op.operation).map (·.opId)).toFinset
  let keep := bootstrap ops ∅ ∅ keep
  (registerTags s).foldl (retainTag byId) keep

/-- The compacted form of `ops` for the current state of the session, in the original order. -/
def compactOps (ops : List TaggedOperation) (s : Session) : List TaggedOperation :=
  ops.filter fun op => op.opId ∈ keptIds ops s

/-- `compact`: the log and the ids that detect duplicates shrink to the compacted log. -/
def compact (c : TimelineCrdt) : TimelineCrdt :=
  let compacted := compactOps c.operationLog c.session
  { c with seen := (compacted.map (·.opId)).toFinset, operationLog := compacted }

end TimelineCrdt

end AvSync
