import AvSync.Lib.Framing
import AvSync.Relay

/-!
# Session persistence

The session store down to the bytes of its files: an append-only log of framed operations for each
room, which rotates when limits are in force. The wire codec is a parameter. A crash in the middle
of a write leaves a log cut at some byte, and the store is opened again.
-/

namespace AvSync

open Framing

/-- The wire codec: it decodes what it encoded. -/
structure WireCodec where
  encode : TaggedOperation → Option (List UInt8)
  decode : List UInt8 → Option TaggedOperation
  decode_encode : ∀ {op bytes}, encode op = some bytes → decode bytes = some op

namespace WireCodec

variable (C : WireCodec)

/-- Nothing decodes to an operation that is shorter than its encoding. -/
def Shortest : Prop :=
  ∀ {op bytes bytes'}, C.decode bytes = some op → C.encode op = some bytes' →
    bytes'.length ≤ bytes.length

/-- Operations are encoded at any length that a frame can have: a name may have any length. -/
def Unbounded : Prop :=
  ∀ n < 2 ^ 32, ∃ op bytes, C.encode op = some bytes ∧ n ≤ bytes.length ∧ bytes.length < 2 ^ 32

/-- The operation has an encoding of less than `n` bytes. -/
def Encodes (n : ℕ) (op : TaggedOperation) : Prop :=
  ∃ bytes, C.encode op = some bytes ∧ bytes.length < n

/-- What is written for an operation. -/
def record (op : TaggedOperation) : List UInt8 :=
  match C.encode op with
  | some bytes => frame bytes
  | none => []

/-- The operations whose records end within the first `k` bytes. -/
def complete : List TaggedOperation → ℕ → List TaggedOperation
  | [], _ => []
  | op :: ops, k =>
    if (C.record op).length ≤ k then op :: complete ops (k - (C.record op).length) else []

/-- The bytes of a log. -/
def log (ops : List TaggedOperation) : List UInt8 := ops.flatMap C.record

end WireCodec

namespace Persistence

/-- Limits bounding one room's log. -/
structure StoreLimits where
  maxBytesPerRoom : UInt64
  maxOpsPerRoom : UInt32

/-- A directory-backed store: the files by name. -/
structure SessionStore where
  dir : BTreeMap String (List UInt8)
  limits : Option StoreLimits
  /-- Per-room operation counts for the current log segment. -/
  counts : BTreeMap String UInt32

/-- Decodes every complete frame in a log file, skipping a truncated tail. -/
def readFrames (C : WireCodec) (file : Option (List UInt8)) : List TaggedOperation :=
  (payloads (file.getD [])).filterMap C.decode

/-- Counts the frames of a log file. -/
def countFrames (file : Option (List UInt8)) : Option UInt32 :=
  file.map fun bytes => UInt32.ofNat (payloads bytes).length

namespace SessionStore

def openInner (dir : BTreeMap String (List UInt8)) (limits : Option StoreLimits) : SessionStore :=
  ⟨dir, limits, ∅⟩

def pathFor (room : String) : String := AvSync.SessionStore.stemFor room ++ ".opslog"

def rotatedPathFor (room : String) : String := AvSync.SessionStore.stemFor room ++ ".opslog.1"

variable (C : WireCodec) (store : SessionStore) (room : String)

/-- Moves the current log to the single retained rotated generation. -/
def rotate : SessionStore :=
  let dir := store.dir.erase (rotatedPathFor room)
  match dir[pathFor room]? with
  | some bytes =>
    { store with dir := (dir.erase (pathFor room)).insert (rotatedPathFor room) bytes }
  | none => { store with dir := dir }

/-- The count of the current segment, resumed from its file if the store was reopened. -/
def count : UInt32 :=
  store.counts[room]?.getD ((countFrames store.dir[pathFor room]?).getD 0)

/-- Whether the log has to rotate before a frame is appended. -/
def isFull (limits : StoreLimits) (framed : List UInt8) : Bool :=
  decide (limits.maxOpsPerRoom ≤ store.count room) ||
    decide (limits.maxBytesPerRoom.toNat <
      (store.dir[pathFor room]?.map List.length).getD 0 + framed.length)

/-- Makes room for a frame, and counts it. -/
def makeRoom (framed : List UInt8) : SessionStore :=
  match store.limits with
  | none => store
  | some limits =>
    if store.isFull room limits framed then
      { store.rotate room with counts := store.counts.insert room 1 }
    else { store with counts := store.counts.insert room (store.count room + 1) }

/-- Appends one operation to the room's log. One that cannot be encoded is skipped. -/
def appendOp (op : TaggedOperation) : SessionStore :=
  match C.encode op with
  | none => store
  | some bytes =>
    let framed := frame bytes
    let store := store.makeRoom room framed
    { store with
      dir := store.dir.insert (pathFor room) (store.dir[pathFor room]?.getD [] ++ framed) }

/-- Loads every operation recorded for the room, oldest first. -/
def loadOps : List TaggedOperation :=
  readFrames C store.dir[rotatedPathFor room]? ++ readFrames C store.dir[pathFor room]?

def appendOps (ops : List TaggedOperation) : SessionStore :=
  ops.foldl (fun store op => store.appendOp C room op) store

/-- The store opened again after the room's log has been cut to its first `k` bytes. -/
def tear (k : ℕ) : SessionStore :=
  openInner (store.dir.modify (pathFor room) (List.take k)) store.limits

/-- None of the operations, appended one after the other, makes the log rotate. -/
def KeepsSegment : SessionStore → List TaggedOperation → Prop
  | _, [] => True
  | store, op :: ops =>
    (∀ limits, store.limits = some limits → store.isFull room limits (C.record op) = false) ∧
      KeepsSegment (store.appendOp C room op) ops

end SessionStore

end Persistence

end AvSync
