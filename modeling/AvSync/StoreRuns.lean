import AvSync.Persistence

/-!
# Runs of a session store

The calls made to one store over any rooms, and the life of one room's log: its appends, with the
store opened again in between. The operations appended and the places where the log rotated are
history variables.
-/

namespace AvSync.Persistence

namespace SessionStore

variable (C : WireCodec) (store : SessionStore)

/-- Appends over any rooms, one after the other. -/
def appendCalls (calls : List (String × TaggedOperation)) : SessionStore :=
  calls.foldl (fun store call => store.appendOp C call.1 call.2) store

/-- A store opened on the directory of this one, with its limits. -/
def reopen : SessionStore := openInner store.dir store.limits

/-- Whether an append to the room rotates its log. -/
def rotates (room : String) (op : TaggedOperation) : Bool :=
  match store.limits with
  | none => false
  | some limits => store.isFull room limits (C.record op)

end SessionStore

/-- The operations that the calls append with the given room name. -/
def appendedTo (room : String) (calls : List (String × TaggedOperation)) : List TaggedOperation :=
  (calls.filter (·.1 = room)).map (·.2)

/-- What happens to a room's log. -/
inductive LogEvent
  | append (op : TaggedOperation)
  | reopen

/-- A store with the history of one room. -/
structure LoggedRoom where
  store : SessionStore
  /-- Every operation appended, the latest last. -/
  appended : List TaggedOperation
  /-- How many operations had been appended at each rotation, the latest rotation first. -/
  rotatedAt : List ℕ

namespace LoggedRoom

variable (C : WireCodec) (room : String) (s : LoggedRoom)

/-- A bounded store that has been opened on an empty directory. -/
def opened (limits : StoreLimits) : LoggedRoom := ⟨.openInner ∅ (some limits), [], []⟩

def step : LogEvent → LoggedRoom
  | .append op =>
    { store := s.store.appendOp C room op
      appended := s.appended ++ [op]
      rotatedAt :=
        if s.store.rotates C room op then s.appended.length :: s.rotatedAt else s.rotatedAt }
  | .reopen => { s with store := s.store.reopen }

def run (events : List LogEvent) : LoggedRoom := events.foldl (step C room) s

/-- What has been appended since the last rotation. -/
def sinceLast : List TaggedOperation := s.appended.drop (s.rotatedAt.getD 0 0)

/-- What has been appended since the last rotation but one. -/
def sinceLastButOne : List TaggedOperation := s.appended.drop (s.rotatedAt.getD 1 0)

end LoggedRoom

/-- The file of a log segment keeps the limits: a frame that is too long for them is alone. -/
def StoreLimits.Keeps (limits : StoreLimits) (file : List UInt8) : Prop :=
  (Framing.payloads file).length ≤ limits.maxOpsPerRoom.toNat ∧
    (file.length ≤ limits.maxBytesPerRoom.toNat ∨ (Framing.payloads file).length = 1)

/-- The log of a room holds the newest operations, in segments that keep the limits. -/
structure LoggedRoom.KeepsNewest (C : WireCodec) (room : String) (limits : StoreLimits)
    (s : LoggedRoom) : Prop where
  loads : s.store.loadOps C room = s.sinceLastButOne
  suffix : s.store.loadOps C room <:+ s.appended
  latest : (s.store.loadOps C room).getLast? = s.appended.getLast?
  segments : ∀ file, s.store.dir[SessionStore.pathFor room]? = some file ∨
    s.store.dir[SessionStore.rotatedPathFor room]? = some file → limits.Keeps file

end AvSync.Persistence
