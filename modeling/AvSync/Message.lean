import AvSync.TimelineCrdt
import AvSync.Security

/-!
# Network messages

What synced peers exchange. The playhead, presence and clock payloads are handed through to the
application as they came.
-/

namespace AvSync

/-- A peer's playhead position, in its own clock. -/
structure PlayheadUpdate where
  peerId : PeerId
  position : UInt64
  timestampMs : UInt64
  playing : Bool
  deriving DecidableEq

/-- A command to the transport of every peer. -/
inductive TransportControl where
  | play (position : UInt64)
  | stop (position : UInt64)
  | locate (position : UInt64)
  | record (position : UInt64)
  deriving DecidableEq

inductive ClockSyncType where
  | request
  | response
  deriving DecidableEq

/-- A clock synchronization message with its four timestamps. -/
structure ClockSyncMessage where
  peerId : PeerId
  messageType : ClockSyncType
  t1 : UInt64
  t2 : Option UInt64
  t3 : Option UInt64
  t4 : Option UInt64
  deriving DecidableEq

inductive PresenceState where
  | online
  | idle
  | offline
  deriving DecidableEq

structure Color where
  r : UInt8
  g : UInt8
  b : UInt8
  a : UInt8
  deriving DecidableEq

inductive AvatarKind where
  | url (url : String)
  | png (bytes : List UInt8)
  deriving DecidableEq

structure AvatarData where
  kind : AvatarKind
  color : Color
  deriving DecidableEq

/-- Information about a user in the session. -/
structure UserInfo where
  peerId : PeerId
  name : String
  avatar : Option AvatarData
  presence : PresenceState
  lastActiveMs : UInt64
  deriving DecidableEq

structure CursorState where
  playhead : Option UInt64
  selection : Option (UInt64 × UInt64)
  focusedClip : Option ClipId
  timestampMs : UInt64
  deriving DecidableEq

/-- A user's presence, as shared with the others. -/
structure PresenceUpdate where
  peerId : PeerId
  user : UserInfo
  cursor : Option CursorState
  leaving : Bool
  deriving DecidableEq

/-- A message exchanged between synced peers. -/
inductive SyncMessage where
  | operation (op : TaggedOperation)
  | batch (ops : List TaggedOperation)
  | requestSnapshot
  | snapshot (snapshot : TimelineSnapshot)
  | playheadUpdate (update : PlayheadUpdate)
  | transportControl (control : TransportControl)
  | presenceUpdate (update : PresenceUpdate)
  | clockSync (message : ClockSyncMessage)
  | ack (opId : OperationId)

end AvSync
