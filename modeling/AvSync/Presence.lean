import AvSync.Lib.Machine
import AvSync.Message

/-!
# Presence

The presence manager: the local user with an activity tracker, and the last known state of every
remote user. Who has departed, and not been heard of since, is a history variable of its runs.
-/

namespace AvSync

/-- Timeouts controlling the Online → Idle → Offline transitions. -/
structure IdleConfig where
  idleAfterMs : UInt64
  offlineAfterMs : UInt64

def IdleConfig.default : IdleConfig := ⟨30000, 300000⟩

/-- The presence implied by the gap between now and the last activity. -/
def IdleConfig.presenceAt (config : IdleConfig) (nowMs lastActiveMs : UInt64) : PresenceState :=
  let idleFor := saturatingSub nowMs lastActiveMs
  if config.offlineAfterMs ≤ idleFor then .offline
  else if config.idleAfterMs ≤ idleFor then .idle
  else .online

structure ActivityTracker where
  config : IdleConfig
  lastActiveMs : UInt64

def ActivityTracker.noteActivity (tracker : ActivityTracker) (nowMs : UInt64) : ActivityTracker :=
  { tracker with lastActiveMs := nowMs }

def ActivityTracker.presenceAt (tracker : ActivityTracker) (nowMs : UInt64) : PresenceState :=
  tracker.config.presenceAt nowMs tracker.lastActiveMs

/-- A remote user and their cursor, as known locally. -/
structure RemoteUser where
  info : UserInfo
  cursor : Option CursorState

structure PresenceManager where
  localPeer : PeerId
  localUser : UserInfo
  tracker : ActivityTracker
  cursor : Option CursorState
  remotes : BTreeMap PeerId RemoteUser

def UserInfo.online (peerId : PeerId) (name : String) (nowMs : UInt64) : UserInfo :=
  ⟨peerId, name, none, .online, nowMs⟩

namespace PresenceManager

def new (localUser : UserInfo) (idleConfig : IdleConfig) : PresenceManager where
  localPeer := localUser.peerId
  localUser := localUser
  tracker := ⟨idleConfig, localUser.lastActiveMs⟩
  cursor := none
  remotes := ∅

variable (manager : PresenceManager)

def setAvatar (avatar : AvatarData) : PresenceManager :=
  { manager with localUser := { manager.localUser with avatar := some avatar } }

def setName (name : String) : PresenceManager :=
  { manager with localUser := { manager.localUser with name := name } }

def noteLocalActivity (nowMs : UInt64) : PresenceManager :=
  { manager with
    tracker := manager.tracker.noteActivity nowMs
    localUser := { manager.localUser with lastActiveMs := nowMs } }

def updateLocalCursor (cursor : CursorState) : PresenceManager :=
  { manager with
    cursor := some cursor
    tracker := manager.tracker.noteActivity cursor.timestampMs
    localUser := { manager.localUser with lastActiveMs := cursor.timestampMs } }

/-- Applies an update from a remote peer. A `leaving` one marks the peer offline. -/
def receiveUpdate (update : PresenceUpdate) : PresenceManager :=
  let info :=
    if update.leaving then { update.user with presence := .offline } else update.user
  let entry := manager.remotes[update.peerId]?.getD ⟨info, none⟩
  { manager with
    remotes := manager.remotes.insert update.peerId ⟨info, update.cursor <|> entry.cursor⟩ }

/-- Marks a remote peer gone. -/
def handlePeerLeave (peer : PeerId) : PresenceManager :=
  { manager with
    remotes := manager.remotes.modify peer fun entry =>
      { entry with info := { entry.info with presence := .offline } } }

def remoteUser (peer : PeerId) : Option RemoteUser := manager.remotes[peer]?

/-- All remote cursors of users that are not offline. -/
def remoteCursors : List (PeerId × CursorState) :=
  (manager.remotes.toList.filter fun entry => entry.2.info.presence ≠ .offline).filterMap
    fun entry => entry.2.cursor.map fun cursor => (entry.1, cursor)

/-- Refreshes the local presence, and ages remote users by the same rules. -/
def tick (nowMs : UInt64) : PresenceManager :=
  { manager with
    localUser := { manager.localUser with
      presence := manager.tracker.presenceAt nowMs
      lastActiveMs := manager.tracker.lastActiveMs }
    remotes := manager.remotes.map fun _ entry =>
      { entry with info := { entry.info with
          presence := manager.tracker.config.presenceAt nowMs entry.info.lastActiveMs } } }

def generateUpdate : PresenceUpdate :=
  ⟨manager.localPeer, manager.localUser, manager.cursor, false⟩

def generateLeaveUpdate : PresenceUpdate × PresenceManager :=
  let user := { manager.localUser with presence := .offline }
  (⟨manager.localPeer, user, none, true⟩, { manager with localUser := user })

end PresenceManager

/-! ## Runs -/

/-- The calls to a presence manager. -/
inductive PresenceCall where
  | receiveUpdate (update : PresenceUpdate)
  | handlePeerLeave (peer : PeerId)
  | tick (nowMs : UInt64)
  | noteLocalActivity (nowMs : UInt64)
  | updateLocalCursor (cursor : CursorState)
  | setAvatar (avatar : AvatarData)
  | setName (name : String)
  | generateUpdate
  | generateLeaveUpdate

def PresenceManager.call (manager : PresenceManager) : PresenceCall → PresenceManager
  | .receiveUpdate update => manager.receiveUpdate update
  | .handlePeerLeave peer => manager.handlePeerLeave peer
  | .tick nowMs => manager.tick nowMs
  | .noteLocalActivity nowMs => manager.noteLocalActivity nowMs
  | .updateLocalCursor cursor => manager.updateLocalCursor cursor
  | .setAvatar avatar => manager.setAvatar avatar
  | .setName name => manager.setName name
  | .generateUpdate => manager
  | .generateLeaveUpdate => manager.generateLeaveUpdate.2

/-- A presence manager, and who has departed. -/
structure Audience where
  manager : PresenceManager
  departed : PeerId → Bool

namespace Audience

/-- A manager that has not been called. -/
def new (localUser : UserInfo) (idleConfig : IdleConfig) : Audience :=
  ⟨.new localUser idleConfig, fun _ => false⟩

/-- Who has departed after a call: a peer that says so or is reported gone, until it is heard of
again. -/
def departedAfter (departed : PeerId → Bool) : PresenceCall → PeerId → Bool
  | .receiveUpdate update => Function.update departed update.peerId update.leaving
  | .handlePeerLeave peer => Function.update departed peer true
  | _ => departed

def machine : Machine Audience PresenceCall where
  step s call := ⟨s.manager.call call, departedAfter s.departed call⟩
  enabled _ _ := True

/-- Who has departed is offline, and shows no cursor. -/
def Gone (s : Audience) : Prop :=
  ∀ peer, s.departed peer = true →
    (∀ user, s.manager.remoteUser peer = some user → user.info.presence = .offline) ∧
      ∀ cursor, (peer, cursor) ∉ s.manager.remoteCursors

/-- Who has departed has been inactive for as long as it takes to count as offline. -/
def AgesOut (s : Audience) : PresenceCall → Prop
  | .tick nowMs => ∀ peer, s.departed peer = true →
      ∀ user, s.manager.remoteUser peer = some user →
        s.manager.tracker.config.offlineAfterMs ≤ saturatingSub nowMs user.info.lastActiveMs
  | _ => True

end Audience

end AvSync
