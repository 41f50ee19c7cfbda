import AvSync.Lib.Machine
import AvSync.Playhead

/-!
# Playhead engines that exchange messages

Any number of engines, one for each peer, each with a clock of its own. They send each other clock
requests, responses and playhead updates, and what has been sent is delivered at any time, again
and again or never. A response carries the id of the peer that asked, so who answered shows on the
network only.
-/

namespace AvSync

inductive PlayheadMessage where
  | clockSync (message : ClockSyncMessage)
  | update (update : PlayheadUpdate)
  deriving DecidableEq

/-- A message, with the peers it goes between. -/
structure PlayheadPacket where
  source : PeerId
  target : PeerId
  message : PlayheadMessage
  deriving DecidableEq

/-- The engines, and everything that has been sent. -/
structure Playheads (K : Type) where
  engine : PeerId → PlayheadSync K
  sent : List PlayheadPacket

/-- Something a peer does. A response may be stamped with its receive time by the caller. -/
inductive PlayheadEvent (K : Type) where
  | call (peer : PeerId) (c : PlayheadSync.Call K)
  | request (source target : PeerId) (now : K)
  | update (source target : PeerId) (now : K)
  | deliver (packet : PlayheadPacket) (t4 : Option UInt64) (now : K)
  | deliverPosition (packet : PlayheadPacket)

variable {K : Type} [Field K] [LinearOrder K]

namespace PlayheadSync

/-- A call that takes in no message. -/
def Call.IsLocal : Call K → Prop
  | .receivePlayheadUpdate .. | .receiveUpdate _ | .processClockSync .. => False
  | _ => True

instance : DecidablePred (Call.IsLocal (K := K))
  | .receivePlayheadUpdate .. | .receiveUpdate _ | .processClockSync .. => .isFalse id
  | .setLocalPosition _ | .setPlaying _ | .setMaster _ | .followMaster _
  | .observeClockSample .. => .isTrue trivial

variable [FloorRing K] (sync : PlayheadSync K)

/-- The message as the caller hands it over. -/
def stamped (message : ClockSyncMessage) (t4 : Option UInt64) : ClockSyncMessage :=
  t4.elim message message.withT4

/-- A message is taken in, and may be replied to. -/
def take (message : PlayheadMessage) (t4 : Option UInt64) (now : K) :
    Option ClockSyncMessage × PlayheadSync K :=
  match message with
  | .clockSync message => sync.processClockSync (stamped message t4) now
  | .update update => (none, sync.receiveUpdate update)

/-- An update is taken in without its transport state. -/
def takePosition : PlayheadMessage → PlayheadSync K
  | .clockSync _ => sync
  | .update update =>
    sync.receivePlayheadUpdate update.peerId update.position update.timestampMs

/-- A response makes no difference to the offset and the skew: it is no better than the retained
sample, which the drift estimator has last been fed, and at the same time. -/
def Ignores (response : ClockSyncMessage) (now : K) : Prop :=
  ∀ sample ∈ (response.completed (nowMsU64 now)).measure (K := K),
    sync.clock.hasSample = true ∧ sync.clock.bestRttMs ≤ sample.2 ∧
      sync.drift.lastOffsetMs = some sync.clock.bestOffsetMs ∧ sync.drift.lastTimeMs = some now

instance (response : ClockSyncMessage) (now : K) : Decidable (sync.Ignores response now) :=
  inferInstanceAs (Decidable (∀ _ ∈ _, _))

end PlayheadSync

/-- Between `a` and a peer other than `m`. -/
def PlayheadPacket.Outside (a m : PeerId) (packet : PlayheadPacket) : Prop :=
  packet.source = a ∧ packet.target ≠ m ∨ packet.target = a ∧ packet.source ≠ m

instance (a m : PeerId) (packet : PlayheadPacket) : Decidable (packet.Outside a m) :=
  inferInstanceAs (Decidable (_ ∨ _))

namespace Playheads

/-- New engines, with their sample rates. -/
def new (rates : PeerId → UInt32) : Playheads K := ⟨fun peer => .withClock peer (rates peer), []⟩

def setEngine (s : Playheads K) (peer : PeerId) (sync : PlayheadSync K) : Playheads K :=
  { s with engine := Function.update s.engine peer sync }

def send (s : Playheads K) (packets : List PlayheadPacket) : Playheads K :=
  { s with sent := packets ++ s.sent }

variable [FloorRing K] (s : Playheads K)

/-- What `source` sends when it asks `target` for the time. -/
def requestPacket (source target : PeerId) (now : K) : PlayheadPacket :=
  ⟨source, target, .clockSync ((s.engine source).sendClockSyncRequest target now)⟩

/-- What `source` sends when it tells `target` its position. -/
def updatePacket (source target : PeerId) (now : K) : PlayheadPacket :=
  ⟨source, target, .update ((s.engine source).generateUpdate now)⟩

/-- The answer to a packet goes back. -/
def replies (packet : PlayheadPacket) (reply : Option ClockSyncMessage) : List PlayheadPacket :=
  reply.toList.map fun message => ⟨packet.target, packet.source, .clockSync message⟩

def step : PlayheadEvent K → Playheads K
  | .call peer c => s.setEngine peer ((s.engine peer).call c)
  | .request source target now => s.send [s.requestPacket source target now]
  | .update source target now => s.send [s.updatePacket source target now]
  | .deliver packet t4 now =>
    let (reply, sync) := (s.engine packet.target).take packet.message t4 now
    (s.setEngine packet.target sync).send (replies packet reply)
  | .deliverPosition packet =>
    s.setEngine packet.target ((s.engine packet.target).takePosition packet.message)

/-- What is delivered has been sent. -/
def Enabled : PlayheadEvent K → Prop
  | .call _ c => c.IsLocal
  | .request .. | .update .. => True
  | .deliver packet .. | .deliverPosition packet => packet ∈ s.sent

instance : DecidablePred s.Enabled
  | .call _ c => inferInstanceAs (Decidable c.IsLocal)
  | .request .. | .update .. => .isTrue trivial
  | .deliver .. | .deliverPosition _ => inferInstanceAs (Decidable (_ ∈ _))

/-- Engines under events. -/
def machine : Machine (Playheads K) (PlayheadEvent K) := ⟨step, Enabled⟩

instance (s : Playheads K) (e : PlayheadEvent K) : Decidable (machine.enabled s e) :=
  inferInstanceAs (Decidable (s.Enabled e))

end Playheads

/-- The event is part of an exchange between `a` and a peer other than `m`. -/
def PlayheadEvent.Outside (a m : PeerId) : PlayheadEvent K → Prop
  | .call .. => False
  | .request source target _ | .update source target _ =>
    source = a ∧ target ≠ m ∨ target = a ∧ source ≠ m
  | .deliver packet .. | .deliverPosition packet => packet.Outside a m

instance (a m : PeerId) : DecidablePred (PlayheadEvent.Outside (K := K) a m)
  | .call .. => .isFalse id
  | .request .. | .update .. => inferInstanceAs (Decidable (_ ∨ _))
  | .deliver packet .. | .deliverPosition packet =>
    inferInstanceAs (Decidable (packet.Outside a m))

variable [FloorRing K]

/-- `a` takes in no response of another peer than `m` that makes a difference to its estimators. -/
def Playheads.MasterOnly (a m : PeerId) (s : Playheads K) : PlayheadEvent K → Prop
  | .deliver ⟨source, target, .clockSync message⟩ t4 now =>
    target = a → source ≠ m → message.messageType = .response →
      (s.engine a).Ignores (PlayheadSync.stamped message t4) now
  | _ => True

instance (a m : PeerId) (s : Playheads K) : DecidablePred (s.MasterOnly a m)
  | .deliver ⟨_, _, .clockSync _⟩ .. => inferInstanceAs (Decidable (_ → _ → _ → _))
  | .deliver ⟨_, _, .update _⟩ .. | .call .. | .request .. | .update .. | .deliverPosition _ =>
    .isTrue trivial

end AvSync
