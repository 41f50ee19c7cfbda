import AvSync.Lib.Measures
import AvSync.Message

/-!
# Playhead synchronization

The clock synchronizer, the latency and drift estimators, and the playhead engine that uses them.
Floats are the numbers of an ordered field, so all arithmetic is exact; the retained round trip is
infinite before there is a sample. The engine's clock is read once in a call, and its value is an
argument of the call.
-/

namespace AvSync

open Measures

variable {K : Type} [Field K] [LinearOrder K]

/-- `as f64` of a `u64` -/
def asF64 (n : UInt64) : K := (n.toNat : K)

/-- `as u64` of an integral float: it saturates. -/
def asU64 (n : ℤ) : UInt64 := UInt64.ofNat (min n.toNat u64Max.toNat)

/-- `u32::saturating_add` of one -/
def saturatingSucc (n : UInt32) : UInt32 := if n = 0xFFFFFFFF then n else n + 1

/-! ## The clock -/

namespace ClockSyncMessage

def request (peerId : PeerId) (nowMs : UInt64) : ClockSyncMessage :=
  ⟨peerId, .request, nowMs, none, none, none⟩

def respond (message : ClockSyncMessage) (nowMs : UInt64) : ClockSyncMessage :=
  ⟨message.peerId, .response, message.t1, some nowMs, some nowMs, none⟩

def withT4 (message : ClockSyncMessage) (nowMs : UInt64) : ClockSyncMessage :=
  { message with t4 := some nowMs }

/-- The offset and the round trip of a completed response. -/
def measure (message : ClockSyncMessage) : Option (K × K) :=
  match message.t2, message.t3, message.t4 with
  | some t2, some t3, some t4 =>
    let t1 : K := asF64 message.t1
    let t2 : K := asF64 t2
    let t3 : K := asF64 t3
    let t4 : K := asF64 t4
    let rtt := (t4 - t1) - (t3 - t2)
    let offset := ((t2 - t1) + (t3 - t4)) / 2
    some (offset, max rtt 0)
  | _, _, _ => none

/-- A response with its receive time, unless it has been stamped before. -/
def completed (message : ClockSyncMessage) (nowMs : UInt64) : ClockSyncMessage :=
  if message.t4.isSome then message else message.withT4 nowMs

end ClockSyncMessage

/-- Retains the offset measured from the lowest-rtt sample seen. -/
structure ClockSynchronizer (K : Type) where
  bestRttMs : WithTop K
  bestOffsetMs : K
  hasSample : Bool

namespace ClockSynchronizer

def new : ClockSynchronizer K := ⟨⊤, 0, false⟩

variable (clock : ClockSynchronizer K)

def observe (offsetMs rttMs : K) : ClockSynchronizer K :=
  if clock.hasSample = false ∨ (rttMs : WithTop K) < clock.bestRttMs then
    ⟨rttMs, offsetMs, true⟩
  else { clock with hasSample := true }

/-- Observes a response, and tells whether it was a complete one. -/
def processResponse (response : ClockSyncMessage) (nowMs : UInt64) :
    Bool × ClockSynchronizer K :=
  match response.messageType with
  | .request => (false, clock)
  | .response =>
    match (response.completed nowMs).measure with
    | some (offset, rtt) => (true, clock.observe offset rtt)
    | none => (false, clock)

def offsetMs : K := clock.bestOffsetMs

def rttMs : WithTop K := clock.bestRttMs

def toLocal (remoteMs : K) : K := remoteMs - clock.bestOffsetMs

end ClockSynchronizer

/-! ## Latency and drift -/

/-- A moving average of round trips. -/
structure LatencyEstimator (K : Type) where
  ewmaRttMs : K
  alpha : K
  samples : UInt32

namespace LatencyEstimator

def new (alpha : K) : LatencyEstimator K := ⟨0, clamp alpha 0 1, 0⟩

def default : LatencyEstimator K := new (1 / 4)

def onRttSample (latency : LatencyEstimator K) (rttMs : K) : LatencyEstimator K where
  ewmaRttMs :=
    if latency.samples = 0 then rttMs
    else latency.ewmaRttMs + latency.alpha * (rttMs - latency.ewmaRttMs)
  alpha := latency.alpha
  samples := saturatingSucc latency.samples

end LatencyEstimator

/-- The relative skew of two clocks in parts per million, from successive offsets. -/
structure DriftCompensator (K : Type) where
  lastOffsetMs : Option K
  lastTimeMs : Option K
  skewPpm : K
  alpha : K
  rateSamples : UInt32

namespace DriftCompensator

def new (alpha : K) : DriftCompensator K := ⟨none, none, 0, clamp alpha 0 1, 0⟩

def default : DriftCompensator K := new (1 / 5)

variable (drift : DriftCompensator K)

/-- The estimate after a measured rate. Absurd jumps are ignored. -/
def onRate (ppm : K) : DriftCompensator K :=
  if |ppm| < 10000 then
    { drift with
      skewPpm :=
        if drift.rateSamples = 0 then ppm else drift.skewPpm + drift.alpha * (ppm - drift.skewPpm)
      rateSamples := saturatingSucc drift.rateSamples }
  else drift

/-- Feeds a fresh offset measurement. -/
def onOffsetSample (offsetMs nowMs : K) : DriftCompensator K :=
  let rated :=
    match drift.lastOffsetMs, drift.lastTimeMs with
    | some lastOffset, some lastTime =>
      let dt := nowMs - lastTime
      if 0 < dt then drift.onRate ((offsetMs - lastOffset) / dt * 1000000) else drift
    | _, _ => drift
  { rated with lastOffsetMs := some offsetMs, lastTimeMs := some nowMs }

def correctElapsedMs (localElapsedMs : K) : K := localElapsedMs * (1 + drift.skewPpm / 1000000)

end DriftCompensator

/-! ## The engine -/

/-- A tracked remote playhead. -/
structure RemoteTrack (K : Type) where
  position : UInt64
  /-- Capture time converted into the local clock domain. -/
  atLocalMs : K
  playing : Bool
  deriving DecidableEq

structure PlayheadSync (K : Type) where
  peerId : PeerId
  localPosition : UInt64
  playing : Bool
  isMaster : Bool
  masterPeer : Option PeerId
  sampleRate : UInt32
  clock : ClockSynchronizer K
  latency : LatencyEstimator K
  drift : DriftCompensator K
  lastOffsetSampleAt : Option K
  remotes : BTreeMap PeerId (RemoteTrack K)

namespace PlayheadSync

def withClock (peerId : PeerId) (sampleRate : UInt32) : PlayheadSync K where
  peerId := peerId
  localPosition := 0
  playing := false
  isMaster := false
  masterPeer := none
  sampleRate := sampleRate
  clock := .new
  latency := .default
  drift := .default
  lastOffsetSampleAt := none
  remotes := ∅

variable (sync : PlayheadSync K)

def setLocalPosition (position : UInt64) : PlayheadSync K :=
  { sync with localPosition := position }

def setPlaying (playing : Bool) : PlayheadSync K := { sync with playing := playing }

def setMaster (isMaster : Bool) : PlayheadSync K :=
  { sync with
    isMaster := isMaster
    masterPeer := if isMaster then some sync.peerId else sync.masterPeer }

def followMaster (peer : PeerId) : PlayheadSync K := { sync with masterPeer := some peer }

def storeUpdate (peerId : PeerId) (position timestampMs : UInt64) (playing : Bool) :
    PlayheadSync K :=
  { sync with
    remotes := sync.remotes.insert peerId
      ⟨position, sync.clock.toLocal (asF64 timestampMs), playing⟩ }

def receivePlayheadUpdate (peerId : PeerId) (position timestampMs : UInt64) : PlayheadSync K :=
  sync.storeUpdate peerId position timestampMs
    ((sync.remotes[peerId]?.map RemoteTrack.playing).getD true)

def receiveUpdate (update : PlayheadUpdate) : PlayheadSync K :=
  sync.storeUpdate update.peerId update.position update.timestampMs update.playing

variable [FloorRing K]

/-- The synchronized position: a playing master's is extrapolated to the current instant. -/
def synchronizedPosition (now : K) : UInt64 :=
  if sync.isMaster then sync.localPosition
  else
    match sync.masterPeer with
    | none => sync.localPosition
    | some master =>
      match sync.remotes[master]? with
      | none => sync.localPosition
      | some track =>
        if track.playing then
          let elapsedMs := max (now - track.atLocalMs) 0
          let corrected := sync.drift.correctElapsedMs elapsedMs
          let advance := asU64 (roundAway (corrected * (sync.sampleRate.toNat : K) / 1000))
          saturatingAdd track.position advance
        else track.position

def nowMsU64 (now : K) : UInt64 := if 0 ≤ now then asU64 ⌊now⌋ else 0

/-- The update this peer broadcasts, stamped with its own clock. -/
def generateUpdate (now : K) : PlayheadUpdate :=
  ⟨sync.peerId, sync.localPosition, asU64 (max (roundAway now) 0), sync.playing⟩

/-- A request to `peer`, which it does not name. -/
def sendClockSyncRequest (_peer : PeerId) (now : K) : ClockSyncMessage :=
  .request sync.peerId (nowMsU64 now)

/-- Requests are answered; responses feed the estimators. -/
def processClockSync (message : ClockSyncMessage) (now : K) :
    Option ClockSyncMessage × PlayheadSync K :=
  match message.messageType with
  | .request => (some (message.respond (nowMsU64 now)), sync)
  | .response =>
    let (complete, clock) := sync.clock.processResponse message (nowMsU64 now)
    if complete then
      (none, { sync with
        clock := clock
        latency := sync.latency.onRttSample (clock.rttMs.untopD 0)
        drift := sync.drift.onOffsetSample clock.offsetMs now
        lastOffsetSampleAt := some now })
    else (none, { sync with clock := clock })

/-- Feeds a sample obtained outside the exchange. -/
def observeClockSample (offsetMs rttMs atLocalMs : K) : PlayheadSync K :=
  { sync with
    clock := sync.clock.observe offsetMs rttMs
    latency := sync.latency.onRttSample rttMs
    drift := sync.drift.onOffsetSample offsetMs atLocalMs
    lastOffsetSampleAt := some atLocalMs }

/-- The calls that change an engine. -/
inductive Call (K : Type) where
  | setLocalPosition (position : UInt64)
  | setPlaying (playing : Bool)
  | setMaster (isMaster : Bool)
  | followMaster (peer : PeerId)
  | receivePlayheadUpdate (peerId : PeerId) (position timestampMs : UInt64)
  | receiveUpdate (update : PlayheadUpdate)
  | processClockSync (message : ClockSyncMessage) (now : K)
  | observeClockSample (offsetMs rttMs atLocalMs : K)

def call : Call K → PlayheadSync K
  | .setLocalPosition position => sync.setLocalPosition position
  | .setPlaying playing => sync.setPlaying playing
  | .setMaster isMaster => sync.setMaster isMaster
  | .followMaster peer => sync.followMaster peer
  | .receivePlayheadUpdate peerId position timestampMs =>
    sync.receivePlayheadUpdate peerId position timestampMs
  | .receiveUpdate update => sync.receiveUpdate update
  | .processClockSync message now => (sync.processClockSync message now).2
  | .observeClockSample offsetMs rttMs atLocalMs =>
    sync.observeClockSample offsetMs rttMs atLocalMs

/-- An engine after calls to a new one. -/
def run (peerId : PeerId) (sampleRate : UInt32) (calls : List (Call K)) : PlayheadSync K :=
  calls.foldl (fun sync c => sync.call c) (withClock peerId sampleRate)

end PlayheadSync

end AvSync
