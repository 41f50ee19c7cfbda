import AvSync.Lib.OrdMap
import AvSync.Security

/-!
# WebRTC signaling

The WebRTC transport's side of signaling: dialing, and what it does with offers, answers and ICE
candidates that are delivered to it. The WebRTC library is a parameter; its failures are texts.
-/

namespace AvSync

/-- `RTCIceCandidateInit`; the other fields have their defaults. -/
structure IceCandidateInit where
  candidate : String
  sdpMid : Option String
  deriving DecidableEq

/-- What the transport calls of the WebRTC library. A call that changes a connection returns it. -/
structure RtcLibrary where
  Connection : Type
  Description : Type
  /-- `RTCSessionDescription::offer` -/
  offer : String → Except String Description
  /-- `RTCSessionDescription::answer` -/
  answer : String → Except String Description
  newPeerConnection : Except String Connection
  remoteDescription : Connection → Option Description
  setRemoteDescription : Connection → Description → Except String Connection
  addIceCandidate : Connection → IceCandidateInit → Except String Connection
  createDataChannel : Connection → String → Except String Connection
  createOffer : Connection → Except String Description
  createAnswer : Connection → Except String Description
  setLocalDescription : Connection → Description → Except String Connection
  /-- The SDP of the local description. -/
  localDescription : Connection → Option String

/-- A signaling message to be relayed between peers. -/
inductive SignalEnvelope where
  | offer (sender target : PeerId) (sdp : String)
  | answer (sender target : PeerId) (sdp : String)
  | iceCandidate (sender target : PeerId) (candidate mid : String)
  deriving DecidableEq

def SignalEnvelope.target : SignalEnvelope → PeerId
  | .offer _ target _ | .answer _ target _ | .iceCandidate _ target _ _ => target

/-- One remote peer's connection state. -/
structure RtcPeer (L : RtcLibrary) where
  pc : L.Connection
  /-- ICE candidates that arrived before the remote description. -/
  pendingCandidates : List IceCandidateInit

structure WebRtcTransport (L : RtcLibrary) where
  localId : PeerId
  peers : BTreeMap PeerId (RtcPeer L)
  outgoing : List SignalEnvelope

namespace WebRtcTransport

def dataChannelLabel : String := "tpt-av-sync"

variable {L : RtcLibrary} (s : WebRtcTransport L)

def new (L : RtcLibrary) (localId : PeerId) : WebRtcTransport L := ⟨localId, ∅, []⟩

def emit (envelope : SignalEnvelope) : WebRtcTransport L :=
  { s with outgoing := s.outgoing ++ [envelope] }

def peersEntry (peer : PeerId) : Except SyncError (RtcPeer L) :=
  match s.peers[peer]? with
  | some conn => .ok conn
  | none => .error (.peerNotFound peer)

def setEntry (peer : PeerId) (conn : RtcPeer L) : WebRtcTransport L :=
  { s with peers := s.peers.insert peer conn }

/-- Adds the pending candidates; failures are ignored. -/
def addPending (conn : RtcPeer L) : RtcPeer L where
  pc := conn.pendingCandidates.foldl
    (fun pc init =>
      match L.addIceCandidate pc init with
      | .ok pc => pc
      | .error _ => pc) conn.pc
  pendingCandidates := []

def flushCandidates (peer : PeerId) : WebRtcTransport L :=
  match s.peersEntry peer with
  | .error _ => s
  | .ok conn => s.setEntry peer (addPending conn)

/-- A connection with a new entry in the peer map. -/
def createPeerConnection (peer : PeerId) : Except SyncError (RtcPeer L) × WebRtcTransport L :=
  match L.newPeerConnection with
  | .error e => (.error (.transport ("peer connection: " ++ e)), s)
  | .ok pc => (.ok ⟨pc, []⟩, s.setEntry peer ⟨pc, []⟩)

/-- Sets the remote description of a peer's connection, and adds the candidates that have waited
for it. -/
def setRemote (peer : PeerId) (conn : RtcPeer L) (description : L.Description) :
    Except SyncError Unit × WebRtcTransport L :=
  match L.setRemoteDescription conn.pc description with
  | .error e => (.error (.transport ("set remote: " ++ e)), s)
  | .ok pc => (.ok (), (s.setEntry peer { conn with pc := pc }).flushCandidates peer)

/-- Makes an answer to the offer that has been set, and emits it. -/
def emitAnswer (peer : PeerId) : Except SyncError Unit × WebRtcTransport L :=
  match s.peersEntry peer with
  | .error error => (.error error, s)
  | .ok conn =>
    match L.createAnswer conn.pc with
    | .error e => (.error (.transport ("answer: " ++ e)), s)
    | .ok description =>
      match L.setLocalDescription conn.pc description with
      | .error e => (.error (.transport ("set local: " ++ e)), s)
      | .ok pc =>
        let s := s.setEntry peer { conn with pc := pc }
        match L.localDescription pc with
        | none => (.error (.transport "no local description"), s)
        | some sdp => (.ok (), s.emit (.answer s.localId peer sdp))

def answerOffer (sender : PeerId) (sdp : String) : Except SyncError Unit × WebRtcTransport L :=
  match L.offer sdp with
  | .error e => (.error (.transport ("bad offer sdp: " ++ e)), s)
  | .ok description =>
    match s.createPeerConnection sender with
    | (.error error, s) => (.error error, s)
    | (.ok conn, s) =>
      match s.setRemote sender conn description with
      | (.error error, s) => (.error error, s)
      | (.ok (), s) => s.emitAnswer sender

/-- The offering side: a new connection with a data channel, and an offer to be relayed. -/
def dial (peer : PeerId) : Except SyncError Unit × WebRtcTransport L :=
  match s.createPeerConnection peer with
  | (.error error, s) => (.error error, s)
  | (.ok conn, s) =>
    match L.createDataChannel conn.pc dataChannelLabel with
    | .error e => (.error (.transport ("data channel: " ++ e)), s)
    | .ok pc =>
      let s := s.setEntry peer { conn with pc := pc }
      match L.createOffer pc with
      | .error e => (.error (.transport ("offer: " ++ e)), s)
      | .ok description =>
        match L.setLocalDescription pc description with
        | .error e => (.error (.transport ("set local: " ++ e)), s)
        | .ok pc =>
          let s := s.setEntry peer { conn with pc := pc }
          match L.localDescription pc with
          | none => (.error (.transport "no local description"), s)
          | some sdp => (.ok (), s.emit (.offer s.localId peer sdp))

def handleAnswer (sender : PeerId) (sdp : String) : Except SyncError Unit × WebRtcTransport L :=
  match L.answer sdp with
  | .error e => (.error (.transport ("bad answer sdp: " ++ e)), s)
  | .ok description =>
    match s.peersEntry sender with
    | .error error => (.error error, s)
    | .ok conn => s.setRemote sender conn description

/-- A candidate as the library takes it. -/
def candidateInit (candidate mid : String) : IceCandidateInit :=
  ⟨candidate, if mid.isEmpty then none else some mid⟩

/-- Adds a candidate, or keeps it until there is a remote description. -/
def handleCandidate (sender : PeerId) (init : IceCandidateInit) :
    Except SyncError Unit × WebRtcTransport L :=
  match s.peersEntry sender with
  | .error error => (.error error, s)
  | .ok conn =>
    if (L.remoteDescription conn.pc).isSome then
      match L.addIceCandidate conn.pc init with
      | .error e => (.error (.transport ("add candidate: " ++ e)), s)
      | .ok pc => (.ok (), s.setEntry sender { conn with pc := pc })
    else
      (.ok (), s.setEntry sender
        { conn with pendingCandidates := conn.pendingCandidates ++ [init] })

/-- Handles an envelope received from the remote side. -/
def handleSignal (envelope : SignalEnvelope) : Except SyncError Unit × WebRtcTransport L :=
  if envelope.target ≠ s.localId then (.ok (), s)
  else
    match envelope with
    | .offer sender _ sdp => s.answerOffer sender sdp
    | .answer sender _ sdp => s.handleAnswer sender sdp
    | .iceCandidate sender _ candidate mid => s.handleCandidate sender (candidateInit candidate mid)

/-- The transport after envelopes have been passed to it, whatever it returned for them. -/
def handleSignals (signals : List SignalEnvelope) : WebRtcTransport L :=
  signals.foldl (fun s envelope => (s.handleSignal envelope).2) s

end WebRtcTransport

/-- The library accepts a session description and candidates: a new connection has neither, a remote
description can be set on it, candidates can be added behind that, and an answer can be made.
`added` are the candidates that have been added to a connection. -/
structure RtcLibrary.Accepts (L : RtcLibrary) (added : L.Connection → List IceCandidateInit)
    (description : L.Description) (candidates : List IceCandidateInit) : Prop where
  new : ∃ pc, L.newPeerConnection = .ok pc ∧ added pc = [] ∧ L.remoteDescription pc = none
  remote : ∀ pc, L.remoteDescription pc = none → ∃ pc',
    L.setRemoteDescription pc description = .ok pc' ∧ added pc' = added pc ∧
      (L.remoteDescription pc').isSome
  candidate : ∀ pc, (L.remoteDescription pc).isSome → ∀ init ∈ candidates, ∃ pc',
    L.addIceCandidate pc init = .ok pc' ∧ added pc' = added pc ++ [init] ∧
      (L.remoteDescription pc').isSome
  answer : ∀ pc, (L.remoteDescription pc).isSome → ∃ d pc', L.createAnswer pc = .ok d ∧
    L.setLocalDescription pc d = .ok pc' ∧ added pc' = added pc ∧
      (L.remoteDescription pc').isSome ∧ (L.localDescription pc').isSome

/-- Every one of the candidates has been added to the peer's connection once. -/
def WebRtcTransport.AddedOnce {L : RtcLibrary} (s : WebRtcTransport L)
    (added : L.Connection → List IceCandidateInit) (peer : PeerId)
    (candidates : List IceCandidateInit) : Prop :=
  ∃ conn, s.peers[peer]? = some conn ∧ (added conn.pc).Perm candidates

end AvSync
