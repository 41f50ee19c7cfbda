import AvSync.Lib.Machine
import AvSync.Wire

/-!
# The TCP handshake on a hostile network

The dialer and the acceptor of a TCP connection run different halves of the handshake: the dialer
challenges, the acceptor answers. The network is an attacker who reads what is written and decides
what every session reads. It cannot make a signature that has not been made, save under keys of its
own, and a nonce is new when it is drawn: these are the events that are enabled.
-/

namespace AvSync

namespace TcpTransport

variable {C : Crypto}

/-- Validates a remote `Hello` and returns its peer id. -/
def verifyRemoteHello (inner : Endpoint C) (protocol : UInt16) (claimed : PeerId)
    (remoteIdentity : Option (PeerIdentityProof C)) : Except SyncError PeerId :=
  (Endpoint.checkRemoteHello (fun err => match err with
      | .peerIdMismatch | .malformed => "peer identity rejected: " ++ err.display
      | .badSignature => "peer identity rejected: bad signature")
    inner.requireRemoteIdentity protocol claimed remoteIdentity).map fun _ => claimed

inductive Role where
  | dialer
  | acceptor
  deriving DecidableEq

/-- Where `dial` or `accept_incoming` stands after it has written its `Hello`. -/
inductive Stage (C : Crypto) where
  | awaitHello
  | challenging (peer : PeerId) (proof : PeerIdentityProof C)
  | awaitResponse (peer : PeerId) (proof : PeerIdentityProof C) (nonce : Bytes32)
  | awaitChallenge (peer : PeerId)
  | registered (peer : PeerId)
  | failed (error : SyncError)

/-- One connection of one transport. The nonce it has drawn is kept with the number of signatures
there were at that time, which is not state of the transport. -/
structure Session (C : Crypto) where
  role : Role
  inner : Endpoint C
  stage : Stage C
  drawn : Option (Bytes32 × ℕ)

/-- All sessions, and who has signed what so far, oldest first. -/
structure Network (C : Crypto) where
  sessions : ℕ → Option (Session C)
  signed : List (Bytes32 × List UInt8)

inductive Event (C : Crypto) where
  | start (c : ℕ) (role : Role) (inner : Endpoint C)
  /-- `read_frame` returns a frame. -/
  | deliver (c : ℕ) (frame : WireFrame C)
  /-- `read_frame` returns an error, or nothing. -/
  | cut (c : ℕ) (error : SyncError)
  | challenge (c : ℕ) (nonce : Bytes32)
  /-- The attacker signs with a key of its own. -/
  | attackerSign (key : Bytes32) (message : List UInt8)

/-- The stage after the first frame, for each half of the handshake. -/
def onHello (role : Role) (inner : Endpoint C) : WireFrame C → Stage C
  | .hello peerId protocol identity =>
    match verifyRemoteHello inner protocol peerId identity with
    | .error error => .failed error
    | .ok peer =>
      match role, identity with
      | .dialer, some proof => .challenging peer proof
      | .acceptor, some _ => .awaitChallenge peer
      | _, none => .registered peer
  | _ => .failed (.transport "expected Hello handshake")

/-- The second half of `challenge_and_verify`. -/
def onResponse (peer : PeerId) (proof : PeerIdentityProof C) (nonce : Bytes32) :
    WireFrame C → Stage C
  | .challengeResponse signature =>
    match verifyChallengeResponse proof nonce signature with
    | .error _ => .failed (.transport "challenge response rejected")
    | .ok () => .registered peer
  | _ => .failed (.transport "expected challenge response during handshake")

/-- `answer_challenge`: the stage after it, and what is signed for it. -/
def answerChallenge (inner : Endpoint C) (peer : PeerId) :
    WireFrame C → Stage C × List (Bytes32 × List UInt8)
  | .challenge nonce =>
    match inner.identity with
    | none => (.failed (.transport "challenged without an identity"), [])
    | some id => (.registered peer, [(id.verifyingKey, challengeMessage nonce)])
  | _ => (.failed (.transport "expected challenge during handshake"), [])

/-- The stage after a frame is read, and what is signed for it. -/
def onFrame (session : Session C) (frame : WireFrame C) :
    Stage C × List (Bytes32 × List UInt8) :=
  match session.stage with
  | .awaitHello => (onHello session.role session.inner frame, [])
  | .awaitResponse peer proof nonce => (onResponse peer proof nonce frame, [])
  | .awaitChallenge peer => answerChallenge session.inner peer frame
  | stage => (stage, [])

namespace Network

variable (s : Network C)

def setSession (c : ℕ) (session : Session C) (signed : List (Bytes32 × List UInt8)) :
    Network C where
  sessions := Function.update s.sessions c (some session)
  signed := s.signed ++ signed

def step (s : Network C) : Event C → Network C
  | .start c role inner =>
    match s.sessions c with
    | some _ => s
    | none => s.setSession c ⟨role, inner, .awaitHello, none⟩
        (inner.identity.toList.map fun id => (id.verifyingKey, helloMessage id.peerId))
  | .deliver c frame =>
    match s.sessions c with
    | some session =>
      s.setSession c { session with stage := (onFrame session frame).1 } (onFrame session frame).2
    | none => s
  | .cut c error =>
    match s.sessions c with
    | some session =>
      match session.stage with
      | .registered _ => s
      | _ => s.setSession c { session with stage := .failed error } []
    | none => s
  | .challenge c nonce =>
    match s.sessions c with
    | some session =>
      match session.stage with
      | .challenging peer proof =>
        s.setSession c { session with
          stage := .awaitResponse peer proof nonce, drawn := some (nonce, s.signed.length) } []
      | _ => s
    | none => s
  | .attackerSign key message => { s with signed := s.signed ++ [(key, message)] }

/-- The signatures a frame carries. -/
def signatures : WireFrame C → List C.Signature
  | .hello _ _ identity => identity.toList.map PeerIdentityProof.helloSignature
  | .challengeResponse signature => [signature]
  | _ => []

/-- Honest transports sign by the code alone, no frame carries a signature that nobody has made,
and nonces are new. -/
def enabled (corrupt : Bytes32 → Prop) (s : Network C) : Event C → Prop
  | .start _ _ inner => ∀ id, inner.identity = some id → ¬corrupt id.verifyingKey
  | .deliver _ frame => ∀ signature ∈ signatures frame, ∀ key message,
      C.verify key message signature = true → (key, message) ∈ s.signed
  | .cut _ _ => True
  | .challenge _ nonce => ∀ key, (key, challengeMessage nonce) ∉ s.signed
  | .attackerSign key _ => corrupt key

def machine (C : Crypto) (corrupt : Bytes32 → Prop) : Machine (Network C) (Event C) where
  step := step
  enabled := enabled corrupt

/-- No session has been opened, and nothing signed. -/
def new (C : Crypto) : Network C := ⟨fun _ => none, []⟩

/-- The holder of a key from which `peer` derives has signed a nonce that the session drew, after
it drew it. -/
def Live (session : Session C) (peer : PeerId) : Prop :=
  ∃ key nonce n, derivePeerId C key = peer ∧ session.drawn = some (nonce, n) ∧
    (key, challengeMessage nonce) ∈ s.signed.drop n

end Network

end TcpTransport

end AvSync
