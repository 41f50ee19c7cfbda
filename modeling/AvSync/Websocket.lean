import AvSync.Lib.Duplex
import AvSync.Wire

/-!
# The WebSocket handshake

Both ends of a new connection run `handshake_and_register`. Each sends a `Hello` and waits for the
other's; a remote that presents an identity is challenged, and the response is waited for in a loop
that skips other frames. The link is reliable and ordered, so closes and read errors do not occur.
-/

namespace AvSync

namespace WebsocketTransport

variable {C : Crypto}

/-- Validates a remote `Hello`. -/
def verifyRemoteHello (requireIdentity : Bool) (protocol : UInt16) (claimed : PeerId)
    (remoteIdentity : Option (PeerIdentityProof C)) : Except SyncError Unit :=
  Endpoint.checkRemoteHello (fun err => "peer identity rejected: " ++ err.display)
    requireIdentity protocol claimed remoteIdentity

/-- Where `handshake_and_register` stands. -/
inductive Handshake (C : Crypto) where
  | start
  | awaitHello
  | challenge (peer : PeerId) (proof : PeerIdentityProof C)
  | awaitResponse (peer : PeerId) (proof : PeerIdentityProof C)
  | registered (peer : PeerId)
  | failed (error : SyncError)

namespace Handshake

/-- The end of the handshake for a verified remote, unless it presented an identity. -/
def onHello (inner : Endpoint C) : WireFrame C → Handshake C
  | .hello peerId protocol identity =>
    match verifyRemoteHello inner.requireRemoteIdentity protocol peerId identity with
    | .error error => .failed error
    | .ok () =>
      match identity with
      | some proof => .challenge peerId proof
      | none => .registered peerId
  | _ => .awaitHello

def onResponse (peer : PeerId) (proof : PeerIdentityProof C) (nonce : Bytes32) :
    WireFrame C → Handshake C
  | .challengeResponse signature =>
    match verifyChallengeResponse proof nonce signature with
    | .error _ => .failed (.transport "challenge response rejected")
    | .ok () => .registered peer
  | _ => .awaitResponse peer proof

end Handshake

/-- One end of the handshake, which draws `nonce` for its challenge. -/
def handshakeAndRegister (inner : Endpoint C) (nonce : Bytes32) :
    Party (Handshake C) (WireFrame C) where
  act
    | .start => .send inner.helloFrame .awaitHello
    | .awaitHello => .receive (Handshake.onHello inner)
    | .challenge peer proof => .send (.challenge nonce) (.awaitResponse peer proof)
    | .awaitResponse peer proof => .receive (Handshake.onResponse peer proof nonce)
    | .registered _ | .failed _ => .halt

/-- Two endpoints on a link, before either has sent anything. -/
def connection : Duplex (Handshake C) (Handshake C) (WireFrame C) := ⟨.start, .start, [], []⟩

section Progress

variable (a b : Endpoint C) (na nb : Bytes32)

/-- The states of a handshake between `a` and `b`, in every order of their steps. -/
def Reachable (d : Duplex (Handshake C) (Handshake C) (WireFrame C)) : Prop :=
  Duplex.Star (handshakeAndRegister a na) (handshakeAndRegister b nb) connection d

/-- An endpoint waits for a frame, none is in flight and nobody can step. -/
def Stuck (d : Duplex (Handshake C) (Handshake C) (WireFrame C)) : Prop :=
  ((∃ f, (handshakeAndRegister a na).act d.left = .receive f) ∨
      ∃ f, (handshakeAndRegister b nb).act d.right = .receive f) ∧
    d.toLeft = [] ∧ d.toRight = [] ∧
      d.Final (handshakeAndRegister a na) (handshakeAndRegister b nb)

/-- The handshake cannot get stuck, and ends with each endpoint registered at the other. -/
def Completes (idA idB : PeerIdentity C) : Prop :=
  (∀ d, Reachable (.authenticated idA) (.authenticated idB) na nb d →
    ¬Stuck (.authenticated idA) (.authenticated idB) na nb d) ∧
  ∀ d, Reachable (.authenticated idA) (.authenticated idB) na nb d →
    d.Final (handshakeAndRegister (.authenticated idA) na)
        (handshakeAndRegister (.authenticated idB) nb) →
      d.left = .registered idB.peerId ∧ d.right = .registered idA.peerId

end Progress

end WebsocketTransport

end AvSync
