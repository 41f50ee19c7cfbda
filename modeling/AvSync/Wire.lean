import AvSync.Identity
import AvSync.Message

/-!
# Wire frames

The outermost frames of the framing transports, and the checks a remote `Hello` has to pass. The
codec is taken to decode what it encoded, so a link carries the frames themselves.
-/

namespace AvSync

/-- The protocol version negotiated in the handshake. -/
def protocolVersion : UInt16 := 2

/-- The outermost wire frame. -/
inductive WireFrame (C : Crypto) where
  | hello (peerId : PeerId) (protocol : UInt16) (identity : Option (PeerIdentityProof C))
  | challenge (nonce : Bytes32)
  | challengeResponse (signature : C.Signature)
  | message (message : SyncMessage)
  | goodbye

/-- What a transport presents of itself, and what it asks of the remote. -/
structure Endpoint (C : Crypto) where
  localId : PeerId
  identity : Option (PeerIdentity C)
  requireRemoteIdentity : Bool

namespace Endpoint

variable {C : Crypto}

/-- The state that `listen_authenticated`, `serve_authenticated` and `connect_authenticated` put a
transport in. -/
def authenticated (identity : PeerIdentity C) : Endpoint C :=
  ⟨identity.peerId, some identity, true⟩

@[simp] theorem identity_authenticated (id : PeerIdentity C) :
    (authenticated id).identity = some id := rfl

@[simp] theorem requireRemoteIdentity_authenticated (id : PeerIdentity C) :
    (authenticated id).requireRemoteIdentity = true := rfl

/-- The `Hello` of a transport: the id its identity derives is authoritative. -/
def helloFrame (inner : Endpoint C) : WireFrame C :=
  .hello ((inner.identity.map PeerIdentity.peerId).getD inner.localId) protocolVersion
    (inner.identity.map PeerIdentity.helloProof)

/-- What both transports check of a remote `Hello`; they word a rejected proof differently. -/
def checkRemoteHello (rejected : IdentityError → String) (requireIdentity : Bool)
    (protocol : UInt16) (claimed : PeerId) (remoteIdentity : Option (PeerIdentityProof C)) :
    Except SyncError Unit :=
  if protocol ≠ protocolVersion then
    .error (.transport ("protocol mismatch: peer speaks v" ++ toString protocol ++
      ", we speak v" ++ toString protocolVersion))
  else
    match remoteIdentity with
    | some proof =>
      match proof.verify claimed with
      | .error err => .error (.transport (rejected err))
      | .ok () => .ok ()
    | none =>
      if requireIdentity then
        .error (.transport "peer did not present an identity (authenticated mode)")
      else .ok ()

variable {rejected : IdentityError → String} {requireIdentity : Bool} {protocol : UInt16}
  {claimed : PeerId} {remoteIdentity : Option (PeerIdentityProof C)}

/-- An authenticated hello is accepted by everyone. -/
theorem checkRemoteHello_helloProof (id : PeerIdentity C) :
    checkRemoteHello rejected requireIdentity protocolVersion id.peerId (some id.helloProof) =
      .ok () := by
  simp [checkRemoteHello, id.verify_helloProof]

/-- A proof that is accepted is one of the claimed id, and who requires one gets one. -/
theorem checkRemoteHello_ok
    (h : checkRemoteHello rejected requireIdentity protocol claimed remoteIdentity = .ok ()) :
    (∀ proof, remoteIdentity = some proof → proof.verify claimed = .ok ()) ∧
      (requireIdentity = true → remoteIdentity ≠ none) := by
  unfold checkRemoteHello at h
  by_cases hp : protocol ≠ protocolVersion
  · rw [if_pos hp] at h
    cases h
  rw [if_neg hp] at h
  rcases remoteIdentity with _ | proof
  · refine ⟨nofun, fun hr => ?_⟩
    simp [hr] at h
  · refine ⟨fun _ hproof => ?_, fun _ => nofun⟩
    cases hproof
    dsimp only at h
    rcases hv : proof.verify claimed with err | ⟨⟩
    · rw [hv] at h
      cases h
    · rfl

end Endpoint

end AvSync
