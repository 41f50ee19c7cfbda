import AvSync.Clock

/-!
# Peer identities

An identity binds a peer id to a signing key: the id is derived from the public key. Two proofs
travel the wire, a signature over the id and one over a nonce of the other side, each under its own
context. Ed25519 and SHA-256 are a parameter.
-/

namespace AvSync

/-- 32 bytes: a hash, a key, a seed or a nonce. -/
abbrev Bytes32 : Type := Vector UInt8 32

/-- The hash and the signatures that identities are made of. -/
structure Crypto where
  Signature : Type
  sha256 : List UInt8 → Bytes32
  verifyingKey : Bytes32 → Bytes32
  sign : Bytes32 → List UInt8 → Signature
  /-- `VerifyingKey::from_bytes` succeeds. -/
  decodes : Bytes32 → Bool
  verify : Bytes32 → List UInt8 → Signature → Bool
  decodes_verifyingKey : ∀ seed, decodes (verifyingKey seed) = true
  verify_sign : ∀ seed message, verify (verifyingKey seed) message (sign seed message) = true

/-- Signatures that show who signed what. -/
def Crypto.symbolic : Crypto where
  Signature := Bytes32 × List UInt8
  sha256 message := .ofFn fun i => message.reverse.getD i 0
  verifyingKey seed := seed
  sign seed message := (seed, message)
  decodes _ := true
  verify key message signature := decide (signature = (key, message))
  decodes_verifyingKey _ := rfl
  verify_sign _ _ := decide_eq_true rfl

/-- `to_be_bytes` of a `u64`. -/
def beBytes (n : ℕ) : List UInt8 :=
  (List.range 8).map fun i => UInt8.ofNat (n >>> (8 * (7 - i)))

/-- `u64::from_be_bytes` -/
def ofBeBytes (bytes : List UInt8) : UInt64 :=
  .ofNat (bytes.foldl (fun n b => 256 * n + b.toNat) 0)

/-- Errors produced by identity verification. -/
inductive IdentityError where
  | peerIdMismatch
  | badSignature
  | malformed
  deriving DecidableEq

def IdentityError.display : IdentityError → String
  | peerIdMismatch => "peer id does not derive from verifying key"
  | badSignature => "signature verification failed"
  | malformed => "malformed key or signature"

def derivePeerId (C : Crypto) (verifyingKey : Bytes32) : PeerId :=
  ⟨ofBeBytes ((C.sha256 ("tpt-av-sync/peer-id/v2".toUTF8.toList ++ verifyingKey.toList)).toList.take
    8)⟩

/-- What is signed to prove that a key is owned. -/
def helloMessage (peerId : PeerId) : List UInt8 :=
  "tpt-av-sync/identity/hello/v2".toUTF8.toList ++ beBytes peerId.raw.toNat

/-- What is signed to prove that a key is there now. -/
def challengeMessage (nonce : Bytes32) : List UInt8 :=
  "tpt-av-sync/identity/challenge/v2".toUTF8.toList ++ nonce.toList

/-- The contexts keep the two apart: neither signature can stand for the other. -/
theorem helloMessage_ne_challengeMessage (peerId : PeerId) (nonce : Bytes32) :
    helloMessage peerId ≠ challengeMessage nonce := by
  intro h
  have hhello : "tpt-av-sync/identity/hello/v2".toUTF8.toList.length = 29 := by decide +kernel
  have hchallenge : "tpt-av-sync/identity/challenge/v2".toUTF8.toList.length = 33 := by
    decide +kernel
  have hlen := congrArg List.length h
  simp only [helloMessage, challengeMessage, List.length_append, hhello, hchallenge, beBytes,
    List.length_map, List.length_range, Vector.length_toList] at hlen
  omega

/-- The public half of an identity. -/
structure PeerIdentityProof (C : Crypto) where
  verifyingKey : Bytes32
  helloSignature : C.Signature

/-- Verifies the proof against a claimed peer id. -/
def PeerIdentityProof.verify {C : Crypto} (proof : PeerIdentityProof C) (claimed : PeerId) :
    Except IdentityError Unit :=
  if !C.decodes proof.verifyingKey then .error .malformed
  else if derivePeerId C proof.verifyingKey ≠ claimed then .error .peerIdMismatch
  else if C.verify proof.verifyingKey (helloMessage claimed) proof.helloSignature then .ok ()
  else .error .badSignature

/-- Verifies a challenge response against a nonce and an identity proof. -/
def verifyChallengeResponse {C : Crypto} (proof : PeerIdentityProof C) (nonce : Bytes32)
    (signature : C.Signature) : Except IdentityError Unit :=
  if !C.decodes proof.verifyingKey then .error .malformed
  else if C.verify proof.verifyingKey (challengeMessage nonce) signature then .ok ()
  else .error .badSignature

/-- A signing identity, with the id its key derives. -/
structure PeerIdentity (C : Crypto) where
  signing : Bytes32
  peerId : PeerId
  peerId_eq : peerId = derivePeerId C (C.verifyingKey signing)

namespace PeerIdentity

variable {C : Crypto}

def fromSeed (C : Crypto) (seed : Bytes32) : PeerIdentity C where
  signing := seed
  peerId := derivePeerId C (C.verifyingKey seed)
  peerId_eq := rfl

variable (id : PeerIdentity C)

def verifyingKey : Bytes32 := C.verifyingKey id.signing

def helloProof : PeerIdentityProof C where
  verifyingKey := id.verifyingKey
  helloSignature := C.sign id.signing (helloMessage id.peerId)

def signChallenge (nonce : Bytes32) : C.Signature := C.sign id.signing (challengeMessage nonce)

/-- The proof an identity presents is accepted. -/
theorem verify_helloProof : id.helloProof.verify id.peerId = .ok () := by
  simp [PeerIdentityProof.verify, helloProof, verifyingKey, C.decodes_verifyingKey, C.verify_sign,
    id.peerId_eq]

/-- The answer an identity gives to a challenge is accepted. -/
theorem verify_signChallenge (nonce : Bytes32) :
    verifyChallengeResponse id.helloProof nonce (id.signChallenge nonce) = .ok () := by
  simp [verifyChallengeResponse, helloProof, verifyingKey, signChallenge, C.decodes_verifyingKey,
    C.verify_sign]

end PeerIdentity

/-- The proof of membership of a room under a secret. -/
def roomTokenProof (sha256 : List UInt8 → Bytes32) (secret room : String) : Bytes32 :=
  sha256 ("tpt-av-sync/room-token/v2".toUTF8.toList ++ beBytes secret.utf8ByteSize ++
    secret.toUTF8.toList ++ beBytes room.utf8ByteSize ++ room.toUTF8.toList)

end AvSync
