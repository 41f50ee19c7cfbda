import AvSync.Websocket

/-!
# Two challenges that nobody answers

Both ends of an authenticated handshake challenge the other and wait for a response in a loop that
skips challenges. So every order of their steps leads to the state in which both wait and nothing is
in flight (`WebsocketTransport.not_completes`).
-/

namespace AvSync

namespace WebsocketTransport

open Duplex Handshake

variable {C : Crypto} {a b : PeerIdentity C} {na nb : Bytes32}

/-- Each has the other's proof, and waits for a response to its challenge. -/
def bothWait (a b : PeerIdentity C) : Duplex (Handshake C) (Handshake C) (WireFrame C) :=
  ⟨.awaitResponse b.peerId b.helloProof, .awaitResponse a.peerId a.helloProof, [], []⟩

theorem onHello_authenticated (id : PeerIdentity C) :
    onHello (.authenticated a) (Endpoint.authenticated id).helloFrame =
      .challenge id.peerId id.helloProof := by
  simp only [onHello, Endpoint.helloFrame, Endpoint.authenticated, Option.map_some,
    Option.getD_some, verifyRemoteHello, Endpoint.checkRemoteHello_helloProof]

/-- The steps in rounds: hellos out, hellos in, challenges out, challenges skipped. -/
theorem reachable_bothWait :
    Reachable (.authenticated a) (.authenticated b) na nb (bothWait a b) := by
  have hello := ((Relation.ReflTransGen.refl (r := Step
      (handshakeAndRegister (.authenticated a) na)
      (handshakeAndRegister (.authenticated b) nb)) (a := connection)).tail
    (.leftSend rfl)).tail (.rightSend rfl)
  have verified := (hello.tail (.leftReceive rfl)).tail (.rightReceive rfl)
  rw [onHello_authenticated, onHello_authenticated] at verified
  have challenged := (verified.tail (.leftSend rfl)).tail (.rightSend rfl)
  have skipped := (challenged.tail (.leftReceive rfl)).tail (.rightReceive rfl)
  exact skipped

theorem final_bothWait : (bothWait a b).Final (handshakeAndRegister (.authenticated a) na)
    (handshakeAndRegister (.authenticated b) nb) :=
  final_of_receive rfl rfl

theorem stuck_bothWait : Stuck (.authenticated a) (.authenticated b) na nb (bothWait a b) :=
  ⟨Or.inl ⟨_, rfl⟩, rfl, rfl, final_bothWait⟩

variable {d : Duplex (Handshake C) (Handshake C) (WireFrame C)}

/-- Wherever a handshake stands, it ends up with both waiting. -/
theorem Reachable.bothWait (h : Reachable (.authenticated a) (.authenticated b) na nb d) :
    Star (handshakeAndRegister (.authenticated a) na) (handshakeAndRegister (.authenticated b) nb)
      d (bothWait a b) :=
  star_final reachable_bothWait final_bothWait h

theorem Reachable.not_registered (h : Reachable (.authenticated a) (.authenticated b) na nb d)
    (peer : PeerId) : d.left ≠ .registered peer ∧ d.right ≠ .registered peer := by
  constructor
  · intro hl
    have := h.bothWait.left_eq (by rw [hl]; rfl)
    rw [hl] at this
    cases this
  · intro hr
    have := h.bothWait.right_eq (by rw [hr]; rfl)
    rw [hr] at this
    cases this

/-- No two identities and nonces make an authenticated handshake complete: it gets stuck whatever
the order of its steps, and never registers anyone. -/
theorem not_completes (C : Crypto) (a b : PeerIdentity C) (na nb : Bytes32) :
    ¬Completes na nb a b ∧ ∀ d, Reachable (.authenticated a) (.authenticated b) na nb d →
      (∃ e, Star (handshakeAndRegister (.authenticated a) na)
          (handshakeAndRegister (.authenticated b) nb) d e ∧
        Stuck (.authenticated a) (.authenticated b) na nb e) ∧
      ∀ peer, d.left ≠ .registered peer ∧ d.right ≠ .registered peer :=
  ⟨fun h => h.1 _ reachable_bothWait stuck_bothWait,
    fun _ hd => ⟨⟨_, hd.bothWait, stuck_bothWait⟩, hd.not_registered⟩⟩

theorem handshake_stuck :
    ¬Completes (.replicate 32 7) (.replicate 32 8) (.fromSeed .symbolic (.replicate 32 1))
      (.fromSeed .symbolic (.replicate 32 2)) :=
  fun h => h.1 _ reachable_bothWait stuck_bothWait

end WebsocketTransport

end AvSync
