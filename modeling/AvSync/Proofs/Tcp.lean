import AvSync.Tcp

/-!
# Who proves a live key

The dialer registers a peer on an answer to its own new nonce. The acceptor answers a challenge and
makes none, so it registers whoever replays a recorded `Hello`. A registration is backed by a live
key exactly when it is the dialer's (`TcpTransport.run_live_iff`).
-/

namespace AvSync

namespace TcpTransport

variable {C : Crypto} {corrupt : Bytes32 → Prop} {s t : Network C} {session : Session C}
  {peer : PeerId} {frame : WireFrame C} {c : ℕ}
  {x : List (Bytes32 × List UInt8)}

theorem derivePeerId_of_verify {proof : PeerIdentityProof C} (h : proof.verify peer = .ok ()) :
    derivePeerId C proof.verifyingKey = peer := by
  unfold PeerIdentityProof.verify at h
  split_ifs at h with h₁ h₂
  exact not_not.mp h₂

theorem verify_of_verifyChallengeResponse {proof : PeerIdentityProof C} {nonce : Bytes32}
    {signature : C.Signature} (h : verifyChallengeResponse proof nonce signature = .ok ()) :
    C.verify proof.verifyingKey (challengeMessage nonce) signature = true := by
  unfold verifyChallengeResponse at h
  split_ifs at h with h₁ h₂
  exact h₂

/-- What holds of a session where it stands. -/
def StageOk (s : Network C) (session : Session C) : Stage C → Prop
  | .challenging peer proof =>
    session.role = .dialer ∧ derivePeerId C proof.verifyingKey = peer
  | .awaitResponse peer proof nonce =>
    session.role = .dialer ∧ derivePeerId C proof.verifyingKey = peer ∧
      ∃ n, session.drawn = some (nonce, n) ∧ n ≤ s.signed.length ∧
        ∀ key, (key, challengeMessage nonce) ∉ s.signed.take n
  | .awaitChallenge _ => session.role = .acceptor
  | .registered peer =>
    session.inner.requireRemoteIdentity = true → session.role = .dialer → s.Live session peer
  | .awaitHello | .failed _ => True

structure SessionOk (s : Network C) (session : Session C) : Prop where
  drawn : session.role = .acceptor → session.drawn = none
  stage : StageOk s session session.stage

theorem Live.grow (ht : t.signed = s.signed ++ x) (h : s.Live session peer) :
    t.Live session peer := by
  obtain ⟨key, nonce, n, hk, hd, hm⟩ := h
  refine ⟨key, nonce, n, hk, hd, ?_⟩
  rw [ht, List.drop_append]
  exact List.mem_append_left _ hm

theorem StageOk.grow (ht : t.signed = s.signed ++ x) {stage : Stage C}
    (h : StageOk s session stage) : StageOk t session stage := by
  rcases stage with _ | _ | ⟨peer, proof, nonce⟩ | _ | _ | _
  case awaitResponse =>
    obtain ⟨hr, hp, n, hd, hn, hfresh⟩ := h
    refine ⟨hr, hp, n, hd, ?_, fun key => ?_⟩
    · rw [ht, List.length_append]
      omega
    · rw [ht, List.take_append_of_le_length hn]
      exact hfresh key
  case registered => exact fun hreq hr => Live.grow ht (h hreq hr)
  all_goals exact h

theorem SessionOk.grow (ht : t.signed = s.signed ++ x) (h : SessionOk s session) :
    SessionOk t session :=
  ⟨h.drawn, h.stage.grow ht⟩

/-! ## Reading a frame -/

theorem verifyRemoteHello_ok {inner : Endpoint C} {protocol : UInt16} {claimed : PeerId}
    {identity : Option (PeerIdentityProof C)}
    (h : verifyRemoteHello inner protocol claimed identity = .ok peer) :
    (∀ proof, identity = some proof → derivePeerId C proof.verifyingKey = peer) ∧
      (inner.requireRemoteIdentity = true → identity ≠ none) := by
  unfold verifyRemoteHello at h
  rcases hc : Endpoint.checkRemoteHello _ inner.requireRemoteIdentity protocol claimed identity
    with error | ⟨⟩ <;> rw [hc] at h <;> cases h
  obtain ⟨hproof, hreq⟩ := Endpoint.checkRemoteHello_ok hc
  exact ⟨fun proof hp => derivePeerId_of_verify (hproof proof hp), hreq⟩

theorem stageOk_onHello : StageOk s session (onHello session.role session.inner frame) := by
  unfold onHello
  rcases frame with ⟨claimed, protocol, identity⟩ | _ | _ | _ | _
  case hello =>
    dsimp only
    rcases hv : verifyRemoteHello session.inner protocol claimed identity with error | peer
    · trivial
    obtain ⟨hproof, hreq⟩ := verifyRemoteHello_ok hv
    rcases identity with _ | proof
    · rcases session.role with _ | _ <;> exact fun hr => absurd rfl (hreq hr)
    · rcases hr : session.role with _ | _
      · exact ⟨hr, hproof proof rfl⟩
      · exact hr
  all_goals trivial

/-- An answer to the session's own new nonce is a signature made since it was drawn. -/
theorem stageOk_onResponse {proof : PeerIdentityProof C} {nonce : Bytes32}
    (he : s.enabled corrupt (.deliver c frame))
    (h : StageOk s session (.awaitResponse peer proof nonce)) :
    StageOk s session (onResponse peer proof nonce frame) := by
  unfold onResponse
  rcases frame with _ | _ | signature | _ | _
  case challengeResponse =>
    dsimp only
    rcases hv : verifyChallengeResponse proof nonce signature with error | ⟨⟩
    · trivial
    obtain ⟨-, hp, n, hd, hn, hfresh⟩ := h
    refine fun _ _ => ⟨proof.verifyingKey, nonce, n, hp, hd, ?_⟩
    have hm : (proof.verifyingKey, challengeMessage nonce) ∈ s.signed :=
      he signature List.mem_cons_self _ _ (verify_of_verifyChallengeResponse hv)
    rw [← List.take_append_drop n s.signed, List.mem_append] at hm
    exact hm.resolve_left (hfresh _)
  all_goals trivial

theorem stageOk_answerChallenge (h : session.role = .acceptor) :
    StageOk s session (answerChallenge session.inner peer frame).1 := by
  unfold answerChallenge
  rcases frame with _ | nonce | _ | _ | _
  case challenge =>
    dsimp only
    rcases session.inner.identity with _ | id
    · trivial
    · intro _ hr
      cases h.symm.trans hr
  all_goals trivial

theorem stageOk_onFrame (he : s.enabled corrupt (.deliver c frame)) (h : SessionOk s session) :
    StageOk s session (onFrame session frame).1 := by
  have hs := h.stage
  unfold onFrame
  rcases hst : session.stage with _ | _ | ⟨peer, proof, nonce⟩ | peer | _ | _ <;> rw [hst] at hs
  case awaitHello => exact stageOk_onHello
  case awaitResponse => exact stageOk_onResponse he hs
  case awaitChallenge => exact stageOk_answerChallenge hs
  all_goals exact hs

/-! ## Runs -/

/-- Every session stands where the code can bring it. -/
def Ok (s : Network C) : Prop := ∀ c session, s.sessions c = some session → SessionOk s session

theorem Ok.setSession {c : ℕ} (h : Ok s) (hnew : SessionOk (s.setSession c session x) session) :
    Ok (s.setSession c session x) := by
  intro c' session' hs'
  have hs : (if c' = c then some session else s.sessions c') = some session' :=
    (Function.update_apply s.sessions c (some session) c').symm.trans hs'
  split_ifs at hs
  · cases hs
    exact hnew
  · exact (h c' session' hs).grow rfl

theorem ok_step {a : Event C} (h : Ok s) (he : s.enabled corrupt a) : Ok (s.step a) := by
  cases a with
  | start c role inner =>
    unfold Network.step
    dsimp only
    split
    · exact h
    · exact h.setSession ⟨fun _ => rfl, trivial⟩
  | deliver c frame =>
    unfold Network.step
    dsimp only
    split
    · rename_i session hs
      have hold := h c session hs
      refine h.setSession ⟨hold.drawn, StageOk.grow (s := s) rfl ?_⟩
      exact stageOk_onFrame he hold
    · exact h
  | cut c error =>
    unfold Network.step
    dsimp only
    split
    · rename_i session hs
      split
      · exact h
      · exact h.setSession ⟨(h c session hs).drawn, trivial⟩
    · exact h
  | challenge c nonce =>
    unfold Network.step
    dsimp only
    split
    · rename_i session hs
      split
      · rename_i peer proof hst
        have hold := (h c session hs).stage
        rw [hst] at hold
        refine h.setSession ⟨fun hr => ?_, hold.1, hold.2, s.signed.length, rfl, ?_, fun key => ?_⟩
        · cases hold.1.symm.trans hr
        · exact (List.append_nil s.signed).symm ▸ le_rfl
        · change _ ∉ (s.signed ++ []).take _
          rw [List.append_nil, List.take_length]
          exact he key
      · exact h
    · exact h
  | attackerSign key message => exact fun c session hs => (h c session hs).grow rfl

theorem ok_run {as : List (Event C)}
    (h : (Network.machine C corrupt).Valid (.new C) as) :
    Ok ((Network.machine C corrupt).run (.new C) as) :=
  Machine.Along.run_inv (fun _ _ _ hi he => ok_step hi he) h (fun _ _ hs => by cases hs)

theorem onHello_authenticated (role : Role) (inner : Endpoint C) (id : PeerIdentity C) :
    onHello role inner (Endpoint.authenticated id).helloFrame =
      match role with
      | .dialer => .challenging id.peerId id.helloProof
      | .acceptor => .awaitChallenge id.peerId := by
  unfold onHello Endpoint.helloFrame verifyRemoteHello
  simp only [Endpoint.authenticated, Option.map_some, Option.getD_some,
    Endpoint.checkRemoteHello_helloProof]
  rcases role with _ | _ <;> rfl

variable (a b : PeerIdentity C) (nonce : Bytes32)

/-- `a` dials `b`, and each gets the other's `Hello`. -/
def meeting : List (Event C) :=
  [.start 1 .dialer (.authenticated a), .start 2 .acceptor (.authenticated b),
    .deliver 1 (Endpoint.authenticated b).helloFrame,
    .deliver 2 (Endpoint.authenticated a).helloFrame]

/-- `a` dials `b`, and the network passes on what they write. -/
def honestRun : List (Event C) :=
  meeting a b ++ [.challenge 1 nonce, .deliver 2 (.challenge nonce),
    .deliver 1 (.challengeResponse (b.signChallenge nonce))]

/-- `a` dials somewhere, and its `Hello` is replayed to `b`, which answers a challenge. -/
def replayRun : List (Event C) :=
  [.start 1 .dialer (.authenticated a), .start 2 .acceptor (.authenticated b),
    .deliver 2 (Endpoint.authenticated a).helloFrame, .deliver 2 (.challenge nonce)]

theorem session_honestRun :
    ((Network.machine C corrupt).run (.new C) (honestRun a b nonce)).sessions 1 =
      some ⟨.dialer, .authenticated a, .registered b.peerId, some (nonce, 2)⟩ := by
  simp [honestRun, meeting, Network.machine, Network.step, Network.setSession, Network.new,
    onFrame, onHello_authenticated, answerChallenge, onResponse, b.verify_signChallenge]

theorem session_replayRun :
    ((Network.machine C corrupt).run (.new C) (replayRun a b nonce)).sessions 2 =
      some ⟨.acceptor, .authenticated b, .registered a.peerId, none⟩ := by
  simp [replayRun, Network.machine, Network.step, Network.setSession, Network.new, onFrame,
    onHello_authenticated, answerChallenge]

theorem symbolic_verify {key signer : Bytes32} {message signed : List UInt8}
    (h : Crypto.symbolic.verify key message (Crypto.symbolic.sign signer signed) = true) :
    (key, message) = (Crypto.symbolic.verifyingKey signer, signed) := by
  have h' : decide ((signer, signed) = (key, message)) = true := h
  exact (of_decide_eq_true h').symm

/-- Before the challenge, `a` and `b` have signed their hellos. -/
theorem signed_meeting : ((Network.machine C corrupt).run (.new C) (meeting a b)).signed =
    [(a.verifyingKey, helloMessage a.peerId), (b.verifyingKey, helloMessage b.peerId)] := by
  simp [meeting, Network.machine, Network.step, Network.setSession, Network.new, onFrame,
    onHello_authenticated]

/-- After the answer, `b` has signed the nonce as well. -/
theorem mem_signed_answered : (b.verifyingKey, challengeMessage nonce) ∈
    ((Network.machine C corrupt).step ((Network.machine C corrupt).step
      ((Network.machine C corrupt).run (.new C) (meeting a b)) (.challenge 1 nonce))
        (.deliver 2 (.challenge nonce))).signed := by
  simp [meeting, Network.machine, Network.step, Network.setSession, Network.new, onFrame,
    onHello_authenticated, answerChallenge]

/-- No key is the attacker's: all it does is replay. -/
theorem valid_replayRun (a b : PeerIdentity .symbolic) (nonce : Bytes32) :
    (Network.machine .symbolic fun _ => False).Valid (.new _) (replayRun a b nonce) := by
  refine ⟨fun _ _ => id, fun _ _ => id, ?_, nofun, trivial⟩
  intro signature hs key message hv
  cases List.mem_singleton.mp hs
  rw [symbolic_verify hv]
  exact List.mem_cons_self

theorem valid_honestRun (a b : PeerIdentity .symbolic) (nonce : Bytes32) :
    (Network.machine .symbolic fun _ => False).Valid (.new _) (honestRun a b nonce) := by
  refine Machine.valid_append.mpr ⟨⟨fun _ _ => id, fun _ _ => id, ?_, ?_, trivial⟩,
    ?_, nofun, ?_, trivial⟩
  · intro signature hs key message hv
    cases List.mem_singleton.mp hs
    rw [symbolic_verify hv]
    exact List.mem_cons_of_mem _ List.mem_cons_self
  · intro signature hs key message hv
    cases List.mem_singleton.mp hs
    rw [symbolic_verify hv]
    exact List.mem_cons_self
  · intro key hm
    rw [signed_meeting, List.mem_cons, List.mem_singleton, Prod.mk.injEq, Prod.mk.injEq] at hm
    rcases hm with ⟨-, hm⟩ | ⟨-, hm⟩
    · exact helloMessage_ne_challengeMessage _ _ hm.symm
    · exact helloMessage_ne_challengeMessage _ _ hm.symm
  · intro signature hs key message hv
    cases List.mem_singleton.mp hs
    rw [symbolic_verify hv]
    exact mem_signed_answered a b nonce

/-- A peer that dials and one that listens. -/
def dialing : PeerIdentity .symbolic := .fromSeed _ (.replicate 32 1)

def listening : PeerIdentity .symbolic := .fromSeed _ (.replicate 32 2)

end TcpTransport

end AvSync
