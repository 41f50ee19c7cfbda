import AvSync.WebRtc

/-!
# Early candidates

On the dialing side candidates that come before the answer wait for it, so the order of the
envelopes does not matter (`addedOnce_of_dialed`). On the answering side there is no entry for them
to wait in: a candidate that comes before the offer is lost, and all are added exactly when the
offer comes first (`addedOnce_iff_offer_first`).
-/

namespace AvSync

namespace WebRtcTransport

variable {L : RtcLibrary} {added : L.Connection → List IceCandidateInit}
  {description : L.Description} {inits : List IceCandidateInit} {s : WebRtcTransport L}
  {peer : PeerId} {conn : RtcPeer L} {sdp : String} {candidates : List (String × String)}

/-- The envelopes of candidates. -/
def candidateSignals (peer target : PeerId) (candidates : List (String × String)) :
    List SignalEnvelope :=
  candidates.map fun c => .iceCandidate peer target c.1 c.2

/-- The candidates as the library takes them. -/
def candidateInits (candidates : List (String × String)) : List IceCandidateInit :=
  candidates.map fun c => candidateInit c.1 c.2

@[simp] theorem handleSignals_nil (s : WebRtcTransport L) : s.handleSignals [] = s := rfl

@[simp] theorem handleSignals_cons (s : WebRtcTransport L) (envelope : SignalEnvelope)
    (signals : List SignalEnvelope) :
    s.handleSignals (envelope :: signals) = (s.handleSignal envelope).2.handleSignals signals := rfl

@[simp] theorem handleSignals_append (s : WebRtcTransport L) (l m : List SignalEnvelope) :
    s.handleSignals (l ++ m) = (s.handleSignals l).handleSignals m := List.foldl_append

theorem handleSignal_candidate (s : WebRtcTransport L) (peer : PeerId) (candidate mid : String) :
    s.handleSignal (.iceCandidate peer s.localId candidate mid) =
      s.handleCandidate peer (candidateInit candidate mid) :=
  if_neg (not_not.mpr rfl)

theorem handleSignal_offer (s : WebRtcTransport L) (peer : PeerId) (sdp : String) :
    s.handleSignal (.offer peer s.localId sdp) = s.answerOffer peer sdp :=
  if_neg (not_not.mpr rfl)

theorem handleSignal_answer (s : WebRtcTransport L) (peer : PeerId) (sdp : String) :
    s.handleSignal (.answer peer s.localId sdp) = s.handleAnswer peer sdp :=
  if_neg (not_not.mpr rfl)

@[simp] theorem localId_setEntry (s : WebRtcTransport L) (peer : PeerId) (conn : RtcPeer L) :
    (s.setEntry peer conn).localId = s.localId := rfl

@[simp] theorem peers_setEntry (s : WebRtcTransport L) (peer : PeerId) (conn : RtcPeer L) :
    (s.setEntry peer conn).peers[peer]? = some conn := by
  rw [setEntry, BTreeMap.getElem?_insert_if, if_pos rfl]

theorem peersEntry_of_some (h : s.peers[peer]? = some conn) : s.peersEntry peer = .ok conn := by
  simp only [peersEntry, h]

/-! ## Candidates -/

/-- A candidate of a peer that has no entry is lost. -/
theorem handleSignals_lost (hnone : s.peers[peer]? = none) (candidates : List (String × String)) :
    s.handleSignals (candidateSignals peer s.localId candidates) = s := by
  induction candidates with
  | nil => rfl
  | cons c candidates ih =>
    have hlost : (s.handleSignal (.iceCandidate peer s.localId c.1 c.2)).2 = s := by
      rw [handleSignal_candidate]
      simp only [handleCandidate, peersEntry, hnone]
    rw [candidateSignals, List.map_cons, handleSignals_cons, hlost]
    exact ih

/-- The peer's connection has a remote description, and the candidates have been added to it. -/
structure Ready (added : L.Connection → List IceCandidateInit) (peer localId : PeerId)
    (inits : List IceCandidateInit) (s : WebRtcTransport L) : Prop where
  localId_eq : s.localId = localId
  entry : ∃ conn, s.peers[peer]? = some conn ∧ added conn.pc = inits ∧
    (L.remoteDescription conn.pc).isSome

/-- Behind the remote description candidates are added as they come. -/
theorem Ready.handleSignals (hL : L.Accepts added description inits) {localId : PeerId}
    {before : List IceCandidateInit} (h : s.Ready added peer localId before)
    (hmem : ∀ init ∈ candidateInits candidates, init ∈ inits) :
    (s.handleSignals (candidateSignals peer localId candidates)).Ready added peer localId
      (before ++ candidateInits candidates) := by
  induction candidates generalizing s before with
  | nil =>
    rw [show candidateInits [] = [] from rfl, List.append_nil]
    exact h
  | cons c candidates ih =>
    obtain ⟨hinit, hrest⟩ := List.forall_mem_cons.mp hmem
    obtain ⟨rfl, conn, hentry, hadded, hremote⟩ := h
    obtain ⟨pc, hok, hpc, hpc'⟩ := hL.candidate conn.pc hremote _ hinit
    have hstep : (s.handleSignal (.iceCandidate peer s.localId c.1 c.2)).2 =
        s.setEntry peer { conn with pc := pc } := by
      rw [handleSignal_candidate]
      simp only [handleCandidate, peersEntry_of_some hentry, hremote, if_true, hok]
    rw [candidateSignals, List.map_cons, handleSignals_cons, hstep]
    have hready : (s.setEntry peer { conn with pc := pc }).Ready added peer s.localId
        (before ++ [candidateInit c.1 c.2]) :=
      ⟨rfl, _, peers_setEntry _ _ _, by rw [hpc, hadded], hpc'⟩
    have := ih hready hrest
    rwa [List.append_assoc] at this

/-- The peer's connection waits for a remote description, with the candidates that have come. -/
structure Waiting (added : L.Connection → List IceCandidateInit) (peer localId : PeerId)
    (inits : List IceCandidateInit) (s : WebRtcTransport L) : Prop where
  localId_eq : s.localId = localId
  entry : ∃ conn, s.peers[peer]? = some conn ∧ added conn.pc = [] ∧
    L.remoteDescription conn.pc = none ∧ conn.pendingCandidates = inits

theorem Waiting.handleSignals (candidates : List (String × String)) {localId : PeerId}
    {before : List IceCandidateInit} (h : s.Waiting added peer localId before) :
    (s.handleSignals (candidateSignals peer localId candidates)).Waiting added peer localId
      (before ++ candidateInits candidates) := by
  induction candidates generalizing s before with
  | nil =>
    rw [show candidateInits [] = [] from rfl, List.append_nil]
    exact h
  | cons c candidates ih =>
    obtain ⟨rfl, conn, hentry, hadded, hremote, hpending⟩ := h
    have hstep : (s.handleSignal (.iceCandidate peer s.localId c.1 c.2)).2 =
        s.setEntry peer { conn with
          pendingCandidates := conn.pendingCandidates ++ [candidateInit c.1 c.2] } := by
      rw [handleSignal_candidate]
      simp only [handleCandidate, peersEntry_of_some hentry, hremote, Option.isSome_none,
        Bool.false_eq_true, if_false]
    rw [candidateSignals, List.map_cons, handleSignals_cons, hstep]
    have hwaiting : (s.setEntry peer { conn with
        pendingCandidates := conn.pendingCandidates ++ [candidateInit c.1 c.2] }).Waiting added
          peer s.localId (before ++ [candidateInit c.1 c.2]) :=
      ⟨rfl, _, peers_setEntry _ _ _, hadded, hremote, by rw [hpending]⟩
    have := ih hwaiting
    rwa [List.append_assoc] at this

/-! ## Remote descriptions -/

/-- What has waited is added. -/
theorem added_addPending (conn : RtcPeer L) (hL : L.Accepts added description inits)
    (hremote : (L.remoteDescription conn.pc).isSome)
    (hmem : ∀ init ∈ conn.pendingCandidates, init ∈ inits) :
    added (addPending conn).pc = added conn.pc ++ conn.pendingCandidates ∧
      (L.remoteDescription (addPending conn).pc).isSome := by
  obtain ⟨pc, pending⟩ := conn
  dsimp only [addPending] at hremote hmem ⊢
  induction pending generalizing pc with
  | nil => exact ⟨(List.append_nil _).symm, hremote⟩
  | cons init pending ih =>
    obtain ⟨hinit, hrest⟩ := List.forall_mem_cons.mp hmem
    obtain ⟨pc', hok, hpc, hpc'⟩ := hL.candidate pc hremote init hinit
    obtain ⟨h₁, h₂⟩ := ih pc' hpc' hrest
    simp only [List.foldl_cons, hok]
    refine ⟨?_, h₂⟩
    rw [h₁, hpc, List.append_assoc]
    rfl

/-- With the remote description the candidates that have waited for it are added. -/
theorem ready_setRemote (s : WebRtcTransport L) (peer : PeerId) (conn : RtcPeer L)
    (hL : L.Accepts added description inits) (hadded : added conn.pc = [])
    (hremote : L.remoteDescription conn.pc = none)
    (hmem : ∀ init ∈ conn.pendingCandidates, init ∈ inits) :
    (s.setRemote peer conn description).1 = .ok () ∧
      (s.setRemote peer conn description).2.Ready added peer s.localId
        conn.pendingCandidates := by
  obtain ⟨pc, hok, hpc, hpc'⟩ := hL.remote conn.pc hremote
  obtain ⟨h₁, h₂⟩ := added_addPending { conn with pc := pc } hL hpc' hmem
  rw [hpc, hadded, List.nil_append] at h₁
  simp only [setRemote, hok, flushCandidates, peersEntry_of_some (peers_setEntry s peer _)]
  exact ⟨trivial, rfl, _, peers_setEntry _ _ _, h₁, h₂⟩

theorem Ready.emitAnswer (hL : L.Accepts added description inits) {localId : PeerId}
    {before : List IceCandidateInit} (h : s.Ready added peer localId before) :
    (s.emitAnswer peer).2.Ready added peer localId before := by
  obtain ⟨hlocal, conn, hentry, hadded, hremote⟩ := h
  obtain ⟨d, pc, hanswer, hset, hpc, hpc', hsdp⟩ := hL.answer conn.pc hremote
  obtain ⟨sdp, hsdp⟩ := Option.isSome_iff_exists.mp hsdp
  simp only [WebRtcTransport.emitAnswer, peersEntry_of_some hentry, hanswer, hset, hsdp]
  exact ⟨hlocal, _, peers_setEntry _ _ _, hpc.trans hadded, hpc'⟩

/-- An offer makes a new connection, to which nothing has been added. -/
theorem ready_offer (hoffer : L.offer sdp = .ok description)
    (hL : L.Accepts added description inits) :
    (s.handleSignal (.offer peer s.localId sdp)).2.Ready added peer s.localId [] := by
  obtain ⟨pc, hnew, hadded, hremote⟩ := hL.new
  obtain ⟨hok, hready⟩ := ready_setRemote (s.setEntry peer ⟨pc, []⟩) peer ⟨pc, []⟩ hL hadded hremote
    (by simp)
  rw [handleSignal_offer]
  simp only [answerOffer, hoffer, createPeerConnection, hnew]
  rcases hset : (s.setEntry peer ⟨pc, []⟩).setRemote peer ⟨pc, []⟩ description with ⟨r, s'⟩
  rw [hset] at hok hready
  obtain rfl : r = .ok () := hok
  exact hready.emitAnswer hL

/-- An answer finds the connection that has been dialed. -/
theorem Waiting.handleAnswer (hanswer : L.answer sdp = .ok description)
    (hL : L.Accepts added description inits) {localId : PeerId} {before : List IceCandidateInit}
    (h : s.Waiting added peer localId before) (hmem : ∀ init ∈ before, init ∈ inits) :
    (s.handleSignal (.answer peer localId sdp)).2.Ready added peer localId before := by
  obtain ⟨rfl, conn, hentry, hadded, hremote, rfl⟩ := h
  rw [handleSignal_answer]
  simp only [WebRtcTransport.handleAnswer, hanswer, peersEntry_of_some hentry]
  exact (ready_setRemote s peer conn hL hadded hremote hmem).2

/-! ## Orders of delivery -/

/-- The candidate and the stream of an envelope. -/
def candidateOf : SignalEnvelope → String × String
  | .iceCandidate _ _ candidate mid => (candidate, mid)
  | _ => ("", "")

theorem map_candidateOf (peer target : PeerId) (candidates : List (String × String)) :
    (candidateSignals peer target candidates).map candidateOf = candidates := by
  unfold candidateSignals
  rw [List.map_map]
  exact List.map_id' _

/-- Envelopes of candidates in any order are the envelopes of these candidates in some order. -/
theorem eq_candidateSignals {target : PeerId} {signals : List SignalEnvelope}
    (h : ∀ envelope ∈ signals, envelope ∈ candidateSignals peer target candidates) :
    signals = candidateSignals peer target (signals.map candidateOf) := by
  unfold candidateSignals at h ⊢
  rw [List.map_map]
  refine ((List.map_congr_left (g := id) fun envelope he => ?_).trans (List.map_id _)).symm
  obtain ⟨c, -, rfl⟩ := List.mem_map.mp (h envelope he)
  rfl

/-- One envelope among candidates: there are candidates before it, and the others behind. -/
theorem exists_split {target : PeerId} {envelope : SignalEnvelope} {signals : List SignalEnvelope}
    (h : signals.Perm (envelope :: candidateSignals peer target candidates)) :
    ∃ before after, signals = candidateSignals peer target before ++
      envelope :: candidateSignals peer target after ∧ (before ++ after).Perm candidates := by
  obtain ⟨before, after, rfl⟩ := List.append_of_mem (h.mem_iff.mpr List.mem_cons_self)
  have hperm : (before ++ after).Perm (candidateSignals peer target candidates) :=
    (List.perm_middle.symm.trans h).cons_inv
  refine ⟨before.map candidateOf, after.map candidateOf, ?_, ?_⟩
  · rw [← eq_candidateSignals fun e he => hperm.subset (List.mem_append_left after he),
      ← eq_candidateSignals fun e he => hperm.subset (List.mem_append_right before he)]
  · rw [← List.map_append]
    exact (hperm.map candidateOf).trans (.of_eq (map_candidateOf peer target candidates))

theorem mem_candidateInits {l : List (String × String)} (h : l ⊆ candidates) :
    ∀ init ∈ candidateInits l, init ∈ candidateInits candidates :=
  fun _ hinit => List.map_subset _ h hinit

/-- An offer and candidates are delivered in any order to a transport that has no entry for their
peer: every candidate is added to the connection once if and only if the offer comes first. -/
theorem addedOnce_iff_offer_first (L : RtcLibrary) (added : L.Connection → List IceCandidateInit)
    (s : WebRtcTransport L) (peer : PeerId) (sdp : String) (description : L.Description)
    (candidates : List (String × String)) (signals : List SignalEnvelope)
    (hoffer : L.offer sdp = .ok description)
    (hL : L.Accepts added description (candidateInits candidates))
    (hnone : s.peers[peer]? = none)
    (hsignals : signals.Perm
      (.offer peer s.localId sdp :: candidateSignals peer s.localId candidates)) :
    (s.handleSignals signals).AddedOnce added peer (candidateInits candidates) ↔
      signals.head? = some (.offer peer s.localId sdp) := by
  obtain ⟨before, after, rfl, hperm⟩ := exists_split hsignals
  have hafter : ∀ init ∈ candidateInits after, init ∈ candidateInits candidates :=
    mem_candidateInits fun c hc => hperm.subset (List.mem_append_right before hc)
  rw [handleSignals_append, handleSignals_lost hnone, handleSignals_cons]
  obtain ⟨-, conn, hentry, hadded, -⟩ := (ready_offer hoffer hL).handleSignals hL hafter
  rw [List.nil_append] at hadded
  have honce : ((s.handleSignal (.offer peer s.localId sdp)).2.handleSignals
      (candidateSignals peer s.localId after)).AddedOnce added peer (candidateInits candidates) ↔
        (candidateInits after).Perm (candidateInits candidates) := by
    unfold AddedOnce
    rw [hentry]
    simp only [Option.some.injEq, exists_eq_left', hadded]
  rw [honce]
  rcases before with _ | ⟨c, before⟩
  · exact ⟨fun _ => rfl, fun _ => hperm.map _⟩
  · -- the candidates before the offer are missing
    have hlen := hperm.length_eq
    rw [List.length_append, List.length_cons] at hlen
    refine ⟨fun h => ?_, fun h => ?_⟩
    · have := h.length_eq
      rw [candidateInits, candidateInits, List.length_map, List.length_map] at this
      omega
    · simp [candidateSignals] at h

/-- On the dialing side every candidate is added once in any order. -/
theorem addedOnce_of_dialed (hanswer : L.answer sdp = .ok description)
    (hL : L.Accepts added description (candidateInits candidates)) {signals : List SignalEnvelope}
    (hdialed : s.Waiting added peer s.localId [])
    (hsignals : signals.Perm
      (.answer peer s.localId sdp :: candidateSignals peer s.localId candidates)) :
    (s.handleSignals signals).AddedOnce added peer (candidateInits candidates) := by
  obtain ⟨before, after, rfl, hperm⟩ := exists_split hsignals
  have hbefore : ∀ init ∈ candidateInits before, init ∈ candidateInits candidates :=
    mem_candidateInits fun c hc => hperm.subset (List.mem_append_left after hc)
  have hafter : ∀ init ∈ candidateInits after, init ∈ candidateInits candidates :=
    mem_candidateInits fun c hc => hperm.subset (List.mem_append_right before hc)
  have hready := (hdialed.handleSignals before).handleAnswer hanswer hL hbefore
  obtain ⟨-, conn, hentry, hadded, -⟩ := hready.handleSignals hL hafter
  rw [handleSignals_append, handleSignals_cons]
  refine ⟨conn, hentry, ?_⟩
  rw [hadded, List.nil_append, candidateInits, candidateInits, ← List.map_append]
  exact hperm.map _

/-! ## Dialing -/

/-- The library lets the offering side make its offer, which does not touch what is remote. -/
structure Dials (L : RtcLibrary) (added : L.Connection → List IceCandidateInit) : Prop where
  channel : ∀ pc, ∃ pc', L.createDataChannel pc dataChannelLabel = .ok pc' ∧
    added pc' = added pc ∧ L.remoteDescription pc' = L.remoteDescription pc
  offer : ∀ pc, ∃ d pc', L.createOffer pc = .ok d ∧ L.setLocalDescription pc d = .ok pc' ∧
    added pc' = added pc ∧ L.remoteDescription pc' = L.remoteDescription pc ∧
      (L.localDescription pc').isSome

theorem waiting_dial (hD : Dials L added) (hL : L.Accepts added description inits) (peer : PeerId) :
    (s.dial peer).1 = .ok () ∧ (s.dial peer).2.Waiting added peer s.localId [] := by
  obtain ⟨pc, hnew, hadded, hremote⟩ := hL.new
  obtain ⟨pc₁, hchannel, hadded₁, hremote₁⟩ := hD.channel pc
  obtain ⟨d, pc₂, hoffer, hlocal, hadded₂, hremote₂, hsdp⟩ := hD.offer pc₁
  obtain ⟨sdp, hsdp⟩ := Option.isSome_iff_exists.mp hsdp
  simp only [dial, createPeerConnection, hnew, hchannel, hoffer, hlocal, hsdp]
  exact ⟨trivial, rfl, _, peers_setEntry _ _ _, hadded₂.trans (hadded₁.trans hadded),
    hremote₂.trans (hremote₁.trans hremote), rfl⟩

/-! ## A library that accepts everything -/

/-- A connection that keeps what it is given. -/
structure RecordedConnection where
  remote : Option String
  localSdp : Option String
  added : List IceCandidateInit

/-- A library that refuses candidates before the remote description, and nothing else. -/
def recordingLibrary : RtcLibrary where
  Connection := RecordedConnection
  Description := String
  offer sdp := .ok sdp
  answer sdp := .ok sdp
  newPeerConnection := .ok ⟨none, none, []⟩
  remoteDescription := RecordedConnection.remote
  setRemoteDescription pc sdp := .ok { pc with remote := some sdp }
  addIceCandidate pc init :=
    if pc.remote.isSome then .ok { pc with added := pc.added ++ [init] }
    else .error "remote description is not set"
  createDataChannel pc _ := .ok pc
  createOffer _ := .ok "offer"
  createAnswer _ := .ok "answer"
  setLocalDescription pc sdp := .ok { pc with localSdp := some sdp }
  localDescription := RecordedConnection.localSdp

theorem accepts_recordingLibrary (sdp : String) (inits : List IceCandidateInit) :
    recordingLibrary.Accepts RecordedConnection.added sdp inits where
  new := ⟨_, rfl, rfl, rfl⟩
  remote _ _ := ⟨_, rfl, rfl, rfl⟩
  candidate pc hremote init _ :=
    ⟨{ pc with added := pc.added ++ [init] }, if_pos hremote, rfl, hremote⟩
  answer _ hremote := ⟨_, _, rfl, rfl, rfl, hremote, rfl⟩

/-- An offer with a candidate behind it. -/
theorem offerFirst_adds :
    ((new recordingLibrary ⟨1⟩).handleSignals
      [.offer ⟨2⟩ ⟨1⟩ "sdp", .iceCandidate ⟨2⟩ ⟨1⟩ "c" "0"]).AddedOnce RecordedConnection.added ⟨2⟩
        (candidateInits [("c", "0")]) :=
  (addedOnce_iff_offer_first recordingLibrary RecordedConnection.added (new recordingLibrary ⟨1⟩)
    ⟨2⟩ "sdp" "sdp" [("c", "0")] _ rfl (accepts_recordingLibrary _ _) rfl (.refl _)).mpr rfl

/-- A candidate that comes before the offer is never added. -/
theorem candidateFirst_loses :
    ¬((new recordingLibrary ⟨1⟩).handleSignals
      [.iceCandidate ⟨2⟩ ⟨1⟩ "c" "0", .offer ⟨2⟩ ⟨1⟩ "sdp"]).AddedOnce RecordedConnection.added ⟨2⟩
        (candidateInits [("c", "0")]) := by
  rintro ⟨conn, hentry, hperm⟩
  have hnothing : ((new recordingLibrary ⟨1⟩).handleSignals
      [.iceCandidate ⟨2⟩ ⟨1⟩ "c" "0", .offer ⟨2⟩ ⟨1⟩ "sdp"]).peers[(⟨2⟩ : PeerId)]?.map
        (fun c => RecordedConnection.added c.pc) = some [] := by decide +kernel
  rw [hentry] at hnothing
  rw [show RecordedConnection.added conn.pc = [] from Option.some.inj hnothing] at hperm
  have := hperm.length_eq
  simp [candidateInits] at this

end WebRtcTransport

end AvSync
