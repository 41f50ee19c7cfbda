import AvSync.Signaling

/-!
# Who is heard in a signaling room

Only a join is checked. A frame that is routed carries the room and the sender it names, so a room
hears its own joined members only, exactly as long as every connection names a pair it has joined
(`SignalingServer.run_authorized_iff`).
-/

namespace AvSync

namespace SignalingServer

/-- The event finds its connection at another place. -/
def Idle (s : SignalingServer) : SignalEvent → Prop
  | .accept c => s.connections c ≠ none
  | .receive c _ | .hangup c => ∀ conn, s.connections c = some conn → conn.stage ≠ .reading
  | .cleanup _ => True

/-- A step leaves the server as it is, or moves one connection from where it stands. -/
inductive Moves (sha256 : List UInt8 → Bytes32) (s : SignalingServer) :
    SignalEvent → SignalingServer → Prop
  | idle {a} (h : s.Idle a) : Moves sha256 s a s
  | accept {c} (h : s.connections c = none) :
      Moves sha256 s (.accept c) (s.setConnection c ⟨[], .reading⟩)
  | leave {c conn frame} (h : s.connections c = some conn) (hr : conn.stage = .reading)
      (hp : frame.payload = .leave ∨ ∃ tokenProof, frame.payload = .join tokenProof) :
      Moves sha256 s (.receive c frame) (s.close c conn)
  | full {c conn frame tokenProof} (h : s.connections c = some conn) (hr : conn.stage = .reading)
      (hp : frame.payload = .join tokenProof) :
      Moves sha256 s (.receive c frame)
        ({ s with rooms := s.rooms.enter frame.room }.close c conn)
  | join {c conn frame tokenProof} (h : s.connections c = some conn) (hr : conn.stage = .reading)
      (hp : frame.payload = .join tokenProof)
      (ha : authorize sha256 s.auth frame.room tokenProof) :
      Moves sha256 s (.receive c frame)
        { s.setConnection c { conn with joined := conn.joined ++ [(frame.room, frame.sender)] } with
          rooms := s.rooms.register frame.room frame.sender c
          joins := s.joins ++ [(c, frame)] }
  | route {c conn frame} (h : s.connections c = some conn) (hr : conn.stage = .reading)
      (hl : frame.payload ≠ .leave) (hj : ∀ tokenProof, frame.payload ≠ .join tokenProof) :
      Moves sha256 s (.receive c frame) (s.route c frame)
  | hangup {c conn} (h : s.connections c = some conn) (hr : conn.stage = .reading) :
      Moves sha256 s (.hangup c) (s.close c conn)
  | cleanup {c conn room peer rest} (h : s.connections c = some conn)
      (hr : conn.stage = .closing ((room, peer) :: rest)) :
      Moves sha256 s (.cleanup c)
        { s.setConnection c { conn with stage := .closing rest } with
          rooms := s.rooms.unregister room peer }

variable {sha256 : List UInt8 → Bytes32} {secret : String} {s t : SignalingServer}
  {a : SignalEvent} {c c' : ConnId} {conn : SignalConnection} {frame : SignalFrame}

theorem moves_receive (c : ConnId) (frame : SignalFrame) :
    Moves sha256 s (.receive c frame) (s.receive c sha256 frame) := by
  unfold receive
  rcases h : s.connections c with _ | conn
  · exact .idle (by simp [Idle, h])
  rcases hr : conn.stage with _ | left
  · dsimp only
    rw [hr]
    dsimp only
    split
    · exact .leave h hr (Or.inl ‹_›)
    · rename_i tokenProof hp
      unfold join
      split_ifs with ha hf
      · exact .join h hr hp ha
      · exact .full h hr hp
      · exact .leave h hr (Or.inr ⟨tokenProof, hp⟩)
    · exact .route h hr ‹_› ‹_›
  · dsimp only
    rw [hr]
    exact .idle (by simp [Idle, h, hr])

theorem moves_step (s : SignalingServer) (a : SignalEvent) :
    Moves sha256 s a (step sha256 s a) := by
  cases a with
  | accept c =>
    change Moves sha256 s (.accept c) (s.accept c)
    unfold accept
    rcases h : s.connections c with _ | conn
    · exact .accept h
    · exact .idle (by simp [Idle, h])
  | receive c frame => exact moves_receive c frame
  | hangup c =>
    change Moves sha256 s (.hangup c) (s.hangup c)
    unfold hangup
    rcases h : s.connections c with _ | conn
    · exact .idle (by simp [Idle, h])
    dsimp only
    split
    · exact .hangup h ‹_›
    · rename_i hr
      exact .idle (by simp [Idle, h, hr])
  | cleanup c =>
    change Moves sha256 s (.cleanup c) (s.cleanup c)
    unfold cleanup
    rcases h : s.connections c with _ | conn
    · exact .idle trivial
    dsimp only
    split
    · exact .cleanup h ‹_›
    · exact .idle trivial

@[simp] theorem connections_setConnection :
    (s.setConnection c conn).connections c' = if c' = c then some conn else s.connections c' :=
  Function.update_apply s.connections c (some conn) c'

@[simp] theorem connections_close : (s.close c conn).connections c' =
    if c' = c then some { conn with stage := .closing conn.joined } else s.connections c' :=
  connections_setConnection

/-! ## Joins -/

/-- The joins accepted are valid, and an open connection's list of what it joined is complete. -/
structure Joined (sha256 : List UInt8 → Bytes32) (secret : String) (s : SignalingServer) :
    Prop where
  auth : s.auth = .token secret
  valid : ∀ c frame, (c, frame) ∈ s.joins →
    frame.payload = .join (some (roomTokenProof sha256 secret frame.room))
  opened : ∀ c frame, (c, frame) ∈ s.joins → s.connections c ≠ none
  joined : ∀ c conn, s.connections c = some conn → conn.stage = .reading → ∀ room peer,
    (room, peer) ∈ conn.joined ↔
      ∃ frame, (c, frame) ∈ s.joins ∧ frame.room = room ∧ frame.sender = peer

namespace Moves

theorem auth (h : Moves sha256 s a t) : t.auth = s.auth := by
  cases h with
  | _ => rfl

theorem valid (h : Moves sha256 s a t) (hs : s.Joined sha256 secret) (c : ConnId)
    (frame : SignalFrame) (hm : (c, frame) ∈ t.joins) :
    frame.payload = .join (some (roomTokenProof sha256 secret frame.room)) := by
  cases h with
  | join h hr hp ha =>
    rcases List.mem_append.mp hm with hm | hm
    · exact hs.valid c frame hm
    · cases List.mem_singleton.mp hm
      rw [hs.auth] at ha
      rw [hp, of_decide_eq_true ha]
  | _ => exact hs.valid c frame hm

theorem opened (h : Moves sha256 s a t) (hs : s.Joined sha256 secret) (c : ConnId)
    (frame : SignalFrame) (hm : (c, frame) ∈ t.joins) : t.connections c ≠ none := by
  have hold : (c, frame) ∈ s.joins → s.connections c ≠ none := hs.opened c frame
  cases h with
  | idle => exact hold hm
  | route => exact hold hm
  | join =>
    simp only [connections_setConnection]
    split_ifs with he
    · exact Option.some_ne_none _
    · rcases List.mem_append.mp hm with hm | hm
      · exact hold hm
      · exact absurd (congrArg Prod.fst (List.mem_singleton.mp hm)) he
  | _ =>
    simp only [connections_setConnection, connections_close]
    split_ifs with he
    · exact Option.some_ne_none _
    · exact hold hm

theorem joined (h : Moves sha256 s a t) (hs : s.Joined sha256 secret) (c : ConnId)
    (conn : SignalConnection) (hc : t.connections c = some conn) (hst : conn.stage = .reading)
    (room : String) (peer : PeerId) : (room, peer) ∈ conn.joined ↔
      ∃ frame, (c, frame) ∈ t.joins ∧ frame.room = room ∧ frame.sender = peer := by
  have hold : s.connections c = some conn → ((room, peer) ∈ conn.joined ↔
      ∃ frame, (c, frame) ∈ s.joins ∧ frame.room = room ∧ frame.sender = peer) := fun hc =>
    hs.joined c conn hc hst room peer
  cases h with
  | idle => exact hold hc
  | route => exact hold hc
  | accept hn =>
    simp only [connections_setConnection] at hc
    split_ifs at hc with he
    · cases hc
      subst he
      refine iff_of_false List.not_mem_nil ?_
      rintro ⟨frame, hm, -⟩
      exact hs.opened _ _ hm hn
    · exact hold hc
  | @join c₀ conn₀ frame _ h hr =>
    simp only [connections_setConnection] at hc
    simp only [List.mem_append, List.mem_singleton, or_and_right, exists_or]
    split_ifs at hc with he
    · cases hc
      subst he
      rw [List.mem_append, List.mem_singleton, hs.joined _ _ h hr, Prod.mk.injEq]
      refine or_congr_right ⟨fun hp => ⟨frame, rfl, hp.1.symm, hp.2.symm⟩, ?_⟩
      rintro ⟨f, hf, rfl, rfl⟩
      cases hf
      exact ⟨rfl, rfl⟩
    · rw [hold hc]
      refine (or_iff_left ?_).symm
      rintro ⟨f, hf, -⟩
      exact he (congrArg Prod.fst hf)
  | _ =>
    simp only [connections_setConnection, connections_close] at hc
    split_ifs at hc
    · cases hc
      cases hst
    · exact hold hc

theorem isJoined (h : Moves sha256 s a t) (hs : s.Joined sha256 secret) :
    t.Joined sha256 secret :=
  ⟨h.auth.trans hs.auth, h.valid hs, h.opened hs, h.joined hs⟩

/-- A step keeps what has been delivered authorized exactly when it routes own frames. -/
theorem authorized_iff (h : Moves sha256 s a t) (hj : s.Joined sha256 secret)
    (hs : s.Authorized sha256 secret) : t.Authorized sha256 secret ↔ s.RoutesOwn a := by
  cases h with
  | @route c conn frame h hr hl hp =>
    have hown : s.RoutesOwn (.receive c frame) ↔
        (s.rooms.recipients frame.room frame.sender frame.target ≠ [] →
          (frame.room, frame.sender) ∈ conn.joined) := by
      refine ⟨fun ho => ho c conn frame rfl h hr hl hp, ?_⟩
      rintro ho c' conn' frame' ha h' - - - hne
      cases ha
      cases h.symm.trans h'
      exact ho hne
    rw [hown, hj.joined c conn h hr]
    constructor
    · intro ht hne
      obtain ⟨member, hm⟩ := List.exists_mem_of_ne_nil _ hne
      obtain ⟨f, hf, hroom, hsender, -⟩ := ht ⟨c, frame, member⟩
        (List.mem_append_right _ (List.mem_map.mpr ⟨member, hm, rfl⟩))
      exact ⟨f, hf, hroom, hsender⟩
    · intro ho d hd
      rcases List.mem_append.mp hd with hd | hd
      · exact hs d hd
      · obtain ⟨member, hm, rfl⟩ := List.mem_map.mp hd
        obtain ⟨f, hf, hroom, hsender⟩ := ho (List.ne_nil_of_mem hm)
        refine ⟨f, hf, hroom, hsender, ?_⟩
        rw [hj.valid c f hf, hroom]
  | idle hi =>
    refine iff_of_true hs ?_
    rintro c conn frame rfl h hr
    exact absurd hr (hi conn h)
  | leave h hr hp =>
    refine iff_of_true hs ?_
    rintro c conn frame ha - - hl hj
    cases ha
    rcases hp with hp | ⟨tokenProof, hp⟩
    · exact absurd hp hl
    · exact absurd hp (hj tokenProof)
  | full h hr hp =>
    refine iff_of_true hs ?_
    rintro c conn frame ha - - - hj
    cases ha
    exact absurd hp (hj _)
  | join h hr hp =>
    refine iff_of_true (fun d hd => ?_) ?_
    · obtain ⟨f, hf, hd⟩ := hs d hd
      exact ⟨f, List.mem_append_left _ hf, hd⟩
    · rintro c conn frame ha - - - hj
      cases ha
      exact absurd hp (hj _)
  | _ => exact iff_of_true hs (by rintro _ _ _ ⟨⟩)

end Moves

theorem joined_serveFull {cap : ℕ} : (serveFull cap (.token secret)).Joined sha256 secret where
  auth := rfl
  valid _ _ h := absurd h List.not_mem_nil
  opened _ _ h := absurd h List.not_mem_nil
  joined _ _ h := by cases h

/-- Under token admission, a run delivers frames of joined peers only, exactly when each frame it
routes to a member names a room and a peer that its connection has joined. -/
theorem run_authorized_iff (sha256 : List UInt8 → Bytes32) (secret : String) (cap : ℕ)
    (as : List SignalEvent) :
    (∀ m, m <+: as →
        ((machine sha256).run (serveFull cap (.token secret)) m).Authorized sha256 secret) ↔
      (machine sha256).Along RoutesOwn (serveFull cap (.token secret)) as :=
  Machine.forall_prefix_iff_along (fun s a hs _ => (moves_step s a).isJoined hs)
    (fun s a hj hs => (moves_step s a).authorized_iff hj hs) joined_serveFull
    fun _ hd => absurd hd List.not_mem_nil

/-- A connection that has joined nothing sends an offer into a room. -/
def strangerRun : List SignalEvent :=
  [.accept ⟨1⟩, .receive ⟨1⟩ ⟨"r", ⟨1⟩, none, .join (some (.replicate 32 0))⟩, .accept ⟨2⟩,
    .receive ⟨2⟩ ⟨"r", ⟨9⟩, none, .offer "sdp"⟩]

theorem stranger_heard : ¬((machine fun _ => .replicate 32 0).run
    (serveFull 256 (.token "secret")) strangerRun).Authorized (fun _ => .replicate 32 0)
      "secret" := by
  intro h
  have hd : ((machine fun _ => .replicate 32 0).run
      (serveFull 256 (.token "secret")) strangerRun).delivered =
        [⟨⟨2⟩, ⟨"r", ⟨9⟩, none, .offer "sdp"⟩, ⟨1⟩⟩] := by decide +kernel
  obtain ⟨f, hf, -⟩ := h _ (hd ▸ List.mem_cons_self)
  have hj : ((machine fun _ => .replicate 32 0).run
      (serveFull 256 (.token "secret")) strangerRun).joins =
        [(⟨1⟩, ⟨"r", ⟨1⟩, none, .join (some (.replicate 32 0))⟩)] := by decide +kernel
  rw [hj] at hf
  cases congrArg Prod.fst (List.mem_singleton.mp hf)

end SignalingServer

end AvSync
