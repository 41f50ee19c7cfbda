import AvSync.RelayRuns
import AvSync.Replay

/-!
# What the relay keeps to

Under token admission a frame is forwarded only under the name its connection proved first, and
only to connections that proved the same room (`RelayServer.run_confined`). Operations that come
alone are checked and recorded before they are forwarded, those in a batch are not
(`RelayServer.run_recorded_iff`). A member is on the channel of the connection that sent under its
name last, as long as no connection closes that shares a name with another one
(`RelayServer.run_membersFollow_iff`).
-/

namespace AvSync

namespace RelayServer

/-! ## What a step does -/

/-- The event finds its connection at another place. -/
def Idle (s : RelayServer) : RelayEvent → Prop
  | .accept c => s.connections c ≠ none
  | .receive c _ | .hangup c => s.stage c ≠ some .reading
  | .persist c => ∀ frame, s.stage c ≠ some (.persisting frame)
  | .reply c => ∀ frame stored, s.stage c ≠ some (.replying frame stored)
  | .forward c => ∀ frame, s.stage c ≠ some (.forwarding frame)
  | .cleanup c => ∀ left rest, s.stage c ≠ some (.closing (left :: rest))

/-- A step leaves the server as it is, or moves one connection from where it stands. -/
inductive Moves (sha256 : List UInt8 → Bytes32) (s : RelayServer) :
    RelayEvent → RelayServer → Prop
  | idle {a} (h : s.Idle a) : Moves sha256 s a s
  | accept {c} (h : s.connections c = none) :
      Moves sha256 s (.accept c) (s.setConnection c ⟨[], none, .reading⟩)
  | refuse {c conn frame} (h : s.connections c = some conn) (hr : conn.stage = .reading)
      (ha : authorize sha256 s.auth conn frame = none) :
      Moves sha256 s (.receive c frame) (s.close c conn)
  | full {c conn conn' frame} (h : s.connections c = some conn) (hr : conn.stage = .reading)
      (ha : authorize sha256 s.auth conn frame = some conn')
      (hf : ¬s.rooms.Admits frame.room frame.sender s.maxRoomMembers) :
      Moves sha256 s (.receive c frame)
        ({ s with rooms := s.rooms.enter frame.room }.close c conn')
  | enter {c conn conn' frame joined} (h : s.connections c = some conn)
      (hr : conn.stage = .reading) (ha : authorize sha256 s.auth conn frame = some conn')
      (hf : s.rooms.Admits frame.room frame.sender s.maxRoomMembers) :
      Moves sha256 s (.receive c frame)
        { s.setConnection c ⟨joined, conn'.bound, stageFor frame⟩ with
          rooms := s.rooms.register frame.room frame.sender c
          accepts := (c, frame) :: s.accepts }
  | append {c conn frame op} (h : s.connections c = some conn)
      (hr : conn.stage = .persisting frame) (hm : frame.message = .operation op) :
      Moves sha256 s (.persist c)
        { s.setConnection c { conn with stage := .forwarding frame } with
          store := s.store.map fun store => store.appendOp frame.room op }
  | load {c conn frame stored} (h : s.connections c = some conn)
      (hr : conn.stage = .persisting frame) :
      Moves sha256 s (.persist c) (s.setConnection c { conn with stage := .replying frame stored })
  | pass {c conn frame} (h : s.connections c = some conn) (hr : conn.stage = .persisting frame)
      (hm : ∀ op, frame.message ≠ .operation op) :
      Moves sha256 s (.persist c) (s.setConnection c { conn with stage := .forwarding frame })
  | reply {c conn frame stored answered} (h : s.connections c = some conn)
      (hr : conn.stage = .replying frame stored) :
      Moves sha256 s (.reply c)
        { s.setConnection c { conn with stage := .reading } with answered := answered }
  | forward {c conn frame} (h : s.connections c = some conn)
      (hr : conn.stage = .forwarding frame) :
      Moves sha256 s (.forward c)
        { s.setConnection c { conn with stage := .reading } with
          forwarded := s.forwarded ++
            (s.rooms.recipients frame.room frame.sender frame.target).map fun member =>
              ⟨c, frame, member⟩ }
  | hangup {c conn} (h : s.connections c = some conn) (hr : conn.stage = .reading) :
      Moves sha256 s (.hangup c) (s.close c conn)
  | cleanup {c conn room peer rest} (h : s.connections c = some conn)
      (hr : conn.stage = .closing ((room, peer) :: rest)) :
      Moves sha256 s (.cleanup c)
        { s.setConnection c { conn with stage := .closing rest } with
          rooms := s.rooms.unregister room peer }

variable {sha256 : List UInt8 → Bytes32} {secret : String} {s t : RelayServer} {a : RelayEvent}
  {c : ConnId} {conn : RelayConnection} {frame : RelayFrame} {room : String} {peer : PeerId}

theorem stage_eq (h : s.connections c = some conn) : s.stage c = some conn.stage := by
  rw [stage, h, Option.map_some]

theorem stage_eq_none (h : s.connections c = none) : s.stage c = none := by
  rw [stage, h, Option.map_none]

theorem moves_receive (c : ConnId) (frame : RelayFrame) :
    Moves sha256 s (.receive c frame) (s.receive c sha256 frame) := by
  unfold receive
  rcases h : s.connections c with _ | conn
  · exact .idle (by simp [Idle, stage_eq_none h])
  dsimp only
  split
  · rename_i hr
    rcases ha : authorize sha256 s.auth conn frame with _ | conn'
    · exact .refuse h hr ha
    · dsimp only [registerSender]
      split
      · exact .enter h hr ha ‹_›
      · exact .full h hr ha ‹_›
  · rename_i hr
    refine .idle ?_
    rw [Idle, stage_eq h, Ne, Option.some.injEq]
    exact hr

theorem moves_persist (c : ConnId) : Moves sha256 s (.persist c) (s.persist c) := by
  unfold persist
  rcases h : s.connections c with _ | conn
  · exact .idle (by simp [Idle, stage_eq_none h])
  dsimp only
  split
  · rename_i frame hr
    split
    · exact .append h hr ‹_›
    · rename_i hm
      split_ifs
      · exact .pass h hr (by simp [hm])
      · exact .load h hr
    · exact .pass h hr ‹_›
  · rename_i hr
    refine .idle fun frame hs => ?_
    rw [stage_eq h, Option.some.injEq] at hs
    exact hr frame hs

theorem moves_step (s : RelayServer) (a : RelayEvent) : Moves sha256 s a (step sha256 s a) := by
  cases a with
  | accept c =>
    change Moves sha256 s (.accept c) (s.accept c)
    unfold accept
    rcases h : s.connections c with _ | conn
    · exact .accept h
    · exact .idle (by simp [Idle, h])
  | receive c frame => exact moves_receive c frame
  | persist c => exact moves_persist c
  | reply c =>
    change Moves sha256 s (.reply c) (s.reply c)
    unfold reply
    rcases h : s.connections c with _ | conn
    · exact .idle (by simp [Idle, stage_eq_none h])
    dsimp only
    split
    · exact .reply h ‹_›
    · rename_i hr
      refine .idle fun frame stored hs => ?_
      rw [stage_eq h, Option.some.injEq] at hs
      exact hr frame stored hs
  | forward c =>
    change Moves sha256 s (.forward c) (s.forward c)
    unfold forward
    rcases h : s.connections c with _ | conn
    · exact .idle (by simp [Idle, stage_eq_none h])
    dsimp only
    split
    · exact .forward h ‹_›
    · rename_i hr
      refine .idle fun frame hs => ?_
      rw [stage_eq h, Option.some.injEq] at hs
      exact hr frame hs
  | hangup c =>
    change Moves sha256 s (.hangup c) (s.hangup c)
    unfold hangup
    rcases h : s.connections c with _ | conn
    · exact .idle (by simp [Idle, stage_eq_none h])
    dsimp only
    split
    · exact .hangup h ‹_›
    · rename_i hr
      refine .idle ?_
      rw [Idle, stage_eq h, Ne, Option.some.injEq]
      exact hr
  | cleanup c =>
    change Moves sha256 s (.cleanup c) (s.cleanup c)
    unfold cleanup
    rcases h : s.connections c with _ | conn
    · exact .idle (by simp [Idle, stage_eq_none h])
    dsimp only
    split
    · exact .cleanup h ‹_›
    · rename_i hr
      refine .idle fun left rest hs => ?_
      rw [stage_eq h, Option.some.injEq] at hs
      exact hr left.1 left.2 rest hs

@[simp] theorem connections_setConnection {c' : ConnId} :
    (s.setConnection c conn).connections c' = if c' = c then some conn else s.connections c' :=
  Function.update_apply s.connections c (some conn) c'

@[simp] theorem connections_close {c' : ConnId} : (s.close c conn).connections c' =
    if c' = c then some { conn with stage := .closing conn.joined } else s.connections c' :=
  connections_setConnection

/-! ## Members have sent -/

/-- The frame that is being handled. -/
def frameOf : RelayStage → Option RelayFrame
  | .persisting frame | .replying frame _ | .forwarding frame => some frame
  | .reading | .closing _ => none

theorem frameOf_stageFor {f : RelayFrame} (h : frameOf (stageFor frame) = some f) : f = frame := by
  unfold stageFor at h
  split at h
  · split_ifs at h
    · exact (Option.some.inj h).symm
    · cases h
  · exact (Option.some.inj h).symm

/-- Members, frames in hand and frames forwarded all go back to accepted frames. -/
structure Registered (s : RelayServer) : Prop where
  member : ∀ room peer c, s.rooms.lookup room peer = some c → s.SentAs c room peer
  inHand : ∀ c conn frame, s.connections c = some conn → frameOf conn.stage = some frame →
    (c, frame) ∈ s.accepts
  opened : ∀ c frame, (c, frame) ∈ s.accepts → s.connections c ≠ none
  delivered : ∀ d ∈ s.forwarded, (d.source, d.frame) ∈ s.accepts ∧
    ∃ peer, s.SentAs d.member d.frame.room peer

namespace Moves

theorem accepts_subset (h : Moves sha256 s a t) : s.accepts ⊆ t.accepts := by
  cases h with
  | enter => exact List.subset_cons_self _ _
  | _ => exact List.Subset.refl _

theorem sentAs (h : Moves sha256 s a t) (hs : s.SentAs c room peer) : t.SentAs c room peer := by
  obtain ⟨frame, hm, hr, hp⟩ := hs
  exact ⟨frame, h.accepts_subset hm, hr, hp⟩

theorem member (h : Moves sha256 s a t) (hs : s.Registered) (room : String) (peer : PeerId)
    (c : ConnId) (hl : t.rooms.lookup room peer = some c) : t.SentAs c room peer := by
  have hold : s.rooms.lookup room peer = some c → t.SentAs c room peer := fun hl =>
    h.sentAs (hs.member room peer c hl)
  cases h with
  | full => exact hold (Rooms.lookup_enter.symm.trans hl)
  | @enter c₀ _ _ frame =>
    rw [Rooms.lookup_register] at hl
    split_ifs at hl with he
    · cases hl
      exact ⟨frame, List.mem_cons_self, he.1, he.2⟩
    · exact hold hl
  | cleanup =>
    rw [Rooms.lookup_unregister] at hl
    split_ifs at hl
    exact hold hl
  | _ => exact hold hl

theorem inHand (h : Moves sha256 s a t) (hs : s.Registered) (c : ConnId) (conn : RelayConnection)
    (frame : RelayFrame) (hc : t.connections c = some conn)
    (hf : frameOf conn.stage = some frame) : (c, frame) ∈ t.accepts := by
  have hold : s.connections c = some conn → (c, frame) ∈ t.accepts := fun hc =>
    h.accepts_subset (hs.inHand c conn frame hc hf)
  cases h with
  | idle => exact hold hc
  | enter h hr ha hfull =>
    simp only [connections_setConnection] at hc
    split_ifs at hc with he
    · cases hc
      subst he
      rw [frameOf_stageFor hf]
      exact List.mem_cons_self
    · exact hold hc
  | append h hr hm | load h hr | pass h hr hm =>
    simp only [connections_setConnection] at hc
    split_ifs at hc with he
    · cases hc
      subst he
      exact hs.inHand _ _ _ h (by rw [hr]; exact hf)
    · exact hold hc
  | _ =>
    simp only [connections_setConnection, connections_close] at hc
    split_ifs at hc
    · cases hc
      cases hf
    · exact hold hc

theorem opened (h : Moves sha256 s a t) (hs : s.Registered) (c : ConnId) (frame : RelayFrame)
    (hm : (c, frame) ∈ t.accepts) : t.connections c ≠ none := by
  have hold : (c, frame) ∈ s.accepts → s.connections c ≠ none := hs.opened c frame
  cases h with
  | idle => exact hold hm
  | enter =>
    simp only [connections_setConnection]
    split_ifs with he
    · exact Option.some_ne_none _
    · rcases List.mem_cons.mp hm with hm | hm
      · exact absurd (congrArg Prod.fst hm) he
      · exact hold hm
  | _ =>
    simp only [connections_setConnection, connections_close]
    split_ifs with he
    · exact Option.some_ne_none _
    · exact hold hm

theorem delivered (h : Moves sha256 s a t) (hs : s.Registered) (d : RelayDelivery)
    (hd : d ∈ t.forwarded) : (d.source, d.frame) ∈ t.accepts ∧
      ∃ peer, t.SentAs d.member d.frame.room peer := by
  have hold : d ∈ s.forwarded → (d.source, d.frame) ∈ t.accepts ∧
      ∃ peer, t.SentAs d.member d.frame.room peer := fun hd => by
    obtain ⟨hm, peer, hp⟩ := hs.delivered d hd
    exact ⟨h.accepts_subset hm, peer, h.sentAs hp⟩
  cases h with
  | forward h hr =>
    rcases List.mem_append.mp hd with hd | hd
    · exact hold hd
    · obtain ⟨member, hm, rfl⟩ := List.mem_map.mp hd
      obtain ⟨peer, hl, -⟩ := Rooms.mem_recipients.mp hm
      refine ⟨hs.inHand _ _ _ h (by rw [hr]; rfl), peer, hs.member _ _ _ hl⟩
  | _ => exact hold hd

theorem registered (h : Moves sha256 s a t) (hs : s.Registered) : t.Registered :=
  ⟨h.member hs, h.inHand hs, h.opened hs, h.delivered hs⟩

end Moves

theorem registered_serveFull {cap : ℕ} {auth : RoomAuth} {store : Option SessionStore} :
    (serveFull cap auth store).Registered where
  member _ _ _ h := by simp [serveFull, Rooms.lookup, Rooms.members] at h
  inHand _ _ _ h := by cases h
  opened _ _ h := absurd h List.not_mem_nil
  delivered _ h := absurd h List.not_mem_nil

theorem run_registered {cap : ℕ} {auth : RoomAuth} {store : Option SessionStore}
    (as : List RelayEvent) :
    ((machine sha256).run (serveFull cap auth store) as).Registered :=
  Machine.run_inv (fun s a _ hs => (moves_step s a).registered hs) registered_serveFull

/-! ## Confinement -/

theorem firstAccepted_of_cons {c₀ : ConnId} (h : t.accepts = (c₀, frame) :: s.accepts) :
    t.firstAccepted c = (s.firstAccepted c).or (if c₀ = c then some frame else none) := by
  unfold firstAccepted
  rw [h, List.reverse_cons, List.find?_append, Option.map_or]
  congr 1
  split_ifs with hc
  · simp [hc]
  · simp [hc]

theorem firstAccepted_eq_none : s.firstAccepted c = none ↔ ∀ frame, (c, frame) ∉ s.accepts := by
  unfold firstAccepted
  simp only [Option.map_eq_none_iff, List.find?_eq_none, List.mem_reverse, decide_eq_true_eq]
  constructor
  · exact fun h frame hm => h _ hm rfl
  · rintro h ⟨c', frame⟩ hm rfl
    exact h frame hm

theorem Proved.moves (h : Moves sha256 s a t) (hs : s.Proved sha256 secret c room peer) :
    t.Proved sha256 secret c room peer := by
  obtain ⟨f, hf, hp⟩ := hs
  cases h with
  | enter =>
    refine ⟨f, ?_, hp⟩
    rw [firstAccepted_of_cons (s := s) rfl, hf, Option.some_or]
  | _ => exact ⟨f, hf, hp⟩

/-- The connection has proved what it is bound to, or has had no frame accepted. -/
def BoundProved (sha256 : List UInt8 → Bytes32) (secret : String) (s : RelayServer) (c : ConnId) :
    Option (String × PeerId) → Prop
  | some b => s.Proved sha256 secret c b.1 b.2
  | none => s.firstAccepted c = none

/-- What each connection has sent, it has proved first. -/
structure Confined (sha256 : List UInt8 → Bytes32) (secret : String) (s : RelayServer) : Prop where
  auth : s.auth = .token secret
  registered : s.Registered
  proved : ∀ c frame, (c, frame) ∈ s.accepts → s.Proved sha256 secret c frame.room frame.sender
  bound : ∀ c conn, s.connections c = some conn → (∀ left, conn.stage ≠ .closing left) →
    s.BoundProved sha256 secret c conn.bound

theorem authorize_token {conn' : RelayConnection}
    (h : authorize sha256 (.token secret) conn frame = some conn') :
    conn'.bound = some (frame.room, frame.sender) ∧
      (conn.bound = some (frame.room, frame.sender) ∨ conn.bound = none ∧
        frame.join = some ⟨frame.sender, frame.room, roomTokenProof sha256 secret frame.room⟩) := by
  unfold authorize at h
  rcases hb : conn.bound with _ | ⟨boundRoom, boundPeer⟩ <;> rw [hb] at h <;> dsimp only at h
  · rcases hj : frame.join with _ | ⟨p, r, tokenProof⟩ <;> rw [hj] at h <;> dsimp only at h
    · cases h
    · split_ifs at h with hne
      simp only [not_or, not_not] at hne
      obtain ⟨rfl, rfl, rfl⟩ := hne
      cases h
      exact ⟨rfl, Or.inr ⟨rfl, rfl⟩⟩
  · split_ifs at h with hne
    simp only [not_or, not_not] at hne
    obtain ⟨rfl, rfl⟩ := hne
    cases h
    exact ⟨hb, Or.inl rfl⟩

theorem BoundProved.moves {b : Option (String × PeerId)} (h : Moves sha256 s a t)
    (hs : s.BoundProved sha256 secret c b) (ha : ∀ frame, a ≠ .receive c frame) :
    t.BoundProved sha256 secret c b := by
  rcases b with _ | b
  · cases h with
    | @enter c₀ _ _ frame =>
      have hc : c₀ ≠ c := fun hc => ha frame (by rw [hc])
      rw [BoundProved, firstAccepted_of_cons (s := s) rfl, if_neg hc, Option.or_none]
      exact hs
    | _ => exact hs
  · exact Proved.moves h hs

/-- The admitted frame's connection has proved the name on it. -/
theorem Confined.proved_enter {conn' : RelayConnection} (hs : s.Confined sha256 secret)
    (h : s.connections c = some conn) (hr : conn.stage = .reading)
    (ha : authorize sha256 s.auth conn frame = some conn')
    (ht : t.accepts = (c, frame) :: s.accepts) :
    t.Proved sha256 secret c frame.room frame.sender := by
  rw [hs.auth] at ha
  have hb := hs.bound c conn h (by simp [hr])
  rcases (authorize_token ha).2 with hbound | ⟨hbound, hj⟩
  · rw [hbound] at hb
    obtain ⟨f, hf, hp⟩ := hb
    exact ⟨f, by rw [firstAccepted_of_cons ht, hf, Option.some_or], hp⟩
  · rw [hbound] at hb
    exact ⟨frame, by rw [firstAccepted_of_cons ht, hb, if_pos rfl, Option.none_or], rfl, rfl, hj⟩

theorem Moves.proved (h : Moves sha256 s a t) (hs : s.Confined sha256 secret) (c : ConnId)
    (frame : RelayFrame) (hm : (c, frame) ∈ t.accepts) :
    t.Proved sha256 secret c frame.room frame.sender := by
  have hold : (c, frame) ∈ s.accepts → t.Proved sha256 secret c frame.room frame.sender :=
    fun hm => (hs.proved c frame hm).moves h
  cases h with
  | enter h hr ha hf =>
    rcases List.mem_cons.mp hm with hm | hm
    · cases hm
      exact hs.proved_enter h hr ha rfl
    · exact hold hm
  | _ => exact hold hm

theorem Moves.bound (h : Moves sha256 s a t) (hs : s.Confined sha256 secret) (c : ConnId)
    (conn : RelayConnection) (hc : t.connections c = some conn)
    (hopen : ∀ left, conn.stage ≠ .closing left) : t.BoundProved sha256 secret c conn.bound := by
  have hold : s.connections c = some conn → (∀ frame, a ≠ .receive c frame) →
      t.BoundProved sha256 secret c conn.bound := fun hc ha =>
    (hs.bound c conn hc hopen).moves h ha
  have hself := h
  cases h with
  | idle hi =>
    exact hs.bound c conn hc hopen
  | accept hn =>
    rw [connections_setConnection] at hc
    split_ifs at hc with he
    · cases hc
      subst he
      exact firstAccepted_eq_none.mpr fun frame hm => hs.registered.opened _ _ hm hn
    · exact hold hc (by simp)
  | @enter _ _ conn' _ _ h hr ha hf =>
    rw [connections_setConnection] at hc
    split_ifs at hc with he
    · cases hc
      subst he
      have hb := (authorize_token (hs.auth ▸ ha)).1
      change BoundProved _ _ _ _ conn'.bound
      rw [hb]
      exact hs.proved_enter h hr ha rfl
    · exact hold hc (by simpa using fun hc => absurd hc.symm he)
  | append h hr | load h hr | pass h hr | reply h hr | forward h hr =>
    simp only [connections_setConnection] at hc
    split_ifs at hc with he
    · cases hc
      subst he
      exact (hs.bound _ _ h (by simp [hr])).moves hself (by simp)
    · exact hold hc (by simp)
  | refuse | full =>
    simp only [connections_close] at hc
    split_ifs at hc with he
    · cases hc
      exact absurd rfl (hopen _)
    · exact hold hc (by simpa using fun hc => absurd hc.symm he)
  | hangup =>
    simp only [connections_close] at hc
    split_ifs at hc
    · cases hc
      exact absurd rfl (hopen _)
    · exact hold hc (by simp)
  | cleanup =>
    simp only [connections_setConnection] at hc
    split_ifs at hc
    · cases hc
      exact absurd rfl (hopen _)
    · exact hold hc (by simp)

theorem Moves.auth (h : Moves sha256 s a t) : t.auth = s.auth := by
  cases h with
  | _ => rfl

theorem Moves.confined (h : Moves sha256 s a t) (hs : s.Confined sha256 secret) :
    t.Confined sha256 secret :=
  ⟨h.auth.trans hs.auth, h.registered hs.registered, h.proved hs, h.bound hs⟩

theorem Confined.forwardsConfined (h : s.Confined sha256 secret) :
    s.ForwardsConfined sha256 secret := by
  intro d hd
  obtain ⟨hm, peer, frame, hf, hr, -⟩ := h.registered.delivered d hd
  refine ⟨h.proved _ _ hm, frame.sender, ?_⟩
  rw [← hr]
  exact h.proved _ _ hf

theorem confined_serveFull {cap : ℕ} {store : Option SessionStore} :
    (serveFull cap (.token secret) store).Confined sha256 secret where
  auth := rfl
  registered := registered_serveFull
  proved _ _ h := absurd h List.not_mem_nil
  bound _ _ h := by cases h

/-- Under token admission, every run forwards frames under the name their connection proved first
only, and only to connections that proved the same room. -/
theorem run_confined (sha256 : List UInt8 → Bytes32) (secret : String) (cap : ℕ)
    (store : Option SessionStore) (as : List RelayEvent) :
    ((machine sha256).run (serveFull cap (.token secret) store) as).ForwardsConfined sha256
      secret :=
  (Machine.run_inv (fun s a _ hs => (moves_step s a).confined hs)
    confined_serveFull).forwardsConfined

/-! ## The log -/

variable {op : TaggedOperation}

/-- Whoever asks for a snapshot gets what is on record. -/
theorem OnRecord.answers (h : s.OnRecord room op) : s.Answers room op := by
  rintro c conn frame hc hst hm rfl
  obtain ⟨store, hs, hop⟩ := h
  have hne : store.loadOps frame.room ≠ [] := List.ne_nil_of_mem hop
  refine ⟨store.loadOps frame.room, ?_, hop⟩
  simp [persist, hc, hst, hm, hs, hne, stage]

theorem Moves.onRecord (h : Moves sha256 s a t) (hs : s.OnRecord room op) : t.OnRecord room op := by
  obtain ⟨store, hstore, hop⟩ := hs
  cases h with
  | append =>
    refine ⟨_, congrArg (Option.map _) hstore, ?_⟩
    exact SessionStore.mem_loadOps_appendOp.mpr (Or.inl hop)
  | _ => exact ⟨store, hstore, hop⟩

/-- There is a store, and operations that have come alone are checked and then recorded. -/
structure Logged (s : RelayServer) : Prop where
  store : ∃ store, s.store = some store
  checked : ∀ c conn frame op, s.connections c = some conn → conn.stage = .persisting frame →
    frame.message = .operation op → op.Valid
  logged : ∀ c conn frame op, s.connections c = some conn → conn.stage = .forwarding frame →
    frame.message = .operation op → op.Valid ∧ s.OnRecord frame.room op

theorem stageFor_eq_persisting {f : RelayFrame} (h : stageFor frame = .persisting f)
    (hm : f.message = .operation op) : op.Valid := by
  have hf : f = frame := frameOf_stageFor (by rw [h]; rfl)
  rw [hf] at hm
  by_contra hv
  simp [stageFor, hm, hv] at h

theorem Moves.checked (h : Moves sha256 s a t) (hs : s.Logged) (c : ConnId)
    (conn : RelayConnection) (frame : RelayFrame) (op : TaggedOperation)
    (hc : t.connections c = some conn) (hst : conn.stage = .persisting frame)
    (hm : frame.message = .operation op) : op.Valid := by
  have hold : s.connections c = some conn → op.Valid := fun hc =>
    hs.checked c conn frame op hc hst hm
  cases h with
  | idle => exact hold hc
  | _ =>
    simp only [connections_setConnection, connections_close] at hc
    split_ifs at hc
    · cases hc
      first | cases hst | exact stageFor_eq_persisting hst hm
    · exact hold hc

theorem Moves.logged (h : Moves sha256 s a t) (hs : s.Logged) (c : ConnId)
    (conn : RelayConnection) (frame : RelayFrame) (op : TaggedOperation)
    (hc : t.connections c = some conn) (hst : conn.stage = .forwarding frame)
    (hm : frame.message = .operation op) : op.Valid ∧ t.OnRecord frame.room op := by
  have hold : s.connections c = some conn → op.Valid ∧ t.OnRecord frame.room op := fun hc =>
    (hs.logged c conn frame op hc hst hm).imp_right h.onRecord
  cases h with
  | idle => exact hold hc
  | append h hr hop =>
    simp only [connections_setConnection] at hc
    split_ifs at hc
    · cases hc
      cases hst
      cases hop.symm.trans hm
      obtain ⟨store, hstore⟩ := hs.store
      refine ⟨hs.checked _ _ _ _ h hr hm, _, congrArg (Option.map _) hstore, ?_⟩
      exact SessionStore.mem_loadOps_appendOp.mpr (Or.inr ⟨rfl, rfl⟩)
    · exact hold hc
  | enter =>
    simp only [connections_setConnection] at hc
    split_ifs at hc
    · cases hc
      simp only [stageFor] at hst
      split at hst
      · split_ifs at hst
      · cases hst
    · exact hold hc
  | pass h hr hop =>
    simp only [connections_setConnection] at hc
    split_ifs at hc
    · cases hc
      cases hst
      exact absurd hm (hop op)
    · exact hold hc
  | _ =>
    simp only [connections_setConnection, connections_close] at hc
    split_ifs at hc
    · cases hc
      cases hst
    · exact hold hc

theorem Moves.isLogged (h : Moves sha256 s a t) (hs : s.Logged) : t.Logged := by
  refine ⟨?_, h.checked hs, h.logged hs⟩
  obtain ⟨store, hstore⟩ := hs.store
  cases h with
  | append => exact ⟨_, congrArg (Option.map _) hstore⟩
  | _ => exact ⟨store, hstore⟩

theorem Moves.recorded_iff (h : Moves sha256 s a t) (hl : s.Logged) (hs : s.Recorded) :
    t.Recorded ↔ s.BatchRecorded a := by
  have hmoves := h
  have hold : ∀ d ∈ s.forwarded, ∀ op ∈ carried d.frame.message,
      op.Valid ∧ t.OnRecord d.frame.room op ∧ t.Answers d.frame.room op := fun d hd op hop => by
    obtain ⟨hv, hr, -⟩ := hs d hd op hop
    exact ⟨hv, h.onRecord hr, (h.onRecord hr).answers⟩
  cases h with
  | @forward c conn frame h hr =>
    constructor
    · rintro ht c' conn' frame' ops ha hc' hr' hm hne op hop
      cases ha
      cases h.symm.trans hc'
      cases hr.symm.trans hr'
      obtain ⟨member, hmem⟩ := List.exists_mem_of_ne_nil _ hne
      have hd := ht ⟨c, frame, member⟩
        (List.mem_append_right _ (List.mem_map.mpr ⟨member, hmem, rfl⟩)) op (by rw [hm]; exact hop)
      exact ⟨hd.1, hd.2.1⟩
    · intro hb d hd op hop
      rcases List.mem_append.mp hd with hd | hd
      · exact hold d hd op hop
      · obtain ⟨member, hmem, rfl⟩ := List.mem_map.mp hd
        have hor : op.Valid ∧ s.OnRecord frame.room op := by
          rcases hm : frame.message with o | ops | _ | _ | _ | _ | _ | _ | _ <;>
            rw [hm] at hop
          case operation =>
            cases List.mem_singleton.mp hop
            exact hl.logged c conn frame _ h hr hm
          case batch => exact hb c conn frame ops rfl h hr hm (List.ne_nil_of_mem hmem) op hop
          all_goals exact absurd hop List.not_mem_nil
        exact ⟨hor.1, hmoves.onRecord hor.2, (hmoves.onRecord hor.2).answers⟩
  | idle hi =>
    refine iff_of_true hs ?_
    rintro c conn frame ops rfl hc hst
    exact absurd (by rw [stage_eq hc, hst]) (hi frame)
  | _ => exact iff_of_true hold (by rintro _ _ _ _ ⟨⟩)

theorem logged_serveFull {cap : ℕ} {auth : RoomAuth} {store : SessionStore} :
    (serveFull cap auth (some store)).Logged where
  store := ⟨store, rfl⟩
  checked _ _ _ _ h := by cases h
  logged _ _ _ _ h := by cases h

/-- In a run with a store, everything forwarded is within the limits and on record all the time
exactly when every batch that reaches a member is. -/
theorem run_recorded_iff (sha256 : List UInt8 → Bytes32) (cap : ℕ) (auth : RoomAuth)
    (store : SessionStore) (as : List RelayEvent) :
    (∀ m, m <+: as → ((machine sha256).run (serveFull cap auth (some store)) m).Recorded) ↔
      (machine sha256).Along BatchRecorded (serveFull cap auth (some store)) as :=
  Machine.forall_prefix_iff_along (fun s a hs _ => (moves_step s a).isLogged hs)
    (fun s a hl hs => (moves_step s a).recorded_iff hl hs) logged_serveFull
    fun _ hd => absurd hd List.not_mem_nil

/-- A frame with which a peer makes itself known in a room. -/
def hello (peer : PeerId) : RelayFrame := ⟨"r", peer, none, .requestSnapshot, none⟩

def batched : TaggedOperation := .of 1 1 (.deleteTrack ⟨1⟩)

/-- A batch that goes to the other member of the room. -/
def batchRun : List RelayEvent :=
  [.accept ⟨1⟩, .accept ⟨2⟩, .receive ⟨2⟩ (hello ⟨2⟩),
    .receive ⟨1⟩ { hello ⟨1⟩ with message := .batch [batched] }, .persist ⟨1⟩, .forward ⟨1⟩]

theorem batch_unrecorded : ¬((machine fun _ => .replicate 32 0).run
    (serveFull 256 .open (some ⟨∅⟩)) batchRun).Recorded := by
  intro h
  have hf : ((machine fun _ => .replicate 32 0).run
      (serveFull 256 .open (some ⟨∅⟩)) batchRun).forwarded =
        [⟨⟨1⟩, { hello ⟨1⟩ with message := .batch [batched] }, ⟨2⟩⟩] := rfl
  obtain ⟨-, ⟨store, hs, hop⟩, -⟩ := h _ (hf ▸ List.mem_cons_self) batched List.mem_cons_self
  cases hs
  exact absurd hop List.not_mem_nil

/-! ## Membership -/

theorem reaches_iff : s.Reaches c room peer ↔ s.rooms.lookup room peer = some c := by
  refine ⟨And.left, fun h => ⟨h, fun sender => ⟨?_, fun hne => ?_⟩⟩⟩
  · exact Rooms.mem_recipients.mpr ⟨peer, h, Or.inl rfl⟩
  · exact Rooms.mem_recipients.mpr ⟨peer, h, Or.inr ⟨rfl, hne.symm⟩⟩

theorem latestOpen_eq_none :
    s.latestOpen room peer = none ↔ ∀ c, s.isOpen c → ¬s.SentAs c room peer := by
  simp only [latestOpen, Option.map_eq_none_iff, List.find?_eq_none, decide_eq_true_eq, SentAs]
  constructor
  · rintro h c ho ⟨frame, hm, hr, hp⟩
    exact h _ hm ⟨hr, hp, ho⟩
  · rintro h ⟨c, frame⟩ hm ⟨hr, hp, ho⟩
    exact h c ho ⟨frame, hm, hr, hp⟩

theorem latestOpen_congr (ha : t.accepts = s.accepts)
    (ho : ∀ c, s.SentAs c room peer → t.isOpen c = s.isOpen c) :
    t.latestOpen room peer = s.latestOpen room peer := by
  unfold latestOpen
  rw [ha]
  congr 1
  refine List.find?_congr fun a hm => ?_
  by_cases h : a.2.room = room ∧ a.2.sender = peer
  · rw [ho a.1 ⟨a.2, hm, h⟩]
  · have h' : ∀ b : Bool, ¬(a.2.room = room ∧ a.2.sender = peer ∧ b) := fun b hb =>
      h ⟨hb.1, hb.2.1⟩
    rw [decide_eq_false (h' _), decide_eq_false (h' _)]

theorem latestOpen_spec (h : s.latestOpen room peer = some c) :
    s.isOpen c ∧ s.SentAs c room peer := by
  obtain ⟨⟨c', frame⟩, hf, rfl⟩ := Option.map_eq_some_iff.mp h
  have hp := List.find?_some hf
  rw [decide_eq_true_eq] at hp
  exact ⟨hp.2.2, frame, List.mem_of_find?_eq_some hf, hp.1, hp.2.1⟩

/-- The latest one stays so as long as it is open. -/
theorem latestOpen_of_isOpen (h : s.latestOpen room peer = some c) (ha : t.accepts = s.accepts)
    (ho : ∀ c, t.isOpen c → s.isOpen c) (hc : t.isOpen c) : t.latestOpen room peer = some c := by
  obtain ⟨⟨c', frame⟩, hf, rfl⟩ := Option.map_eq_some_iff.mp h
  obtain ⟨hp, newer, older, hl, hnew⟩ := List.find?_eq_some_iff_append.mp hf
  refine Option.map_eq_some_iff.mpr ⟨(c', frame), ?_, rfl⟩
  refine List.find?_eq_some_iff_append.mpr ⟨?_, newer, older, ha.trans hl, fun b hb => ?_⟩
  · have := of_decide_eq_true hp
    exact decide_eq_true ⟨this.1, this.2.1, hc⟩
  · have := hnew b hb
    simp only [Bool.not_eq_eq_eq_not, Bool.not_true, decide_eq_false_iff_not, not_and] at this ⊢
    exact fun hr hp hb => this hr hp (ho _ hb)

def inLoop : RelayStage → Bool
  | .closing _ => false
  | _ => true

theorem isOpen_eq (h : s.connections c = some conn) : s.isOpen c = inLoop conn.stage := by
  rw [isOpen, stage_eq h]
  rcases conn.stage with _ | _ | _ | _ | _ <;> rfl

theorem inLoop_stageFor : inLoop (stageFor frame) = true := by
  unfold stageFor
  split
  · split_ifs <;> rfl
  · rfl

theorem isOpen_congr {c' : ConnId} (h : t.connections c' = s.connections c') :
    t.isOpen c' = s.isOpen c' := by
  rw [isOpen, isOpen, stage, stage, h]

theorem membersFollow_congr (hl : ∀ room peer, t.rooms.lookup room peer = s.rooms.lookup room peer)
    (ha : t.accepts = s.accepts)
    (ho : ∀ c room peer, s.SentAs c room peer → t.isOpen c = s.isOpen c) (hs : s.MembersFollow) :
    t.MembersFollow := by
  intro c room peer h
  rw [latestOpen_congr ha fun c => ho c room peer] at h
  rw [reaches_iff, hl, ← reaches_iff]
  exact hs c room peer h

/-- When `c` leaves, another open connection that has sent under the same name is not reached. -/
theorem membersFollow_close_iff
    (hl : ∀ room peer, t.rooms.lookup room peer = s.rooms.lookup room peer)
    (ha : t.accepts = s.accepts) (ho : ∀ c', t.isOpen c' ↔ c' ≠ c ∧ s.isOpen c')
    (hs : s.MembersFollow) : t.MembersFollow ↔ ∀ room peer, s.latestOpen room peer = some c →
      ∀ c', s.isOpen c' → s.SentAs c' room peer → c' = c := by
  constructor
  · intro ht room peer h c' hc' hsent
    by_contra hne
    rcases hn : t.latestOpen room peer with _ | c''
    · exact latestOpen_eq_none.mp hn c' ((ho c').mpr ⟨hne, hc'⟩) (by simpa [SentAs, ha] using hsent)
    · have h₁ := reaches_iff.mp (ht c'' room peer hn)
      have h₂ := reaches_iff.mp (hs c room peer h)
      rw [hl, h₂] at h₁
      exact ((ho c'').mp (latestOpen_spec hn).1).1 (Option.some.inj h₁).symm
  · intro hk c₁ room peer h
    obtain ⟨hopen, hsent⟩ := latestOpen_spec h
    obtain ⟨hne, hopen'⟩ := (ho c₁).mp hopen
    have hsent' : s.SentAs c₁ room peer := by simpa [SentAs, ha] using hsent
    rcases h₂ : s.latestOpen room peer with _ | c₂
    · exact absurd hsent' (latestOpen_eq_none.mp h₂ c₁ hopen')
    · have hne₂ : c₂ ≠ c := fun he => hne (hk room peer (he ▸ h₂) c₁ hopen' hsent')
      have ht₂ := latestOpen_of_isOpen h₂ ha (fun c hc => ((ho c).mp hc).2)
        ((ho c₂).mpr ⟨hne₂, (latestOpen_spec h₂).1⟩)
      cases h.symm.trans ht₂
      rw [reaches_iff, hl, ← reaches_iff]
      exact hs c₁ room peer h₂

/-- Taking a member out leaves no open connection of that name unreached only if there is none. -/
theorem membersFollow_cleanup_iff {room₀ : String} {peer₀ : PeerId}
    (hl : t.rooms = s.rooms.unregister room₀ peer₀) (ha : t.accepts = s.accepts)
    (ho : ∀ c, t.isOpen c = s.isOpen c) (hs : s.MembersFollow) :
    t.MembersFollow ↔ ∀ c, s.isOpen c → ¬s.SentAs c room₀ peer₀ := by
  have heq : ∀ room peer, t.latestOpen room peer = s.latestOpen room peer := fun room peer =>
    latestOpen_congr ha fun c _ => ho c
  rw [← latestOpen_eq_none]
  constructor
  · intro ht
    rcases h : s.latestOpen room₀ peer₀ with _ | c
    · rfl
    · have := reaches_iff.mp (ht c room₀ peer₀ ((heq _ _).trans h))
      rw [hl, Rooms.lookup_unregister, if_pos ⟨rfl, rfl⟩] at this
      cases this
  · intro hn c room peer h
    rw [heq] at h
    have hne : ¬(room₀ = room ∧ peer₀ = peer) := by
      rintro ⟨rfl, rfl⟩
      cases hn.symm.trans h
    rw [reaches_iff, hl, Rooms.lookup_unregister, if_neg hne, ← reaches_iff]
    exact hs c room peer h

/-- An accepted frame makes its connection the one that is reached. -/
theorem membersFollow_enter (hl : t.rooms = s.rooms.register frame.room frame.sender c)
    (ha : t.accepts = (c, frame) :: s.accepts) (ho : ∀ c, t.isOpen c = s.isOpen c)
    (hc : s.isOpen c) (hs : s.MembersFollow) : t.MembersFollow := by
  intro c' room peer h
  rw [reaches_iff, hl, Rooms.lookup_register]
  have hcons : t.latestOpen room peer = if frame.room = room ∧ frame.sender = peer then some c
      else s.latestOpen room peer := by
    unfold latestOpen
    simp only [ha, List.find?_cons, ho, hc, and_true]
    split_ifs with he
    · simp [he]
    · simp [he]
  rw [hcons] at h
  split_ifs at h ⊢ with he
  · exact h
  · exact reaches_iff.mp (hs c' room peer h)

theorem isOpen_close {c' : ConnId} : (s.close c conn).isOpen c' ↔ c' ≠ c ∧ s.isOpen c' := by
  by_cases he : c' = c
  · subst he
    rw [isOpen_eq (connections_close.trans (if_pos rfl))]
    simp [inLoop]
  · rw [isOpen_congr (connections_close.trans (if_neg he))]
    simp [he]

theorem isOpen_setConnection {conn₀ : RelayConnection} {c' : ConnId}
    (hc : s.connections c = some conn) (hi : inLoop conn₀.stage = inLoop conn.stage) :
    (s.setConnection c conn₀).isOpen c' = s.isOpen c' := by
  by_cases he : c' = c
  · subst he
    rw [isOpen_eq (connections_setConnection.trans (if_pos rfl)), isOpen_eq hc, hi]
  · exact isOpen_congr (connections_setConnection.trans (if_neg he))

theorem membersKept_of_stay (hl : ∀ c, ¬s.Leaves sha256 a c)
    (ho : ∀ room peer, ¬s.TakesOut a room peer) : s.MembersKept sha256 a :=
  ⟨fun c hc => absurd hc (hl c), fun room peer hp => absurd hp (ho room peer)⟩

/-- The event takes the task of `c` out of its loop, and does nothing else. -/
theorem membersKept_iff_of_leaves (hc : s.Leaves sha256 a c)
    (ha : a = .hangup c ∨ ∃ frame, a = .receive c frame) :
    s.MembersKept sha256 a ↔ ∀ room peer, s.latestOpen room peer = some c →
      ∀ c', s.isOpen c' → s.SentAs c' room peer → c' = c := by
  refine ⟨fun h => h.1 c hc, fun h => ⟨?_, ?_⟩⟩
  · rintro c' ⟨_, _, _, hc'⟩
    have he : c' = c := by
      rcases ha with rfl | ⟨frame, rfl⟩ <;> rcases hc' with hc' | ⟨_, hc', -⟩ <;> cases hc' <;> rfl
    rw [he]
    exact h
  · rintro room peer ⟨c', _, _, rfl, -⟩
    rcases ha with ha | ⟨_, ha⟩ <;> cases ha

theorem not_leaves {c' : ConnId} (hh : ∀ c, a ≠ .hangup c) (hr : ∀ c frame, a ≠ .receive c frame) :
    ¬s.Leaves sha256 a c' := by
  rintro ⟨_, _, _, ha | ⟨frame, ha, -⟩⟩
  · exact hh _ ha
  · exact hr _ _ ha

theorem not_takesOut (h : ∀ c, a ≠ .cleanup c) : ¬s.TakesOut a room peer := by
  rintro ⟨c, -, -, ha, -⟩
  exact h c ha

theorem Idle.membersKept (h : s.Idle a) : s.MembersKept sha256 a := by
  refine membersKept_of_stay ?_ ?_
  · rintro c ⟨conn, hc, hr, rfl | ⟨frame, rfl, -⟩⟩
    · exact h (by rw [stage_eq hc, hr])
    · exact h (by rw [stage_eq hc, hr])
  · rintro room peer ⟨c, conn, rest, rfl, hc, hr⟩
    exact h (room, peer) rest (by rw [stage_eq hc, hr])

theorem Moves.membersFollow_iff (h : Moves sha256 s a t) (hreg : s.Registered)
    (hs : s.MembersFollow) : t.MembersFollow ↔ s.MembersKept sha256 a := by
  cases h with
  | idle hi => exact iff_of_true hs hi.membersKept
  | accept hn =>
    refine iff_of_true (membersFollow_congr (s := s) (fun _ _ => rfl) rfl ?_ hs)
      (membersKept_of_stay (fun _ => not_leaves (by simp) (by simp))
        fun _ _ => not_takesOut (by simp))
    rintro c' room peer ⟨frame, hm, -⟩
    refine isOpen_congr (connections_setConnection.trans (if_neg ?_))
    rintro rfl
    exact hreg.opened _ _ hm hn
  | @refuse c conn frame h hr ha =>
    have hc : s.Leaves sha256 (.receive c frame) c :=
      ⟨conn, h, hr, Or.inr ⟨frame, rfl, fun _ ha' => by cases ha.symm.trans ha'⟩⟩
    rw [membersKept_iff_of_leaves hc (Or.inr ⟨frame, rfl⟩)]
    exact membersFollow_close_iff (fun _ _ => rfl) rfl (fun _ => isOpen_close) hs
  | @full c conn conn' frame h hr ha hf =>
    have hc : s.Leaves sha256 (.receive c frame) c :=
      ⟨conn, h, hr, Or.inr ⟨frame, rfl, fun _ _ => hf⟩⟩
    rw [membersKept_iff_of_leaves hc (Or.inr ⟨frame, rfl⟩)]
    exact membersFollow_close_iff (fun _ _ => Rooms.lookup_enter) rfl (fun _ => isOpen_close) hs
  | @enter c conn conn' frame joined h hr ha hf =>
    refine iff_of_true (membersFollow_enter rfl rfl (fun _ => ?_) ?_ hs)
      (membersKept_of_stay ?_ fun _ _ => not_takesOut (by simp))
    · exact isOpen_setConnection h (by rw [hr, inLoop_stageFor]; rfl)
    · rw [isOpen_eq h, hr]
      rfl
    · rintro c' ⟨conn₁, h₁, -, hh | ⟨frame₁, hf₁, hadm⟩⟩
      · cases hh
      · cases hf₁
        cases h.symm.trans h₁
        exact hadm _ ha hf
  | append h hr | load h hr | pass h hr | reply h hr | forward h hr =>
    refine iff_of_true (membersFollow_congr (s := s) (fun _ _ => rfl) rfl (fun _ _ _ _ => ?_) hs)
      (membersKept_of_stay (fun _ => not_leaves (by simp) (by simp))
        fun _ _ => not_takesOut (by simp))
    exact isOpen_setConnection h (by rw [hr]; rfl)
  | @hangup c conn h hr =>
    rw [membersKept_iff_of_leaves ⟨conn, h, hr, Or.inl rfl⟩ (Or.inl rfl)]
    exact membersFollow_close_iff (fun _ _ => rfl) rfl (fun _ => isOpen_close) hs
  | @cleanup c conn room peer rest h hr =>
    have hcases : s.MembersKept sha256 (.cleanup c) ↔ ∀ c, s.isOpen c → ¬s.SentAs c room peer := by
      refine ⟨fun hk => hk.2 room peer ⟨c, conn, rest, rfl, h, hr⟩, fun hk => ⟨?_, ?_⟩⟩
      · exact fun c' hc' => absurd hc' (not_leaves (by simp) (by simp))
      · rintro room' peer' ⟨c', conn', rest', hc', h', hr'⟩
        cases hc'
        cases h.symm.trans h'
        cases hr.symm.trans hr'
        exact hk
    rw [hcases]
    refine membersFollow_cleanup_iff rfl rfl (fun _ => ?_) hs
    exact isOpen_setConnection h (by rw [hr]; rfl)

/-- In every run the members follow the connections that are open exactly as long as the events
keep them. -/
theorem run_membersFollow_iff (sha256 : List UInt8 → Bytes32) (cap : ℕ) (auth : RoomAuth)
    (store : Option SessionStore) (as : List RelayEvent) :
    (∀ m, m <+: as → ((machine sha256).run (serveFull cap auth store) m).MembersFollow) ↔
      (machine sha256).Along (fun s a => s.MembersKept sha256 a)
        (serveFull cap auth store) as :=
  Machine.forall_prefix_iff_along (fun s a hs _ => (moves_step s a).registered hs)
    (fun s a hreg hs => (moves_step s a).membersFollow_iff hreg hs) registered_serveFull
    fun c room peer h => by cases h

/-- A peer connects again before its old connection is closed. -/
def reconnectRun : List RelayEvent :=
  [.accept ⟨1⟩, .receive ⟨1⟩ (hello ⟨7⟩), .persist ⟨1⟩, .forward ⟨1⟩, .accept ⟨2⟩,
    .receive ⟨2⟩ (hello ⟨7⟩), .hangup ⟨1⟩, .cleanup ⟨1⟩]

theorem reconnect_unreached : ¬((machine fun _ => .replicate 32 0).run
    (serveFull 256 .open none) reconnectRun).MembersFollow := by
  intro h
  have hl : ((machine fun _ => .replicate 32 0).run
      (serveFull 256 .open none) reconnectRun).latestOpen "r" ⟨7⟩ = some ⟨2⟩ := rfl
  cases reaches_iff.mp (h ⟨2⟩ "r" ⟨7⟩ hl)

end RelayServer

end AvSync
