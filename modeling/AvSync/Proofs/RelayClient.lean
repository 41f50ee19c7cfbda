import AvSync.Proofs.Media
import AvSync.Proofs.Relay
import AvSync.RelayClient

/-!
# Engines that meet at the relay

What the server works on, records, answers and forwards has been sent to it, and a client is a
member of its own room only. So the relay is an honest medium (`RelaySession.medium_honest`) between
the rooms that share a log: engines that sync through it are replicas of a net
(`RelaySession.run_relayed`), and hear of the edits of their own room (`RelaySession.run_isolated`).
-/

namespace AvSync

namespace RelayServer

variable {sha256 : List UInt8 → Bytes32} {s t : RelayServer} {a : RelayEvent} {c : ConnId}
  {conn : RelayConnection} {frame : RelayFrame} {room : String} {peer : PeerId}
  {o : TaggedOperation}

/-! ## What a step of the server handles -/

theorem isSome_store_step : (step sha256 s a).store.isSome = s.store.isSome := by
  have hmoves : Moves sha256 s a (RelayServer.step sha256 s a) := moves_step s a
  generalize RelayServer.step sha256 s a = t at hmoves
  cases hmoves with
  | append => exact Option.isSome_map
  | _ => rfl

theorem shares_step {r r' : String} : (step sha256 s a).Shares r r' ↔ s.Shares r r' := by
  rw [Shares, Shares, isSome_store_step]

/-- A member after a step was one before, or its connection has just been read from. -/
theorem lookup_step (h : (step sha256 s a).rooms.lookup room peer = some c) :
    s.rooms.lookup room peer = some c ∨ ∃ frame, a = .receive c frame ∧ frame.room = room := by
  have hmoves : Moves sha256 s a (RelayServer.step sha256 s a) := moves_step s a
  generalize RelayServer.step sha256 s a = t at h hmoves
  cases hmoves with
  | full =>
    change ((s.rooms.enter _).lookup room peer) = some c at h
    rw [Rooms.lookup_enter] at h
    exact Or.inl h
  | enter =>
    change ((s.rooms.register _ _ _).lookup room peer) = some c at h
    rw [Rooms.lookup_register] at h
    split_ifs at h with he
    · obtain rfl := Option.some.inj h
      exact Or.inr ⟨_, rfl, he.1⟩
    · exact Or.inl h
  | cleanup =>
    change ((s.rooms.unregister _ _).lookup room peer) = some c at h
    rw [Rooms.lookup_unregister] at h
    split_ifs at h
    exact Or.inl h
  | _ => exact Or.inl h

theorem Has.working (h : s.connections c = some conn) (ho : conn.stage.Carries o room) :
    s.Has room o :=
  Or.inl ⟨c, conn.stage, stage_eq h, ho⟩

/-- One connection has moved on. -/
theorem Has.of_moved (h : t.Has room o) (hc : ∀ c', t.connections c' =
    if c' = c then some conn else s.connections c') (hs : t.store = s.store) :
    s.Has room o ∨ conn.stage.Carries o room := by
  rcases h with ⟨c', stage, hst, ho⟩ | ⟨store, hst, ho⟩
  · rw [RelayServer.stage, hc] at hst
    split_ifs at hst with he
    · obtain rfl := Option.some.inj hst
      exact Or.inr ho
    · exact Or.inl (Or.inl ⟨c', stage, hst, ho⟩)
  · exact Or.inl (Or.inr ⟨store, hs ▸ hst, ho⟩)

theorem carries_stageFor (h : (stageFor frame).Carries o room) :
    frame.room = room ∧ o ∈ frame.message.contents := by
  have hcase : stageFor frame = .persisting frame ∨ stageFor frame = .reading := by
    unfold stageFor
    split
    · split_ifs
      · exact Or.inl rfl
      · exact Or.inr rfl
    · exact Or.inl rfl
  rcases hcase with hs | hs <;> rw [hs] at h
  · cases h with
    | persisting ho => exact ⟨rfl, ho⟩
  · cases h

/-- What a task records is in the logs of the rooms that share the file. -/
theorem Has.persist (h : (s.persist c).Has room o) :
    ∃ room', s.Shares room' room ∧ s.Has room' o := by
  have hsame : s.Has room o → ∃ room', s.Shares room' room ∧ s.Has room' o :=
    fun h => ⟨room, Or.inl rfl, h⟩
  unfold RelayServer.persist at h
  rcases hc : s.connections c with _ | conn <;> rw [hc] at h
  · exact hsame h
  dsimp only at h
  split at h
  · rename_i frame hr
    have hwork : o ∈ frame.message.contents → s.Has frame.room o := fun ho =>
      .working hc (by rw [hr]; exact .persisting ho)
    have hforward : (s.setConnection c { conn with stage := .forwarding frame }).Has room o →
        s.Has room o := fun h => by
      rcases h.of_moved (fun _ => connections_setConnection) rfl with h | h
      · exact h
      · cases h with
        | forwarding ho => exact hwork ho
    split at h
    · rename_i op hm
      rcases h with ⟨c', stage, hst, ho⟩ | ⟨store, hst, ho⟩
      · exact hsame (hforward (Or.inl ⟨c', stage, hst, ho⟩))
      · obtain ⟨store', hs, rfl⟩ := Option.map_eq_some_iff.mp hst
        rcases SessionStore.mem_loadOps_appendOp.mp ho with ho | ⟨rfl, hstem⟩
        · exact hsame (Or.inr ⟨store', hs, ho⟩)
        · exact ⟨frame.room, Or.inr ⟨by rw [hs]; rfl, hstem⟩,
            hwork (by rw [hm]; exact List.mem_cons_self)⟩
    · rcases h.of_moved (fun _ => connections_setConnection) rfl with h | h
      · exact hsame h
      · dsimp only at h
        split_ifs at h
        · cases h with
          | forwarding ho => exact hsame (hwork ho)
        · cases h with
          | replying ho =>
            rcases hs : s.store with _ | store <;> rw [hs] at ho
            · exact absurd ho List.not_mem_nil
            · exact hsame (Or.inr ⟨store, hs, ho⟩)
    · exact hsame (hforward h)
  · exact hsame h

theorem Has.reply (h : (s.reply c).Has room o) : s.Has room o := by
  unfold RelayServer.reply at h
  rcases hc : s.connections c with _ | conn <;> rw [hc] at h
  · exact h
  dsimp only at h
  split at h
  · rcases h.of_moved (s := s) (fun _ => connections_setConnection) rfl with h | h
    · exact h
    · cases h
  · exact h

/-- After a step the server has what it had, or what it has read. -/
theorem Has.step (h : (step sha256 s a).Has room o) :
    (∃ room', s.Shares room' room ∧ s.Has room' o) ∨
      ∃ c frame, a = .receive c frame ∧ frame.room = room ∧ o ∈ frame.message.contents := by
  by_cases hp : ∃ c, a = .persist c
  · obtain ⟨c, rfl⟩ := hp
    exact Or.inl (Has.persist h)
  have hsame : s.Has room o → (∃ room', s.Shares room' room ∧ s.Has room' o) ∨
      ∃ c frame, a = .receive c frame ∧ frame.room = room ∧ o ∈ frame.message.contents :=
    fun h => Or.inl ⟨room, Or.inl rfl, h⟩
  by_cases hr : ∃ c, a = .reply c
  · obtain ⟨c, rfl⟩ := hr
    exact hsame (Has.reply h)
  have hmoves : Moves sha256 s a (RelayServer.step sha256 s a) := moves_step s a
  generalize RelayServer.step sha256 s a = t at h hmoves
  have hidle : ∀ {c : ConnId} {conn : RelayConnection}, (∀ c', t.connections c' =
      if c' = c then some conn else s.connections c') → t.store = s.store →
        ¬conn.stage.Carries o room → s.Has room o :=
    fun hc hs hn => (h.of_moved hc hs).resolve_right hn
  cases hmoves with
  | append | load | pass => exact absurd ⟨_, rfl⟩ hp
  | reply => exact absurd ⟨_, rfl⟩ hr
  | idle => exact hsame h
  | accept | forward | cleanup =>
    exact hsame (hidle (fun _ => connections_setConnection) rfl fun h => by cases h)
  | refuse | full | hangup =>
    exact hsame (hidle (fun _ => connections_close) rfl fun h => by cases h)
  | enter hc =>
    rcases h.of_moved (s := s) (fun _ => connections_setConnection) rfl with h | ho
    · exact hsame h
    · obtain ⟨hroom, ho⟩ := carries_stageFor ho
      exact Or.inr ⟨_, _, rfl, hroom, ho⟩

/-! ## What a step of the server sends -/

/-- The operations of the delivery are worked on for a room of which the receiver is a member. -/
def Supports (s : RelayServer) (d : RelayDelivery) : Prop :=
  ∀ o ∈ d.frame.message.contents, ∃ room peer, s.Has room o ∧
    s.rooms.lookup room peer = some d.member

theorem forwarded_step (sha256 : List UInt8 → Bytes32) (s : RelayServer) (a : RelayEvent) :
    ∃ l, (step sha256 s a).forwarded = s.forwarded ++ l ∧
    ∀ d ∈ l, s.Supports d := by
  have hmoves : Moves sha256 s a (RelayServer.step sha256 s a) := moves_step s a
  generalize RelayServer.step sha256 s a = t at hmoves
  cases hmoves with
  | @forward c conn frame hc hr =>
    refine ⟨_, rfl, fun d hd o ho => ?_⟩
    obtain ⟨member, hm, rfl⟩ := List.mem_map.mp hd
    obtain ⟨peer, hpeer, -⟩ := Rooms.mem_recipients.mp hm
    exact ⟨frame.room, peer, .working hc (by rw [hr]; exact .forwarding ho), hpeer⟩
  | _ => exact ⟨[], (List.append_nil _).symm, fun d hd => absurd hd List.not_mem_nil⟩

theorem answered_step (sha256 : List UInt8 → Bytes32) (s : RelayServer) (a : RelayEvent) :
    ∃ l, (step sha256 s a).answered = s.answered ++ l ∧
    ∀ d ∈ l, s.Supports d := by
  have hkept : ∀ {t : RelayServer}, t.answered = s.answered →
      ∃ l, t.answered = s.answered ++ l ∧ ∀ d ∈ l, s.Supports d :=
    fun h => ⟨[], by rw [h, List.append_nil], fun d hd => absurd hd List.not_mem_nil⟩
  by_cases hr : ∃ c, a = .reply c
  · obtain ⟨c, rfl⟩ := hr
    change ∃ l, (s.reply c).answered = _ ∧ _
    unfold RelayServer.reply
    rcases hc : s.connections c with _ | conn
    · exact hkept rfl
    dsimp only
    split
    · rename_i frame stored hst
      refine ⟨_, rfl, fun d hd o ho => ?_⟩
      obtain ⟨member, hm, rfl⟩ := List.mem_map.mp hd
      exact ⟨frame.room, frame.sender, .working hc (by rw [hst]; exact .replying ho),
        Option.mem_toList.mp hm⟩
    · exact hkept rfl
  · have hmoves : Moves sha256 s a (RelayServer.step sha256 s a) := moves_step s a
    generalize RelayServer.step sha256 s a = t at hmoves
    cases hmoves with
    | reply => exact absurd ⟨_, rfl⟩ hr
    | _ => exact hkept rfl

end RelayServer

namespace RelaySession

variable {γ : Type} {rooms : PeerId → String} {sha256 : List UInt8 → Bytes32} {key : String → γ}
  {s : RelaySession rooms} {p : PeerId} {c : ConnId} {frame : RelayFrame} {room : String}
  {o : TaggedOperation}

theorem connOf_injective : Function.Injective connOf := by
  intro p q h
  have hraw : p.raw = q.raw := UInt64.toNat_inj.mp (ConnId.mk.inj h)
  cases p
  cases q
  exact congrArg PeerId.mk hraw

/-- What a step of the server sends to a connection is for a room of which it is a member. -/
theorem has_of_sent {a : RelayEvent} (h : frame ∈ sent s.server (s.server.step sha256 a) c)
    (ho : o ∈ frame.message.contents) :
    ∃ room peer, s.server.Has room o ∧ s.server.rooms.lookup room peer = some c := by
  obtain ⟨l, hl, hlo⟩ := RelayServer.forwarded_step sha256 s.server a
  obtain ⟨m, hm, hmo⟩ := RelayServer.answered_step sha256 s.server a
  rw [sent, hl, hm, List.drop_left, List.drop_left] at h
  obtain ⟨d, hd, rfl⟩ := List.mem_map.mp h
  obtain ⟨hmem, hc⟩ := List.mem_filter.mp hd
  obtain rfl : d.member = c := of_decide_eq_true hc
  rcases List.mem_append.mp hmem with hd | hd
  · exact hlo d hd o ho
  · exact hmo d hd o ho

/-! ## The medium -/

/-- Rooms with one log have one key, and a client sends in its own room, and is a member of no
other. -/
structure Fit (key : String → γ) (s : RelaySession rooms) : Prop where
  keyed : ∀ r r', s.server.Shares r r' → key r = key r'
  framed : ∀ p, ∀ frame ∈ (s.clients p).outbound, frame.room = rooms p
  members : ∀ room peer p, s.server.rooms.lookup room peer = some (connOf p) → rooms p = room

/-- One client has changed. -/
theorem Fit.setClient {client : RelayClientTransport (rooms p)} (h : s.Fit key)
    (hf : ∀ frame ∈ client.outbound, frame.room = rooms p) : (s.setClient p client).Fit key :=
  { h with
    framed := fun q frame hq => by
      by_cases hqp : q = p
      · subst hqp
        simp only [RelaySession.setClient, Function.update_self] at hq
        exact hf frame hq
      · simp only [RelaySession.setClient, Function.update_of_ne hqp] at hq
        exact h.framed q frame hq }

theorem Carries.of_setClient {client : RelayClientTransport (rooms p)}
    (h : (s.setClient p client).Carries o room) :
    s.Carries o room ∨ rooms p = room ∧
      ((∃ frame ∈ client.outbound, o ∈ frame.message.contents) ∨
        ∃ m ∈ client.inbox, o ∈ m.2.contents) := by
  cases h with
  | @outbound q frame hf ho =>
    by_cases hq : q = p
    · subst hq
      simp only [setClient, Function.update_self] at hf
      exact Or.inr ⟨rfl, Or.inl ⟨frame, hf, ho⟩⟩
    · simp only [setClient, Function.update_of_ne hq] at hf
      exact Or.inl (.outbound hf ho)
  | server hs => exact Or.inl (.server hs)
  | channel hf ho => exact Or.inl (.channel hf ho)
  | @inbox q m hm ho =>
    by_cases hq : q = p
    · subst hq
      simp only [setClient, Function.update_self] at hm
      exact Or.inr ⟨rfl, Or.inr ⟨m, hm, ho⟩⟩
    · simp only [setClient, Function.update_of_ne hq] at hm
      exact Or.inl (.inbox hm ho)

/-- A client with less in its queue and its inbox. -/
theorem keeps_setClient {client : RelayClientTransport (rooms p)} (h : s.Fit key)
    (hout : client.outbound ⊆ (s.clients p).outbound) (hin : client.inbox ⊆ (s.clients p).inbox) :
    (medium sha256 key).Keeps (Fit key) s (s.setClient p client) := by
  refine ⟨h.setClient fun f hf => h.framed p f (hout hf), fun g o ⟨room, hg, hc⟩ => ⟨room, hg, ?_⟩⟩
  rcases hc.of_setClient with hc | ⟨rfl, ⟨f, hf, ho⟩ | ⟨m, hm, ho⟩⟩
  · exact hc
  · exact .outbound (hout hf) ho
  · exact .inbox (hin hm) ho

theorem passes_push {target : Option PeerId} {msg : SyncMessage} (h : s.Fit key) :
    (medium sha256 key).Passes (Fit key) p msg.contents s (s.push p target msg) := by
  refine ⟨h.setClient fun f hf => ?_, fun g o ⟨room, hg, hc⟩ => ?_⟩
  · rcases List.mem_append.mp hf with hf | hf
    · exact h.framed p f hf
    · rw [List.mem_singleton.mp hf]
  · rcases hc.of_setClient with hc | ⟨rfl, ⟨f, hf, ho⟩ | ⟨m, hm, ho⟩⟩
    · exact Or.inl ⟨room, hg, hc⟩
    · rcases List.mem_append.mp hf with hf | hf
      · exact Or.inl ⟨_, hg, .outbound hf ho⟩
      · rw [List.mem_singleton.mp hf] at ho
        exact Or.inr ⟨hg, ho⟩
    · exact Or.inl ⟨_, hg, .inbox hm ho⟩

/-- A step of the server, reading at most from a client whose frame it is. -/
theorem fit_serve {a : RelayEvent} (h : s.Fit key)
    (ha : ∀ p frame, a = .receive (connOf p) frame → frame.room = rooms p) :
    (s.serve sha256 a).Fit key where
  keyed r r' hr := h.keyed r r' (RelayServer.shares_step.mp hr)
  framed := h.framed
  members room peer p hl := by
    rcases RelayServer.lookup_step hl with hl | ⟨frame, rfl, rfl⟩
    · exact h.members room peer p hl
    · exact (ha p frame rfl).symm

theorem Carries.of_serve {a : RelayEvent} (h : s.Fit key) (hc : (s.serve sha256 a).Carries o room) :
    (∃ room', key room' = key room ∧ s.Carries o room') ∨
      ∃ c frame, a = .receive c frame ∧ frame.room = room ∧ o ∈ frame.message.contents := by
  cases hc with
  | outbound hf ho => exact Or.inl ⟨_, rfl, .outbound hf ho⟩
  | server hs =>
    refine hs.step.imp_left fun ⟨room', hr, hs⟩ => ⟨room', h.keyed _ _ hr, .server hs⟩
  | channel hf ho =>
    rcases List.mem_append.mp hf with hf | hf
    · exact Or.inl ⟨_, rfl, .channel hf ho⟩
    · obtain ⟨room, peer, hs, hl⟩ := has_of_sent hf ho
      exact Or.inl ⟨room, by rw [h.members room peer _ hl], .server hs⟩
  | inbox hm ho => exact Or.inl ⟨_, rfl, .inbox hm ho⟩

/-- A channel has become shorter. -/
theorem Carries.of_channel {rest : List RelayFrame} (hrest : rest ⊆ s.channels c)
    (h : Carries { s with channels := Function.update s.channels c rest } o room) :
    s.Carries o room := by
  cases h with
  | outbound hf ho => exact .outbound hf ho
  | server hs => exact .server hs
  | @channel q frame hf ho =>
    by_cases hc : connOf q = c
    · subst hc
      simp only [Function.update_self] at hf
      exact .channel (hrest hf) ho
    · simp only [Function.update_of_ne hc] at hf
      exact .channel hf ho
  | inbox hm ho => exact .inbox hm ho

theorem Carries.of_take (h : (s.take p frame).Carries o room) :
    s.Carries o room ∨ rooms p = room ∧ o ∈ frame.message.contents := by
  unfold take at h
  by_cases hc : (s.clients p).connected ∧ frame.sender ≠ p
  · rw [if_pos hc] at h
    rcases h.of_setClient with h | ⟨rfl, ⟨f, hf, ho⟩ | ⟨m, hm, ho⟩⟩
    · exact Or.inl h
    · exact Or.inl (.outbound hf ho)
    · rcases List.mem_append.mp hm with hm | hm
      · exact Or.inl (.inbox hm ho)
      · obtain rfl := List.mem_singleton.mp hm
        exact Or.inr ⟨rfl, ho⟩
  · rw [if_neg hc] at h
    exact Or.inl h

theorem Fit.take (h : s.Fit key) : (s.take p frame).Fit key := by
  unfold RelaySession.take
  by_cases hc : (s.clients p).connected ∧ frame.sender ≠ p
  · rw [if_pos hc]
    exact h.setClient (h.framed p)
  · rw [if_neg hc]
    exact h

theorem keeps_happen {a : RelaySessionEvent} (h : s.Fit key) :
    (medium sha256 key).Keeps (Fit key) s (happen sha256 a s) := by
  have hsame : (medium sha256 key).Keeps (Fit key) s s := ⟨h, fun _ _ hc => hc⟩
  cases a with
  | upload p =>
    simp only [happen]
    split
    · rename_i frame rest hout hst
      have hkeeps : (medium sha256 key).Keeps (Fit key) s
          (s.setClient p { s.clients p with outbound := rest }) :=
        keeps_setClient h (hout ▸ List.subset_cons_self _ _) (List.Subset.refl _)
      have hroom : frame.room = rooms p := h.framed p frame (hout ▸ List.mem_cons_self)
      refine ⟨fit_serve hkeeps.1 fun q f hf => ?_, fun g o ⟨room, hg, hc⟩ => ?_⟩
      · obtain ⟨hconn, rfl⟩ := RelayEvent.receive.inj hf
        exact connOf_injective hconn ▸ hroom
      · rcases hc.of_serve hkeeps.1 with ⟨room', hk, hc⟩ | ⟨c, f, hf, rfl, ho⟩
        · exact hkeeps.2 g o ⟨room', hk.trans hg, hc⟩
        · obtain ⟨-, rfl⟩ := RelayEvent.receive.inj hf
          exact ⟨rooms p, hroom ▸ hg, .outbound (hout ▸ List.mem_cons_self) ho⟩
    · exact hsame
  | loseUpload p => exact keeps_setClient h (List.tail_subset _) (List.Subset.refl _)
  | serve c task =>
    refine ⟨fit_serve h fun q f hf => ?_, fun g o ⟨room, hg, hc⟩ => ?_⟩
    · cases task <;> cases hf
    · rcases hc.of_serve h with ⟨room', hk, hc⟩ | ⟨c', f, hf, -⟩
      · exact ⟨room', hk.trans hg, hc⟩
      · cases task <;> cases hf
  | download p =>
    simp only [happen]
    split
    · rename_i frame rest hch
      refine ⟨Fit.take { h with }, fun g o ⟨room, hg, hc⟩ => ⟨room, hg, ?_⟩⟩
      rcases hc.of_take with hc | ⟨rfl, ho⟩
      · exact hc.of_channel (hch ▸ List.subset_cons_self _ _)
      · exact .channel (hch ▸ List.mem_cons_self) ho
    · exact hsame
  | loseDownload p =>
    exact ⟨{ h with }, fun g o ⟨room, hg, hc⟩ => ⟨room, hg, hc.of_channel (List.tail_subset _)⟩⟩
  | disconnect p => exact keeps_setClient h (List.Subset.refl _) (List.Subset.refl _)

/-- The relay makes no operations up, and keeps those of a room to the rooms that share its log. -/
theorem medium_honest : Medium.Honest
    (medium sha256 key : Medium (RelaySession rooms) RelaySessionEvent γ) (Fit key) where
  sendTo {s p q m} h := by
    simp only [medium, host]
    split_ifs
    · exact passes_push h
    · exact ⟨h, fun _ _ hc => Or.inl hc⟩
  broadcast {s p m} h := by
    simp only [medium, host]
    split_ifs
    · exact passes_push h
    · exact ⟨h, fun _ _ hc => Or.inl hc⟩
  tryRecv {s p} h := by
    simp only [medium, host]
    split
    · rename_i m rest hin
      exact keeps_setClient h (List.Subset.refl _) (hin ▸ List.subset_cons_self _ _)
    · split_ifs <;> exact ⟨h, fun _ _ hc => hc⟩
  received {s p q m o} h hr ho := by
    simp only [medium, host] at hr
    split at hr
    · rename_i m' rest hin
      obtain rfl : m' = (q, m) := by simpa using hr
      exact ⟨rooms p, rfl, .inbox (hin ▸ List.mem_cons_self) ho⟩
    · split_ifs at hr
      simp at hr
  nowMs {s p} h := by
    refine ⟨{ h with }, fun g o ⟨room, hg, hc⟩ => ⟨room, hg, ?_⟩⟩
    cases hc with
    | outbound hf ho => exact .outbound hf ho
    | server hs => exact .server hs
    | channel hf ho => exact .channel hf ho
    | inbox hm ho => exact .inbox hm ho
  happen h := keeps_happen h

/-! ## Runs -/

section

variable {maxRoomMembers : ℕ} {auth : RoomAuth} {store : Option SessionStore}
  {secret : PeerId → Option String} {clock : ℕ → UInt64} {config : PeerId → EngineConfig}
  {events : List (EnsembleEvent RelaySessionEvent)}

theorem fit_connect (key : String → γ) (hkey : ∀ r r', r = r' ∨ store.isSome ∧
      SessionStore.stemFor r = SessionStore.stemFor r' → key r = key r') :
    (connect sha256 (.serveFull maxRoomMembers auth store) rooms secret clock).Fit key where
  keyed := hkey
  framed p frame h := by rw [List.mem_singleton.mp h]; rfl
  members room peer p h := by
    simp [connect, RelayServer.serveFull, Rooms.lookup, Rooms.members] at h

/-- At the start only the server's logs hold operations. -/
theorem carries_connect
    (h : (connect sha256 (.serveFull maxRoomMembers auth store) rooms secret clock).Carries o room) :
    ∃ st, store = some st ∧ o ∈ st.loadOps room := by
  cases h with
  | outbound hf ho =>
    rw [List.mem_singleton.mp hf] at ho
    exact absurd ho List.not_mem_nil
  | server hs =>
    rcases hs with ⟨c, stage, hst, -⟩ | hs
    · cases hst
    · exact hs
  | channel hf => exact absurd hf List.not_mem_nil
  | inbox hm => exact absurd hm List.not_mem_nil

variable (hrun : (machine sha256 rooms).Valid
  (meet sha256 maxRoomMembers auth store rooms secret clock config) events)

include hrun

/-- Engines in the rooms of one relay agree when they have the same operations, whatever the relay
has lost, repeated and delayed on the way. -/
theorem run_relayed (hstore : ∀ st, store = some st → ∀ room, st.loadOps room = [])
    (he : (machine sha256 rooms).Along Ensemble.EditsOwn
      (meet sha256 maxRoomMembers auth store rooms secret clock config) events) {p q : PeerId}
    (hlog : ∀ o, o ∈ (((machine sha256 rooms).run (meet sha256 maxRoomMembers auth store rooms
          secret clock config) events).engines p).crdt.operationLog ↔
      o ∈ (((machine sha256 rooms).run (meet sha256 maxRoomMembers auth store rooms
          secret clock config) events).engines q).crdt.operationLog) :
    (((machine sha256 rooms).run (meet sha256 maxRoomMembers auth store rooms secret clock config)
        events).engines p).crdt.Agree
      (((machine sha256 rooms).run (meet sha256 maxRoomMembers auth store rooms secret clock config)
        events).engines q).crdt := by
  refine Ensemble.agree_of_sameLog medium_honest (fit_connect (fun _ => ()) fun _ _ _ => rfl) hrun
    ?_ he hlog
  rintro - o ⟨room, -, h⟩
  obtain ⟨st, hst, ho⟩ := carries_connect h
  exact List.not_mem_nil (hstore st hst room ▸ ho)

end

/-! ## Three engines -/

def trioRooms (p : PeerId) : String := if p.raw ≤ 2 then "r" else "q"

/-- Two engines in one room and the others in another: the first edits, and the second hears. -/
def trio : Ensemble (RelaySession trioRooms) :=
  meet (fun _ => .replicate 32 0) 256 .open (some ⟨∅⟩) _ (fun _ => none) (fun _ => 0)
    fun _ => .default

def trioEdit : TaggedOperation := (TimelineCrdt.new ⟨1⟩).tagNext (.insertTrack ⟨1⟩ (.new "t") 0)

def trioRun : List (EnsembleEvent RelaySessionEvent) :=
  [.happen (.serve ⟨1⟩ .accept), .happen (.serve ⟨2⟩ .accept), .happen (.upload ⟨2⟩),
    .happen (.serve ⟨2⟩ .persist), .happen (.serve ⟨2⟩ .forward), .happen (.upload ⟨1⟩),
    .happen (.serve ⟨1⟩ .persist), .happen (.serve ⟨1⟩ .forward),
    .call ⟨1⟩ (.applyLocal (.insertTrack ⟨1⟩ (.new "t") 0)), .happen (.upload ⟨1⟩),
    .happen (.serve ⟨1⟩ .persist), .happen (.serve ⟨1⟩ .forward), .happen (.download ⟨2⟩),
    .happen (.download ⟨2⟩), .call ⟨2⟩ .processMessages]

theorem trioRun_valid : (machine (fun _ => .replicate 32 0) _).Valid trio trioRun :=
  ⟨trivial, trivial, trivial, trivial, trivial, trivial, trivial, trivial, rfl, trivial, trivial,
    trivial, trivial, trivial, trivial, trivial⟩

theorem trioRun_editsOwn :
    (machine (fun _ => .replicate 32 0) _).Along Ensemble.EditsOwn trio trioRun := by
  refine ⟨trivial, trivial, trivial, trivial, trivial, trivial, trivial, trivial,
    ⟨fun r hr => absurd hr List.not_mem_nil, fun r _ q o ho => ?_, by decide⟩, trivial, trivial,
    trivial, trivial, trivial, trivial, trivial⟩
  exact absurd ho List.not_mem_nil

theorem trioRun_log (p : PeerId) (hp : p = ⟨1⟩ ∨ p = ⟨2⟩) :
    (((machine (fun _ => .replicate 32 0) _).run trio trioRun).engines p).crdt.operationLog =
      [trioEdit] := by
  rcases hp with rfl | rfl <;> rfl

theorem trioRun_relayed : (((machine (fun _ => .replicate 32 0) _).run trio trioRun).engines
    ⟨1⟩).crdt.Agree (((machine (fun _ => .replicate 32 0) _).run trio trioRun).engines ⟨2⟩).crdt :=
  run_relayed trioRun_valid (fun _ h _ => by cases h; rfl) trioRun_editsOwn fun o =>
    Iff.of_eq <| congrArg (o ∈ ·) <|
      (trioRun_log ⟨1⟩ (Or.inl rfl)).trans (trioRun_log ⟨2⟩ (Or.inr rfl)).symm

theorem trioEdit_heard : trioEdit ∈ (((machine (fun _ => .replicate 32 0) _).run trio
    trioRun).engines ⟨2⟩).crdt.operationLog := by
  rw [trioRun_log ⟨2⟩ (Or.inr rfl)]
  exact List.mem_cons_self

end RelaySession

end AvSync
