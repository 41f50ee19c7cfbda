import AvSync.Proofs.Recorded

/-!
# Snapshots for the peers that join

The push to a peer that joins is made once, and the peer is known whether or not it succeeds. So
every known peer has been sent the log there was when it joined exactly when, in each poll, for
each peer that joins the push succeeds, or the answer to a request that comes in the same poll
(`SyncEngine.run_served_iff`).
-/

namespace AvSync

/-- What follows the last entry of a kind, and what precedes it. -/
theorem last_unique {α : Type*} {P : α → Prop} {a b : α} {l₁ l₂ m₁ m₂ : List α}
    (h : l₁ ++ a :: l₂ = m₁ ++ b :: m₂) (ha : P a) (hb : P b) (hl : ∀ x ∈ l₂, ¬P x)
    (hm : ∀ x ∈ m₂, ¬P x) : l₁ = m₁ ∧ a = b ∧ l₂ = m₂ := by
  rcases List.append_eq_append_iff.mp h with ⟨k, rfl, hk⟩ | ⟨k, rfl, hk⟩
  · rcases k with _ | ⟨x, k⟩
    · obtain ⟨rfl, rfl⟩ := List.cons_eq_cons.mp hk
      exact ⟨(List.append_nil l₁).symm, rfl, rfl⟩
    · obtain ⟨-, rfl⟩ := List.cons_eq_cons.mp hk
      exact absurd hb (hl b (List.mem_append_right k List.mem_cons_self))
  · rcases k with _ | ⟨x, k⟩
    · obtain ⟨rfl, rfl⟩ := List.cons_eq_cons.mp hk
      exact ⟨List.append_nil m₁, rfl, rfl⟩
    · obtain ⟨-, rfl⟩ := List.cons_eq_cons.mp hk
      exact absurd ha (hm a (List.mem_append_right k List.mem_cons_self))

namespace SyncEngine

variable {σ : Type} {H : Host σ} {e : SyncEngine σ} {r : Recorded σ} {l m : List Mark}
  {p : PeerId}

/-! ## Known peers -/

theorem knownPeers_flushMessage (msg : SyncMessage) :
    (e.flushMessage H msg).knownPeers = e.knownPeers := by
  unfold flushMessage broadcast
  rcases H.broadcast msg e.transport with ⟨_ | _, t⟩
  · rfl
  · cases msg <;> rfl

theorem knownPeers_dispatch (msg : SyncMessage) :
    (e.dispatch H msg).knownPeers = e.knownPeers := by
  unfold dispatch broadcast
  rcases H.broadcast msg e.transport with ⟨_ | _, t⟩
  · dsimp only
    split_ifs <;> rfl
  · cases msg <;> rfl

theorem knownPeers_flushOfflineQueue : (e.flushOfflineQueue H).knownPeers = e.knownPeers :=
  frame_foldl (g := (·.knownPeers)) (fun _ msg => knownPeers_flushMessage msg) _ _

theorem knownPeers_handlePeerJoin (peer : PeerId) :
    (e.handlePeerJoin H peer).2.knownPeers = e.knownPeers := by
  unfold handlePeerJoin sendTo
  rcases H.sendTo peer (.snapshot e.crdt.snapshot) e.transport with ⟨_ | _, t⟩
  · rfl
  · exact knownPeers_flushOfflineQueue

theorem knownPeers_noticePeer (peer : PeerId) :
    (e.noticePeer H peer).knownPeers = e.knownPeers := by
  unfold noticePeer
  split_ifs
  · rfl
  · exact knownPeers_handlePeerJoin peer

theorem knownPeers_handleOperation (peer : PeerId) (op : TaggedOperation) :
    (e.handleOperation H peer op).knownPeers = e.knownPeers := by
  unfold handleOperation
  split <;> rfl

theorem knownPeers_handleMessage (peer : PeerId) (msg : SyncMessage) :
    (e.handleMessage H peer msg).knownPeers = e.knownPeers := by
  cases msg with
  | operation op => exact knownPeers_handleOperation peer op
  | batch ops =>
    exact frame_foldl (g := (·.knownPeers)) (fun _ op => knownPeers_handleOperation peer op) _ _
  | _ => rfl

theorem knownPeers_receiveLoop :
    ∀ {n : ℕ} {e : SyncEngine σ}, (receiveLoop H n e).2.knownPeers = e.knownPeers
  | 0, _ => rfl
  | n + 1, e => by
    unfold receiveLoop
    rcases H.tryRecv e.transport with ⟨_ | _ | ⟨peer, msg⟩, t⟩
    · rfl
    · rfl
    · exact (knownPeers_receiveLoop (n := n)).trans (knownPeers_handleMessage peer msg)

theorem knownPeers_processMessages :
    (e.processMessages H).2.knownPeers = H.peers e.transport := by
  have hresend : ∀ e : SyncEngine σ, (e.resendDue H).knownPeers = e.knownPeers := fun e =>
    frame_foldl (g := (·.knownPeers)) (f := fun e op => (e.broadcast H (.operation op)).2)
      (fun _ _ => rfl) _ _
  exact (hresend _).trans knownPeers_receiveLoop

theorem knownPeers_step {a : EngineEvent σ} (ha : a ≠ .processMessages) :
    (e.step H a).knownPeers = e.knownPeers := by
  cases a with
  | applyLocal operation =>
    rw [step]
    rcases h : e.applyLocal H operation with _ | ⟨tagged, e'⟩
    · rfl
    · obtain ⟨⟨t, c⟩, -, h2⟩ := Option.map_eq_some_iff.mp h
      cases h2
      exact knownPeers_dispatch _
  | processMessages => exact absurd rfl ha
  | handlePeerJoin peer => exact knownPeers_handlePeerJoin peer
  | flushOfflineQueue => exact knownPeers_flushOfflineQueue
  | requestSnapshot => exact knownPeers_dispatch _
  | crdtMut f => rfl
  | transportMut f => rfl

/-! ## Marks of a poll -/

theorem crdt_noticeAll (l : List PeerId) :
    (l.foldl (fun e peer => e.noticePeer H peer) e).crdt = e.crdt :=
  frame_foldl (g := (·.crdt)) (fun _ peer => crdt_noticePeer peer) _ _

theorem knownPeers_noticeAll (l : List PeerId) :
    (l.foldl (fun e peer => e.noticePeer H peer) e).knownPeers = e.knownPeers :=
  frame_foldl (g := (·.knownPeers)) (fun _ peer => knownPeers_noticePeer peer) _ _

/-- A message is handled by an engine whose log has all there was. -/
theorem log_subset_inbox {o : TaggedOperation} :
    ∀ {n : ℕ} {e : SyncEngine σ}, o ∈ e.crdt.operationLog →
      ∀ x ∈ inbox H n e, o ∈ x.1.crdt.operationLog
  | 0, _, _, x, hx => absurd hx List.not_mem_nil
  | n + 1, e, ho, x, hx => by
    unfold inbox at hx
    rcases hr : H.tryRecv e.transport with ⟨_ | _ | ⟨peer, msg⟩, t⟩ <;> rw [hr] at hx
    · exact absurd hx List.not_mem_nil
    · exact absurd hx List.not_mem_nil
    · rcases List.mem_cons.mp hx with rfl | hx
      · exact ho
      · obtain ⟨l, hl, -⟩ :=
          takesIn_handleMessage (H := H) (e := { e with transport := t }) peer msg
        exact log_subset_inbox (n := n) (hl ▸ List.mem_append_left l ho) x hx

/-- The marks of one peer listed: none if it is known, else the join and the push. -/
theorem marksOf_noticePeer (p : PeerId) :
    marksOf r (r.noticePeer H.recording p) =
      if p ∈ r.knownPeers then []
      else .joined p r.crdt.operationLog ::
        ((forget r).snapshotTo H p).map fun s => .sent s.1 s.2 := by
  rw [(Adds.noticePeer p).marksOf]
  split_ifs <;> rfl

theorem noticeMarks_append {m : List PeerId} :
    ∀ {l : List PeerId} {r : Recorded σ},
      noticeMarks H r (l ++ m) = noticeMarks H r l ++
        noticeMarks H (l.foldl (fun e peer => e.noticePeer H.recording peer) r) m
  | [], _ => rfl
  | q :: l, r => by
    rw [List.cons_append, noticeMarks, noticeMarks_append (l := l), noticeMarks, List.append_assoc]
    rfl

theorem joined_mem_noticeMarks {log : List TaggedOperation} :
    ∀ {l : List PeerId} {r : Recorded σ}, .joined p log ∈ noticeMarks H r l →
      p ∈ l ∧ p ∉ r.knownPeers
  | [], _, h => absurd h List.not_mem_nil
  | q :: l, r, h => by
    rw [noticeMarks, List.mem_append, marksOf_noticePeer] at h
    rcases h with h | h
    · split_ifs at h with hq
      · exact absurd h List.not_mem_nil
      · obtain ⟨rfl, -⟩ : p = q ∧ log = r.crdt.operationLog := by simpa using h
        exact ⟨List.mem_cons_self, hq⟩
    · obtain ⟨hp, hnew⟩ := joined_mem_noticeMarks (l := l) h
      exact ⟨List.mem_cons_of_mem q hp, knownPeers_noticePeer (H := H.recording) q ▸ hnew⟩

theorem sent_mem_noticeMarks {snapshot : TimelineSnapshot} :
    ∀ {l : List PeerId} {r : Recorded σ}, .sent p snapshot ∈ noticeMarks H r l → p ∈ l
  | [], _, h => absurd h List.not_mem_nil
  | q :: l, r, h => by
    rw [noticeMarks, List.mem_append, marksOf_noticePeer] at h
    rcases h with h | h
    · split_ifs at h
      · exact absurd h List.not_mem_nil
      · obtain ⟨⟨q', s⟩, hs, he⟩ := List.mem_map.mp ((List.mem_cons.mp h).resolve_left (by simp))
        obtain ⟨rfl, rfl⟩ := Mark.sent.inj he
        exact (mem_snapshotTo.mp hs).1 ▸ List.mem_cons_self
    · exact List.mem_cons_of_mem q (sent_mem_noticeMarks (l := l) h)

/-- The marks of a poll after its joins: the answers to the requests. -/
def answerMarks (H : Host σ) (e : SyncEngine σ) : List Mark :=
  ((inbox H (e.detectPeerChanges H).config.maxMessagesPerTick (e.detectPeerChanges H)).flatMap
    (answerTo H)).map fun s => .sent s.1 s.2

theorem marksBy_poll :
    marksBy H r .processMessages =
      noticeMarks H r (H.peers r.transport.1) ++ answerMarks H (forget r) := by
  rw [marksBy, Adds.processMessages.marksOf, List.map_nil, List.nil_append]
  rfl

theorem joined_not_mem_answerMarks {log : List TaggedOperation} :
    .joined p log ∉ answerMarks H e := by
  simp [answerMarks]

theorem sent_mem_answerMarks {snapshot : TimelineSnapshot} :
    .sent p snapshot ∈ answerMarks H e ↔
      ∃ m ∈ inbox H (e.detectPeerChanges H).config.maxMessagesPerTick (e.detectPeerChanges H),
        m.2 = (p, .requestSnapshot) ∧ snapshot = m.1.crdt.snapshot ∧ m.1.Sends H p := by
  simp only [answerMarks, List.mem_map, List.mem_flatMap, Mark.sent.injEq]
  constructor
  · rintro ⟨⟨q, s⟩, ⟨⟨e', q', msg⟩, hm, hs⟩, rfl, rfl⟩
    cases msg with
    | requestSnapshot =>
      obtain ⟨rfl, hsnap, hsends⟩ := mem_snapshotTo.mp hs
      exact ⟨_, hm, rfl, hsnap, hsends⟩
    | _ => exact absurd hs List.not_mem_nil
  · rintro ⟨⟨e', q', msg⟩, hm, he, rfl, hsends⟩
    obtain ⟨rfl, rfl⟩ := Prod.mk.inj he
    exact ⟨_, ⟨_, hm, mem_snapshotTo.mpr ⟨rfl, rfl, hsends⟩⟩, rfl, rfl⟩

/-! ## Served peers -/

theorem joined_mem_marksBy {a : EngineEvent σ} {log : List TaggedOperation}
    (h : .joined p log ∈ marksBy H r a) : a = .processMessages ∧ p ∉ r.knownPeers := by
  by_cases ha : a = .processMessages
  · subst ha
    rw [marksBy_poll, List.mem_append] at h
    exact ⟨rfl, (joined_mem_noticeMarks (h.resolve_right joined_not_mem_answerMarks)).2⟩
  · obtain ⟨sends, hadds⟩ := Adds.step (H := H) (e := r) ha
    rw [marksBy_of_ne ha, hadds.marksOf] at h
    simp at h

theorem Served.append (h : Served l p) (hm : ∀ log, .joined p log ∉ m) : Served (l ++ m) p := by
  obtain ⟨l₁, log, l₂, rfl, hlast, snapshot, hsent, hlog⟩ := h
  refine ⟨l₁, log, l₂ ++ m, by simp, fun log' h => ?_, snapshot, List.mem_append_left _ hsent,
    hlog⟩
  exact (List.mem_append.mp h).elim (hlast log') (hm log')

/-- What follows the last join decides. -/
theorem served_append_iff {log : List TaggedOperation} (hm : ∀ log, .joined p log ∉ m) :
    Served (l ++ .joined p log :: m) p ↔
      ∃ snapshot, .sent p snapshot ∈ m ∧ ∀ o ∈ log, o ∈ snapshot.ops := by
  constructor
  · rintro ⟨l₁, log', l₂, he, hlast, h⟩
    obtain ⟨-, hlog, rfl⟩ := last_unique (P := fun x => ∃ log, x = .joined p log) he
      ⟨log, rfl⟩ ⟨log', rfl⟩ (by rintro x hx ⟨log, rfl⟩; exact hm log hx)
      (by rintro x hx ⟨log, rfl⟩; exact hlast log hx)
    obtain ⟨-, rfl⟩ := Mark.joined.inj hlog
    exact h
  · exact fun h => ⟨l, log, m, rfl, hm, h⟩

/-- A peer that joins in a poll is served by it if a push or an answer succeeds. -/
theorem served_joiner_iff (hp : p ∈ H.peers r.transport.1) (hnew : p ∉ r.knownPeers) :
    Served (l ++ marksBy H r .processMessages) p ↔
      (forget r).Pushes H (H.peers r.transport.1) p ∨
        ((forget r).detectPeerChanges H).Answers H p := by
  -- the transport lists the peer last after `l₁`
  obtain ⟨l₂, l₁, hrev, hlast⟩ := List.eq_append_cons_of_mem (List.mem_reverse.mpr hp)
  have hcur : H.peers r.transport.1 = l₁.reverse ++ p :: l₂.reverse := by
    rw [← List.reverse_reverse (H.peers _), hrev]
    simp
  generalize l₁.reverse = l₁ at hcur
  have hlast : p ∉ l₂.reverse := List.mem_reverse.not.mpr hlast
  generalize l₂.reverse = l₂ at hcur hlast
  have hpushes : (forget r).Pushes H (H.peers r.transport.1) p ↔
      (l₁.foldl (fun e peer => e.noticePeer H peer) (forget r)).Sends H p := by
    constructor
    · rintro ⟨m₁, m₂, he, hm, h⟩
      obtain ⟨rfl, -, -⟩ := last_unique (P := (· = p)) (hcur.symm.trans he) rfl rfl
        (fun x hx he => hlast (he ▸ hx)) (fun x hx he => hm (he ▸ hx))
      exact h
    · exact fun h => ⟨l₁, l₂, hcur, hlast, h⟩
  rw [hpushes, ← forget_noticeAll]
  obtain ⟨r₁, hr₁⟩ : ∃ r₁, r₁ = l₁.foldl (fun e peer => e.noticePeer H.recording peer) r :=
    ⟨_, rfl⟩
  have hknown : p ∉ r₁.knownPeers := by rwa [hr₁, knownPeers_noticeAll]
  have hcrdt : r₁.crdt = r.crdt := by rw [hr₁, crdt_noticeAll]
  have hmarks : marksBy H r .processMessages = noticeMarks H r l₁ ++
      .joined p r.crdt.operationLog :: (((forget r₁).snapshotTo H p).map (fun s => .sent s.1 s.2) ++
        noticeMarks H (r₁.noticePeer H.recording p) l₂ ++ answerMarks H (forget r)) := by
    rw [marksBy_poll, hcur, noticeMarks_append, ← hr₁, noticeMarks, marksOf_noticePeer,
      if_neg hknown, hcrdt]
    simp
  have hnone : ∀ log, .joined p log ∉ ((forget r₁).snapshotTo H p).map (fun s => .sent s.1 s.2) ++
      noticeMarks H (r₁.noticePeer H.recording p) l₂ ++ answerMarks H (forget r) := by
    intro log h
    rcases List.mem_append.mp h with h | h
    · rcases List.mem_append.mp h with h | h
      · simp at h
      · exact hlast (joined_mem_noticeMarks h).1
    · exact joined_not_mem_answerMarks h
  rw [hmarks, ← List.append_assoc, served_append_iff hnone, ← hr₁]
  simp only [List.mem_append, List.mem_map, Mark.sent.injEq]
  constructor
  · rintro ⟨snapshot, ((⟨⟨q, s⟩, hs, rfl, rfl⟩ | h) | h), -⟩
    · exact Or.inl (mem_snapshotTo.mp hs).2.2
    · exact absurd (sent_mem_noticeMarks h) hlast
    · obtain ⟨x, hx, hreq, -, hsends⟩ := sent_mem_answerMarks.mp h
      exact Or.inr ⟨x, hx, hreq, hsends⟩
  · rintro (h | ⟨x, hx, hreq, hsends⟩)
    · refine ⟨_, Or.inl (Or.inl ⟨_, mem_snapshotTo.mpr ⟨rfl, rfl, h⟩, rfl, rfl⟩), fun o ho => ?_⟩
      exact show o ∈ r₁.crdt.operationLog from hcrdt ▸ ho
    · refine ⟨_, Or.inr (sent_mem_answerMarks.mpr ⟨x, hx, hreq, rfl, hsends⟩), fun o ho => ?_⟩
      have hlog : o ∈ ((forget r).detectPeerChanges H).crdt.operationLog := by
        rwa [crdt_detectPeerChanges]
      exact log_subset_inbox hlog x hx

/-- After a poll every known peer is served exactly if the peers that join in it are. -/
theorem served_poll_iff (h : ∀ p ∈ r.knownPeers, Served l p) :
    (∀ p ∈ (r.step H.recording .processMessages).knownPeers,
      Served (l ++ marksBy H r .processMessages) p) ↔
        (forget r).JoinersServed H .processMessages := by
  rw [show (r.step H.recording .processMessages).knownPeers = _ from knownPeers_processMessages]
  constructor
  · exact fun hall _ p hp hnew => (served_joiner_iff hp hnew).mp (hall p hp)
  · intro hall p hp
    by_cases hnew : p ∈ r.knownPeers
    · exact (h p hnew).append fun log hlog => (joined_mem_marksBy hlog).2 hnew
    · exact (served_joiner_iff hp hnew).mpr (hall rfl p hp hnew)

theorem served_step (h : ∀ p ∈ r.knownPeers, Served l p) {a : EngineEvent σ}
    (ha : (forget r).JoinersServed H a) :
    ∀ p ∈ (r.step H.recording a.recorded).knownPeers, Served (l ++ marksBy H r a) p := by
  by_cases hpoll : a = .processMessages
  · subst hpoll
    exact (served_poll_iff h).mpr ha
  · intro p hp
    have hne : a.recorded ≠ .processMessages := by
      cases a <;> first | exact absurd rfl hpoll | simp [EngineEvent.recorded]
    rw [knownPeers_step hne] at hp
    exact (h p hp).append fun log hlog => hpoll (joined_mem_marksBy hlog).1

theorem polls_served_iff :
    ∀ {t : List (EngineEvent σ)} {r : Recorded σ} {l : List Mark},
      (∀ p ∈ r.knownPeers, Served l p) →
      ((∀ bs, bs ++ [.processMessages] <+: t →
          ∀ p ∈ ((machine H).run (forget r) (bs ++ [.processMessages])).knownPeers,
            Served (l ++ marks H r (bs ++ [.processMessages])) p) ↔
        (machine H).Along (JoinersServed H) (forget r) t)
  | [], r, l, _ => by
    refine iff_of_true (fun bs hbs => ?_) trivial
    exact absurd (List.prefix_nil.mp hbs) (List.append_ne_nil_of_right_ne_nil bs (by simp))
  | a :: as, r, l, h => by
    have hstep : (machine H).step (forget r) a = forget (r.step H.recording a.recorded) :=
      (forget_step a).symm
    have hpoll : (machine H).run (forget r) [.processMessages] =
        forget (r.step H.recording .processMessages) := (forget_run [.processMessages] r).symm
    have hhead : (∀ bs, bs ++ [.processMessages] <+: a :: as →
        ∀ p ∈ ((machine H).run (forget r) (bs ++ [.processMessages])).knownPeers,
          Served (l ++ marks H r (bs ++ [.processMessages])) p) →
        (forget r).JoinersServed H a := by
      rintro hall rfl
      refine (served_poll_iff h).mp (fun p hp => ?_) rfl
      have hserved := hall [] (by simp) p (by rwa [List.nil_append, hpoll])
      simpa [marks] using hserved
    rw [Machine.along_cons, hstep]
    constructor
    · intro hall
      have ha := hhead hall
      refine ⟨ha, (polls_served_iff (t := as) (served_step h ha)).mp fun bs hbs p hp => ?_⟩
      have := hall (a :: bs) (List.cons_prefix_cons.mpr ⟨rfl, hbs⟩) p (by
        rwa [List.cons_append, Machine.run_cons, hstep])
      rwa [List.cons_append, marks, ← List.append_assoc] at this
    · rintro ⟨ha, hall⟩ bs hbs p hp
      rcases bs with _ | ⟨b, bs⟩
      · obtain ⟨rfl, -⟩ := List.cons_prefix_cons.mp hbs
        rw [List.nil_append, hpoll] at hp
        simpa [marks] using (served_poll_iff h).mpr ha p hp
      · obtain ⟨rfl, hbs'⟩ := List.cons_prefix_cons.mp hbs
        rw [List.cons_append, Machine.run_cons, hstep] at hp
        have := (polls_served_iff (t := as) (served_step h ha)).mpr hall bs hbs' p hp
        rwa [List.cons_append, marks, ← List.append_assoc]

/-- After every poll each known peer has, since it joined last, been sent a snapshot with all of
the log there was then, exactly when in each poll, for each peer that joins, the push succeeds or
the answer to a request that comes in the same poll. -/
theorem run_served_iff (crdt : TimelineCrdt) (transport : σ) (config : EngineConfig)
    (as : List (EngineEvent σ)) :
    (∀ bs, bs ++ [.processMessages] <+: as →
      ∀ p ∈ ((machine H).run (withConfig crdt transport config)
          (bs ++ [.processMessages])).knownPeers,
        Served (marks H (withConfig crdt transport config).recorded
          (bs ++ [.processMessages])) p) ↔
      (machine H).Along (JoinersServed H) (withConfig crdt transport config) as :=
  polls_served_iff (r := (withConfig crdt transport config).recorded) (l := [])
    fun _ hp => absurd hp List.not_mem_nil

/-- A peer to which nothing can be sent yet. -/
def deafPeer : Host Bool :=
  { oneMessage .requestSnapshot with
    sendTo := fun _ _ up => (.error (.transport "not connected"), up)
    tryRecv := fun up => (.ok none, up) }

/-- The push fails, and the peer is known all the same. -/
theorem deafPeer_not_served :
    ¬∀ bs, bs ++ [.processMessages] <+: [EngineEvent.processMessages] →
      ∀ p ∈ ((machine deafPeer).run (withConfig (.new ⟨1⟩) true .default)
          (bs ++ [.processMessages])).knownPeers,
        Served (marks deafPeer (withConfig (.new ⟨1⟩) true .default).recorded
          (bs ++ [.processMessages])) p := by
  intro h
  obtain ⟨l₁, log, l₂, he, -, snapshot, hsent, -⟩ :=
    h [] List.prefix_rfl ⟨2⟩ List.mem_cons_self
  have hmarks : [.joined ⟨2⟩ []] = l₁ ++ .joined ⟨2⟩ log :: l₂ := he
  rcases l₁ with _ | ⟨x, l₁⟩
  · obtain ⟨-, rfl⟩ := List.cons_eq_cons.mp hmarks
    exact absurd hsent List.not_mem_nil
  · simp at hmarks

end SyncEngine

end AvSync
