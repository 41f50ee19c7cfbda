import AvSync.Proofs.Inbound
import AvSync.Proofs.Ledger

/-!
# Operations under acknowledgment

The sending side of an engine tracks operations and moves messages to and from the queue; what
those moves keep it keeps (`Sending`). An operation that has been broadcast stays tracked until it
is settled, as long as the first acknowledgments of it come from all the peers at once
(`SyncEngine.run_follows`).
-/

namespace AvSync

open ReliabilityManager (pending_track pending_onAck mem_ackedPeers_onAck onAck_rest
  ackedPeers_onAck_self ackedPeers_onAck retainEntry_cases pending_due mem_givenUp_due
  le_resends_of_spent)

variable {r : ReliabilityManager} {q : OfflineQueue} {held : List SyncMessage}
  {op o : TaggedOperation} {msg : SyncMessage} {now : UInt64} {peers : List PeerId}

/-! ## The sending side -/

/-- Kept when an operation in hand is tracked, when a message in hand is let go of or queued, and
when the queue is taken in hand. -/
structure Sending (J : ReliabilityManager → OfflineQueue → List SyncMessage → Prop) : Prop where
  track : ∀ {r q held o now}, J r q (.operation o :: held) → J (r.track o now) q held
  release : ∀ {r q msg held}, J r q (msg :: held) → J r q held
  enqueue : ∀ {r q msg held}, J r q (msg :: held) → J r (q.enqueue msg) held
  drain : ∀ {r q}, J r q [] → J r q.drain.2 q.drain.1

namespace Sending

variable {J : ReliabilityManager → OfflineQueue → List SyncMessage → Prop} (S : Sending J)
  {σ : Type} {H : Host σ} {e : SyncEngine σ}

include S

theorem trackSent (h : J e.reliability e.offline (msg :: held)) :
    J (e.trackSent H msg).reliability (e.trackSent H msg).offline held := by
  cases msg with
  | operation op => exact S.track h
  | _ => exact S.release h

theorem dispatch (h : J e.reliability e.offline (msg :: held)) :
    J (e.dispatch H msg).reliability (e.dispatch H msg).offline held := by
  unfold SyncEngine.dispatch SyncEngine.broadcast
  rcases H.broadcast msg e.transport with ⟨err | _, t⟩
  · dsimp only
    split_ifs
    · exact S.enqueue h
    · exact S.release h
  · exact S.trackSent (e := { e with transport := t }) h

theorem flushMessage (h : J e.reliability e.offline (msg :: held)) :
    J (e.flushMessage H msg).reliability (e.flushMessage H msg).offline held := by
  unfold SyncEngine.flushMessage SyncEngine.broadcast
  rcases H.broadcast msg e.transport with ⟨err | _, t⟩
  · exact S.release h
  · exact S.trackSent (e := { e with transport := t }) h

theorem flush :
    ∀ {m : List SyncMessage} {e : SyncEngine σ}, J e.reliability e.offline m →
      J (m.foldl (fun e msg => e.flushMessage H msg) e).reliability
        (m.foldl (fun e msg => e.flushMessage H msg) e).offline []
  | [], _, h => h
  | _ :: m, _, h => flush (m := m) (S.flushMessage h)

theorem flushOfflineQueue (h : J e.reliability e.offline []) :
    J (e.flushOfflineQueue H).reliability (e.flushOfflineQueue H).offline [] :=
  S.flush (e := { e with offline := e.offline.drain.2 }) (S.drain h)

theorem handlePeerJoin (peer : PeerId) (h : J e.reliability e.offline []) :
    J (e.handlePeerJoin H peer).2.reliability (e.handlePeerJoin H peer).2.offline [] := by
  unfold SyncEngine.handlePeerJoin SyncEngine.sendTo
  rcases H.sendTo peer (.snapshot e.crdt.snapshot) e.transport with ⟨err | _, t⟩
  · exact h
  · exact S.flushOfflineQueue (e := { e with transport := t }) h

theorem noticePeers :
    ∀ {p : List PeerId} {e : SyncEngine σ}, J e.reliability e.offline [] →
      J (p.foldl (fun e peer => e.noticePeer H peer) e).reliability
        (p.foldl (fun e peer => e.noticePeer H peer) e).offline []
  | [], _, h => h
  | peer :: p, e, h => by
    refine noticePeers (p := p) (e := e.noticePeer H peer) ?_
    unfold SyncEngine.noticePeer
    split_ifs
    · exact h
    · exact S.handlePeerJoin (e := e.pushEvent (.peerJoined peer)) peer h

theorem detectPeerChanges (h : J e.reliability e.offline []) :
    J (e.detectPeerChanges H).reliability (e.detectPeerChanges H).offline [] := by
  unfold SyncEngine.detectPeerChanges
  dsimp only
  rw [SyncEngine.frame_foldl (g := (·.reliability))
      (f := fun e peer => e.pushEvent (.peerLeft peer)) (fun _ _ => rfl),
    SyncEngine.frame_foldl (g := (·.offline))
      (f := fun e peer => e.pushEvent (.peerLeft peer)) (fun _ _ => rfl)]
  exact S.noticePeers h

end Sending

/-! ## The receiving side -/

/-- Acknowledgments, one after the other. -/
def ReliabilityManager.onAcks (r : ReliabilityManager) (as : List (OperationId × PeerId)) :
    ReliabilityManager :=
  as.foldl (fun r a => (r.onAck a.1 a.2).2) r

namespace ReliabilityManager

theorem pending_onAcks {i : OperationId} :
    ∀ {l : List (OperationId × PeerId)} {r : ReliabilityManager},
      (i ∈ r.ackedPeers ∨ ∀ p, (i, p) ∉ l) → (r.onAcks l).pending[i]? = r.pending[i]?
  | [], _, _ => rfl
  | (j, p) :: as, r, h => by
    have hstep : (r.onAck j p).2.pending[i]? = r.pending[i]? := by
      rw [pending_onAck, if_neg]
      rintro ⟨rfl, hj⟩
      exact h.elim (fun hi => hj hi) fun hn => hn p List.mem_cons_self
    have htail : i ∈ (r.onAck j p).2.ackedPeers ∨ ∀ p, (i, p) ∉ as :=
      h.imp mem_ackedPeers_onAck fun hn p hp => hn p (List.mem_cons_of_mem _ hp)
    exact (pending_onAcks (l := as) htail).trans hstep

theorem ackedPeers_onAcks {i : OperationId} {acked : List PeerId} :
    ∀ {l : List (OperationId × PeerId)} {r : ReliabilityManager},
      r.ackedPeers[i]? = some acked → ∃ acked', (r.onAcks l).ackedPeers[i]? = some acked' ∧
        ∀ q ∈ acked, q ∈ acked'
  | [], _, h => ⟨acked, h, fun _ hq => hq⟩
  | a :: as, _, h => by
    obtain ⟨acked₁, h₁, hsub₁⟩ := ackedPeers_onAck (i := a.1) (p := a.2) h
    obtain ⟨acked₂, h₂, hsub₂⟩ := ackedPeers_onAcks (l := as) h₁
    exact ⟨acked₂, h₂, fun q hq => hsub₂ q (hsub₁ q hq)⟩

/-- Every acknowledgment is on record. -/
theorem mem_ackedPeers_onAcks {i : OperationId} {p : PeerId} :
    ∀ {l : List (OperationId × PeerId)} {r : ReliabilityManager}, (i, p) ∈ l →
      ∃ acked, (r.onAcks l).ackedPeers[i]? = some acked ∧ p ∈ acked
  | a :: as, r, h => by
    rcases List.mem_cons.mp h with rfl | h
    · obtain ⟨acked, ha, hp⟩ := ackedPeers_onAck_self (r := r) i p
      obtain ⟨acked', ha', hsub⟩ := ackedPeers_onAcks (l := as) ha
      exact ⟨acked', ha', hsub p hp⟩
    · exact mem_ackedPeers_onAcks (l := as) (r := (r.onAck a.1 a.2).2) h

theorem onAcks_rest :
    ∀ (as : List (OperationId × PeerId)) (r : ReliabilityManager),
      (r.onAcks as).givenUp = r.givenUp ∧ (r.onAcks as).maxResends = r.maxResends
  | [], _ => ⟨rfl, rfl⟩
  | a :: as, r => by
    obtain ⟨h₁, h₂⟩ := onAcks_rest as (r.onAck a.1 a.2).2
    obtain ⟨h₃, h₄, -⟩ := onAck_rest r a.1 a.2
    exact ⟨h₁.trans h₃, h₂.trans h₄⟩

end ReliabilityManager

namespace SyncEngine

variable {σ : Type} {H : Host σ} {e : SyncEngine σ}

/-- The acknowledgments among the messages of an inbox. -/
def acksOf (l : List (SyncEngine σ × PeerId × SyncMessage)) : List (OperationId × PeerId) :=
  l.filterMap fun m =>
    match m.2.2 with
    | .ack opId => some (opId, m.2.1)
    | _ => none

theorem handleOperation_sending (peer : PeerId) (op : TaggedOperation) :
    (e.handleOperation H peer op).reliability = e.reliability ∧
      (e.handleOperation H peer op).offline = e.offline := by
  unfold handleOperation
  split <;> exact ⟨rfl, rfl⟩

/-- Of what an engine receives, the sending side sees the acknowledgments. -/
theorem receiveLoop_sending :
    ∀ {n : ℕ} {e : SyncEngine σ},
      (receiveLoop H n e).2.reliability = e.reliability.onAcks (acksOf (inbox H n e)) ∧
        (receiveLoop H n e).2.offline = e.offline
  | 0, _ => ⟨rfl, rfl⟩
  | n + 1, e => by
    unfold receiveLoop inbox
    rcases H.tryRecv e.transport with ⟨_ | _ | ⟨peer, msg⟩, t⟩
    · exact ⟨rfl, rfl⟩
    · exact ⟨rfl, rfl⟩
    · obtain ⟨h₁, h₂⟩ := receiveLoop_sending (n := n)
        (e := { e with transport := t }.handleMessage H peer msg)
      have hmsg : (acksOf [({ e with transport := t }, peer, msg)] = [] ∧
          ({ e with transport := t }.handleMessage H peer msg).reliability = e.reliability ∧
          ({ e with transport := t }.handleMessage H peer msg).offline = e.offline) ∨
          ∃ opId, msg = .ack opId := by
        cases msg with
        | operation op => exact Or.inl ⟨rfl, handleOperation_sending peer op⟩
        | batch ops =>
          exact Or.inl ⟨rfl,
            frame_foldl (g := (·.reliability)) (fun _ op => (handleOperation_sending peer op).1)
              _ _,
            frame_foldl (g := (·.offline)) (fun _ op => (handleOperation_sending peer op).2) _ _⟩
        | ack opId => exact Or.inr ⟨opId, rfl⟩
        | _ => exact Or.inl ⟨rfl, rfl, rfl⟩
      rcases hmsg with ⟨hnone, hr, ho⟩ | ⟨opId, rfl⟩
      · have hcons : ∀ l, acksOf (({ e with transport := t }, peer, msg) :: l) = acksOf l := by
          intro l
          rw [← List.singleton_append, acksOf, List.filterMap_append]
          exact congrArg (· ++ acksOf l) hnone
        refine ⟨h₁.trans ?_, h₂.trans ho⟩
        rw [hr]
        exact congrArg _ (hcons _).symm
      · exact ⟨h₁, h₂⟩

end SyncEngine

/-! ## Followed operations -/

namespace ReliabilityManager

theorem settles_sending : Sending fun r _ _ => r.Settles op peers where
  track h := h
  release h := h
  enqueue h := h
  drain h := h

theorem Settles.onAcks (h : r.Settles op peers) (as : List (OperationId × PeerId)) :
    (r.onAcks as).Settles op peers := by
  obtain ⟨hgiven, hmax⟩ := onAcks_rest as r
  rcases h with ⟨acked, ha, hall⟩ | h
  · obtain ⟨acked', ha', hsub⟩ := ackedPeers_onAcks (l := as) ha
    exact Or.inl ⟨acked', ha', fun p hp => hsub p (hall p hp)⟩
  · rw [Settles, hgiven, hmax]
    exact Or.inr h

theorem Settles.due (h : r.Settles op peers) (now : UInt64) :
    (r.dueForResend now).2.Settles op peers := by
  rcases h with h | ⟨entry, he, h⟩
  · exact Or.inl h
  · exact Or.inr ⟨entry, mem_givenUp_due.mpr (Or.inl he), h⟩

end ReliabilityManager

/-- `op` is settled; or it is tracked, and what waits under its id is nothing. -/
def Watches (op : TaggedOperation) (peers : List PeerId) (r : ReliabilityManager)
    (q : OfflineQueue) (held : List SyncMessage) : Prop :=
  r.Settles op peers ∨
    (∃ entry, r.pending[op.opId]? = some entry ∧ entry.op = op ∧
      entry.attempts.toNat ≤ entry.resends + 1) ∧
    ∀ o, Awaits q held o → o.opId ≠ op.opId

namespace Watches

theorem awaits_of_enqueue (h : Awaits (q.enqueue msg) held o) : Awaits q (msg :: held) o := by
  rcases h with h | h
  · exact Or.inl (List.mem_cons_of_mem _ h)
  · have hmem : .operation o ∈ q.queue ++ [msg] := by
      unfold OfflineQueue.enqueue at h
      split_ifs at h
      · exact ((List.tail_sublist _).append_right _).subset h
      · exact h
    rcases List.mem_append.mp hmem with h | h
    · exact Or.inr h
    · exact Or.inl (List.mem_singleton.mp h ▸ List.mem_cons_self)

theorem sending : Sending (Watches op peers) where
  track {r q held o now} h := by
    refine h.imp id fun ⟨⟨entry, he, hop, ha⟩, hno⟩ => ?_
    have ho : o.opId ≠ op.opId := hno o (Or.inl List.mem_cons_self)
    refine ⟨⟨entry, ?_, hop, ha⟩, fun o' ho' => hno o' (ho'.imp_left (List.mem_cons_of_mem _))⟩
    rw [pending_track, if_neg ho, he]
  release h := h.imp id fun ⟨ht, hno⟩ =>
    ⟨ht, fun o ho => hno o (ho.imp_left (List.mem_cons_of_mem _))⟩
  enqueue h := h.imp id fun ⟨ht, hno⟩ => ⟨ht, fun o ho => hno o (awaits_of_enqueue ho)⟩
  drain h := h.imp id fun ⟨ht, hno⟩ =>
    ⟨ht, fun o ho => hno o (Or.inr (ho.resolve_right List.not_mem_nil))⟩

/-- A new operation is taken in hand. -/
theorem hold (h : Watches op peers r q []) (ho : o.opId ∉ r.pending) :
    Watches op peers r q [.operation o] := by
  refine h.imp id fun ⟨⟨entry, he, hrest⟩, hno⟩ => ⟨⟨entry, he, hrest⟩, fun o' ho' => ?_⟩
  rcases ho' with ho' | ho'
  · obtain rfl := SyncMessage.operation.inj (List.mem_singleton.mp ho')
    intro hid
    exact ho (BTreeMap.mem_iff.mpr ⟨entry, hid ▸ he⟩)
  · exact hno o' (Or.inr ho')

theorem take (h : Watches op peers r q []) (hmsg : ∀ o, msg ≠ .operation o) :
    Watches op peers r q [msg] :=
  h.imp id fun ⟨ht, hno⟩ => ⟨ht, fun o ho =>
    hno o (ho.imp_left fun ho => absurd (List.mem_singleton.mp ho).symm (hmsg o))⟩

theorem onAcks (h : Watches op peers r q held) {as : List (OperationId × PeerId)}
    (has : op.opId ∉ r.ackedPeers → (∃ p, (op.opId, p) ∈ as) → ∀ p ∈ peers, (op.opId, p) ∈ as) :
    Watches op peers (r.onAcks as) q held := by
  rcases h with h | ⟨⟨entry, he, hrest⟩, hno⟩
  · exact Or.inl (h.onAcks as)
  · by_cases hkeep : op.opId ∈ r.ackedPeers ∨ ∀ p, (op.opId, p) ∉ as
    · refine Or.inr ⟨⟨entry, ?_, hrest⟩, hno⟩
      rw [ReliabilityManager.pending_onAcks hkeep, he]
    · simp only [not_or, not_forall, not_not] at hkeep
      obtain ⟨hnew, p, hp⟩ := hkeep
      obtain ⟨acked, ha, -⟩ := ReliabilityManager.mem_ackedPeers_onAcks (r := r) hp
      refine Or.inl (Or.inl ⟨acked, ha, fun p' hp' => ?_⟩)
      obtain ⟨acked', ha', hin⟩ :=
        ReliabilityManager.mem_ackedPeers_onAcks (r := r) (has hnew ⟨p, hp⟩ p' hp')
      obtain rfl := Option.some.inj (ha.symm.trans ha')
      exact hin

theorem due (h : Watches op peers r q held) (now : UInt64) :
    Watches op peers (r.dueForResend now).2 q held := by
  rcases h with h | ⟨⟨entry, he, hop, ha⟩, hno⟩
  · exact Or.inl (h.due now)
  · rcases retainEntry_cases r now entry with ⟨hd, hs, -⟩ | ⟨entry', hr, hop', ha'⟩
    · exact Or.inl (Or.inr ⟨entry, mem_givenUp_due.mpr (Or.inr ⟨_, he, hd, hs⟩), hop,
        le_resends_of_spent ha hs⟩)
    · refine Or.inr ⟨⟨entry', ?_, hop'.trans hop, ha' ha⟩, hno⟩
      rw [pending_due, he, Option.bind_some, hr]

theorem follows (h : Watches op peers r q held) : r.Follows op peers :=
  h.elim Or.inr fun ⟨⟨entry, he, hop, _⟩, _⟩ => Or.inl ⟨entry, he, hop⟩

end Watches

namespace SyncEngine

variable {σ : Type} {H : Host σ} {e : SyncEngine σ}

theorem resendDue_sending :
    (e.resendDue H).reliability = (e.reliability.dueForResend (e.nowMs H).1).2 ∧
      (e.resendDue H).offline = e.offline :=
  ⟨frame_foldl (g := (·.reliability)) (f := fun e op => (e.broadcast H (.operation op)).2)
      (fun _ _ => rfl) _ _,
    frame_foldl (g := (·.offline)) (f := fun e op => (e.broadcast H (.operation op)).2)
      (fun _ _ => rfl) _ _⟩

theorem watches_processMessages (h : Watches op peers e.reliability e.offline [])
    (hk : e.AckedByAll H op peers .processMessages) :
    Watches op peers (e.processMessages H).2.reliability (e.processMessages H).2.offline [] := by
  have hdetect := Watches.sending.detectPeerChanges (H := H) h
  have hacked : (e.detectPeerChanges H).reliability.ackedPeers = e.reliability.ackedPeers :=
    Sending.detectPeerChanges (J := fun r _ _ => r.ackedPeers = e.reliability.ackedPeers)
      ⟨fun h => h, fun h => h, fun h => h, fun h => h⟩ rfl
  have hloop : Watches op peers
      ((e.detectPeerChanges H).reliability.onAcks (e.acks H .processMessages))
      (e.detectPeerChanges H).offline [] := by
    rcases h with h | ⟨⟨entry, he, -⟩, -⟩
    · exact Or.inl ((ReliabilityManager.settles_sending.detectPeerChanges h).onAcks _)
    · refine hdetect.onAcks ?_
      rw [hacked]
      exact hk.2 (BTreeMap.mem_iff.mpr ⟨entry, he⟩)
  have hreceive := receiveLoop_sending (H := H)
    (n := (e.detectPeerChanges H).config.maxMessagesPerTick) (e := e.detectPeerChanges H)
  unfold processMessages
  dsimp only
  rw [resendDue_sending.1, resendDue_sending.2, hreceive.1, hreceive.2]
  exact hloop.due _

theorem watches_step (h : Watches op peers e.reliability e.offline []) {a : EngineEvent σ}
    (hk : e.AckedByAll H op peers a) :
    Watches op peers (e.step H a).reliability (e.step H a).offline [] := by
  cases a with
  | applyLocal operation =>
    rw [step]
    rcases ha : e.applyLocal H operation with _ | ⟨tagged, e'⟩
    · exact h
    · obtain ⟨⟨t, c⟩, h1, h2⟩ := Option.map_eq_some_iff.mp ha
      obtain ⟨inv, -, h3⟩ := Option.map_eq_some_iff.mp h1
      obtain rfl : e.crdt.tagNext operation = t := congrArg Prod.fst h3
      cases h2
      exact Watches.sending.dispatch (e := { e with crdt := c })
        (h.hold (hk.1 operation rfl operation).1)
  | processMessages => exact watches_processMessages h hk
  | handlePeerJoin peer => exact Watches.sending.handlePeerJoin peer h
  | flushOfflineQueue => exact Watches.sending.flushOfflineQueue h
  | requestSnapshot => exact Watches.sending.dispatch (h.take fun o ho => by cases ho)
  | crdtMut f => exact h
  | transportMut f => exact h

/-- An edit that is broadcast to the peers there are. -/
def trackEdit : TimelineOperation := .insertTrack ⟨1⟩ (.new "t") 0

/-- The engine that makes it. -/
def editingEngine : SyncEngine Bool := withConfig (.new ⟨1⟩) false .default

/-- Two peers, the first of which sends one message. -/
def twoPeers (msg : SyncMessage) : Host Bool :=
  { oneMessage msg with peers := fun _ => [⟨2⟩, ⟨3⟩] }

end SyncEngine

end AvSync
