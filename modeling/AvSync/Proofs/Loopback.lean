import AvSync.Loopback
import AvSync.Proofs.Calls
import AvSync.Proofs.Editing
import AvSync.Proofs.Inbound
import AvSync.Proofs.Tracking

/-!
# Nothing is lost on a loopback fabric

While one engine is at work, every operation of the net stays where each peer will find it: in the
peer's log, in its channel, in a queue, or in the hands of the engine (`Flow`). So no edit is lost
on its way (`run_reaches`), and when nothing is on its way all engines agree (`run_quiet_agree`).
-/

namespace AvSync

/-- What is still tracked after a pass for resends was tracked before. -/
theorem ReliabilityManager.pending_of_due {r : ReliabilityManager} {now : UInt64} {i : OperationId}
    {entry : PendingEntry} (h : (r.dueForResend now).2.pending[i]? = some entry) :
    ∃ entry', r.pending[i]? = some entry' ∧ entry.op = entry'.op := by
  rw [pending_due, Option.bind_eq_some_iff] at h
  obtain ⟨entry', he, hr⟩ := h
  rcases retainEntry_cases r now entry' with ⟨-, -, hn⟩ | ⟨entry'', hs, hop, -⟩
  · rw [hn] at hr
    cases hr
  · obtain rfl := Option.some.inj (hs.symm.trans hr)
    exact ⟨entry', he, hop⟩

/-- What stands still while the engine of `peer` is at work: the links, the operations there are,
the logs and the queues of the others, the timeline it started with and its configuration. -/
structure Scene where
  peer : PeerId
  ids : List PeerId
  fail : PeerId → Bool
  known : Set TaggedOperation
  log : PeerId → List TaggedOperation
  away : TaggedOperation → Prop
  start : TimelineCrdt
  config : EngineConfig

namespace Scene

variable {S : Scene} {e : SyncEngine Fabric} {held : List SyncMessage} {due : List TaggedOperation}
  {msg : SyncMessage}

/-- The engine holds `o` in its offline queue or in hand, or has dropped it from the queue. -/
def InHand (e : SyncEngine Fabric) (held : List SyncMessage) (o : TaggedOperation) : Prop :=
  ∃ msg, (msg ∈ e.offline.queue ∨ msg ∈ e.offline.evicted ∨ msg ∈ held) ∧ o ∈ msg.contents

/-- The engine at work has the messages `held` in hand to send, and the operations `due` to
apply. -/
structure Flow (S : Scene) (held : List SyncMessage) (due : List TaggedOperation)
    (e : SyncEngine Fabric) : Prop where
  ids_eq : e.transport.ids = S.ids
  fail_eq : e.transport.failSends = S.fail
  config_eq : e.config = S.config
  resends_eq : e.reliability.maxResends = S.config.maxResends
  queueing : S.config.offlineQueue = true
  channels : ∀ q, ∀ m ∈ e.transport.inbox q, ∀ o ∈ m.2.contents, o ∈ S.known
  queued : ∀ msg, msg ∈ e.offline.queue ∨ msg ∈ held → ∀ o ∈ msg.contents,
    o ∈ e.crdt.operationLog
  tracked : ∀ (i : OperationId) (entry : PendingEntry),
    e.reliability.pending[i]? = some entry → entry.op ∈ S.known
  logged : ∀ o ∈ e.crdt.operationLog, o ∈ S.known
  seen : ∀ i ∈ e.crdt.seen, ∃ o ∈ e.crdt.operationLog, o.opId = i
  due_known : ∀ o ∈ due, o ∈ S.known
  grown : ∃ l, (∀ o ∈ l, o ∈ S.known) ∧ e.crdt = S.start.deliver l
  reaches : ∀ o ∈ S.known, ∀ q ∈ S.ids,
    o ∈ Function.update S.log S.peer e.crdt.operationLog q ∨
      (∃ m ∈ e.transport.inbox q, o ∈ m.2.contents) ∨ (q = S.peer ∧ o ∈ due) ∨
        InHand e held o ∨ S.away o

theorem mem_others {f : Fabric} {p q : PeerId} : q ∈ f.others p ↔ q ∈ f.ids ∧ q ≠ p := by
  simp [Fabric.others]

theorem mem_inbox_deliver {f : Fabric} {p q : PeerId} {m : PeerId × SyncMessage} :
    m ∈ (f.deliver p msg).inbox q ↔ m ∈ f.inbox q ∨ (q ∈ f.ids ∧ q ≠ p) ∧ m = (p, msg) := by
  simp only [Fabric.deliver]
  split_ifs with h
  · simp [mem_others.mp h]
  · exact ⟨Or.inl, fun hm => hm.elim id fun hm => absurd (mem_others.mpr hm.1) h⟩

namespace Flow

/-! ## Sending -/

/-- A message about what is logged may be taken in hand. -/
theorem take (h : S.Flow held due e) (hmsg : ∀ o ∈ msg.contents, o ∈ e.crdt.operationLog) :
    S.Flow (msg :: held) due e where
  __ := h
  queued m hm o ho := by
    rcases hm with hm | hm
    · exact h.queued m (Or.inl hm) o ho
    · rcases List.mem_cons.mp hm with rfl | hm
      · exact hmsg o ho
      · exact h.queued m (Or.inr hm) o ho
  reaches o ho q hq := by
    refine (h.reaches o ho q hq).imp_right (Or.imp_right (Or.imp_right (Or.imp_left ?_)))
    rintro ⟨m, hm, hmo⟩
    exact ⟨m, hm.imp_right (Or.imp_right (List.mem_cons_of_mem _)), hmo⟩

/-- A message about operations there are may be sent. -/
theorem send (h : S.Flow held due e) (hmsg : ∀ o ∈ msg.contents, o ∈ S.known) :
    S.Flow held due { e with transport := e.transport.deliver S.peer msg } where
  __ := h
  channels q m hm o ho := by
    rcases mem_inbox_deliver.mp hm with hm | ⟨-, rfl⟩
    · exact h.channels q m hm o ho
    · exact hmsg o ho
  reaches o ho q hq := by
    refine (h.reaches o ho q hq).imp_right (Or.imp_left ?_)
    rintro ⟨m, hm, hmo⟩
    exact ⟨m, mem_inbox_deliver.mpr (Or.inl hm), hmo⟩

/-- A message in hand may be let go if its operations are where each peer will find them. -/
theorem release (h : S.Flow (msg :: held) due e)
    (hmsg : ∀ o ∈ msg.contents, ∀ q ∈ S.ids, q ≠ S.peer →
      (∃ m ∈ e.transport.inbox q, o ∈ m.2.contents) ∨ InHand e held o) :
    S.Flow held due e where
  __ := h
  queued m hm := h.queued m (hm.imp_right (List.mem_cons_of_mem _))
  reaches o ho q hq := by
    rcases h.reaches o ho q hq with h1 | h1 | h1 | ⟨m, hm, hmo⟩ | h1
    · exact Or.inl h1
    · exact Or.inr (Or.inl h1)
    · exact Or.inr (Or.inr (Or.inl h1))
    · rcases hm with hm | hm | hm
      · exact Or.inr (Or.inr (Or.inr (Or.inl ⟨m, Or.inl hm, hmo⟩)))
      · exact Or.inr (Or.inr (Or.inr (Or.inl ⟨m, Or.inr (Or.inl hm), hmo⟩)))
      · rcases List.mem_cons.mp hm with rfl | hm
        · by_cases hqp : q = S.peer
          · subst hqp
            rw [Function.update_self]
            exact Or.inl (h.queued m (Or.inr List.mem_cons_self) o hmo)
          · rcases hmsg o hmo q hq hqp with h1 | h1
            · exact Or.inr (Or.inl h1)
            · exact Or.inr (Or.inr (Or.inr (Or.inl h1)))
        · exact Or.inr (Or.inr (Or.inr (Or.inl ⟨m, Or.inr (Or.inr hm), hmo⟩)))
    · exact Or.inr (Or.inr (Or.inr (Or.inr h1)))

/-- A message in hand is sent. -/
theorem sent (h : S.Flow (msg :: held) due e) :
    S.Flow held due { e with transport := e.transport.deliver S.peer msg } := by
  have hk : ∀ o ∈ msg.contents, o ∈ S.known := fun o ho =>
    h.logged o (h.queued msg (Or.inr List.mem_cons_self) o ho)
  refine (h.send hk).release fun o ho q hq hqp => Or.inl ⟨(S.peer, msg), ?_, ho⟩
  exact mem_inbox_deliver.mpr (Or.inr ⟨⟨h.ids_eq ▸ hq, hqp⟩, rfl⟩)

theorem trackSent (h : S.Flow held due e) (hmsg : ∀ o ∈ msg.contents, o ∈ S.known) :
    S.Flow held due (e.trackSent (Fabric.host S.peer) msg) := by
  cases msg with
  | operation op =>
    refine { h with tracked := fun i entry hi => ?_ }
    change (e.reliability.pending.insert op.opId _)[i]? = some entry at hi
    rw [BTreeMap.getElem?_insert_if] at hi
    split_ifs at hi
    · obtain rfl := Option.some.inj hi
      exact hmsg op (List.mem_singleton.mpr rfl)
    · exact h.tracked i entry hi
  | _ => exact h

theorem enqueue (h : S.Flow (msg :: held) due e) :
    S.Flow held due { e with offline := e.offline.enqueue msg } := by
  have hqueue : ∀ {m}, m ∈ e.offline.queue ∨ m = msg →
      m ∈ (e.offline.enqueue msg).queue ∨ m ∈ (e.offline.enqueue msg).evicted := by
    intro m hm
    unfold OfflineQueue.enqueue
    rcases hq : e.offline.queue with _ | ⟨a, t⟩ <;> rw [hq] at hm <;> split_ifs <;>
      simp only [List.mem_append, List.mem_cons, List.not_mem_nil, List.tail_nil, List.tail_cons,
        List.head?_cons, Option.toList_some, false_or, or_false] at hm ⊢ <;> tauto
  have hevicted : ∀ {m}, m ∈ e.offline.evicted → m ∈ (e.offline.enqueue msg).evicted := by
    intro m hm
    unfold OfflineQueue.enqueue
    split_ifs
    · exact List.mem_append_left _ hm
    · exact hm
  refine { h with queued := fun m hm => ?_, reaches := fun o ho q hq => ?_ }
  · have hold : m ∈ e.offline.queue ∨ m ∈ msg :: held := by
      rcases hm with hm | hm
      · simp only [OfflineQueue.enqueue] at hm
        split_ifs at hm <;> rcases List.mem_append.mp hm with hm | hm
        · exact Or.inl (List.mem_of_mem_tail hm)
        · exact Or.inr (List.mem_singleton.mp hm ▸ List.mem_cons_self)
        · exact Or.inl hm
        · exact Or.inr (List.mem_singleton.mp hm ▸ List.mem_cons_self)
      · exact Or.inr (List.mem_cons_of_mem _ hm)
    exact h.queued m hold
  · refine (h.reaches o ho q hq).imp_right (Or.imp_right (Or.imp_right (Or.imp_left ?_)))
    rintro ⟨m, hm | hm | hm, hmo⟩
    · exact ⟨m, (hqueue (Or.inl hm)).imp_right Or.inl, hmo⟩
    · exact ⟨m, Or.inr (Or.inl (hevicted hm)), hmo⟩
    · rcases List.mem_cons.mp hm with rfl | hm
      · exact ⟨m, (hqueue (Or.inr rfl)).imp_right Or.inl, hmo⟩
      · exact ⟨m, Or.inr (Or.inr hm), hmo⟩

theorem dispatch (h : S.Flow (msg :: held) due e) :
    S.Flow held due (e.dispatch (Fabric.host S.peer) msg) := by
  have hk : ∀ o ∈ msg.contents, o ∈ S.known := fun o ho =>
    h.logged o (h.queued msg (Or.inr List.mem_cons_self) o ho)
  unfold SyncEngine.dispatch SyncEngine.broadcast
  by_cases hf : e.transport.failSends S.peer || (e.transport.others S.peer).isEmpty
  · have hq : e.config.offlineQueue = true := by rw [h.config_eq, h.queueing]
    simp only [Fabric.host, hf, if_true, hq]
    exact h.enqueue
  · simp only [Fabric.host, hf, if_false, Bool.false_eq_true]
    exact h.sent.trackSent hk

/-- While the link is up, a message of the queue is sent, unless there is nobody to send it to. -/
theorem flushMessage (h : S.Flow (msg :: held) due e) (hup : S.fail S.peer = false) :
    S.Flow held due (e.flushMessage (Fabric.host S.peer) msg) := by
  have hk : ∀ o ∈ msg.contents, o ∈ S.known := fun o ho =>
    h.logged o (h.queued msg (Or.inr List.mem_cons_self) o ho)
  unfold SyncEngine.flushMessage SyncEngine.broadcast
  rcases ho : e.transport.others S.peer with _ | ⟨q, rest⟩
  · simp only [Fabric.host, ho, List.isEmpty_nil, Bool.or_true, if_true]
    refine h.release fun o _ q hq hqp => ?_
    have : q ∈ e.transport.others S.peer := mem_others.mpr ⟨h.ids_eq ▸ hq, hqp⟩
    rw [ho] at this
    exact absurd this List.not_mem_nil
  · simp only [Fabric.host, h.fail_eq, hup, ho, List.isEmpty_cons, Bool.or_self, if_false,
      Bool.false_eq_true]
    exact h.sent.trackSent hk

theorem flush (hup : S.fail S.peer = false) :
    ∀ {m : List SyncMessage} {e : SyncEngine Fabric}, S.Flow m due e →
      S.Flow [] due (m.foldl (fun e msg => e.flushMessage (Fabric.host S.peer) msg) e)
  | [], _, h => h
  | _ :: m, _, h => flush hup (m := m) (h.flushMessage hup)

theorem drain (h : S.Flow [] due e) :
    S.Flow e.offline.queue due { e with offline := e.offline.drain.2 } where
  __ := h
  queued m hm := h.queued m (Or.inl (hm.resolve_left List.not_mem_nil))
  reaches o ho q hq := by
    refine (h.reaches o ho q hq).imp_right (Or.imp_right (Or.imp_right (Or.imp_left ?_)))
    rintro ⟨m, hm | hm | hm, hmo⟩
    · exact ⟨m, Or.inr (Or.inr hm), hmo⟩
    · exact ⟨m, Or.inr (Or.inl hm), hmo⟩
    · exact absurd hm List.not_mem_nil

theorem flushOfflineQueue (h : S.Flow [] due e) (hup : S.fail S.peer = false) :
    S.Flow [] due (e.flushOfflineQueue (Fabric.host S.peer)) :=
  flush hup h.drain

theorem sendTo {m : SyncMessage} (h : S.Flow held due e) (hm : ∀ o ∈ m.contents, o ∈ S.known)
    (q : PeerId) : S.Flow held due (e.sendTo (Fabric.host S.peer) q m).2 := by
  unfold SyncEngine.sendTo
  by_cases hf : e.transport.failSends S.peer
  · simp only [Fabric.host, hf, if_true]
    exact h
  · simp only [Fabric.host, hf, if_false, Bool.false_eq_true]
    exact h.send hm

/-! ## Peers -/

theorem pushEvent (h : S.Flow held due e) (event : SyncEvent) :
    S.Flow held due (e.pushEvent event) := { h with }

theorem handlePeerJoin (h : S.Flow [] due e) (q : PeerId) :
    S.Flow [] due (e.handlePeerJoin (Fabric.host S.peer) q).2 := by
  have hs := h.sendTo (m := .snapshot e.crdt.snapshot) h.logged q
  unfold SyncEngine.handlePeerJoin
  unfold SyncEngine.sendTo at hs ⊢
  by_cases hf : e.transport.failSends S.peer
  · simp only [Fabric.host, hf, if_true]
    exact h
  · have hup : S.fail S.peer = false := by rw [← h.fail_eq]; simpa using hf
    simp only [Fabric.host, hf, if_false, Bool.false_eq_true] at hs ⊢
    exact hs.flushOfflineQueue hup

theorem noticePeer (h : S.Flow [] due e) (q : PeerId) :
    S.Flow [] due (e.noticePeer (Fabric.host S.peer) q) := by
  unfold SyncEngine.noticePeer
  split_ifs
  · exact h
  · exact (h.pushEvent _).handlePeerJoin q

theorem detectPeerChanges (h : S.Flow [] due e) :
    S.Flow [] due (e.detectPeerChanges (Fabric.host S.peer)) := by
  have hjoined := List.foldlRecOn ((Fabric.host S.peer).peers e.transport)
    (SyncEngine.noticePeer (Fabric.host S.peer)) h fun e he q _ => he.noticePeer q
  exact { List.foldlRecOn _ _ hjoined fun e he q _ => he.pushEvent (.peerLeft q) with }

/-! ## Receiving -/

variable (hid : ∀ a ∈ S.known, ∀ b ∈ S.known, a.opId = b.opId → a = b)
  (hvalid : ∀ o ∈ S.known, o.Valid)

include hid

/-- An operation that is due is applied, or known already. -/
theorem applyRemote {o : TaggedOperation} (h : S.Flow held (o :: due) e) :
    S.Flow held due { e with crdt := e.crdt.applyRemote o } := by
  have hok : o ∈ S.known := h.due_known o List.mem_cons_self
  obtain ⟨l, hl, hgrown⟩ := h.grown
  have hgrown' : ∃ l, (∀ o ∈ l, o ∈ S.known) ∧ e.crdt.applyRemote o = S.start.deliver l := by
    refine ⟨l ++ [o], fun b hb => ?_, ?_⟩
    · rcases List.mem_append.mp hb with hb | hb
      · exact hl b hb
      · exact List.mem_singleton.mp hb ▸ hok
    · rw [hgrown, TimelineCrdt.deliver, TimelineCrdt.deliver, List.foldl_append]
      rfl
  -- the log afterwards: what was there, and the operation
  have hlog : ∀ b, b ∈ (e.crdt.applyRemote o).operationLog ↔
      b ∈ e.crdt.operationLog ∨ b = o := by
    intro b
    by_cases hs : o.opId ∈ e.crdt.seen
    · rw [TimelineCrdt.applyRemote_of_mem hs]
      obtain ⟨a, ha, hao⟩ := h.seen _ hs
      obtain rfl := hid a (h.logged a ha) o hok hao
      exact ⟨Or.inl, fun hb => hb.elim id fun hb => hb ▸ ha⟩
    · obtain ⟨att, p, ev, heq, -⟩ := TimelineCrdt.applyRemote_eq hs
      rw [heq, List.mem_append, List.mem_singleton]
  have hseen : ∀ i ∈ (e.crdt.applyRemote o).seen, i ∈ e.crdt.seen ∨ i = o.opId := by
    intro i hi
    by_cases hs : o.opId ∈ e.crdt.seen
    · rw [TimelineCrdt.applyRemote_of_mem hs] at hi
      exact Or.inl hi
    · obtain ⟨att, p, ev, heq, -⟩ := TimelineCrdt.applyRemote_eq hs
      rw [heq] at hi
      exact (Finset.mem_insert.mp hi).symm
  refine { h with
    queued := fun m hm b hb => (hlog b).mpr (Or.inl (h.queued m hm b hb))
    logged := fun b hb => ((hlog b).mp hb).elim (h.logged b) fun hb => hb ▸ hok
    seen := fun i hi => ?_
    due_known := fun b hb => h.due_known b (List.mem_cons_of_mem _ hb)
    grown := hgrown'
    reaches := fun b hb q hq => ?_ }
  · rcases hseen i hi with hi | rfl
    · obtain ⟨b, hb, hbi⟩ := h.seen i hi
      exact ⟨b, (hlog b).mpr (Or.inl hb), hbi⟩
    · exact ⟨o, (hlog o).mpr (Or.inr rfl), rfl⟩
  · by_cases hqp : q = S.peer
    · subst hqp
      simp only [Function.update_self, hlog]
      rcases h.reaches b hb S.peer hq with h1 | h1 | ⟨-, h1⟩ | h1
      · rw [Function.update_self] at h1
        exact Or.inl (Or.inl h1)
      · exact Or.inr (Or.inl h1)
      · rcases List.mem_cons.mp h1 with rfl | h1
        · exact Or.inl (Or.inr rfl)
        · exact Or.inr (Or.inr (Or.inl ⟨trivial, h1⟩))
      · exact Or.inr (Or.inr (Or.inr h1))
    · have h1 := h.reaches b hb q hq
      simp only [Function.update_of_ne hqp, hqp, false_and, false_or] at h1 ⊢
      exact h1

theorem deliver :
    ∀ {l : List TaggedOperation} {e : SyncEngine Fabric}, S.Flow held (l ++ due) e →
      S.Flow held due { e with crdt := e.crdt.deliver l }
  | [], _, h => h
  | _ :: l, _, h => deliver (l := l) (h.applyRemote hid)

include hvalid

theorem handleOperation {o : TaggedOperation} (h : S.Flow held (o :: due) e) (q : PeerId) :
    S.Flow held due (e.handleOperation (Fabric.host S.peer) q o) := by
  have hv : o.operation.validate = .ok () := hvalid o (h.due_known o List.mem_cons_self)
  unfold SyncEngine.handleOperation
  simp only [hv]
  exact ((h.applyRemote hid).sendTo (fun b hb => absurd hb List.not_mem_nil) q).pushEvent _

theorem handleBatch (q : PeerId) :
    ∀ {l : List TaggedOperation} {e : SyncEngine Fabric}, S.Flow held (l ++ due) e →
      S.Flow held due (l.foldl (fun e o => e.handleOperation (Fabric.host S.peer) q o) e)
  | [], _, h => h
  | _ :: l, _, h => handleBatch q (l := l) (h.handleOperation hid hvalid q)

theorem handleMessage (h : S.Flow [] msg.contents e) (q : PeerId) :
    S.Flow [] [] (e.handleMessage (Fabric.host S.peer) q msg) := by
  cases msg with
  | operation op => exact h.handleOperation hid hvalid q
  | batch ops => exact handleBatch hid hvalid q (l := ops) (by rwa [List.append_nil])
  | ack i =>
    refine { h with
      resends_eq := (ReliabilityManager.onAck_rest e.reliability i q).2.1.trans h.resends_eq
      tracked := fun j entry hj => h.tracked j entry ?_ }
    change (e.reliability.onAck i q).2.pending[j]? = some entry at hj
    rw [ReliabilityManager.pending_onAck] at hj
    split_ifs at hj
    exact hj
  | requestSnapshot => exact h.sendTo (m := .snapshot e.crdt.snapshot) h.logged q
  | snapshot s =>
    have hmem : ∀ {o}, o ∈ TimelineCrdt.sortByRank s.ops ↔ o ∈ s.ops :=
      (List.perm_insertionSort _ _).mem_iff
    refine pushEvent (deliver hid (l := TimelineCrdt.sortByRank s.ops) ?_) _
    rw [List.append_nil]
    exact { h with
      due_known := fun o ho => h.due_known o (hmem.mp ho)
      reaches := fun o ho p hp => (h.reaches o ho p hp).imp_right
        (Or.imp_right (Or.imp_left (And.imp_right hmem.mpr))) }
  | playheadUpdate _ | transportControl _ | presenceUpdate _ | clockSync _ => exact h.pushEvent _

theorem receiveLoop :
    ∀ {n : ℕ} {e : SyncEngine Fabric}, S.Flow [] [] e →
      S.Flow [] [] (SyncEngine.receiveLoop (Fabric.host S.peer) n e).2
  | 0, _, h => h
  | n + 1, e, h => by
    unfold SyncEngine.receiveLoop
    rcases hi : e.transport.inbox S.peer with _ | ⟨⟨q, msg⟩, rest⟩
    · simp only [Fabric.host, hi]
      exact h
    · simp only [Fabric.host, hi]
      have hmem : ∀ {r m}, m ∈ Function.update e.transport.inbox S.peer rest r →
          m ∈ e.transport.inbox r := by
        intro r m hm
        by_cases hr : r = S.peer
        · subst hr
          rw [Function.update_self] at hm
          exact hi ▸ List.mem_cons_of_mem _ hm
        · rwa [Function.update_of_ne hr] at hm
      refine receiveLoop (handleMessage hid hvalid ?_ q)
      exact { h with
        channels := fun r m hm => h.channels r m (hmem hm)
        due_known := h.channels S.peer (q, msg) (hi ▸ List.mem_cons_self)
        reaches := fun o ho r hr => by
          rcases h.reaches o ho r hr with h1 | ⟨m, hm, hmo⟩ | ⟨-, h1⟩ | h1
          · exact Or.inl h1
          · by_cases hrp : r = S.peer
            · subst hrp
              rw [hi] at hm
              rcases List.mem_cons.mp hm with rfl | hm
              · exact Or.inr (Or.inr (Or.inl ⟨rfl, hmo⟩))
              · refine Or.inr (Or.inl ⟨m, ?_, hmo⟩)
                simpa only [Function.update_self] using hm
            · refine Or.inr (Or.inl ⟨m, ?_, hmo⟩)
              simpa only [Function.update_of_ne hrp] using hm
          · exact absurd h1 List.not_mem_nil
          · exact Or.inr (Or.inr (Or.inr h1)) }

omit hid hvalid

theorem broadcast (h : S.Flow held due e) (hmsg : ∀ o ∈ msg.contents, o ∈ S.known) :
    S.Flow held due (e.broadcast (Fabric.host S.peer) msg).2 := by
  unfold SyncEngine.broadcast
  by_cases hf : e.transport.failSends S.peer || (e.transport.others S.peer).isEmpty
  · simp only [Fabric.host, hf, if_true]
    exact h
  · simp only [Fabric.host, hf, if_false, Bool.false_eq_true]
    exact h.send hmsg

/-- What is resent is tracked, and tracked on. -/
theorem resendDue (h : S.Flow held due e) :
    S.Flow held due (e.resendDue (Fabric.host S.peer)) := by
  have hdue : ∀ o ∈ (e.reliability.dueForResend (e.transport.clock 0)).1, o ∈ S.known := by
    intro o ho
    obtain ⟨i, entry, hi, -, -, rfl⟩ := ReliabilityManager.mem_due.mp ho
    exact h.tracked i entry hi
  have hstart : S.Flow held due { (e.nowMs (Fabric.host S.peer)).2 with
      reliability := (e.reliability.dueForResend (e.transport.clock 0)).2 } := by
    refine { h with tracked := fun i entry hi => ?_ }
    obtain ⟨entry', he, hop⟩ := ReliabilityManager.pending_of_due hi
    exact hop ▸ h.tracked i entry' he
  exact List.foldlRecOn _ _ hstart fun e he o ho =>
    he.broadcast fun b hb => List.mem_singleton.mp hb ▸ hdue o ho

theorem requestSnapshot (h : S.Flow [] due e) :
    S.Flow [] due (e.requestSnapshot (Fabric.host S.peer)) :=
  (take h fun _ ho => absurd ho List.not_mem_nil).dispatch

theorem processMessages (hid : ∀ a ∈ S.known, ∀ b ∈ S.known, a.opId = b.opId → a = b)
    (hvalid : ∀ o ∈ S.known, o.Valid) (h : S.Flow [] [] e) :
    S.Flow [] [] (e.processMessages (Fabric.host S.peer)).2 :=
  (receiveLoop hid hvalid h.detectPeerChanges).resendDue

end Flow

end Scene

/-- What a local edit returns and logs. -/
theorem TimelineCrdt.applyLocal_eq {c c' : TimelineCrdt} {operation : TimelineOperation}
    {op : TaggedOperation} (h : c.applyLocal operation = some (op, c')) :
    op.operation = operation ∧ op.peerId = c.localPeerId ∧ c'.localPeerId = c.localPeerId ∧
      c'.operationLog = c.operationLog ++ [op] := by
  obtain ⟨inv, -, hstamp⟩ := Option.map_eq_some_iff.mp h
  obtain rfl : c.tagNext operation = op := congrArg Prod.fst hstamp
  obtain rfl : (c.stamp operation inv).2 = c' := congrArg Prod.snd hstamp
  obtain ⟨s, pend, hist, hc'⟩ := stamp_eq c operation inv
  exact ⟨rfl, rfl, by rw [hc'], stamp_log⟩

theorem SyncEngine.crdt_dispatch {σ : Type} {H : Host σ} {e : SyncEngine σ} {msg : SyncMessage} :
    (e.dispatch H msg).crdt = e.crdt := by
  unfold dispatch broadcast
  rcases H.broadcast msg e.transport with ⟨err | _, t⟩
  · dsimp only
    split_ifs <;> rfl
  · cases msg <;> rfl

namespace Net

theorem run_deliveries {N : Net} {p : PeerId} :
    ∀ {l : List TaggedOperation}, (∀ o ∈ l, o ∈ N.history.created) →
      machine.Valid N (l.map (.deliver p)) ∧ machine.Along EditsOwn N (l.map (.deliver p)) ∧
        (machine.run N (l.map (.deliver p))).replica =
          Function.update N.replica p ((N.replica p).deliver l) ∧
        (machine.run N (l.map (.deliver p))).history.created = N.history.created
  | [], _ => ⟨trivial, trivial, (Function.update_eq_self p N.replica).symm, rfl⟩
  | o :: l, h => by
    obtain ⟨h1, h2, h3, h4⟩ := run_deliveries (N := N.step (.deliver p o)) (p := p) (l := l)
      fun b hb => h b (List.mem_cons_of_mem o hb)
    refine ⟨⟨h o List.mem_cons_self, h1⟩, ⟨trivial, h2⟩, h3.trans ?_, h4⟩
    simp only [Net.step, Function.update_self, Function.update_idem]
    rfl

end Net

namespace Collaboration

open Scene (InHand Flow)

variable {C : Collaboration} {N : Net} {p : PeerId}

/-- A call of `p` is about to be made, where the operations `known` have been created and the
timeline of `p` is `start`. -/
def scene (C : Collaboration) (known : Set TaggedOperation) (start : TimelineCrdt) (p : PeerId) :
    Scene where
  peer := p
  ids := C.fabric.ids
  fail := C.fabric.failSends
  known := known
  log q := (C.engines q).crdt.operationLog
  away o := ∃ r ∈ C.fabric.ids, r ≠ p ∧ Queues (C.engines r) o
  start := start
  config := (C.engines p).config

/-- A collaboration beside the net of its timelines. -/
structure Sound (C : Collaboration) (N : Net) : Prop where
  logged : N.Logged
  crdt_eq : ∀ p, (C.engines p).crdt = N.replica p
  valid : ∀ o ∈ N.history.created, o.Valid
  owned : ∀ o ∈ N.history.created, ∃ p ∈ C.fabric.ids, o ∈ (C.engines p).crdt.operationLog
  resends_eq : ∀ p, (C.engines p).reliability.maxResends = (C.engines p).config.maxResends
  queueing : ∀ p, (C.engines p).config.offlineQueue = true
  channels : ∀ q, ∀ m ∈ C.fabric.inbox q, ∀ o ∈ m.2.contents, o ∈ N.history.created
  queued : ∀ p, ∀ msg ∈ (C.engines p).offline.queue, ∀ o ∈ msg.contents,
    o ∈ (C.engines p).crdt.operationLog
  tracked : ∀ (p : PeerId) (i : OperationId) (entry : PendingEntry),
    (C.engines p).reliability.pending[i]? = some entry → entry.op ∈ N.history.created
  reaches : ∀ o ∈ N.history.created, ∀ q ∈ C.fabric.ids, C.Reaches q o

/-- `C'` comes from `C` as the net goes on from `N`, with edits of its own if those of `C` are such;
its ends and their configurations are the same. -/
def Goes (C : Collaboration) (N : Net) (own : Prop) (C' : Collaboration) : Prop :=
  C'.fabric.ids = C.fabric.ids ∧ (∀ p, (C'.engines p).config = (C.engines p).config) ∧
    ∃ events, Net.machine.Valid N events ∧ (own → Net.machine.Along Net.EditsOwn N events) ∧
      C'.Sound (Net.machine.run N events)

namespace Sound

theorem new (f : Fabric) (config : PeerId → EngineConfig) (hf : ∀ q, f.inbox q = [])
    (hconfig : ∀ p, (config p).offlineQueue = true) : (Collaboration.new f config).Sound .new where
  logged := .new
  crdt_eq _ := rfl
  valid _ h := h.elim
  owned _ h := h.elim
  resends_eq _ := rfl
  queueing := hconfig
  channels q m hm := by
    simp only [Collaboration.new, hf, List.not_mem_nil] at hm
  queued _ _ hm := absurd hm List.not_mem_nil
  tracked p i entry h := by
    simp [Collaboration.new, SyncEngine.withConfig, ReliabilityManager.new] at h
  reaches _ h := h.elim

/-- What holds while `p` makes a call. -/
theorem flow (h : C.Sound N) (p : PeerId) :
    (C.scene N.history.created (C.engines p).crdt p).Flow [] [] (C.engine p) where
  ids_eq := rfl
  fail_eq := rfl
  config_eq := rfl
  resends_eq := h.resends_eq p
  queueing := h.queueing p
  channels := h.channels
  queued m hm := h.queued p m (hm.resolve_right List.not_mem_nil)
  tracked := h.tracked p
  logged o ho := h.logged.log_created (p := p) (h.crdt_eq p ▸ ho)
  seen i hi := by
    have hi : i ∈ (C.engines p).crdt.seen := hi
    rw [h.crdt_eq p, h.logged.mem_seen] at hi
    rwa [← h.crdt_eq p] at hi
  due_known _ ho := absurd ho List.not_mem_nil
  grown := ⟨[], fun _ ho => absurd ho List.not_mem_nil, rfl⟩
  reaches o ho q hq := by
    have hlog : Function.update (fun q => (C.engines q).crdt.operationLog) p
        (C.engine p).crdt.operationLog q = (C.engines q).crdt.operationLog :=
      congrFun (Function.update_eq_self p fun q => (C.engines q).crdt.operationLog) q
    rcases h.reaches o ho q hq with h1 | h1 | ⟨r, hr, h1⟩
    · exact Or.inl (hlog ▸ h1)
    · exact Or.inr (Or.inl h1)
    · by_cases hrp : r = p
      · obtain ⟨m, hm, hmo⟩ := hrp ▸ h1
        exact Or.inr (Or.inr (Or.inr (Or.inl ⟨m, hm.imp_right Or.inl, hmo⟩)))
      · exact Or.inr (Or.inr (Or.inr (Or.inr ⟨r, hr, hrp, h1⟩)))

/-- What holds when the call has been made. -/
theorem of_flow {N' : Net} {c : TimelineCrdt} {e : SyncEngine Fabric} (h : C.Sound N)
    (hp : p ∈ C.fabric.ids) (hf : (C.scene N'.history.created c p).Flow [] [] e)
    (hN : N'.Logged) (hrep : N'.replica = Function.update N.replica p e.crdt)
    (hsub : ∀ o ∈ N.history.created, o ∈ N'.history.created)
    (hnew : ∀ o ∈ N'.history.created, o ∈ N.history.created ∨
      o.Valid ∧ o ∈ e.crdt.operationLog)
    (hlog : ∀ o ∈ (C.engines p).crdt.operationLog, o ∈ e.crdt.operationLog) :
    Sound ⟨e.transport, Function.update C.engines p e⟩ N' where
  logged := hN
  crdt_eq q := by
    by_cases hq : q = p
    · simp only [hq, hrep, Function.update_self]
    · simp only [hrep, Function.update_of_ne hq, h.crdt_eq]
  valid o ho := (hnew o ho).elim (h.valid o) And.left
  owned o ho := by
    rcases hnew o ho with ho | ⟨-, ho⟩
    · obtain ⟨q, hq, hqo⟩ := h.owned o ho
      refine ⟨q, hf.ids_eq.symm ▸ hq, ?_⟩
      by_cases hqp : q = p
      · subst hqp
        simpa only [Function.update_self] using hlog o hqo
      · simpa only [Function.update_of_ne hqp] using hqo
    · exact ⟨p, hf.ids_eq.symm ▸ hp, by simpa only [Function.update_self] using ho⟩
  resends_eq q := by
    by_cases hq : q = p
    · simpa only [hq, Function.update_self, hf.config_eq] using hf.resends_eq
    · simpa only [Function.update_of_ne hq] using h.resends_eq q
  queueing q := by
    by_cases hq : q = p
    · simpa only [hq, Function.update_self, hf.config_eq] using hf.queueing
    · simpa only [Function.update_of_ne hq] using h.queueing q
  channels := hf.channels
  queued q := by
    by_cases hq : q = p
    · simpa only [hq, Function.update_self] using fun m hm => hf.queued m (Or.inl hm)
    · simpa only [Function.update_of_ne hq] using h.queued q
  tracked q i entry hi := by
    by_cases hq : q = p
    · simp only [hq, Function.update_self] at hi
      exact hf.tracked i entry hi
    · simp only [Function.update_of_ne hq] at hi
      exact hsub _ (h.tracked q i entry hi)
  reaches o ho q hq := by
    have hids : e.transport.ids = C.fabric.ids := hf.ids_eq
    have hq' : q ∈ C.fabric.ids := hids ▸ hq
    rcases hf.reaches o ho q hq' with h1 | h1 | ⟨-, h1⟩ | ⟨m, hm, hmo⟩ | ⟨r, hr, hrp, h1⟩
    · refine Or.inl ?_
      by_cases hqp : q = p
      · subst hqp
        simpa only [Function.update_self, scene] using h1
      · simpa only [Function.update_of_ne hqp, scene] using h1
    · exact Or.inr (Or.inl h1)
    · exact absurd h1 List.not_mem_nil
    · refine Or.inr (Or.inr ⟨p, hf.ids_eq.symm ▸ hp, m, ?_, hmo⟩)
      simpa only [Function.update_self, List.not_mem_nil, or_false] using hm
    · refine Or.inr (Or.inr ⟨r, hf.ids_eq.symm ▸ hr, ?_⟩)
      simpa only [Function.update_of_ne hrp] using h1

theorem config_update {known : Set TaggedOperation} {start : TimelineCrdt}
    {e : SyncEngine Fabric} (hf : (C.scene known start p).Flow [] [] e) (q : PeerId) :
    (Function.update C.engines p e q).config = (C.engines q).config := by
  by_cases hq : q = p
  · subst hq
    rw [Function.update_self]
    exact hf.config_eq
  · rw [Function.update_of_ne hq]

/-- A call that only takes in operations is a list of deliveries. -/
theorem of_deliveries {e : SyncEngine Fabric} (h : C.Sound N) (hp : p ∈ C.fabric.ids)
    (hf : (C.scene N.history.created (C.engines p).crdt p).Flow [] [] e) :
    C.Goes N own ⟨e.transport, Function.update C.engines p e⟩ := by
  obtain ⟨l, hl, hcrdt⟩ := hf.grown
  have hl : ∀ o ∈ l, o ∈ N.history.created := hl
  have hcrdt : e.crdt = (N.replica p).deliver l := by rw [hcrdt, ← h.crdt_eq]; rfl
  obtain ⟨hv, ho, hrep, hcr⟩ := Net.run_deliveries (N := N) (p := p) hl
  have hN := Machine.Along.run_inv (I := Net.Logged)
    (fun _ _ _ h he => h.step he.1 he.2.ticks) (hv.and ho) h.logged
  refine ⟨hf.ids_eq, config_update hf, _, hv, fun _ => ho, h.of_flow (c := (C.engines p).crdt) hp ?_ hN ?_
    (fun o => ?_) (fun o ho => ?_) fun o ho => ?_⟩
  · rw [hcr]
    exact hf
  · rw [hrep, hcrdt]
  · rw [hcr]
    exact id
  · exact Or.inl (hcr ▸ ho)
  · rw [hcrdt, TimelineCrdt.operationLog_deliver, ← h.crdt_eq]
    exact List.mem_append_left _ ho

/-- The local edit itself, before it is broadcast. -/
theorem flow_edit (h : C.Sound N) {operation : TimelineOperation} {op : TaggedOperation}
    {c' : TimelineCrdt} (ha : (N.replica p).applyLocal operation = some (op, c')) :
    (C.scene (insert op N.history.created) c' p).Flow [.operation op] []
      { C.engine p with crdt := c' } := by
  obtain ⟨inv, -, hstamp⟩ := Option.map_eq_some_iff.mp ha
  obtain rfl : (N.replica p).tagNext operation = op := congrArg Prod.fst hstamp
  obtain rfl : ((N.replica p).stamp operation inv).2 = c' := congrArg Prod.snd hstamp
  obtain ⟨s, pend, hist, hc'⟩ := TimelineCrdt.stamp_eq (N.replica p) operation inv
  have hflow := h.flow p
  have hlog : ∀ o, o ∈ ((N.replica p).stamp operation inv).2.operationLog ↔
      o ∈ (C.engines p).crdt.operationLog ∨ o = (N.replica p).tagNext operation := by
    intro o
    rw [hc', h.crdt_eq, List.mem_append, List.mem_singleton]
  refine { hflow with
    channels := fun q m hm o ho => Set.mem_insert_of_mem _ (hflow.channels q m hm o ho)
    queued := fun m hm o ho => (hlog o).mpr ?_
    tracked := fun i entry hi => Set.mem_insert_of_mem _ (hflow.tracked i entry hi)
    logged := fun o ho => ?_
    seen := fun i hi => ?_
    due_known := fun _ ho => absurd ho List.not_mem_nil
    grown := ⟨[], fun _ ho => absurd ho List.not_mem_nil, rfl⟩
    reaches := fun o ho q hq => ?_ }
  · rcases hm with hm | hm
    · exact Or.inl (h.queued p m hm o ho)
    · obtain rfl := List.mem_singleton.mp hm
      exact Or.inr (List.mem_singleton.mp ho)
  · rcases (hlog o).mp ho with ho | rfl
    · exact Set.mem_insert_of_mem _ (hflow.logged o ho)
    · exact Set.mem_insert _ _
  · simp only [hc', Finset.mem_insert] at hi
    rcases hi with rfl | hi
    · exact ⟨_, (hlog _).mpr (Or.inr rfl), rfl⟩
    · obtain ⟨o, ho, hoi⟩ := hflow.seen i (by simpa only [engine, h.crdt_eq] using hi)
      exact ⟨o, (hlog o).mpr (Or.inl ho), hoi⟩
  · rcases ho with rfl | ho
    · exact Or.inr (Or.inr (Or.inr (Or.inl ⟨_, Or.inr (Or.inr List.mem_cons_self),
        List.mem_singleton.mpr rfl⟩)))
    · rcases hflow.reaches o ho q hq with h1 | h1 | ⟨-, h1⟩ | ⟨m, hm, hmo⟩ | h1
      · refine Or.inl ?_
        by_cases hqp : q = p
        · subst hqp
          simp only [scene, Function.update_self] at h1 ⊢
          exact (hlog o).mpr (Or.inl h1)
        · simpa only [scene, Function.update_of_ne hqp] using h1
      · exact Or.inr (Or.inl h1)
      · exact absurd h1 List.not_mem_nil
      · exact Or.inr (Or.inr (Or.inr (Or.inl ⟨m, hm.imp_right (Or.imp_right fun hm =>
          absurd hm List.not_mem_nil), hmo⟩)))
      · exact Or.inr (Or.inr (Or.inr (Or.inr h1)))

/-- A local edit is an operation the net creates. -/
theorem applyLocal (h : C.Sound N) (hp : p ∈ C.fabric.ids) {operation : TimelineOperation}
    (he : ((C.engine p).applyLocal (Fabric.host p) operation).isSome)
    (ht : C.Transmits (.call p (.applyLocal operation))) :
    C.Goes N (C.EditsOwn (.call p (.applyLocal operation)))
      (C.step (.call p (.applyLocal operation))) := by
  obtain ⟨hvalid, hl⟩ := ht
  rw [h.crdt_eq p] at hl
  obtain ⟨⟨op, e⟩, hres⟩ := Option.isSome_iff_exists.mp he
  obtain ⟨⟨op', c'⟩, hcall, heq⟩ := Option.map_eq_some_iff.mp hres
  obtain ⟨rfl, rfl⟩ := Prod.mk.inj heq
  have ha : (N.replica p).applyLocal operation = some (op', c') := h.crdt_eq p ▸ hcall
  have hown : C.EditsOwn (.call p (.applyLocal operation)) →
      N.EditsOwn (.create p operation) := by
    rintro ⟨htargets, hunused, -⟩
    refine ⟨h.crdt_eq p ▸ htargets, fun r hr o ho => ?_, hl⟩
    obtain ⟨q, hq, hqo⟩ := h.owned o ho
    exact hunused r hr q hq o hqo
  have hen : N.Enabled (.create p operation) := Option.isSome_iff_exists.mpr ⟨_, ha⟩
  have hstep : Net.machine.step N (.create p operation) =
      ⟨Function.update N.replica p c', N.history.create p op'⟩ := by
    simp only [Net.machine, Net.step, ha]
  have hN := h.logged.step hen hl
  obtain ⟨hop, -, -, hlog⟩ := TimelineCrdt.applyLocal_eq ha
  have hcrdt : ({ C.engine p with crdt := c' }.dispatch (Fabric.host p) (.operation op')).crdt =
      c' := SyncEngine.crdt_dispatch
  have hgoal : C.step (.call p (.applyLocal operation)) =
      ⟨({ C.engine p with crdt := c' }.dispatch (Fabric.host p) (.operation op')).transport,
        Function.update C.engines p
          ({ C.engine p with crdt := c' }.dispatch (Fabric.host p) (.operation op'))⟩ := by
    simp only [Collaboration.step, SyncEngine.step, hres, Option.map_some, Option.getD_some]
  have hf := (h.flow_edit ha).dispatch
  rw [hgoal]
  refine ⟨hf.ids_eq, config_update hf, [.create p operation], ⟨hen, trivial⟩,
    fun ho => ⟨hown ho, trivial⟩, ?_⟩
  rw [Machine.run_cons, Machine.run_nil, hstep]
  rw [show N.step (.create p operation) = _ from hstep] at hN
  refine h.of_flow (c := c') hp hf hN ?_
    (fun o ho => Set.mem_insert_of_mem _ ho) ?_ ?_
  · rw [hcrdt]
  · rw [hcrdt, hlog]
    rintro o (rfl | ho)
    · exact Or.inr ⟨by rw [TaggedOperation.Valid, hop]; exact hvalid, by simp⟩
    · exact Or.inl ho
  · rw [hcrdt, hlog, h.crdt_eq]
    exact fun o ho => List.mem_append_left _ ho

theorem step (h : C.Sound N) {a : CollaborationEvent} (he : C.Enabled a) (ht : C.Transmits a) :
    C.Goes N (C.EditsOwn a) (C.step a) := by
  rcases a with ⟨p, a⟩ | ⟨p, fail⟩
  · obtain ⟨hp, he, -⟩ := he
    have hf := h.flow p
    cases a with
    | applyLocal operation => exact h.applyLocal hp he ht
    | processMessages =>
      exact h.of_deliveries hp (hf.processMessages h.logged.id_inj h.valid)
    | handlePeerJoin peer => exact h.of_deliveries hp (hf.handlePeerJoin peer)
    | flushOfflineQueue => exact h.of_deliveries hp (hf.flushOfflineQueue ht)
    | requestSnapshot => exact h.of_deliveries hp hf.requestSnapshot
    | crdtMut f => exact he.elim
    | transportMut f => exact he.elim
  · exact ⟨rfl, fun _ => rfl, [], trivial, fun _ => trivial, { h with }⟩

theorem agree (h : C.Sound N) (hN : N.Coherent) (hquiet : C.Quiet) {q : PeerId} (hp : p ∈ C.fabric.ids)
    (hq : q ∈ C.fabric.ids) : (C.engines p).crdt.Agree (C.engines q).crdt := by
  have hall : ∀ r ∈ C.fabric.ids, ∀ o ∈ N.history.created, o ∈ (N.replica r).operationLog := by
    intro r hr o ho
    rcases h.reaches o ho r hr with h1 | ⟨m, hm, -⟩ | ⟨t, ht, m, hm, -⟩
    · exact h.crdt_eq r ▸ h1
    · rw [(hquiet r hr).1] at hm
      exact absurd hm List.not_mem_nil
    · rw [(hquiet t ht).2.1, (hquiet t ht).2.2] at hm
      exact absurd (hm.elim id id) List.not_mem_nil
  rw [h.crdt_eq, h.crdt_eq]
  exact (hN.fed p).agree hN (hN.fed q) fun o =>
    ⟨fun ho => hall q hq o (hN.log_created ho), fun ho => hall p hp o (hN.log_created ho)⟩

end Sound

/-! ## Runs -/

theorem run_goes :
    ∀ {events : List CollaborationEvent} {C : Collaboration} {N : Net}, C.Sound N →
      machine.Valid C events → machine.Along Transmits C events →
        C.Goes N (machine.Along EditsOwn C events) (machine.run C events)
  | [], _, _, h, _, _ => ⟨rfl, fun _ => rfl, [], trivial, fun _ => trivial, h⟩
  | a :: events, C, N, h, hv, ht => by
    obtain ⟨hids, hcon, l, hl, hl', h⟩ := h.step hv.1 ht.1
    obtain ⟨hids', hcon', m, hm, hm', h⟩ := run_goes h hv.2 ht.2
    exact ⟨hids'.trans hids, fun p => (hcon' p).trans (hcon p), l ++ m,
      Machine.valid_append.mpr ⟨hl, hm⟩,
      fun ho => Machine.along_append.mpr ⟨hl' ho.1, hm' ho.2⟩, Machine.run_append N l m ▸ h⟩

section

variable {ids : List PeerId} (distinct : ids.Nodup) (clock : ℕ → UInt64)
  {config : PeerId → EngineConfig} (hconfig : ∀ p, (config p).offlineQueue = true)
  {events : List CollaborationEvent}
  (hrun : machine.Valid (new (.fabric ids distinct clock) config) events)
  (ht : machine.Along Transmits (new (.fabric ids distinct clock) config) events)

include hconfig hrun ht

theorem goes_new : (new (.fabric ids distinct clock) config).Goes .new
    (machine.Along EditsOwn (new (.fabric ids distinct clock) config) events)
    (machine.run (new (.fabric ids distinct clock) config) events) :=
  run_goes (Sound.new _ config (fun _ => rfl) hconfig) hrun ht

/-- No edit is lost on its way: whatever is in the log of one end, every end has, or finds in its
channel, or it waits in an offline queue, unless that has overflowed. -/
theorem run_reaches (p q : PeerId) (hq : q ∈ ids) (o : TaggedOperation)
    (ho : o ∈ ((machine.run (new (.fabric ids distinct clock) config) events).engines
      p).crdt.operationLog) :
    (machine.run (new (.fabric ids distinct clock) config) events).Reaches q o := by
  obtain ⟨hids, -, l, -, -, h⟩ := goes_new distinct clock hconfig hrun ht
  rw [h.crdt_eq] at ho
  exact h.reaches o (h.logged.log_created ho) q (hids.symm ▸ hq)

/-- When nothing is on its way and no queue has overflowed, all ends agree. -/
theorem run_quiet_agree
    (he : machine.Along EditsOwn (new (.fabric ids distinct clock) config) events)
    (hquiet : (machine.run (new (.fabric ids distinct clock) config) events).Quiet)
    (p q : PeerId) (hp : p ∈ ids) (hq : q ∈ ids) :
    ((machine.run (new (.fabric ids distinct clock) config) events).engines p).crdt.Agree
      ((machine.run (new (.fabric ids distinct clock) config) events).engines q).crdt := by
  obtain ⟨hids, -, l, hl, ho, h⟩ := goes_new distinct clock hconfig hrun ht
  exact h.agree (Net.run_coherent hl (ho he)) hquiet (hids.symm ▸ hp) (hids.symm ▸ hq)

end

/-- Two ends: the first edits, and each hears of the other. -/
def pairUp : Collaboration := new (.fabric [⟨1⟩, ⟨2⟩] (by decide) fun _ => 0) fun _ => .default

def pairRun : List CollaborationEvent :=
  [.call ⟨1⟩ (.applyLocal (.insertTrack ⟨1⟩ (.new "t") 0)), .call ⟨2⟩ .processMessages,
    .call ⟨1⟩ .processMessages, .call ⟨2⟩ .processMessages]

theorem pairRun_valid : machine.Valid pairUp pairRun := by
  refine ⟨⟨?_, rfl, rfl⟩, ⟨?_, trivial, rfl⟩, ⟨?_, trivial, rfl⟩, ⟨?_, trivial, rfl⟩, trivial⟩
  · exact List.mem_cons_self
  · exact List.mem_cons_of_mem _ List.mem_cons_self
  · exact List.mem_cons_self
  · exact List.mem_cons_of_mem _ List.mem_cons_self

theorem pairRun_transmits : machine.Along Transmits pairUp pairRun :=
  ⟨⟨by decide, by decide⟩, trivial, trivial, trivial, trivial⟩

theorem pairRun_editsOwn : machine.Along EditsOwn pairUp pairRun := by
  refine ⟨⟨fun r hr => absurd hr List.not_mem_nil, fun r _ q _ o ho => ?_, by decide⟩, trivial,
    trivial, trivial, trivial⟩
  exact absurd ho List.not_mem_nil

theorem pairRun_quiet : (machine.run pairUp pairRun).Quiet := by
  intro q hq
  rcases List.mem_cons.mp hq with rfl | hq
  · exact ⟨rfl, rfl, rfl⟩
  · obtain rfl := List.mem_singleton.mp hq
    exact ⟨rfl, rfl, rfl⟩

/-- The edit while it is in the channel of the second end. -/
theorem pairRun_reaches : (machine.run pairUp (pairRun.take 1)).Reaches ⟨2⟩
    ((TimelineCrdt.new ⟨1⟩).tagNext (.insertTrack ⟨1⟩ (.new "t") 0)) :=
  run_reaches (by decide) (fun _ => 0) (fun _ => rfl)
    ((Machine.valid_append (m := pairRun.drop 1)).mp pairRun_valid).1
    ((Machine.along_append (m := pairRun.drop 1)).mp pairRun_transmits).1 ⟨1⟩ ⟨2⟩
    (List.mem_cons_of_mem _ List.mem_cons_self) _ List.mem_cons_self

theorem pairRun_agree : ((machine.run pairUp pairRun).engines ⟨1⟩).crdt.Agree
    ((machine.run pairUp pairRun).engines ⟨2⟩).crdt :=
  run_quiet_agree (by decide) (fun _ => 0) (fun _ => rfl) pairRun_valid pairRun_transmits
    pairRun_editsOwn pairRun_quiet ⟨1⟩ ⟨2⟩ List.mem_cons_self (List.mem_cons_of_mem _ List.mem_cons_self)

end Collaboration

end AvSync
