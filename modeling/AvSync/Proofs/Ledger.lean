import AvSync.Proofs.Calls
import AvSync.Proofs.Tracking

/-!
# No local edit is lost

Between a broadcast that fails and the next one an operation is in hand, queued or tracked, and
every entry point moves it from one place to another (`Ledger`). Only a flush lets go of an
operation whose broadcast fails; where none does, everything issued stays accounted for
(`SyncEngine.run_accounted`).
-/

namespace AvSync

open ReliabilityManager (pending_track pending_onAck mem_ackedPeers_onAck onAck_rest
  ackedPeers_onAck_self retainEntry_cases pending_due mem_givenUp_due le_resends_of_spent)

variable {r : ReliabilityManager} {q : OfflineQueue} {held : List SyncMessage}
  {l : List TaggedOperation} {op o : TaggedOperation} {msg : SyncMessage} {now : UInt64}

/-- The operation is in hand or queued. -/
def Awaits (q : OfflineQueue) (held : List SyncMessage) (op : TaggedOperation) : Prop :=
  .operation op ∈ held ∨ .operation op ∈ q.queue

/-- The operations `l` are accounted for or in hand. What waits or is tracked under one id is one
operation, and an entry that has used up its attempts has been resent as often as allowed. -/
structure Ledger (r : ReliabilityManager) (q : OfflineQueue) (held : List SyncMessage)
    (l : List TaggedOperation) : Prop where
  key : ∀ {i : OperationId} {entry : PendingEntry}, r.pending[i]? = some entry → entry.op.opId = i
  attempts : ∀ {i : OperationId} {entry : PendingEntry}, r.pending[i]? = some entry →
    entry.attempts.toNat ≤ entry.resends + 1
  awaits_eq : ∀ {o o'}, Awaits q held o → Awaits q held o' → o.opId = o'.opId → o = o'
  tracked_eq : ∀ {o : TaggedOperation} {entry : PendingEntry}, Awaits q held o →
    r.pending[o.opId]? = some entry → entry.op = o
  spent : ∀ entry ∈ r.givenUp, r.maxResends.toNat ≤ entry.resends
  owed : ∀ o ∈ l, .operation o ∈ held ∨ Accounted r q o

namespace Ledger

theorem new (ackTimeout capacity : ℕ) (maxResends : UInt32) :
    Ledger (.new ackTimeout maxResends) (.new capacity) [] [] where
  key h := by simp [ReliabilityManager.new] at h
  attempts h := by simp [ReliabilityManager.new] at h
  awaits_eq h := by simp [Awaits, OfflineQueue.new] at h
  tracked_eq h := by simp [Awaits, OfflineQueue.new] at h
  spent _ h := by simp [ReliabilityManager.new] at h
  owed _ h := absurd h List.not_mem_nil

/-- A new operation is taken in hand. -/
theorem hold (h : Ledger r q [] l) (hp : op.opId ∉ r.pending)
    (hq : ∀ o, .operation o ∈ q.queue → o.opId ≠ op.opId) :
    Ledger r q [.operation op] (l ++ [op]) where
  key := h.key
  attempts := h.attempts
  awaits_eq {o o'} ho ho' he := by
    simp only [Awaits, List.mem_singleton, SyncMessage.operation.injEq] at ho ho'
    rcases ho with rfl | ho <;> rcases ho' with rfl | ho'
    · rfl
    · exact absurd he.symm (hq o' ho')
    · exact absurd he (hq o ho)
    · exact h.awaits_eq (Or.inr ho) (Or.inr ho') he
  tracked_eq {o entry} ho he := by
    simp only [Awaits, List.mem_singleton, SyncMessage.operation.injEq] at ho
    rcases ho with rfl | ho
    · exact absurd (BTreeMap.mem_iff.mpr ⟨entry, he⟩) hp
    · exact h.tracked_eq (Or.inr ho) he
  spent := h.spent
  owed o ho := by
    rcases List.mem_append.mp ho with ho | ho
    · exact Or.inr ((h.owed o ho).resolve_left List.not_mem_nil)
    · exact Or.inl (List.mem_singleton.mp ho ▸ List.mem_cons_self)

/-- The operation in hand is tracked: of its id there was none, or it was there itself. -/
theorem track (h : Ledger r q (.operation op :: held) l) (now : UInt64) :
    Ledger (r.track op now) q held l := by
  have hop : Awaits q (.operation op :: held) op := Or.inl List.mem_cons_self
  have htail : ∀ {o}, Awaits q held o → Awaits q (.operation op :: held) o := fun ho =>
    ho.imp_left (List.mem_cons_of_mem _)
  constructor
  · intro i entry he
    rw [pending_track] at he
    split_ifs at he with hi
    · cases he
      exact hi
    · exact h.key he
  · intro i entry he
    rw [pending_track] at he
    split_ifs at he
    · cases he
      simp
    · exact h.attempts he
  · exact fun ho ho' => h.awaits_eq (htail ho) (htail ho')
  · intro o entry ho he
    rw [pending_track] at he
    split_ifs at he with hi
    · cases he
      exact h.awaits_eq hop (htail ho) hi
    · exact h.tracked_eq (htail ho) he
  · exact h.spent
  · intro o ho
    have hmine : o = op → .operation o ∈ held ∨ Accounted (r.track op now) q o := by
      rintro rfl
      exact Or.inr (.tracked (by rw [pending_track, if_pos rfl]) rfl)
    rcases h.owed o ho with hh | hh | ⟨he, rfl⟩ | hh | ⟨he, heq, hn⟩ | hh
    · rcases List.mem_cons.mp hh with he | hh
      · exact hmine (SyncMessage.operation.inj he)
      · exact Or.inl hh
    · exact Or.inr (.queued hh)
    · rename_i entry
      by_cases hi : op.opId = entry.op.opId
      · exact hmine (h.tracked_eq hop (hi ▸ he))
      · exact Or.inr (.tracked (by rw [pending_track, if_neg hi, he]) rfl)
    · exact Or.inr (.acked hh)
    · exact Or.inr (.givenUp he heq hn)
    · exact Or.inr (.evicted hh)

/-- A message in hand is let go if it is no operation, or one that has been acknowledged. -/
theorem release (h : Ledger r q (msg :: held) l)
    (hmsg : ∀ op, msg = .operation op → op.opId ∈ r.ackedPeers) : Ledger r q held l where
  key := h.key
  attempts := h.attempts
  awaits_eq ho ho' :=
    h.awaits_eq (ho.imp_left (List.mem_cons_of_mem _)) (ho'.imp_left (List.mem_cons_of_mem _))
  tracked_eq ho := h.tracked_eq (ho.imp_left (List.mem_cons_of_mem _))
  spent := h.spent
  owed o ho := by
    rcases h.owed o ho with hh | hh
    · rcases List.mem_cons.mp hh with he | hh
      · exact Or.inr (.acked (hmsg o he.symm))
      · exact Or.inl hh
    · exact Or.inr hh

/-- A message in hand joins the queue, which may drop its oldest. -/
theorem enqueue (h : Ledger r q (msg :: held) l) : Ledger r (q.enqueue msg) held l := by
  have hold : ∀ {o}, Awaits (q.enqueue msg) held o → Awaits q (msg :: held) o := by
    intro o ho
    rcases ho with ho | ho
    · exact Or.inl (List.mem_cons_of_mem _ ho)
    · have : .operation o ∈ q.queue ++ [msg] := by
        unfold OfflineQueue.enqueue at ho
        split_ifs at ho
        · exact ((List.tail_sublist _).append_right _).subset ho
        · exact ho
      rcases List.mem_append.mp this with ho | ho
      · exact Or.inr ho
      · exact Or.inl (List.mem_singleton.mp ho ▸ List.mem_cons_self)
  have hlast : ∀ {o}, msg = .operation o → .operation o ∈ (q.enqueue msg).queue := by
    rintro o rfl
    unfold OfflineQueue.enqueue
    split_ifs <;> exact List.mem_append_right _ List.mem_cons_self
  have hqueue : ∀ {m}, m ∈ q.queue → m ∈ (q.enqueue msg).queue ∨ m ∈ (q.enqueue msg).evicted := by
    intro m hm
    unfold OfflineQueue.enqueue
    split_ifs
    · rcases hq : q.queue with _ | ⟨a, t⟩ <;> rw [hq] at hm
      · exact absurd hm List.not_mem_nil
      · rcases List.mem_cons.mp hm with rfl | hm
        · exact Or.inr (List.mem_append_right _ (by simp))
        · exact Or.inl (List.mem_append_left _ hm)
    · exact Or.inl (List.mem_append_left _ hm)
  have hevicted : ∀ {m}, m ∈ q.evicted → m ∈ (q.enqueue msg).evicted := by
    intro m hm
    unfold OfflineQueue.enqueue
    split_ifs
    · exact List.mem_append_left _ hm
    · exact hm
  constructor
  · exact h.key
  · exact h.attempts
  · exact fun ho ho' => h.awaits_eq (hold ho) (hold ho')
  · exact fun ho => h.tracked_eq (hold ho)
  · exact h.spent
  · intro o ho
    rcases h.owed o ho with hh | hh | ⟨he, heq⟩ | hh | ⟨he, heq, hn⟩ | hh
    · rcases List.mem_cons.mp hh with he | hh
      · exact Or.inr (.queued (hlast he.symm))
      · exact Or.inl hh
    · exact Or.inr ((hqueue hh).elim .queued .evicted)
    · exact Or.inr (.tracked he heq)
    · exact Or.inr (.acked hh)
    · exact Or.inr (.givenUp he heq hn)
    · exact Or.inr (.evicted (hevicted hh))

/-- The queue is taken in hand. -/
theorem drain (h : Ledger r q [] l) : Ledger r q.drain.2 q.drain.1 l where
  key := h.key
  attempts := h.attempts
  awaits_eq ho ho' :=
    h.awaits_eq (Or.inr (ho.resolve_right List.not_mem_nil))
      (Or.inr (ho'.resolve_right List.not_mem_nil))
  tracked_eq ho := h.tracked_eq (Or.inr (ho.resolve_right List.not_mem_nil))
  spent := h.spent
  owed o ho := by
    rcases h.owed o ho with hh | hh | ⟨he, heq⟩ | hh | ⟨he, heq, hn⟩ | hh
    · exact absurd hh List.not_mem_nil
    · exact Or.inl hh
    · exact Or.inr (.tracked he heq)
    · exact Or.inr (.acked hh)
    · exact Or.inr (.givenUp he heq hn)
    · exact Or.inr (.evicted hh)

/-- An acknowledgment ends the tracking of what it acknowledges. -/
theorem onAck (h : Ledger r q held l) (i : OperationId) (p : PeerId) :
    Ledger (r.onAck i p).2 q held l := by
  have hkept : ∀ {j : OperationId} {entry : PendingEntry}, r.pending[j]? = some entry →
      (r.onAck i p).2.pending[j]? = some entry ∨ j ∈ (r.onAck i p).2.ackedPeers := by
    intro j entry he
    by_cases hj : i = j
    · subst hj
      obtain ⟨acked, ha, -⟩ := ackedPeers_onAck_self (r := r) i p
      exact Or.inr (BTreeMap.mem_iff.mpr ⟨acked, ha⟩)
    · exact Or.inl (by rw [pending_onAck, if_neg fun h => hj h.1, he])
  have hpend : ∀ {j : OperationId} {entry : PendingEntry},
      (r.onAck i p).2.pending[j]? = some entry → r.pending[j]? = some entry := by
    intro j entry he
    rw [pending_onAck] at he
    split_ifs at he
    exact he
  obtain ⟨hgiven, hmax, -⟩ := onAck_rest r i p
  constructor
  · exact fun he => h.key (hpend he)
  · exact fun he => h.attempts (hpend he)
  · exact h.awaits_eq
  · exact fun ho he => h.tracked_eq ho (hpend he)
  · rw [hgiven, hmax]
    exact h.spent
  · intro o ho
    rcases h.owed o ho with hh | hh | ⟨he, heq⟩ | hh | ⟨he, heq, hn⟩ | hh
    · exact Or.inl hh
    · exact Or.inr (.queued hh)
    · exact Or.inr ((hkept he).elim (.tracked · heq) .acked)
    · exact Or.inr (.acked (mem_ackedPeers_onAck hh))
    · exact Or.inr (.givenUp (hgiven ▸ he) heq (hmax ▸ hn))
    · exact Or.inr (.evicted hh)

/-- What is due is resent or given up. -/
theorem due (h : Ledger r q held l) (now : UInt64) : Ledger (r.dueForResend now).2 q held l := by
  have hold : ∀ {i : OperationId} {entry' : PendingEntry},
      (r.dueForResend now).2.pending[i]? = some entry' → ∃ entry,
        r.pending[i]? = some entry ∧ entry'.op = entry.op ∧
        entry'.attempts.toNat ≤ entry'.resends + 1 := by
    intro i entry' he
    rw [pending_due, Option.bind_eq_some_iff] at he
    obtain ⟨entry, he, hr⟩ := he
    rcases retainEntry_cases r now entry with ⟨-, -, hn⟩ | ⟨entry'', hs, hop, hatt⟩
    · rw [hn] at hr
      cases hr
    · obtain rfl := Option.some.inj (hs.symm.trans hr)
      exact ⟨entry, he, hop, hatt (h.attempts he)⟩
  constructor
  · intro i entry' he
    obtain ⟨entry, he, hop, -⟩ := hold he
    rw [hop, h.key he]
  · intro i entry' he
    obtain ⟨entry, -, -, hatt⟩ := hold he
    exact hatt
  · exact h.awaits_eq
  · intro o entry' ho he
    obtain ⟨entry, he, hop, -⟩ := hold he
    rw [hop, h.tracked_eq ho he]
  · intro entry he
    rcases mem_givenUp_due.mp he with he | ⟨i, he, -, hs⟩
    · exact h.spent entry he
    · exact le_resends_of_spent (h.attempts he) hs
  · intro o ho
    rcases h.owed o ho with hh | hh | @⟨entry, he, heq⟩ | hh | ⟨he, heq, hn⟩ | hh
    · exact Or.inl hh
    · exact Or.inr (.queued hh)
    · rcases retainEntry_cases r now entry with ⟨hd, hs, -⟩ | ⟨entry', hr, hop, -⟩
      · exact Or.inr (.givenUp (mem_givenUp_due.mpr (Or.inr ⟨_, he, hd, hs⟩)) heq
          (le_resends_of_spent (h.attempts he) hs))
      · refine Or.inr (.tracked ?_ (hop.trans heq))
        rw [pending_due, he, Option.bind_some, hr]
    · exact Or.inr (.acked hh)
    · exact Or.inr (.givenUp (mem_givenUp_due.mpr (Or.inl he)) heq hn)
    · exact Or.inr (.evicted hh)

end Ledger

namespace SyncEngine

variable {σ : Type} {H : Host σ} {e : SyncEngine σ}

/-- The engine keeps its messages while offline, and its books are in order. -/
def Holds (e : SyncEngine σ) (held : List SyncMessage) (l : List TaggedOperation) : Prop :=
  e.config.offlineQueue = true ∧ Ledger e.reliability e.offline held l

theorem holds_foldl {α : Type} {f : SyncEngine σ → α → SyncEngine σ}
    (hf : ∀ e a, Holds e held l → Holds (f e a) held l) :
    ∀ {m : List α} {e : SyncEngine σ}, Holds e held l → Holds (m.foldl f e) held l
  | [], _, h => h
  | a :: m, _, h => holds_foldl hf (m := m) (hf _ a h)

namespace Holds

/-- A message that is no operation may be taken in hand. -/
theorem take (h : Holds e held l) (hmsg : ∀ op, msg ≠ .operation op) :
    Holds e (msg :: held) l := by
  have hmem : ∀ {o}, Awaits e.offline (msg :: held) o → Awaits e.offline held o := by
    rintro o (ho | ho)
    · exact Or.inl ((List.mem_cons.mp ho).resolve_left fun he => hmsg o he.symm)
    · exact Or.inr ho
  refine ⟨h.1, h.2.key, h.2.attempts, fun ho ho' => h.2.awaits_eq (hmem ho) (hmem ho'),
    fun ho => h.2.tracked_eq (hmem ho), h.2.spent, fun o ho => ?_⟩
  exact (h.2.owed o ho).imp_left (List.mem_cons_of_mem _)

theorem trackSent (h : Holds e (msg :: held) l) : Holds (e.trackSent H msg) held l := by
  cases msg with
  | operation op => exact ⟨h.1, h.2.track _⟩
  | _ => exact ⟨h.1, h.2.release fun op ho => nomatch ho⟩

theorem dispatch (h : Holds e (msg :: held) l) : Holds (e.dispatch H msg) held l := by
  unfold SyncEngine.dispatch SyncEngine.broadcast
  rcases H.broadcast msg e.transport with ⟨err | _, t⟩
  · simp only [h.1, if_true]
    exact ⟨h.1, h.2.enqueue⟩
  · exact trackSent (e := { e with transport := t }) h

theorem flushMessage (h : Holds e (msg :: held) l)
    (hk : ∀ op, msg = .operation op →
      op.opId ∈ e.reliability.ackedPeers ∨ (e.broadcast H msg).1 = .ok ()) :
    Holds (e.flushMessage H msg) held l := by
  unfold SyncEngine.flushMessage SyncEngine.broadcast at *
  rcases hb : H.broadcast msg e.transport with ⟨err | _, t⟩
  · simp only [hb, reduceCtorEq, or_false] at hk
    exact ⟨h.1, h.2.release hk⟩
  · exact trackSent (e := { e with transport := t }) h

theorem flush :
    ∀ {m : List SyncMessage} {e : SyncEngine σ}, Holds e m l → FlushKeeps H e m →
      Holds (m.foldl (fun e msg => e.flushMessage H msg) e) [] l
  | [], _, h, _ => h
  | _ :: m, _, h, hk => flush (m := m) (h.flushMessage hk.1) hk.2

theorem flushOfflineQueue (h : Holds e [] l) (hk : QueueKeeps H e) :
    Holds (e.flushOfflineQueue H) [] l :=
  flush (e := { e with offline := e.offline.drain.2 }) ⟨h.1, h.2.drain⟩ hk

theorem handlePeerJoin (h : Holds e [] l) {peer : PeerId} (hk : JoinKeeps H e peer) :
    Holds (e.handlePeerJoin H peer).2 [] l := by
  unfold SyncEngine.handlePeerJoin JoinKeeps SyncEngine.sendTo at *
  rcases hs : H.sendTo peer (.snapshot e.crdt.snapshot) e.transport with ⟨err | _, t⟩
  · exact h
  · simp only [hs, forall_const] at hk
    exact flushOfflineQueue (e := { e with transport := t }) h hk

theorem noticePeer (h : Holds e [] l) {peer : PeerId}
    (hk : peer ∉ e.knownPeers → JoinKeeps H (e.pushEvent (.peerJoined peer)) peer) :
    Holds (e.noticePeer H peer) [] l := by
  unfold SyncEngine.noticePeer
  split_ifs with hp
  · exact h
  · exact handlePeerJoin (e := e.pushEvent (.peerJoined peer)) h (hk hp)

theorem noticePeers :
    ∀ {p : List PeerId} {e : SyncEngine σ}, Holds e [] l → PeersKeep H e p →
      Holds (p.foldl (fun e peer => e.noticePeer H peer) e) [] l
  | [], _, h, _ => h
  | _ :: p, _, h, hk => noticePeers (p := p) (h.noticePeer hk.1) hk.2

theorem detectPeerChanges (h : Holds e [] l) (hk : PeersKeep H e (H.peers e.transport)) :
    Holds (e.detectPeerChanges H) [] l :=
  holds_foldl (f := fun e peer => e.pushEvent (.peerLeft peer)) (fun _ _ h => h)
    (h.noticePeers hk)

theorem handleOperation (h : Holds e held l) (peer : PeerId) (op : TaggedOperation) :
    Holds (e.handleOperation H peer op) held l := by
  unfold SyncEngine.handleOperation
  split
  · exact h
  · exact h

theorem handleMessage (h : Holds e held l) (peer : PeerId) (msg : SyncMessage) :
    Holds (e.handleMessage H peer msg) held l := by
  cases msg with
  | operation op => exact h.handleOperation peer op
  | batch ops => exact holds_foldl (fun _ op h => h.handleOperation peer op) h
  | ack opId => exact ⟨h.1, h.2.onAck opId peer⟩
  | _ => exact h

theorem receiveLoop :
    ∀ {n : ℕ} {e : SyncEngine σ}, Holds e held l → Holds (receiveLoop H n e).2 held l
  | 0, _, h => h
  | n + 1, e, h => by
    unfold SyncEngine.receiveLoop
    rcases H.tryRecv e.transport with ⟨_ | _ | ⟨peer, msg⟩, t⟩
    · exact h
    · exact h
    · exact receiveLoop (handleMessage (e := { e with transport := t }) h peer msg)

theorem resendDue (h : Holds e held l) : Holds (e.resendDue H) held l :=
  holds_foldl (f := fun e op => (e.broadcast H (.operation op)).2) (fun _ _ h => h)
    (show Holds { (e.nowMs H).2 with
      reliability := (e.reliability.dueForResend (e.nowMs H).1).2 } held l from ⟨h.1, h.2.due _⟩)

theorem processMessages (h : Holds e [] l) (hk : PeersKeep H e (H.peers e.transport)) :
    Holds (e.processMessages H).2 [] l :=
  (h.detectPeerChanges hk).receiveLoop.resendDue

theorem applyLocal (h : Holds e [] l) (hk : e.NextFresh) {operation : TimelineOperation}
    {tagged : TaggedOperation} {e' : SyncEngine σ}
    (ha : e.applyLocal H operation = some (tagged, e')) : Holds e' [] (l ++ [tagged]) := by
  obtain ⟨⟨t, c⟩, h1, h2⟩ := Option.map_eq_some_iff.mp ha
  obtain ⟨inv, -, h3⟩ := Option.map_eq_some_iff.mp h1
  obtain rfl : e.crdt.tagNext operation = t := congrArg Prod.fst h3
  cases h2
  exact dispatch (e := { e with crdt := c })
    ⟨h.1, h.2.hold (hk operation).1 (hk operation).2⟩

/-- One event keeps the books, and enters what it issues. -/
theorem step (h : Holds e [] l) {a : EngineEvent σ} (hk : Keeps H e a) :
    Holds (e.step H a) [] (l ++ e.issuedBy H a) := by
  cases a with
  | applyLocal operation =>
    simp only [SyncEngine.step, issuedBy]
    rcases ha : e.applyLocal H operation with _ | ⟨tagged, e'⟩
    · simpa using h
    · simpa using h.applyLocal hk ha
  | processMessages => exact (List.append_nil l).symm ▸ h.processMessages hk
  | handlePeerJoin peer => exact (List.append_nil l).symm ▸ h.handlePeerJoin hk
  | flushOfflineQueue => exact (List.append_nil l).symm ▸ h.flushOfflineQueue hk
  | requestSnapshot => exact (List.append_nil l).symm ▸ (h.take (by simp)).dispatch (H := H)
  | crdtMut f => exact (List.append_nil l).symm ▸ h
  | transportMut f => exact (List.append_nil l).symm ▸ h

theorem run :
    ∀ {as : List (EngineEvent σ)} {e : SyncEngine σ} {l : List TaggedOperation}, Holds e [] l →
      (machine H).Along (Keeps H) e as → Holds ((machine H).run e as) [] (l ++ issued H e as)
  | [], _, _, h, _ => by simpa [issued] using h
  | a :: as, e, l, h, hk => by
    have := run (h.step hk.1) hk.2
    rwa [List.append_assoc] at this

end Holds

/-- While flushes keep every operation and local operations get ids of their own, every operation
that has been issued is accounted for. -/
theorem run_accounted {crdt : TimelineCrdt} {transport : σ} {config : EngineConfig}
    (hq : config.offlineQueue = true) {as : List (EngineEvent σ)}
    (hk : (machine H).Along (Keeps H) (withConfig crdt transport config) as) :
    ∀ op ∈ issued H (withConfig crdt transport config) as,
      ((machine H).run (withConfig crdt transport config) as).Accounts op := by
  have h : Holds (withConfig crdt transport config) [] [] :=
    ⟨hq, Ledger.new config.ackTimeout config.offlineCapacity config.maxResends⟩
  intro op hop
  exact ((h.run hk).2.owed op hop).resolve_left List.not_mem_nil

/-- One peer, to which broadcasts fail while the link is down. -/
def flakyLink : Host Bool where
  sendTo _ _ up := (.ok (), up)
  broadcast _ up := (if up then .ok () else .error (.transport "no peers connected"), up)
  tryRecv up := (.ok none, up)
  peers _ := [⟨2⟩]
  nowMs up := (0, up)

/-- An engine whose link is down. -/
def offlineEngine : SyncEngine Bool := withConfig (.new ⟨1⟩) false .default

/-- A local edit that cannot be broadcast. -/
def offlineEdit : EngineEvent Bool := .applyLocal (.insertTrack ⟨1⟩ (.new "t") 0)

/-- The link comes up before the peer is noticed. -/
def reconnectedRun : List (EngineEvent Bool) :=
  [offlineEdit, .transportMut fun _ => true, .processMessages]

theorem reconnectedRun_keeps : (machine flakyLink).Along (Keeps flakyLink) offlineEngine
    reconnectedRun := by
  refine ⟨fun op => ⟨?_, ?_⟩, trivial, ⟨fun _ _ => ⟨fun _ _ => Or.inr rfl, trivial⟩, trivial⟩,
    trivial⟩
  · exact Std.ExtTreeMap.not_mem_empty
  · exact fun o ho => absurd ho List.not_mem_nil

theorem reconnectedRun_accounted :
    ((machine flakyLink).run offlineEngine reconnectedRun).Accounts
      ((TimelineCrdt.new ⟨1⟩).tagNext (.insertTrack ⟨1⟩ (.new "t") 0)) :=
  run_accounted rfl reconnectedRun_keeps _ List.mem_cons_self

/-- The peer is noticed while the link is down: the snapshot is sent, and the queued edit, whose
broadcast fails again, is gone. -/
theorem flush_loses : ¬∀ op ∈ issued flakyLink offlineEngine [offlineEdit, .processMessages],
    ((machine flakyLink).run offlineEngine [offlineEdit, .processMessages]).Accounts op := by
  intro h
  have hr : ((machine flakyLink).run offlineEngine [offlineEdit, .processMessages]).reliability =
      .new 1000 4 := rfl
  have hq : ((machine flakyLink).run offlineEngine [offlineEdit, .processMessages]).offline =
      .new 10000 := rfl
  have hop := h ((TimelineCrdt.new ⟨1⟩).tagNext (.insertTrack ⟨1⟩ (.new "t") 0)) List.mem_cons_self
  rw [Accounts, hr, hq] at hop
  rcases hop with hop | ⟨hop, -⟩ | hop | ⟨hop, -⟩ | hop
  · exact absurd hop List.not_mem_nil
  · exact absurd (BTreeMap.mem_iff.mpr ⟨_, hop⟩) Std.ExtTreeMap.not_mem_empty
  · exact absurd hop Std.ExtTreeMap.not_mem_empty
  · exact absurd hop List.not_mem_nil
  · exact absurd hop List.not_mem_nil

end SyncEngine

end AvSync
