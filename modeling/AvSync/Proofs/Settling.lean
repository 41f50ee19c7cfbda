import AvSync.Lib.Potential
import AvSync.Proofs.Loopback

/-!
# A connected fabric settles

Every message costs what handling it may send out, every tracked operation what its resends may
cost, and every queued message and every peer to be noticed what their turn may bring. While the
links are up a turn of an engine never raises the sum (`Turn.Credit`), and lowers it if the engine
has a message to handle or a peer to notice. So when no queue waits for a join that has passed,
rounds of `process_messages` bring every end to the same timeline, unless a send comes to wait at a
full channel, and none does while the sum is within what a channel holds (`run_settles`).
-/

namespace AvSync

/-! ## Costs -/

namespace SyncMessage

/-- What handling a message takes, with `n` ends: a reply to each of them for an operation or a
request. -/
def cost (n : ℕ) : SyncMessage → ℕ
  | .operation _ | .requestSnapshot => n + 1
  | .batch ops => ops.length * n + 1
  | _ => 1

theorem cost_pos (n : ℕ) (msg : SyncMessage) : 1 ≤ msg.cost n := by
  cases msg <;> simp [cost]

end SyncMessage

/-- What is in the channels. -/
def Fabric.cost (f : Fabric) : ℕ :=
  (f.ids.map fun q => ((f.inbox q).map fun m => m.2.cost f.ids.length).sum).sum

/-- What the resends of an entry may cost. -/
def PendingEntry.cost (n : ℕ) (maxResends : UInt32) (entry : PendingEntry) : ℕ :=
  (maxResends.toNat + 1 - entry.attempts.toNat) * (n * (n + 1))

namespace SyncEngine

/-- What a queued message may cost: it is sent to all, and tracked. -/
def queuedCost (n : ℕ) (maxResends : UInt32) (msg : SyncMessage) : ℕ :=
  n * msg.cost n + maxResends.toNat * (n * (n + 1))

/-- What an engine tracks and has queued. -/
def cost (n : ℕ) (e : SyncEngine Fabric) : ℕ :=
  BTreeMap.total e.reliability.pending (PendingEntry.cost n e.reliability.maxResends) +
    (e.offline.queue.map (queuedCost n e.reliability.maxResends)).sum

/-- The ends an engine has yet to notice. -/
def joins (others : List PeerId) (e : SyncEngine Fabric) : ℕ :=
  (others.filter fun q => q ∉ e.knownPeers).length

end SyncEngine

/-- A channel holds at most as many messages as they cost. -/
theorem Fabric.length_le_cost {f : Fabric} {q : PeerId} (hq : q ∈ f.ids) :
    (f.inbox q).length ≤ f.cost := by
  have hone : (f.inbox q).length ≤ ((f.inbox q).map fun m => m.2.cost f.ids.length).sum := by
    have h := List.length_le_sum_of_one_le ((f.inbox q).map fun m => m.2.cost f.ids.length)
      (List.forall_mem_map.mpr fun m _ => m.2.cost_pos _)
    rwa [List.length_map] at h
  exact hone.trans (List.single_le_sum (fun _ _ => Nat.zero_le _) _ (List.mem_map_of_mem hq))

/-- What is sent costs at most its price for each end. -/
theorem Fabric.cost_deliver (f : Fabric) (p : PeerId) (msg : SyncMessage) :
    (f.deliver p msg).cost ≤ f.cost + f.ids.length * msg.cost f.ids.length := by
  have hle : ∀ q ∈ f.ids, (((f.deliver p msg).inbox q).map fun m => m.2.cost f.ids.length).sum ≤
      ((f.inbox q).map fun m => m.2.cost f.ids.length).sum + msg.cost f.ids.length := by
    intro q _
    simp only [deliver]
    split_ifs
    · simp
    · exact Nat.le_add_right _ _
  calc (f.deliver p msg).cost
      ≤ (f.ids.map fun q => ((f.inbox q).map fun m => m.2.cost f.ids.length).sum +
          msg.cost f.ids.length).sum := List.sum_le_sum hle
    _ = f.cost + f.ids.length * msg.cost f.ids.length := by
        rw [List.sum_map_add, List.map_const', List.sum_replicate, smul_eq_mul, cost]

/-- A message that is taken out of its channel. -/
theorem Fabric.cost_pop {f : Fabric} {p : PeerId} (hp : p ∈ f.ids) {m : PeerId × SyncMessage}
    {rest : List (PeerId × SyncMessage)} (h : f.inbox p = m :: rest) :
    cost { f with inbox := Function.update f.inbox p rest } + m.2.cost f.ids.length = f.cost := by
  have hsum := sum_map_exchange
    (f := fun q => ((Function.update f.inbox p rest q).map fun m => m.2.cost f.ids.length).sum)
    (g := fun q => ((f.inbox q).map fun m => m.2.cost f.ids.length).sum) f.distinct hp
    fun q _ hq => by simp only [Function.update_of_ne hq]
  simp only [Function.update_self, h, List.map_cons, List.sum_cons] at hsum
  simp only [cost]
  omega

/-- A resend is within what the resends of its entry may cost. -/
theorem ReliabilityManager.total_due (r : ReliabilityManager) (now : UInt64) (n : ℕ)
    (hr : r.maxResends.toNat + 1 < 2 ^ 32) :
    BTreeMap.total (r.dueForResend now).2.pending (PendingEntry.cost n r.maxResends) +
        (r.dueForResend now).1.length * (n * (n + 1)) ≤
      BTreeMap.total r.pending (PendingEntry.cost n r.maxResends) := by
  have hlen : (r.dueForResend now).1.length =
      (r.pending.toList.filter fun e => r.isDue now e.2 && !r.isSpent e.2).length := by
    simp only [dueForResend, List.length_map, List.filter_filter, Bool.and_comm]
  rw [hlen]
  refine BTreeMap.total_filterMap_le (p := fun v => r.isDue now v && !r.isSpent v)
    (h := r.retainEntry now) fun k v _ => ?_
  unfold retainEntry
  by_cases hd : r.isDue now v = true
  · by_cases hs : r.isSpent v = true
    · simp [hd, hs]
    · have hle : v.attempts.toNat ≤ r.maxResends.toNat := by
        simpa [isSpent, UInt32.lt_iff_toNat_lt] using hs
      have hadd : (v.attempts + 1).toNat = v.attempts.toNat + 1 := by
        rw [UInt32.toNat_add, UInt32.toNat_one, Nat.mod_eq_of_lt (by omega)]
      simp only [hd, hs, Bool.not_true, Bool.not_false, if_false, if_true, Bool.false_eq_true,
        Option.map_some, Option.getD_some, PendingEntry.cost, hadd, Bool.and_self]
      rw [show r.maxResends.toNat + 1 - v.attempts.toNat =
        r.maxResends.toNat + 1 - (v.attempts.toNat + 1) + 1 by omega, Nat.succ_mul]
  · simp [hd]

/-! ## One turn -/

/-- A turn of the engine of `peer`: the engine when it begins, the peers it knows, and what may be
spent. -/
structure Turn where
  peer : PeerId
  start : SyncEngine Fabric
  known : List PeerId
  budget : ℕ

namespace Turn

/-- During the turn, with `own` left in the channel of the engine, `queue` in its queue, and `c` not
spent. -/
structure Credit (T : Turn) (own : List (PeerId × SyncMessage)) (queue : List SyncMessage) (c : ℕ)
    (e : SyncEngine Fabric) : Prop where
  mem : T.peer ∈ e.transport.ids
  ids_eq : e.transport.ids = T.start.transport.ids
  fail_eq : e.transport.failSends = T.start.transport.failSends
  config_eq : e.config = T.start.config
  resends_eq : e.reliability.maxResends = T.start.reliability.maxResends
  evicted_eq : e.offline.evicted = T.start.offline.evicted
  known_eq : e.knownPeers = T.known
  own_eq : e.transport.inbox T.peer = own
  queue_eq : e.offline.queue = queue
  grows : ∀ q, q ≠ T.peer → T.start.transport.inbox q ⊆ e.transport.inbox q
  /-- No send waits at a full channel if all that may be spent would fit into one. -/
  room : T.budget ≤ channelCapacity → T.start.transport.blocked = false →
    e.transport.blocked = false
  cost_le : e.transport.cost + e.cost e.transport.ids.length + c ≤ T.budget

namespace Credit

variable {T : Turn} {own : List (PeerId × SyncMessage)} {queue : List SyncMessage} {c : ℕ}
  {e : SyncEngine Fabric} {msg : SyncMessage}

theorem mono {d : ℕ} (h : T.Credit own queue c e) (hd : d ≤ c) : T.Credit own queue d e :=
  { h with cost_le := (Nat.add_le_add_left hd _).trans h.cost_le }

theorem pushEvent (h : T.Credit own queue c e) (event : SyncEvent) :
    T.Credit own queue c (e.pushEvent event) := { h with }

/-- What is sent is paid for each end. -/
theorem send (h : T.Credit own queue (c + e.transport.ids.length * msg.cost e.transport.ids.length)
    e) : T.Credit own queue c { e with transport := e.transport.deliver T.peer msg } where
  __ := h
  own_eq := by
    rw [← h.own_eq]
    exact if_neg fun hm => (Scene.mem_others.mp hm).2 rfl
  grows q hq m hm := Scene.mem_inbox_deliver.mpr (Or.inl (h.grows q hq hm))
  room hbudget hstart := by
    have hspent : 0 < e.transport.ids.length * msg.cost e.transport.ids.length :=
      Nat.mul_pos (List.length_pos_of_mem h.mem) (msg.cost_pos _)
    have hfree : ∀ q ∈ e.transport.others T.peer,
        (e.transport.inbox q).length < channelCapacity := by
      intro q hq
      have h1 := h.cost_le
      have h2 := Fabric.length_le_cost (Scene.mem_others.mp hq).1
      omega
    simpa [Fabric.deliver, h.room hbudget hstart] using hfree
  cost_le := by
    have h1 := h.cost_le
    have h2 := e.transport.cost_deliver T.peer msg
    have h3 : SyncEngine.cost e.transport.ids.length { e with
        transport := e.transport.deliver T.peer msg } = e.cost e.transport.ids.length := rfl
    change (e.transport.deliver T.peer msg).cost + SyncEngine.cost e.transport.ids.length _ + c ≤ _
    omega

theorem sendTo (h : T.Credit own queue (c + e.transport.ids.length *
    msg.cost e.transport.ids.length) e) (q : PeerId) :
    T.Credit own queue c (e.sendTo (Fabric.host T.peer) q msg).2 := by
  unfold SyncEngine.sendTo
  by_cases hf : e.transport.failSends T.peer
  · simp only [Fabric.host, hf, if_true]
    exact h.mono (Nat.le_add_right _ _)
  · simp only [Fabric.host, hf, if_false, Bool.false_eq_true]
    exact h.send

theorem broadcast (h : T.Credit own queue (c + e.transport.ids.length *
    msg.cost e.transport.ids.length) e) :
    T.Credit own queue c (e.broadcast (Fabric.host T.peer) msg).2 := by
  unfold SyncEngine.broadcast
  by_cases hf : e.transport.failSends T.peer || (e.transport.others T.peer).isEmpty
  · simp only [Fabric.host, hf, if_true]
    exact h.mono (Nat.le_add_right _ _)
  · simp only [Fabric.host, hf, if_false, Bool.false_eq_true]
    exact h.send

/-- A tracked operation may be resent. -/
theorem trackSent (h : T.Credit own queue (c + e.reliability.maxResends.toNat *
    (e.transport.ids.length * (e.transport.ids.length + 1))) e) :
    T.Credit own queue c (e.trackSent (Fabric.host T.peer) msg) := by
  cases msg with
  | operation op =>
    refine { h with cost_le := ?_ }
    have h1 := h.cost_le
    have h2 := BTreeMap.total_insert_le
      (f := PendingEntry.cost e.transport.ids.length e.reliability.maxResends)
      e.reliability.pending op.opId ⟨op, e.transport.clock 0, 1, 0⟩
    have h3 : PendingEntry.cost e.transport.ids.length e.reliability.maxResends
        ⟨op, e.transport.clock 0, 1, 0⟩ = e.reliability.maxResends.toNat *
          (e.transport.ids.length * (e.transport.ids.length + 1)) := by
      simp only [PendingEntry.cost, UInt32.toNat_one, Nat.add_sub_cancel]
    unfold SyncEngine.cost at h1
    change e.transport.cost + (BTreeMap.total (e.reliability.pending.insert op.opId _)
        (PendingEntry.cost e.transport.ids.length e.reliability.maxResends) +
      (e.offline.queue.map (SyncEngine.queuedCost e.transport.ids.length
        e.reliability.maxResends)).sum) + c ≤ _
    omega
  | _ => exact h.mono (Nat.le_add_right _ _)

/-- A message of the queue pays for itself. -/
theorem flushMessage (h : T.Credit own queue (c + SyncEngine.queuedCost e.transport.ids.length
    e.reliability.maxResends msg) e) :
    T.Credit own queue c (e.flushMessage (Fabric.host T.peer) msg) := by
  have hcost : c + SyncEngine.queuedCost e.transport.ids.length e.reliability.maxResends msg =
      c + e.reliability.maxResends.toNat * (e.transport.ids.length *
        (e.transport.ids.length + 1)) +
          e.transport.ids.length * msg.cost e.transport.ids.length := by
    rw [SyncEngine.queuedCost]
    omega
  rw [hcost] at h
  unfold SyncEngine.flushMessage SyncEngine.broadcast
  by_cases hf : e.transport.failSends T.peer || (e.transport.others T.peer).isEmpty
  · simp only [Fabric.host, hf, if_true]
    exact h.mono (by omega)
  · simp only [Fabric.host, hf, if_false, Bool.false_eq_true]
    exact h.send.trackSent

/-- The queue is sent: each message of it pays for itself. -/
theorem flush : ∀ {m : List SyncMessage} {e : SyncEngine Fabric},
    T.Credit own queue (c + (m.map (SyncEngine.queuedCost T.start.transport.ids.length
      T.start.reliability.maxResends)).sum) e →
    T.Credit own queue c (m.foldl (fun e msg => e.flushMessage (Fabric.host T.peer) msg) e)
  | [], _, h => h
  | msg :: m, e, h => by
    refine flush (m := m) (flushMessage ?_)
    rw [h.ids_eq, h.resends_eq]
    refine h.mono (le_of_eq ?_)
    rw [List.map_cons, List.sum_cons]
    omega

theorem flushOfflineQueue (h : T.Credit own queue c e) :
    T.Credit own [] c (e.flushOfflineQueue (Fabric.host T.peer)) := by
  refine flush (m := e.offline.queue) { h with queue_eq := rfl, cost_le := ?_ }
  have h1 := h.cost_le
  rw [← h.ids_eq, ← h.resends_eq]
  unfold SyncEngine.cost at h1
  change e.transport.cost + (BTreeMap.total e.reliability.pending
    (PendingEntry.cost e.transport.ids.length e.reliability.maxResends) + 0) + _ ≤ _
  omega

/-- A peer to be noticed: it is sent a snapshot, and the queue is sent. -/
theorem noticePeer (hup : T.start.transport.failSends T.peer = false) {q : PeerId}
    (hq : q ∉ T.known)
    (h : T.Credit own queue (c + T.start.transport.ids.length) e) :
    T.Credit own [] c (e.noticePeer (Fabric.host T.peer) q) := by
  have hs : T.Credit own queue c ((e.pushEvent (.peerJoined q)).sendTo (Fabric.host T.peer) q
      (.snapshot (e.pushEvent (.peerJoined q)).crdt.snapshot)).2 := by
    refine ((h.pushEvent _).mono (le_of_eq ?_)).sendTo q
    rw [← h.ids_eq]
    exact congrArg (c + ·) (Nat.mul_one _)
  unfold SyncEngine.noticePeer SyncEngine.handlePeerJoin
  rw [if_neg (h.known_eq ▸ hq)]
  unfold SyncEngine.sendTo at hs ⊢
  have hf : (e.pushEvent (.peerJoined q)).transport.failSends T.peer = false := by
    rw [← hup, ← h.fail_eq]
    rfl
  simp only [Fabric.host, hf, if_false, Bool.false_eq_true] at hs ⊢
  exact hs.flushOfflineQueue

/-- Each peer that is noticed leaves something. -/
theorem noticeAll (hup : T.start.transport.failSends T.peer = false) :
    ∀ {l : List PeerId} {c : ℕ} {queue : List SyncMessage} {e : SyncEngine Fabric},
      T.Credit own queue (c + (l.filter fun q => q ∉ T.known).length *
        (T.start.transport.ids.length + 1)) e →
      T.Credit own (if (l.filter fun q => q ∉ T.known) = [] then queue else [])
        (c + (l.filter fun q => q ∉ T.known).length)
        (l.foldl (fun e q => e.noticePeer (Fabric.host T.peer) q) e)
  | [], _, _, _, h => h.mono (Nat.le_add_right _ _)
  | q :: l, c, queue, e, h => by
    by_cases hq : q ∈ T.known
    · have heq : e.noticePeer (Fabric.host T.peer) q = e := if_pos (h.known_eq ▸ hq)
      rw [List.filter_cons_of_neg (by simpa using hq)] at h ⊢
      rw [List.foldl_cons, heq]
      exact noticeAll hup h
    · rw [List.filter_cons_of_pos (by simpa using hq), List.length_cons] at h ⊢
      have h1 := noticePeer (c := c + 1 + (l.filter fun q => q ∉ T.known).length *
        (T.start.transport.ids.length + 1)) hup hq (h.mono (by rw [Nat.succ_mul]; omega))
      have h2 := noticeAll hup (l := l) h1
      rw [ite_self] at h2
      rw [if_neg (List.cons_ne_nil _ _)]
      exact h2.mono (by omega)

theorem detectPeerChanges (hup : T.start.transport.failSends T.peer = false)
    (h : T.Credit own queue (c + T.start.joins (T.start.transport.others T.peer) *
      (T.start.transport.ids.length + 1)) e) (hknown : T.start.knownPeers = T.known) :
    Credit { T with known := T.start.transport.others T.peer } own
      (if T.start.joins (T.start.transport.others T.peer) = 0 then queue else [])
      (c + T.start.joins (T.start.transport.others T.peer))
      (e.detectPeerChanges (Fabric.host T.peer)) := by
  have hpeers : (Fabric.host T.peer).peers e.transport = T.start.transport.others T.peer := by
    simp only [Fabric.host, h.fail_eq, hup, if_false, Bool.false_eq_true, Fabric.others, h.ids_eq]
  have hall := noticeAll hup (l := T.start.transport.others T.peer)
    (by simpa only [SyncEngine.joins, hknown] using h)
  have hleft : ∀ {l : List PeerId} {queue : List SyncMessage} {c : ℕ} {e : SyncEngine Fabric},
      T.Credit own queue c e →
        T.Credit own queue c (l.foldl (fun e q => e.pushEvent (.peerLeft q)) e) := by
    intro l
    induction l with
    | nil => exact id
    | cons q l ih => exact fun h => ih (h.pushEvent _)
  simp only [SyncEngine.joins, hknown, List.length_eq_zero_iff]
  unfold SyncEngine.detectPeerChanges
  rw [hpeers]
  exact { hleft hall with known_eq := rfl }

/-! ## Receiving -/

theorem handleOperation (h : T.Credit own queue (c + T.start.transport.ids.length) e)
    (q : PeerId) (o : TaggedOperation) :
    T.Credit own queue c (e.handleOperation (Fabric.host T.peer) q o) := by
  unfold SyncEngine.handleOperation
  split
  · exact h.mono (Nat.le_add_right _ _)
  · have happlied : T.Credit own queue (c + T.start.transport.ids.length)
        { e with crdt := e.crdt.applyRemote o } := { h with }
    refine (Credit.sendTo (happlied.mono (le_of_eq ?_)) q).pushEvent _
    rw [← h.ids_eq]
    exact congrArg (c + ·) (Nat.mul_one _)

theorem handleBatch (q : PeerId) :
    ∀ {l : List TaggedOperation} {e : SyncEngine Fabric},
      T.Credit own queue (c + l.length * T.start.transport.ids.length) e →
      T.Credit own queue c (l.foldl (fun e o => e.handleOperation (Fabric.host T.peer) q o) e)
  | [], _, h => h.mono (Nat.le_add_right _ _)
  | o :: l, _, h => by
    refine handleBatch q (l := l) (handleOperation (h.mono (le_of_eq ?_)) q o)
    rw [List.length_cons, Nat.succ_mul]
    omega

/-- A message that is handled leaves something. -/
theorem handleMessage (h : T.Credit own queue (c + msg.cost T.start.transport.ids.length) e)
    (q : PeerId) :
    T.Credit own queue (c + 1) (e.handleMessage (Fabric.host T.peer) q msg) := by
  cases msg with
  | operation o => exact (h.mono (by simp only [SyncMessage.cost]; omega)).handleOperation q o
  | batch ops => exact handleBatch q (l := ops) (h.mono (by simp only [SyncMessage.cost]; omega))
  | ack i =>
    have hres := (ReliabilityManager.onAck_rest e.reliability i q).2.1
    have hcost : BTreeMap.total (e.reliability.onAck i q).2.pending
          (PendingEntry.cost e.transport.ids.length e.reliability.maxResends) ≤
        BTreeMap.total e.reliability.pending
          (PendingEntry.cost e.transport.ids.length e.reliability.maxResends) := by
      unfold ReliabilityManager.onAck
      split
      · split_ifs <;> exact le_rfl
      · exact BTreeMap.total_erase_le _ _
    refine { h with resends_eq := hres.trans h.resends_eq, cost_le := ?_ }
    have h1 := h.cost_le
    unfold SyncEngine.cost at h1
    simp only [SyncEngine.handleMessage, SyncEngine.cost, hres, SyncMessage.cost] at h1 ⊢
    omega
  | requestSnapshot =>
    refine Credit.sendTo (h.mono (le_of_eq ?_)) q
    rw [h.ids_eq]
    simp only [SyncMessage.cost]
    omega
  | snapshot s => exact { h with }
  | playheadUpdate _ | transportControl _ | presenceUpdate _ | clockSync _ => exact h.pushEvent _

/-- Each message the loop handles leaves something. -/
theorem receiveLoop :
    ∀ {k c : ℕ} {own : List (PeerId × SyncMessage)} {e : SyncEngine Fabric},
      T.Credit own queue c e →
      T.Credit (own.drop k) queue (c + min k own.length)
        (SyncEngine.receiveLoop (Fabric.host T.peer) k e).2
  | 0, c, own, e, h => h.mono (by omega)
  | k + 1, c, own, e, h => by
    unfold SyncEngine.receiveLoop
    rcases hi : e.transport.inbox T.peer with _ | ⟨⟨q, msg⟩, rest⟩
    · obtain rfl : own = [] := h.own_eq.symm.trans hi
      simp only [Fabric.host, hi]
      exact h
    · obtain rfl : own = (q, msg) :: rest := h.own_eq.symm.trans hi
      simp only [Fabric.host, hi]
      have hpop : T.Credit rest queue (c + msg.cost T.start.transport.ids.length)
          { e with transport := { e.transport with
              inbox := Function.update e.transport.inbox T.peer rest } } := by
        refine { h with
          own_eq := Function.update_self ..
          grows := fun r hr => ?_
          cost_le := ?_ }
        · simp only [Function.update_of_ne hr]
          exact h.grows r hr
        · have h1 := h.cost_le
          have h2 := Fabric.cost_pop h.mem hi
          rw [← h.ids_eq]
          rw [← h2] at h1
          change Fabric.cost _ + e.cost e.transport.ids.length + _ ≤ _
          dsimp only at h1 ⊢
          omega
      exact (receiveLoop (hpop.handleMessage q)).mono (by simp only [List.length_cons]; omega)

/-! ## Resending -/

theorem broadcastAll :
    ∀ {l : List TaggedOperation} {e : SyncEngine Fabric},
      T.Credit own queue (c + l.length * (T.start.transport.ids.length *
        (T.start.transport.ids.length + 1))) e →
      T.Credit own queue c
        (l.foldl (fun e o => (e.broadcast (Fabric.host T.peer) (.operation o)).2) e)
  | [], _, h => h.mono (Nat.le_add_right _ _)
  | o :: l, _, h => by
    refine broadcastAll (l := l) (Credit.broadcast (h.mono (le_of_eq ?_)))
    rw [h.ids_eq, List.length_cons, Nat.succ_mul, SyncMessage.cost]
    omega

/-- What is resent has been paid for when it was tracked. -/
theorem resendDue (hr : T.start.reliability.maxResends.toNat + 1 < 2 ^ 32)
    (h : T.Credit own queue c e) : T.Credit own queue c (e.resendDue (Fabric.host T.peer)) := by
  refine broadcastAll (l := (e.reliability.dueForResend (e.transport.clock 0)).1)
    { h with cost_le := ?_ }
  have h1 := h.cost_le
  have h2 := e.reliability.total_due (e.transport.clock 0) e.transport.ids.length
    (h.resends_eq.symm ▸ hr)
  rw [← h.ids_eq]
  unfold SyncEngine.cost at h1
  change e.transport.cost + (BTreeMap.total (e.reliability.dueForResend
        (e.transport.clock 0)).2.pending
      (PendingEntry.cost e.transport.ids.length e.reliability.maxResends) +
    (e.offline.queue.map (SyncEngine.queuedCost e.transport.ids.length
      e.reliability.maxResends)).sum) + _ ≤ _
  omega

/-- A turn pays for itself, and leaves something for each peer noticed and each message handled. -/
theorem processMessages (hup : T.start.transport.failSends T.peer = false)
    (hr : T.start.reliability.maxResends.toNat + 1 < 2 ^ 32)
    (h : T.Credit own queue (c + T.start.joins (T.start.transport.others T.peer) *
      (T.start.transport.ids.length + 1)) e) (hknown : T.start.knownPeers = T.known) :
    Credit { T with known := T.start.transport.others T.peer }
      (own.drop T.start.config.maxMessagesPerTick)
      (if T.start.joins (T.start.transport.others T.peer) = 0 then queue else [])
      (c + T.start.joins (T.start.transport.others T.peer) +
        min T.start.config.maxMessagesPerTick own.length)
      (e.processMessages (Fabric.host T.peer)).2 := by
  have hd := h.detectPeerChanges hup hknown
  have hl := hd.receiveLoop (k := T.start.config.maxMessagesPerTick)
  rw [← hd.config_eq] at hl ⊢
  exact hl.resendDue hr

end Credit

end Turn

/-! ## Rounds -/

namespace Collaboration

variable {C : Collaboration} {p : PeerId}

/-- An engine polls, counts its resends without wrapping, and has not had its queue overflow. -/
structure Live (e : SyncEngine Fabric) : Prop where
  polls : 0 < e.config.maxMessagesPerTick
  resends : e.reliability.maxResends.toNat + 1 < 2 ^ 32
  kept : e.offline.evicted = []

/-- The links are up, each queue will be flushed, and the engines are live. -/
structure Ready (C : Collaboration) : Prop where
  connected : C.Connected
  flushable : C.Flushable
  live : ∀ p ∈ C.fabric.ids, Live (C.engines p)

/-- The peers that `p` has yet to notice. -/
def joins (C : Collaboration) (p : PeerId) : ℕ := (C.engines p).joins (C.fabric.others p)

/-- There is something for `p` to do. -/
def Busy (C : Collaboration) (p : PeerId) : Prop := C.fabric.inbox p ≠ [] ∨ C.joins p ≠ 0

/-- What the engine of `p` may cost. -/
def worth (C : Collaboration) (p : PeerId) : ℕ :=
  (C.engines p).cost C.fabric.ids.length + C.joins p * (C.fabric.ids.length + 1)

/-- What is in the channels and what may still be sent, with a price for each message. -/
def potential (C : Collaboration) : ℕ := C.fabric.cost + (C.fabric.ids.map C.worth).sum

/-- What a turn of `p` leads to. -/
structure Turned (C : Collaboration) (p : PeerId) (C' : Collaboration) : Prop where
  ready : C'.Ready
  ids_eq : C'.fabric.ids = C.fabric.ids
  engines_eq : ∀ q, q ≠ p → C'.engines q = C.engines q
  grows : ∀ q, q ≠ p → C.fabric.inbox q ⊆ C'.fabric.inbox q
  room : C.potential ≤ channelCapacity → C.fabric.blocked = false → C'.fabric.blocked = false
  le : C'.potential ≤ C.potential
  lt : C.Busy p → C'.potential < C.potential

/-- The account of a turn that leaves the engine `e`. -/
def Accounts (C : Collaboration) (p : PeerId) (e : SyncEngine Fabric) : Prop :=
  Turn.Credit ⟨p, C.engine p, C.fabric.others p, C.fabric.cost + C.worth p⟩
    ((C.fabric.inbox p).drop (C.engines p).config.maxMessagesPerTick)
    (if C.joins p = 0 then (C.engines p).offline.queue else [])
    (C.joins p + min (C.engines p).config.maxMessagesPerTick (C.fabric.inbox p).length) e

/-- Nothing waits at an end that knows everyone. -/
theorem Ready.queue_eq_nil (h : C.Ready) (hp : p ∈ C.fabric.ids) (hj : C.joins p = 0) :
    (C.engines p).offline.queue = [] := by
  rcases h.flushable p hp with hqueue | ⟨r, hr, hrk⟩
  · exact hqueue
  · have hmem : r ∈ (C.fabric.others p).filter fun r => r ∉ (C.engines p).knownPeers :=
      List.mem_filter.mpr ⟨hr, by simpa using hrk⟩
    rw [List.length_eq_zero_iff.mp hj] at hmem
    exact absurd hmem List.not_mem_nil

theorem Ready.quiet (h : C.Ready) (hidle : ∀ p ∈ C.fabric.ids, ¬C.Busy p) : C.Quiet := by
  intro p hp
  have hp' := hidle p hp
  simp only [Busy, not_or, not_not] at hp'
  exact ⟨hp'.1, h.queue_eq_nil hp hp'.2, (h.live p hp).kept⟩

namespace Accounts

variable {e : SyncEngine Fabric}

theorem ids (ha : C.Accounts p e) : e.transport.ids = C.fabric.ids := ha.ids_eq

theorem others (ha : C.Accounts p e) (q : PeerId) : e.transport.others q = C.fabric.others q := by
  rw [Fabric.others, ha.ids, Fabric.others]

/-- A turn leaves no queue behind. -/
theorem queue (ha : C.Accounts p e) (h : C.Ready) (hp : p ∈ C.fabric.ids) :
    e.offline.queue = [] := by
  rw [ha.queue_eq]
  split_ifs with hj
  · exact h.queue_eq_nil hp hj
  · rfl

theorem live (ha : C.Accounts p e) (h : Live (C.engines p)) : Live e := by
  refine ⟨?_, ?_, ha.evicted_eq.trans h.kept⟩
  · rw [ha.config_eq]
    exact h.polls
  · rw [ha.resends_eq]
    exact h.resends

theorem room (ha : C.Accounts p e) (hp : p ∈ C.fabric.ids)
    (hroom : C.potential ≤ channelCapacity) (hopen : C.fabric.blocked = false) :
    e.transport.blocked = false := by
  have hworth : C.worth p ≤ (C.fabric.ids.map C.worth).sum :=
    List.single_le_sum (fun _ _ => Nat.zero_le _) _ (List.mem_map_of_mem hp)
  exact Turn.Credit.room ha ((Nat.add_le_add_left hworth _).trans hroom) hopen

/-- Only the engine of `p` has changed, and it knows everyone now. -/
theorem potential_le (ha : C.Accounts p e) (hp : p ∈ C.fabric.ids) :
    potential ⟨e.transport, Function.update C.engines p e⟩ +
      (C.joins p + min (C.engines p).config.maxMessagesPerTick (C.fabric.inbox p).length) ≤
        C.potential := by
  have hids := ha.ids
  have hknown : e.knownPeers = C.fabric.others p := ha.known_eq
  have hsum := sum_map_exchange (g := C.worth)
    (f := worth ⟨e.transport, Function.update C.engines p e⟩) C.fabric.distinct hp fun q _ hq => by
      simp only [worth, joins, Function.update_of_ne hq, hids, ha.others]
  have hworth : worth ⟨e.transport, Function.update C.engines p e⟩ p =
      e.cost C.fabric.ids.length := by
    have hnone : ((C.fabric.others p).filter fun q => q ∉ C.fabric.others p) = [] :=
      List.filter_eq_nil_iff.mpr fun q hq => by simpa using hq
    simp only [worth, joins, SyncEngine.joins, Function.update_self, ha.others, hknown, hnone,
      hids, List.length_nil, Nat.zero_mul, Nat.add_zero]
  have hle := ha.cost_le
  rw [hworth] at hsum
  rw [hids] at hle
  rw [potential, potential]
  simp only [hids]
  dsimp only at hle
  omega

theorem turned (ha : C.Accounts p e) (h : C.Ready) (hp : p ∈ C.fabric.ids) :
    C.Turned p ⟨e.transport, Function.update C.engines p e⟩ := by
  have hids := ha.ids
  have hpot := ha.potential_le hp
  refine ⟨⟨fun q hq => ?_, fun q hq => ?_, fun q hq => ?_⟩, hids,
    fun q hq => Function.update_of_ne hq .., ha.grows, ha.room hp,
    (Nat.le_add_right _ _).trans hpot, fun hbusy => ?_⟩
  · exact (congrFun ha.fail_eq q).trans (h.connected q (hids ▸ hq))
  · by_cases hqp : q = p
    · subst hqp
      simp only [Function.update_self]
      exact Or.inl (ha.queue h hp)
    · simp only [Function.update_of_ne hqp, ha.others]
      exact h.flushable q (hids ▸ hq)
  · by_cases hqp : q = p
    · subst hqp
      simpa only [Function.update_self] using ha.live (h.live q hp)
    · simpa only [Function.update_of_ne hqp] using h.live q (hids ▸ hq)
  · have hpoll := (h.live p hp).polls
    rcases hbusy with hinbox | hjoin
    · have := List.length_pos_of_ne_nil hinbox
      omega
    · have := Nat.pos_of_ne_zero hjoin
      omega

end Accounts

namespace Ready

theorem accounts (h : C.Ready) (hp : p ∈ C.fabric.ids) :
    C.Accounts p ((C.engine p).processMessages (Fabric.host p)).2 := by
  have hstart : Turn.Credit ⟨p, C.engine p, (C.engines p).knownPeers,
      C.fabric.cost + C.worth p⟩ (C.fabric.inbox p) (C.engines p).offline.queue
      (0 + C.joins p * (C.fabric.ids.length + 1)) (C.engine p) :=
    { mem := hp, ids_eq := rfl, fail_eq := rfl, config_eq := rfl, resends_eq := rfl
      evicted_eq := rfl, known_eq := rfl, own_eq := rfl, queue_eq := rfl
      grows := fun _ _ _ => id
      room := fun _ => id
      cost_le := by
        rw [worth, Nat.zero_add, Nat.add_assoc]
        exact le_rfl }
  exact (hstart.processMessages (h.connected p hp) (h.live p hp).resends rfl).mono (by
    rw [Nat.zero_add]
    exact le_rfl)

/-- A turn. -/
theorem turned (h : C.Ready) (hp : p ∈ C.fabric.ids) :
    C.Turned p (C.step (.call p .processMessages)) :=
  (h.accounts hp).turned h hp

/-- Turns of the ends of a list: the potential is no higher, and lower if one of them was busy. -/
theorem round :
    ∀ {l : List PeerId} {C : Collaboration}, C.Ready → (∀ p ∈ l, p ∈ C.fabric.ids) →
      (machine.run C (Collaboration.round l)).Ready ∧
        (machine.run C (Collaboration.round l)).fabric.ids = C.fabric.ids ∧
        (machine.run C (Collaboration.round l)).potential ≤ C.potential ∧
        ((∃ p ∈ l, C.Busy p) →
          (machine.run C (Collaboration.round l)).potential < C.potential)
  | [], C, h, _ => ⟨h, rfl, le_rfl, fun ⟨_, hp, _⟩ => absurd hp List.not_mem_nil⟩
  | p :: l, C, h, hl => by
    have ht := h.turned (hl p List.mem_cons_self)
    have hrun : machine.run C (Collaboration.round (p :: l)) =
        machine.run (C.step (.call p .processMessages)) (Collaboration.round l) := rfl
    rw [hrun]
    generalize C.step (.call p .processMessages) = D at ht ⊢
    obtain ⟨hready, hids, hle, hlt⟩ := round (l := l) ht.ready fun q hq =>
      ht.ids_eq.symm ▸ hl q (List.mem_cons_of_mem p hq)
    refine ⟨hready, hids.trans ht.ids_eq, hle.trans ht.le, ?_⟩
    rintro ⟨q, hq, hbusy⟩
    by_cases hqp : q = p
    · exact hle.trans_lt (ht.lt (hqp ▸ hbusy))
    · refine (hlt ⟨q, (List.mem_cons.mp hq).resolve_left hqp, ?_⟩).trans_le ht.le
      -- another's turn leaves `q` at least as much to do
      rcases hbusy with hinbox | hjoin
      · refine Or.inl fun hnil => hinbox ?_
        have hgrows := ht.grows q hqp
        rw [hnil] at hgrows
        exact List.subset_nil.mp hgrows
      · refine Or.inr ?_
        have hothers : D.fabric.others q = C.fabric.others q := by
          rw [Fabric.others, ht.ids_eq, Fabric.others]
        simpa only [joins, ht.engines_eq q hqp, hothers] using hjoin

end Ready

/-- While what may still be sent fits into a channel, no poll waits. -/
theorem rounds_valid {ids : List PeerId} :
    ∀ {l : List CollaborationEvent} {C : Collaboration}, C.Ready → C.fabric.ids = ids →
      (∀ a ∈ l, ∃ p ∈ ids, a = .call p .processMessages) → C.potential ≤ channelCapacity →
        C.fabric.blocked = false → machine.Valid C l
  | [], _, _, _, _, _, _ => trivial
  | a :: l, C, h, hids, hall, hroom, hopen => by
    obtain ⟨p, hp, rfl⟩ := hall a List.mem_cons_self
    have ht := h.turned (hids.symm ▸ hp)
    have hopen' := ht.room hroom hopen
    exact ⟨⟨hids.symm ▸ hp, trivial, hopen'⟩, rounds_valid ht.ready (ht.ids_eq.trans hids)
      (fun b hb => hall b (List.mem_cons_of_mem _ hb)) (ht.le.trans hroom) hopen'⟩

/-- A poll edits nothing. -/
theorem rounds_along :
    ∀ {l : List CollaborationEvent} {C : Collaboration},
      (∀ a ∈ l, ∃ p, a = .call p .processMessages) →
        machine.Along Transmits C l ∧ machine.Along EditsOwn C l
  | [], _, _ => ⟨trivial, trivial⟩
  | a :: l, C, hall => by
    obtain ⟨p, rfl⟩ := hall a List.mem_cons_self
    obtain ⟨ht, ho⟩ := rounds_along (l := l) (C := C.step (.call p .processMessages))
      fun b hb => hall b (List.mem_cons_of_mem _ hb)
    exact ⟨⟨trivial, ht⟩, trivial, ho⟩

theorem mem_rounds {n : ℕ} {ids : List PeerId} {a : CollaborationEvent}
    (ha : a ∈ Machine.rounds n (Collaboration.round ids)) :
    ∃ p ∈ ids, a = .call p .processMessages := by
  obtain ⟨m, hm, ham⟩ := List.mem_flatten.mp ha
  obtain rfl := List.eq_of_mem_replicate hm
  obtain ⟨p, hp, rfl⟩ := List.mem_map.mp ham
  exact ⟨p, hp, rfl⟩

/-- No call of a run has come to wait. -/
theorem run_unblocked {events : List CollaborationEvent} (hrun : machine.Valid C events)
    (h : C.fabric.blocked = false) : (machine.run C events).fabric.blocked = false := by
  refine Machine.Along.run_inv (I := fun C => C.fabric.blocked = false) (fun C a _ hC he => ?_)
    hrun h
  cases a with
  | call p a => exact he.2.2
  | setFailSends p fail => exact hC

section

variable {ids : List PeerId} (distinct : ids.Nodup) (clock : ℕ → UInt64)
  {config : PeerId → EngineConfig} (hconfig : ∀ p, (config p).offlineQueue = true)
  {events : List CollaborationEvent}
  (hrun : machine.Valid (new (.fabric ids distinct clock) config) events)
  (ht : machine.Along Transmits (new (.fabric ids distinct clock) config) events)
  (he : machine.Along EditsOwn (new (.fabric ids distinct clock) config) events)

include hconfig hrun ht he

/-- Wherever a run has led, once the links are up and no queue waits for a join that has passed,
polling in turns ends with nothing on its way and all ends agreed, if no poll waits at a full
channel. None does if what may still be sent fits into one. -/
theorem run_settles (hpolls : ∀ p, 0 < (config p).maxMessagesPerTick)
    (hresends : ∀ p, (config p).maxResends.toNat + 1 < 2 ^ 32)
    (hup : (machine.run (new (.fabric ids distinct clock) config) events).Connected)
    (hflush : (machine.run (new (.fabric ids distinct clock) config) events).Flushable)
    (hkept : ∀ p ∈ ids, ((machine.run (new (.fabric ids distinct clock) config) events).engines
      p).offline.evicted = []) :
    ∃ n, ((machine.run (new (.fabric ids distinct clock) config) events).potential ≤
          channelCapacity →
        machine.Valid (new (.fabric ids distinct clock) config)
          (events ++ Machine.rounds n (round ids))) ∧
      (machine.Valid (new (.fabric ids distinct clock) config)
          (events ++ Machine.rounds n (round ids)) →
        (machine.run (new (.fabric ids distinct clock) config)
          (events ++ Machine.rounds n (round ids))).Quiet ∧
        ∀ p ∈ ids, ∀ q ∈ ids,
          ((machine.run (new (.fabric ids distinct clock) config)
            (events ++ Machine.rounds n (round ids))).engines p).crdt.Agree
          ((machine.run (new (.fabric ids distinct clock) config)
            (events ++ Machine.rounds n (round ids))).engines q).crdt) := by
  set C := machine.run (new (.fabric ids distinct clock) config) events with hC
  obtain ⟨hids, hcon, l, -, -, hsound⟩ := goes_new distinct clock hconfig hrun ht
  rw [← hC] at hids hcon hsound
  have hids : C.fabric.ids = ids := hids
  have hcon : ∀ p, (C.engines p).config = config p := hcon
  have hready : C.Ready := by
    refine ⟨hup, hflush, fun p hp => ⟨?_, ?_, hkept p (hids ▸ hp)⟩⟩
    · rw [hcon]
      exact hpolls p
    · rw [hsound.resends_eq, hcon]
      exact hresends p
  obtain ⟨n, hquiet⟩ := Machine.exists_rounds (M := machine) (l := Collaboration.round ids)
    (μ := potential) (I := fun C => C.Ready ∧ C.fabric.ids = ids) (G := Quiet)
    (fun C h => by
      obtain ⟨h1, h2, -, -⟩ := Ready.round (l := ids) h.1 fun p hp => h.2.symm ▸ hp
      exact ⟨h1, h2.trans h.2⟩)
    (fun C h hbad => by
      obtain ⟨-, -, -, hlt⟩ := Ready.round (l := ids) h.1 fun p hp => h.2.symm ▸ hp
      refine hlt (by_contra fun hidle => hbad (h.1.quiet fun p hp hbusy => hidle ⟨p, ?_, hbusy⟩))
      exact h.2 ▸ hp)
    (s := C) ⟨hready, hids⟩
  have hquiet' : (machine.run (new (.fabric ids distinct clock) config)
      (events ++ Machine.rounds n (Collaboration.round ids))).Quiet := by
    rw [Machine.run_append]
    exact hquiet
  obtain ⟨ht', he'⟩ := rounds_along (l := Machine.rounds n (Collaboration.round ids)) (C := C)
    fun a ha => (mem_rounds ha).imp fun _ => And.right
  refine ⟨n, fun hroom => Machine.valid_append.mpr ⟨hrun, ?_⟩, fun hv => ⟨hquiet', ?_⟩⟩
  · exact rounds_valid hready hids (fun _ => mem_rounds) hroom (run_unblocked hrun rfl)
  · exact fun p hp q hq => run_quiet_agree distinct clock hconfig hv
      (Machine.along_append.mpr ⟨ht, ht'⟩) (Machine.along_append.mpr ⟨he, he'⟩) hquiet' p q hp hq

end

/-- The two ends of `pairRun`, from the first edit on. -/
theorem pairRun_settles : ∃ n, machine.Valid pairUp
      (pairRun.take 1 ++ Machine.rounds n (round [⟨1⟩, ⟨2⟩])) ∧
    (machine.run pairUp (pairRun.take 1 ++ Machine.rounds n (round [⟨1⟩, ⟨2⟩]))).Quiet ∧
    ∀ p ∈ [(⟨1⟩ : PeerId), ⟨2⟩], ∀ q ∈ [(⟨1⟩ : PeerId), ⟨2⟩],
      ((machine.run pairUp (pairRun.take 1 ++ Machine.rounds n (round [⟨1⟩, ⟨2⟩]))).engines
        p).crdt.Agree
      ((machine.run pairUp (pairRun.take 1 ++ Machine.rounds n (round [⟨1⟩, ⟨2⟩]))).engines
        q).crdt := by
  have hrun : machine.Valid pairUp (pairRun.take 1) :=
    ((Machine.valid_append (m := pairRun.drop 1)).mp pairRun_valid).1
  obtain ⟨n, hv, hsettled⟩ := run_settles (by decide) (fun _ => 0) (fun _ => rfl) hrun
    ((Machine.along_append (m := pairRun.drop 1)).mp pairRun_transmits).1
    ((Machine.along_append (m := pairRun.drop 1)).mp pairRun_editsOwn).1
    (fun _ => by decide) (fun _ => by decide) (fun _ _ => rfl)
    (fun p hp => by
      refine Or.inl ?_
      rcases List.mem_cons.mp hp with rfl | hp
      · rfl
      · obtain rfl := List.mem_singleton.mp hp
        rfl)
    fun p hp => by
      rcases List.mem_cons.mp hp with rfl | hp
      · rfl
      · obtain rfl := List.mem_singleton.mp hp
        rfl
  have hroom : (machine.run pairUp (pairRun.take 1)).potential ≤ channelCapacity := by
    decide +kernel
  exact ⟨n, hv hroom, hsettled (hv hroom)⟩

end Collaboration

end AvSync
