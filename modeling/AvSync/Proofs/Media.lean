import AvSync.Media
import AvSync.Proofs.Inbound
import AvSync.Proofs.Loopback
import AvSync.Proofs.Reissues

/-!
# Engines on any honest medium

While an engine is at work, what it logs, queues, tracks and sends are operations that its group
knows (`Knows`), and its timeline takes in nothing else. So a group only hears of what its own peers
have created or the medium held for it from the start (`Ensemble.group_of_log`). From a medium that
holds nothing, a run of engines is a run of a net (`Ensemble.run_refines`), and engines that know
the same operations agree.
-/

namespace AvSync

namespace Medium

variable {σ ε γ : Type} {M : Medium σ ε γ} {I : σ → Prop} {known : γ → Set TaggedOperation}
  {p : PeerId} {c : TimelineCrdt} {e : SyncEngine σ} {m : SyncMessage}

/-- Everything about the engine of `p` and its medium is about the operations known to the groups,
and its timeline is that of `c` with some of them delivered. -/
structure Knows (M : Medium σ ε γ) (I : σ → Prop) (known : γ → Set TaggedOperation) (p : PeerId)
    (c : TimelineCrdt) (e : SyncEngine σ) : Prop where
  fit : I e.transport
  holds : ∀ g o, M.Holds e.transport g o → o ∈ known g
  logged : ∀ o ∈ e.crdt.operationLog, o ∈ known (M.group p)
  queued : ∀ m ∈ e.offline.queue, ∀ o ∈ m.contents, o ∈ known (M.group p)
  tracked : ∀ (i : OperationId) (entry : PendingEntry),
    e.reliability.pending[i]? = some entry → entry.op ∈ known (M.group p)
  grown : ∃ l, (∀ o ∈ l, o ∈ known (M.group p)) ∧ e.crdt = c.deliver l

namespace Knows

/-! ## Sending -/

theorem kept (h : M.Knows I known p c e) {t : σ} (ht : M.Keeps I e.transport t) :
    M.Knows I known p c { e with transport := t } :=
  { h with
    fit := ht.1
    holds := fun g o ho => h.holds g o (ht.2 g o ho) }

theorem passed (h : M.Knows I known p c e) (hm : ∀ o ∈ m.contents, o ∈ known (M.group p)) {t : σ}
    (ht : M.Passes I p m.contents e.transport t) :
    M.Knows I known p c { e with transport := t } :=
  { h with
    fit := ht.1
    holds := fun g o ho => (ht.2 g o ho).elim (h.holds g o) fun ⟨hg, ho⟩ => hg ▸ hm o ho }

theorem pushEvent (h : M.Knows I known p c e) (event : SyncEvent) :
    M.Knows I known p c (e.pushEvent event) := { h with }

section

variable (hM : M.Honest I)

include hM

theorem sendTo (h : M.Knows I known p c e) (hm : ∀ o ∈ m.contents, o ∈ known (M.group p))
    (q : PeerId) : M.Knows I known p c (e.sendTo (M.host p) q m).2 :=
  h.passed hm (hM.sendTo h.fit)

theorem broadcast (h : M.Knows I known p c e) (hm : ∀ o ∈ m.contents, o ∈ known (M.group p)) :
    M.Knows I known p c (e.broadcast (M.host p) m).2 :=
  h.passed hm (hM.broadcast h.fit)

theorem trackSent (h : M.Knows I known p c e) (hm : ∀ o ∈ m.contents, o ∈ known (M.group p)) :
    M.Knows I known p c (e.trackSent (M.host p) m) := by
  cases m with
  | operation op =>
    refine { h.kept (hM.nowMs h.fit) with tracked := fun i entry hi => ?_ }
    change (e.reliability.pending.insert op.opId _)[i]? = some entry at hi
    rw [BTreeMap.getElem?_insert_if] at hi
    split_ifs at hi
    · obtain rfl := Option.some.inj hi
      exact hm op (List.mem_singleton.mpr rfl)
    · exact h.tracked i entry hi
  | _ => exact h

omit hM in
theorem enqueue (h : M.Knows I known p c e) (hm : ∀ o ∈ m.contents, o ∈ known (M.group p)) :
    M.Knows I known p c { e with offline := e.offline.enqueue m } := by
  refine { h with queued := fun m' hm' => ?_ }
  have hold : m' ∈ e.offline.queue ∨ m' = m := by
    simp only [OfflineQueue.enqueue] at hm'
    split_ifs at hm' <;> rcases List.mem_append.mp hm' with hm' | hm'
    · exact Or.inl (List.mem_of_mem_tail hm')
    · exact Or.inr (List.mem_singleton.mp hm')
    · exact Or.inl hm'
    · exact Or.inr (List.mem_singleton.mp hm')
  rcases hold with hm' | rfl
  · exact h.queued m' hm'
  · exact hm

theorem dispatch (h : M.Knows I known p c e) (hm : ∀ o ∈ m.contents, o ∈ known (M.group p)) :
    M.Knows I known p c (e.dispatch (M.host p) m) := by
  have hsent := h.broadcast hM hm
  unfold SyncEngine.dispatch
  rcases hr : e.broadcast (M.host p) m with ⟨err | _, e'⟩ <;> rw [hr] at hsent
  · dsimp only
    split_ifs
    · exact hsent.enqueue hm
    · exact hsent
  · exact hsent.trackSent hM hm

theorem flushMessage (h : M.Knows I known p c e) (hm : ∀ o ∈ m.contents, o ∈ known (M.group p)) :
    M.Knows I known p c (e.flushMessage (M.host p) m) := by
  have hsent := h.broadcast hM hm
  unfold SyncEngine.flushMessage
  rcases hr : e.broadcast (M.host p) m with ⟨err | _, e'⟩ <;> rw [hr] at hsent
  · exact hsent
  · exact hsent.trackSent hM hm

theorem flushOfflineQueue (h : M.Knows I known p c e) :
    M.Knows I known p c (e.flushOfflineQueue (M.host p)) := by
  refine List.foldlRecOn _ _ ?_ fun e he m hm => he.flushMessage hM (h.queued m hm)
  exact { h with queued := fun m hm => absurd hm List.not_mem_nil }

theorem requestSnapshot (h : M.Knows I known p c e) :
    M.Knows I known p c (e.requestSnapshot (M.host p)) :=
  h.dispatch hM fun _ ho => absurd ho List.not_mem_nil

/-! ## Peers -/

theorem handlePeerJoin (h : M.Knows I known p c e) (q : PeerId) :
    M.Knows I known p c (e.handlePeerJoin (M.host p) q).2 := by
  have hsent := h.sendTo hM (m := .snapshot e.crdt.snapshot) h.logged q
  unfold SyncEngine.handlePeerJoin
  rcases hr : e.sendTo (M.host p) q (.snapshot e.crdt.snapshot) with ⟨err | _, e'⟩ <;>
    rw [hr] at hsent
  · exact hsent
  · exact hsent.flushOfflineQueue hM

theorem noticePeer (h : M.Knows I known p c e) (q : PeerId) :
    M.Knows I known p c (e.noticePeer (M.host p) q) := by
  unfold SyncEngine.noticePeer
  split_ifs
  · exact h
  · exact (h.pushEvent _).handlePeerJoin hM q

theorem detectPeerChanges (h : M.Knows I known p c e) :
    M.Knows I known p c (e.detectPeerChanges (M.host p)) := by
  have hjoined := List.foldlRecOn ((M.host p).peers e.transport) (SyncEngine.noticePeer (M.host p))
    h fun e he q _ => he.noticePeer hM q
  exact { List.foldlRecOn _ _ hjoined fun e he q _ => he.pushEvent (.peerLeft q) with }

/-! ## Receiving -/

omit hM in
theorem deliver (h : M.Knows I known p c e) {l : List TaggedOperation}
    (hl : ∀ o ∈ l, o ∈ known (M.group p)) :
    M.Knows I known p c { e with crdt := e.crdt.deliver l } := by
  obtain ⟨l', hl', hgrown⟩ := h.grown
  refine { h with
    logged := fun o ho => ?_
    grown := ⟨l' ++ l, fun o ho => (List.mem_append.mp ho).elim (hl' o) (hl o), ?_⟩ }
  · rw [TimelineCrdt.operationLog_deliver] at ho
    rcases List.mem_append.mp ho with ho | ho
    · exact h.logged o ho
    · exact hl o (TimelineCrdt.mem_of_mem_unseen ho)
  · rw [hgrown, TimelineCrdt.deliver, TimelineCrdt.deliver, TimelineCrdt.deliver,
      List.foldl_append]

theorem handleOperation (h : M.Knows I known p c e) {o : TaggedOperation}
    (ho : o ∈ known (M.group p)) (q : PeerId) :
    M.Knows I known p c (e.handleOperation (M.host p) q o) := by
  unfold SyncEngine.handleOperation
  split
  · exact h
  · have hd := h.deliver (l := [o]) fun b hb => List.mem_singleton.mp hb ▸ ho
    exact (hd.sendTo hM (fun b hb => absurd hb List.not_mem_nil) q).pushEvent _

theorem handleMessage (h : M.Knows I known p c e) (hm : ∀ o ∈ m.contents, o ∈ known (M.group p))
    (q : PeerId) : M.Knows I known p c (e.handleMessage (M.host p) q m) := by
  cases m with
  | operation op => exact h.handleOperation hM (hm op (List.mem_singleton.mpr rfl)) q
  | batch ops => exact List.foldlRecOn _ _ h fun e he o ho => he.handleOperation hM (hm o ho) q
  | ack i =>
    refine { h with tracked := fun j entry hj => h.tracked j entry ?_ }
    change (e.reliability.onAck i q).2.pending[j]? = some entry at hj
    rw [ReliabilityManager.pending_onAck] at hj
    split_ifs at hj
    exact hj
  | requestSnapshot => exact h.sendTo hM (m := .snapshot e.crdt.snapshot) h.logged q
  | snapshot s =>
    have hd := h.deliver (l := TimelineCrdt.sortByRank s.ops) fun o ho =>
      hm o ((List.perm_insertionSort _ _).mem_iff.mp ho)
    exact hd.pushEvent _
  | playheadUpdate _ | transportControl _ | presenceUpdate _ | clockSync _ => exact h.pushEvent _

theorem receiveLoop : ∀ {n : ℕ} {e : SyncEngine σ}, M.Knows I known p c e →
    M.Knows I known p c (SyncEngine.receiveLoop (M.host p) n e).2
  | 0, _, h => h
  | n + 1, e, h => by
    have hrest := hM.tryRecv (p := p) h.fit
    have hcame : ∀ {q m}, ((M.host p).tryRecv e.transport).1 = .ok (some (q, m)) →
        ∀ o ∈ m.contents, o ∈ known (M.group p) :=
      fun hr o ho => h.holds _ o (hM.received h.fit hr ho)
    unfold SyncEngine.receiveLoop
    rcases hr : (M.host p).tryRecv e.transport with ⟨err | _ | ⟨q, m⟩, t⟩ <;>
      rw [hr] at hrest hcame
    · exact h.kept hrest
    · exact h.kept hrest
    · exact receiveLoop ((h.kept hrest).handleMessage hM (hcame rfl) q)

theorem resendDue (h : M.Knows I known p c e) : M.Knows I known p c (e.resendDue (M.host p)) := by
  unfold SyncEngine.resendDue
  have hnow : M.Knows I known p c (e.nowMs (M.host p)).2 :=
    h.kept (hM.nowMs h.fit)
  rcases hr : e.nowMs (M.host p) with ⟨now, e'⟩
  rw [hr] at hnow
  have hdue : ∀ o ∈ (e'.reliability.dueForResend now).1, o ∈ known (M.group p) := by
    intro o ho
    obtain ⟨i, entry, hi, -, -, rfl⟩ := ReliabilityManager.mem_due.mp ho
    exact hnow.tracked i entry hi
  have hstart : M.Knows I known p c { e' with
      reliability := (e'.reliability.dueForResend now).2 } := by
    refine { hnow with tracked := fun i entry hi => ?_ }
    obtain ⟨entry', he, hop⟩ := ReliabilityManager.pending_of_due hi
    exact hop ▸ hnow.tracked i entry' he
  exact List.foldlRecOn _ _ hstart fun e he o ho =>
    he.broadcast hM fun b hb => List.mem_singleton.mp hb ▸ hdue o ho

theorem processMessages (h : M.Knows I known p c e) :
    M.Knows I known p c (e.processMessages (M.host p)).2 :=
  ((h.detectPeerChanges hM).receiveLoop hM).resendDue hM

/-- A local edit, once it is known. -/
theorem applyLocal {known' : γ → Set TaggedOperation} (hsub : ∀ g, known g ⊆ known' g)
    (h : M.Knows I known p c e) {operation : TimelineOperation} {op : TaggedOperation}
    {c' : TimelineCrdt} (ha : e.crdt.applyLocal operation = some (op, c'))
    (hop : op ∈ known' (M.group p)) :
    M.Knows I known' p c' ({ e with crdt := c' }.dispatch (M.host p) (.operation op)) := by
  have hedit : M.Knows I known' p c' { e with crdt := c' } :=
    { fit := h.fit
      holds := fun g o ho => hsub g (h.holds g o ho)
      logged := fun o ho => by
        rw [(TimelineCrdt.applyLocal_eq ha).2.2.2] at ho
        rcases List.mem_append.mp ho with ho | ho
        · exact hsub _ (h.logged o ho)
        · exact List.mem_singleton.mp ho ▸ hop
      queued := fun m hm o ho => hsub _ (h.queued m hm o ho)
      tracked := fun i entry hi => hsub _ (h.tracked i entry hi)
      grown := ⟨[], fun _ ho => absurd ho List.not_mem_nil, rfl⟩ }
  exact hedit.dispatch hM fun o ho => List.mem_singleton.mp ho ▸ hop

end

/-- At the start of a call, with more that is known. -/
theorem restart {known' : γ → Set TaggedOperation} (hsub : ∀ g, known g ⊆ known' g)
    (h : M.Knows I known p c e) {t : σ} (ht : I t) (hholds : ∀ g o, M.Holds t g o → o ∈ known' g) :
    M.Knows I known' p e.crdt { e with transport := t } where
  fit := ht
  holds := hholds
  logged o ho := hsub _ (h.logged o ho)
  queued m hm o ho := hsub _ (h.queued m hm o ho)
  tracked i entry hi := hsub _ (h.tracked i entry hi)
  grown := ⟨[], fun _ ho => absurd ho List.not_mem_nil, rfl⟩

end Knows

/-- The operations that the peers of a group have created. -/
def createdIn (M : Medium σ ε γ) (N : Net) (g : γ) : Set TaggedOperation :=
  {o | o ∈ N.history.created ∧ M.group o.peerId = g}

theorem createdIn_congr {N N' : Net} (h : N'.history.created = N.history.created) :
    M.createdIn N' = M.createdIn N := by
  funext g
  rw [createdIn, createdIn, h]

end Medium

namespace Ensemble

variable {σ ε γ : Type} {M : Medium σ ε γ} {I : σ → Prop} {E : Ensemble σ} {N : Net} {p : PeerId}
  {known known' : γ → Set TaggedOperation}

/-- Each engine stamps its own id, and everything about the engines and their medium is about the
operations known to the groups. -/
structure Informed (E : Ensemble σ) (M : Medium σ ε γ) (I : σ → Prop)
    (known : γ → Set TaggedOperation) : Prop where
  local_eq : ∀ p, (E.engines p).crdt.localPeerId = p
  knows : ∀ p, M.Knows I known p (E.engines p).crdt (E.engine p)

namespace Informed

theorem new {t : σ} {config : PeerId → EngineConfig} (hI : I t)
    (ht : ∀ g o, M.Holds t g o → o ∈ known g) : (Ensemble.new t config).Informed M I known where
  local_eq _ := rfl
  knows q :=
    { fit := hI
      holds := ht
      logged := fun o ho => absurd ho List.not_mem_nil
      queued := fun m hm => absurd hm List.not_mem_nil
      tracked := fun i entry h => by
        simp [Ensemble.new, Ensemble.engine, SyncEngine.withConfig, ReliabilityManager.new] at h
      grown := ⟨[], fun _ ho => absurd ho List.not_mem_nil, rfl⟩ }

/-- What holds when `p` has made a call. -/
theorem of_knows {c : TimelineCrdt} {e : SyncEngine σ} (h : E.Informed M I known)
    (hsub : ∀ g, known g ⊆ known' g) (hk : M.Knows I known' p c e)
    (hlocal : e.crdt.localPeerId = p) :
    Informed ⟨e.transport, Function.update E.engines p e⟩ M I known' where
  local_eq q := by
    by_cases hq : q = p
    · subst hq
      simpa only [Function.update_self] using hlocal
    · simpa only [Function.update_of_ne hq] using h.local_eq q
  knows q := by
    by_cases hq : q = p
    · subst hq
      simp only [engine, Function.update_self]
      exact hk.restart (fun _ => Set.Subset.rfl) hk.fit hk.holds
    · simp only [engine, Function.update_of_ne hq]
      exact (h.knows q).restart hsub hk.fit hk.holds

/-- A call that edits nothing takes in what its group knows. -/
theorem call (hM : M.Honest I) (h : E.Informed M I known) {a : EnsembleCall}
    (ha : (EnsembleEvent.call (ε := ε) p a).edit = none) :
    M.Knows I known p (E.engines p).crdt ((E.engine p).step (M.host p) a.event) := by
  have hk := h.knows p
  cases a with
  | applyLocal operation => cases ha
  | processMessages => exact hk.processMessages hM
  | handlePeerJoin peer => exact hk.handlePeerJoin hM peer
  | flushOfflineQueue => exact hk.flushOfflineQueue hM
  | requestSnapshot => exact hk.requestSnapshot hM

theorem local_call (hM : M.Honest I) (h : E.Informed M I known) {a : EnsembleCall}
    (ha : (EnsembleEvent.call (ε := ε) p a).edit = none) :
    ((E.engine p).step (M.host p) a.event).crdt.localPeerId = p := by
  obtain ⟨l, -, hl⟩ := (h.call hM ha).grown
  rw [hl, TimelineCrdt.localPeerId_deliver, h.local_eq]

/-- What a local edit leads to. -/
theorem applyLocal (h : E.Informed M I known) {operation : TimelineOperation}
    (he : E.Enabled M (.call p (.applyLocal operation))) :
    ∃ op c', (E.engines p).crdt.applyLocal operation = some (op, c') ∧ op.peerId = p ∧
      c'.localPeerId = p ∧
        (E.engine p).step (M.host p) (.applyLocal operation) =
          { E.engine p with crdt := c' }.dispatch (M.host p) (.operation op) := by
  obtain ⟨⟨op, e⟩, hres⟩ := Option.isSome_iff_exists.mp he
  obtain ⟨⟨op', c'⟩, hcall, heq⟩ := Option.map_eq_some_iff.mp hres
  obtain ⟨rfl, rfl⟩ := Prod.mk.inj heq
  obtain ⟨-, hpeer, hlocal, -⟩ := TimelineCrdt.applyLocal_eq hcall
  refine ⟨op', c', hcall, hpeer.trans (h.local_eq p), hlocal.trans (h.local_eq p), ?_⟩
  simp only [SyncEngine.step, hres, Option.map_some, Option.getD_some]

/-- What is known to a group stays so if it holds the edits of its peers. -/
theorem step (hM : M.Honest I) (hown : ∀ o, o ∈ known (M.group o.peerId))
    (h : E.Informed M I known) {a : EnsembleEvent ε} (he : E.Enabled M a) :
    (E.step M a).Informed M I known := by
  rcases a with ⟨p, a⟩ | a
  · by_cases ha : (EnsembleEvent.call (ε := ε) p a).edit = none
    · exact h.of_knows (fun _ => Set.Subset.rfl) (h.call hM ha) (h.local_call hM ha)
    · cases a with
      | applyLocal operation =>
        obtain ⟨op, c', hcall, hpeer, hlocal, hstep⟩ := h.applyLocal he
        have hk := (h.knows p).applyLocal hM (fun _ => Set.Subset.rfl) hcall
          (congrArg M.group hpeer ▸ hown op)
        simp only [Ensemble.step, EnsembleCall.event, hstep]
        refine h.of_knows (fun _ => Set.Subset.rfl) hk ?_
        rw [SyncEngine.crdt_dispatch]
        exact hlocal
      | _ => exact absurd rfl ha
  · exact { h with knows := fun q => (h.knows q).kept (hM.happen (h.knows q).fit) }

end Informed

/-- Engines on a medium beside the net of their timelines. -/
structure Sound (E : Ensemble σ) (M : Medium σ ε γ) (I : σ → Prop) (N : Net) : Prop where
  refines : E.Refines N
  owned : ∀ o ∈ N.history.created, ∃ q, o ∈ (E.engines q).crdt.operationLog
  informed : E.Informed M I (M.createdIn N)

/-- `E'` comes from `E` as the net goes on from `N` with the edits `edits`, which are of its own if
`own` holds. -/
def Goes (M : Medium σ ε γ) (I : σ → Prop) (N : Net) (own : Prop)
    (edits : List (PeerId × TimelineOperation)) (E' : Ensemble σ) : Prop :=
  ∃ events, Net.machine.Valid N events ∧ events.filterMap NetEvent.edit = edits ∧
    (own → Net.machine.Along Net.EditsOwn N events) ∧ E'.Sound M I (Net.machine.run N events)

namespace Sound

/-- What holds when `p` has made a call. -/
theorem of_informed {N' : Net} {e : SyncEngine σ} (h : E.Sound M I N)
    (hinf : Informed ⟨e.transport, Function.update E.engines p e⟩ M I (M.createdIn N'))
    (hrep : N'.replica = Function.update N.replica p e.crdt)
    (hnew : ∀ o ∈ N'.history.created, o ∈ N.history.created ∨ o ∈ e.crdt.operationLog)
    (hlog : ∀ o ∈ (E.engines p).crdt.operationLog, o ∈ e.crdt.operationLog) :
    Sound ⟨e.transport, Function.update E.engines p e⟩ M I N' where
  refines q := by
    by_cases hq : q = p
    · simp only [hq, hrep, Function.update_self]
    · simpa only [hrep, Function.update_of_ne hq] using h.refines q
  owned o ho := by
    rcases hnew o ho with ho | ho
    · obtain ⟨q, hqo⟩ := h.owned o ho
      refine ⟨q, ?_⟩
      by_cases hqp : q = p
      · subst hqp
        simpa only [Function.update_self] using hlog o hqo
      · simpa only [Function.update_of_ne hqp] using hqo
    · exact ⟨p, by simpa only [Function.update_self] using ho⟩
  informed := hinf

/-- A call that edits nothing is a list of deliveries. -/
theorem call (hM : M.Honest I) (h : E.Sound M I N) {own : Prop} {a : EnsembleCall}
    (ha : (EnsembleEvent.call (ε := ε) p a).edit = none) :
    Goes M I N own [] (E.step M (.call p a)) := by
  have hk := h.informed.call hM ha
  obtain ⟨l, hl, hcrdt⟩ := hk.grown
  rw [h.refines p] at hcrdt
  obtain ⟨hv, ho, hrep, hcr⟩ := Net.run_deliveries (N := N) (p := p) fun o ho => (hl o ho).1
  refine ⟨_, hv, ?_, fun _ => ho, h.of_informed ?_ ?_ (fun o ho => ?_) fun o ho => ?_⟩
  · rw [List.filterMap_map]
    exact List.filterMap_eq_nil_iff.mpr fun _ _ => rfl
  · rw [Medium.createdIn_congr hcr]
    exact h.informed.of_knows (fun _ => Set.Subset.rfl) hk (h.informed.local_call hM ha)
  · rw [hrep, hcrdt]
  · exact Or.inl (hcr ▸ ho)
  · rw [hcrdt, TimelineCrdt.operationLog_deliver, ← h.refines]
    exact List.mem_append_left _ ho

/-- A local edit is an operation the net creates. -/
theorem applyLocal (hM : M.Honest I) (h : E.Sound M I N) {operation : TimelineOperation}
    (he : E.Enabled M (.call p (.applyLocal operation))) :
    Goes M I N (E.EditsOwn (ε := ε) (.call p (.applyLocal operation))) [(p, operation)]
      (E.step M (.call p (.applyLocal operation))) := by
  obtain ⟨op, c', hcall, hpeer, hlocal, hstep⟩ := h.informed.applyLocal he
  have ha : (N.replica p).applyLocal operation = some (op, c') := h.refines p ▸ hcall
  have hown : E.EditsOwn (ε := ε) (.call p (.applyLocal operation)) →
      N.EditsOwn (.create p operation) := by
    rintro ⟨htargets, hunused, hl⟩
    refine ⟨h.refines p ▸ htargets, fun r hr o ho => ?_, h.refines p ▸ hl⟩
    obtain ⟨q, hqo⟩ := h.owned o ho
    exact hunused r hr q o hqo
  have hsub : ∀ g, M.createdIn N g ⊆
      M.createdIn ⟨Function.update N.replica p c', N.history.create p op⟩ g :=
    fun g o ho => ⟨Set.mem_insert_of_mem _ ho.1, ho.2⟩
  have hk := (h.informed.knows p).applyLocal hM hsub hcall
    ⟨Set.mem_insert _ _, congrArg M.group hpeer⟩
  have hcrdt : ({ E.engine p with crdt := c' }.dispatch (M.host p) (.operation op)).crdt = c' :=
    SyncEngine.crdt_dispatch
  have hlog := (TimelineCrdt.applyLocal_eq hcall).2.2.2
  refine ⟨[.create p operation], ⟨Option.isSome_iff_exists.mpr ⟨_, ha⟩, trivial⟩, rfl,
    fun ho => ⟨hown ho, trivial⟩, ?_⟩
  simp only [Machine.run_cons, Machine.run_nil, Net.machine, Net.step, ha, Ensemble.step,
    EnsembleCall.event, hstep]
  refine h.of_informed (h.informed.of_knows hsub hk (hcrdt.symm ▸ hlocal)) (by rw [hcrdt]) ?_ ?_
  · rw [hcrdt, hlog]
    rintro o (rfl | ho)
    · exact Or.inr (List.mem_append_right _ (List.mem_singleton_self _))
    · exact Or.inl ho
  · rw [hcrdt, hlog]
    exact fun o ho => List.mem_append_left _ ho

theorem step (hM : M.Honest I) (h : E.Sound M I N) {a : EnsembleEvent ε} (he : E.Enabled M a) :
    Goes M I N (E.EditsOwn a) a.edit.toList (E.step M a) := by
  rcases a with ⟨p, a⟩ | a
  · cases a with
    | applyLocal operation => exact h.applyLocal hM he
    | _ => exact h.call hM rfl
  · refine ⟨[], trivial, rfl, fun _ => trivial, { h with informed := { h.informed with
      knows := fun q => ?_ } }⟩
    exact (h.informed.knows q).kept (hM.happen (h.informed.knows q).fit)

end Sound

theorem run_goes (hM : M.Honest I) : ∀ {events : List (EnsembleEvent ε)} {E : Ensemble σ} {N : Net},
    E.Sound M I N → (machine M).Valid E events →
      Goes M I N ((machine M).Along EditsOwn E events) (events.filterMap EnsembleEvent.edit)
        ((machine M).run E events)
  | [], _, _, h, _ => ⟨[], trivial, rfl, fun _ => trivial, h⟩
  | a :: events, E, N, h, hv => by
    obtain ⟨l, hlv, hle, hlo, hl⟩ := h.step hM hv.1
    obtain ⟨m, hmv, hme, hmo, hm⟩ := run_goes hM hl hv.2
    refine ⟨l ++ m, Machine.valid_append.mpr ⟨hlv, hmv⟩, ?_,
      fun ho => Machine.along_append.mpr ⟨hlo ho.1, hmo ho.2⟩, ?_⟩
    · rw [List.filterMap_append, hle, hme, List.filterMap_cons]
      cases a.edit <;> rfl
    · rw [Machine.run_append]
      exact hm

section

variable (hM : M.Honest I) {t : σ} (hI : I t) {config : PeerId → EngineConfig}
  {events : List (EnsembleEvent ε)} (hrun : (machine M).Valid (new t config) events)

include hM hI hrun

/-- What an engine knows has been created in its own group, or was held for it from the start. -/
theorem group_of_log {p : PeerId} {o : TaggedOperation}
    (ho : o ∈ (((machine M).run (new t config) events).engines p).crdt.operationLog) :
    M.group o.peerId = M.group p ∨ M.Holds t (M.group p) o := by
  have h := Machine.Along.run_inv
    (I := fun E => E.Informed M I fun g => {o | M.group o.peerId = g ∨ M.Holds t g o})
    (fun _ _ _ h he => h.step hM (fun _ => Or.inl rfl) he) hrun
    (Informed.new hI fun _ _ => Or.inr)
  exact (h.knows p).logged o ho

variable (ht : ∀ g o, ¬M.Holds t g o)

include ht

theorem goes_new : Goes M I .new ((machine M).Along EditsOwn (new t config) events)
    (events.filterMap EnsembleEvent.edit) ((machine M).run (new t config) events) :=
  run_goes hM ⟨fun _ => rfl, fun _ h => h.elim, Informed.new hI fun g o ho => absurd ho (ht g o)⟩
    hrun

/-- Every run of engines is a run of a net: its timelines create the edits of the engines, and take
in what the medium brings. If the engines edit what they have, under ids of their own, so do the
timelines. -/
theorem run_refines : ∃ netEvents, Net.machine.Valid .new netEvents ∧
    netEvents.filterMap NetEvent.edit = events.filterMap EnsembleEvent.edit ∧
      ((machine M).Along EditsOwn (new t config) events →
        Net.machine.Along Net.EditsOwn .new netEvents) ∧
      ((machine M).run (new t config) events).Refines (Net.machine.run .new netEvents) := by
  obtain ⟨l, hl, hle, hlo, h⟩ := goes_new hM hI hrun ht
  exact ⟨l, hl, hle, hlo, h.refines⟩

/-- Engines with the same operations agree, in whatever order and however often these came. -/
theorem agree_of_sameLog (he : (machine M).Along EditsOwn (new t config) events) {p q : PeerId}
    (hlog : ∀ o, o ∈ (((machine M).run (new t config) events).engines p).crdt.operationLog ↔
      o ∈ (((machine M).run (new t config) events).engines q).crdt.operationLog) :
    (((machine M).run (new t config) events).engines p).crdt.Agree
      (((machine M).run (new t config) events).engines q).crdt := by
  obtain ⟨l, hl, -, hlo, h⟩ := run_refines hM hI hrun ht
  have hN := Net.run_coherent hl (hlo he)
  rw [h p, h q] at hlog ⊢
  exact (hN.fed p).agree hN (hN.fed q) hlog

end

end Ensemble

/-! ## The fabric -/

namespace Fabric

theorem passes_deliver {f : Fabric} {p : PeerId} {m : SyncMessage} :
    medium.Passes (fun _ => True) p m.contents f (f.deliver p m) := by
  refine ⟨trivial, ?_⟩
  rintro _ o ⟨q, m', hm, ho⟩
  rcases Scene.mem_inbox_deliver.mp hm with hm | ⟨-, rfl⟩
  · exact Or.inl ⟨q, m', hm, ho⟩
  · exact Or.inr ⟨rfl, ho⟩

theorem medium_honest : medium.Honest fun _ => True where
  sendTo {f p q m} _ := by
    simp only [medium, host]
    split_ifs
    · exact ⟨trivial, fun _ _ h => Or.inl h⟩
    · exact passes_deliver
  broadcast {f p m} _ := by
    simp only [medium, host]
    split_ifs
    · exact ⟨trivial, fun _ _ h => Or.inl h⟩
    · exact passes_deliver
  tryRecv {f p} _ := by
    refine ⟨trivial, ?_⟩
    rintro _ o ⟨q, m', hm, ho⟩
    refine ⟨q, m', ?_, ho⟩
    simp only [medium, host] at hm
    split at hm
    · exact hm
    · rename_i m rest hin
      by_cases hq : q = p
      · subst hq
        simp only [Function.update_self] at hm
        exact hin ▸ List.mem_cons_of_mem _ hm
      · simpa only [Function.update_of_ne hq] using hm
  received {f p q m o} _ h ho := by
    simp only [medium, host] at h
    split at h
    · simp at h
    · rename_i m' rest hin
      obtain rfl : m' = (q, m) := by simpa using h
      exact ⟨p, _, hin ▸ List.mem_cons_self, ho⟩
  nowMs _ := ⟨trivial, fun _ _ h => h⟩
  happen _ := ⟨trivial, fun _ _ h => h⟩

theorem not_holds_fabric {ids : List PeerId} {distinct : ids.Nodup} {clock : ℕ → UInt64} {u : Unit}
    {o : TaggedOperation} : ¬medium.Holds (fabric ids distinct clock) u o := by
  rintro ⟨p, m, hm, -⟩
  exact List.not_mem_nil hm

end Fabric

namespace Ensemble

/-- Two engines on a fabric: the first edits while its link is down, and they find each other. -/
def pairUp : Ensemble Fabric := new Collaboration.pairUp.fabric fun _ => .default

def pairRun : List (EnsembleEvent (PeerId × Bool)) :=
  [.happen (⟨1⟩, true), .call ⟨1⟩ (.applyLocal (.insertTrack ⟨1⟩ (.new "t") 0)),
    .happen (⟨1⟩, false), .call ⟨1⟩ .processMessages, .call ⟨2⟩ .processMessages]

theorem pairRun_valid : (machine Fabric.medium).Valid pairUp pairRun :=
  ⟨trivial, rfl, trivial, trivial, trivial, trivial⟩

theorem pairRun_editsOwn : (machine Fabric.medium).Along EditsOwn pairUp pairRun := by
  refine ⟨trivial, ⟨fun r hr => absurd hr List.not_mem_nil, fun r _ q o ho => ?_, by decide⟩,
    trivial, trivial, trivial, trivial⟩
  exact absurd ho List.not_mem_nil

theorem pairRun_refines : ∃ netEvents, Net.machine.Valid .new netEvents ∧
    netEvents.filterMap NetEvent.edit = [(⟨1⟩, .insertTrack ⟨1⟩ (.new "t") 0)] ∧
      Net.machine.Along Net.EditsOwn .new netEvents ∧
        ((machine Fabric.medium).run pairUp pairRun).Refines (Net.machine.run .new netEvents) := by
  obtain ⟨l, hl, hle, hlo, h⟩ := run_refines Fabric.medium_honest trivial pairRun_valid
    fun _ _ => Fabric.not_holds_fabric
  exact ⟨l, hl, hle, hlo pairRun_editsOwn, h⟩

end Ensemble

end AvSync
