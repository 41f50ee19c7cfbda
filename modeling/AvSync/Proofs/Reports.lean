import AvSync.EngineReports
import AvSync.Proofs.Inbound

/-!
# Operations reported and operations accepted

An engine reports each operation within the limits that an operation or batch message brings, as
often as it is brought. So the reports of a run are free of duplicates and of the local peer's own
operations exactly when the deliveries are (`SyncEngine.run_once_iff`). An author's engine does not
check what it applies; a receiver takes it in exactly when it is within the limits
(`SyncEngine.applyLocal_accepts_iff`).
-/

namespace AvSync

namespace SyncEngine

variable {σ : Type} {H : Host σ} {e : SyncEngine σ}

/-- From `e` to `e'` the operations `l` are reported. -/
def Reports (e e' : SyncEngine σ) (l : List TaggedOperation) : Prop :=
  remoteOperations e'.events = remoteOperations e.events ++ l

namespace Reports

variable {e₁ e₂ e₃ : SyncEngine σ} {l m : List TaggedOperation}

theorem refl (h : e₂.events = e₁.events) : Reports e₁ e₂ [] := by
  rw [Reports, h, List.append_nil]

theorem trans (h₁ : Reports e₁ e₂ l) (h₂ : Reports e₂ e₃ m) : Reports e₁ e₃ (l ++ m) := by
  rw [Reports, h₂, h₁, List.append_assoc]

theorem foldl {α : Type} {f : SyncEngine σ → α → SyncEngine σ} {g : α → List TaggedOperation}
    (hf : ∀ e a, Reports e (f e a) (g a)) :
    ∀ {l : List α} {e : SyncEngine σ}, Reports e (l.foldl f e) (l.flatMap g)
  | [], _ => refl rfl
  | a :: l, e => by
    rw [List.flatMap_cons]
    exact (hf e a).trans (foldl hf)

theorem foldl_nil {α : Type} {f : SyncEngine σ → α → SyncEngine σ}
    (hf : ∀ e a, Reports e (f e a) []) :
    ∀ {l : List α} {e : SyncEngine σ}, Reports e (l.foldl f e) []
  | [], _ => refl rfl
  | a :: _, e => (hf e a).trans (foldl_nil hf)

theorem push {event : SyncEvent} : Reports e (e.pushEvent event) (remoteOperations [event]) := by
  simp [Reports, remoteOperations, pushEvent]

end Reports

theorem reports_dispatch (msg : SyncMessage) : Reports e (e.dispatch H msg) [] := by
  unfold dispatch broadcast
  rcases H.broadcast msg e.transport with ⟨_ | _, t⟩
  · dsimp only
    split_ifs <;> exact .refl rfl
  · cases msg <;> exact .refl rfl

theorem reports_flushMessage (msg : SyncMessage) : Reports e (e.flushMessage H msg) [] := by
  unfold flushMessage broadcast
  rcases H.broadcast msg e.transport with ⟨_ | _, t⟩
  · exact .refl rfl
  · cases msg <;> exact .refl rfl

theorem reports_flushOfflineQueue : Reports e (e.flushOfflineQueue H) [] :=
  (Reports.refl rfl).trans (.foldl_nil fun _ msg => reports_flushMessage msg)

theorem reports_handlePeerJoin (peer : PeerId) : Reports e (e.handlePeerJoin H peer).2 [] := by
  unfold handlePeerJoin sendTo
  rcases H.sendTo peer (.snapshot e.crdt.snapshot) e.transport with ⟨_ | _, t⟩
  · exact .refl rfl
  · exact (Reports.refl rfl).trans reports_flushOfflineQueue

theorem reports_noticePeer (peer : PeerId) : Reports e (e.noticePeer H peer) [] := by
  unfold noticePeer
  split_ifs
  · exact .refl rfl
  · exact Reports.push.trans (reports_handlePeerJoin peer)

theorem reports_detectPeerChanges : Reports e (e.detectPeerChanges H) [] := by
  have hjoin := Reports.foldl_nil (f := fun e peer => e.noticePeer H peer)
    (fun _ peer => reports_noticePeer peer) (l := H.peers e.transport) (e := e)
  exact hjoin.trans (Reports.foldl_nil (f := fun e peer => e.pushEvent (.peerLeft peer))
    fun _ _ => Reports.push)

theorem reports_handleOperation (peer : PeerId) (op : TaggedOperation) :
    Reports e (e.handleOperation H peer op) ([op].filter fun o => decide o.Valid) := by
  unfold handleOperation
  rcases hv : op.operation.validate with err | _
  · have hop : ¬op.Valid := by simp [TaggedOperation.Valid, hv]
    simpa [hop] using Reports.refl rfl
  · have hop : op.Valid := hv
    rw [List.filter_singleton, decide_eq_true hop]
    have hrefl : Reports e e [] := .refl rfl
    exact hrefl.trans Reports.push

theorem reports_handleMessage (peer : PeerId) (msg : SyncMessage) :
    Reports e (e.handleMessage H peer msg) (msg.operations.filter fun o => decide o.Valid) := by
  cases msg with
  | operation op => exact reports_handleOperation peer op
  | batch ops =>
    have h := Reports.foldl (f := fun e op => e.handleOperation H peer op)
      (fun _ op => reports_handleOperation peer op) (l := ops) (e := e)
    rwa [← List.filter_flatMap, List.flatMap_singleton'] at h
  | ack opId => exact .refl rfl
  | requestSnapshot => exact .refl rfl
  | snapshot snapshot => exact (Reports.refl rfl).trans Reports.push
  | _ => exact Reports.push

theorem reports_receiveLoop :
    ∀ {n : ℕ} {e : SyncEngine σ}, Reports e (receiveLoop H n e).2
      ((inbox H n e).flatMap fun m => m.2.2.operations.filter fun o => decide o.Valid)
  | 0, _ => .refl rfl
  | n + 1, e => by
    unfold receiveLoop inbox
    rcases H.tryRecv e.transport with ⟨_ | _ | ⟨peer, msg⟩, t⟩
    · exact .refl rfl
    · exact .refl rfl
    · rw [List.flatMap_cons]
      exact (reports_handleMessage (e := { e with transport := t }) peer msg).trans
        (reports_receiveLoop (n := n))

theorem reports_resendDue : Reports e (e.resendDue H) [] :=
  (Reports.refl rfl).trans (.foldl_nil (f := fun e op => (e.broadcast H (.operation op)).2)
    fun _ _ => .refl rfl)

theorem reports_processMessages :
    Reports e (e.processMessages H).2 (e.deliveredBy H .processMessages) := by
  have hdetect : Reports e (e.detectPeerChanges H) [] := reports_detectPeerChanges
  have hreceive := reports_receiveLoop (H := H) (e := e.detectPeerChanges H)
    (n := (e.detectPeerChanges H).config.maxMessagesPerTick)
  have h := (hdetect.trans hreceive).trans (reports_resendDue (H := H))
  rwa [List.nil_append, List.append_nil] at h

/-- What a call hands over and leaves to hand over is what was there and what reaches it. -/
theorem reports_call (a : EngineCall σ) :
    remoteOperations (e.yieldedBy a) ++ remoteOperations (e.call H a).events =
      remoteOperations e.events ++ e.deliveredBy H a := by
  cases a with
  | applyLocal operation =>
    simp only [yieldedBy, deliveredBy, call, step]
    rcases h : e.applyLocal H operation with _ | ⟨tagged, e'⟩
    · exact Reports.refl rfl
    · obtain ⟨⟨t, c⟩, -, h2⟩ := Option.map_eq_some_iff.mp h
      cases h2
      exact (Reports.refl rfl).trans (reports_dispatch _)
  | processMessages => exact reports_processMessages
  | handlePeerJoin peer => exact reports_handlePeerJoin peer
  | flushOfflineQueue => exact reports_flushOfflineQueue
  | requestSnapshot => exact reports_dispatch _
  | takeEvents => rfl
  | crdtMut k => exact Reports.refl rfl
  | transportMut f => exact Reports.refl rfl

/-- Once the events have been taken, everything that has reached the run has been reported. -/
theorem remoteOperations_yielded :
    ∀ (as : List (EngineCall σ)) (e : SyncEngine σ),
      remoteOperations (yielded H e (as ++ [.takeEvents])) =
        remoteOperations e.events ++ delivered H e as
  | [], e => by simp [yielded, yieldedBy, takeEvents, delivered]
  | a :: as, e => by
    have hsplit : ∀ l m, remoteOperations (l ++ m) = remoteOperations l ++ remoteOperations m :=
      fun l m => List.filterMap_append
    rw [List.cons_append, yielded, hsplit, remoteOperations_yielded as, ← List.append_assoc,
      reports_call, delivered, List.append_assoc]

/-- The operations a run reports come once each, and are none of the local peer's, exactly when
those that reach it do. -/
theorem run_once_iff (crdt : TimelineCrdt) (transport : σ) (config : EngineConfig)
    (as : List (EngineCall σ)) :
    Once (own H (withConfig crdt transport config) as)
        (remoteOperations (yielded H (withConfig crdt transport config) (as ++ [.takeEvents]))) ↔
      Once (own H (withConfig crdt transport config) as)
        (delivered H (withConfig crdt transport config) as) := by
  rw [remoteOperations_yielded]
  exact Iff.rfl

/-- A peer whose acknowledgment was lost sends its operation again. -/
def resentRun : List (EngineCall Bool) :=
  [.processMessages, .transportMut fun _ => false, .processMessages]

theorem resentRun_not_once :
    ¬Once (own (oneMessage (.operation (.of 1 2 (.insertTrack ⟨1⟩ (.new "t") 0))))
        (withConfig (.new ⟨1⟩) false .default) resentRun)
      (remoteOperations (yielded (oneMessage (.operation (.of 1 2 (.insertTrack ⟨1⟩ (.new "t") 0))))
        (withConfig (.new ⟨1⟩) false .default) (resentRun ++ [.takeEvents]))) := by
  decide +kernel

/-! ## Accepted operations -/

theorem accepts_iff {peer : PeerId} {op : TaggedOperation} :
    e.Accepts H peer op ↔ op.Valid := by
  rcases hv : op.operation.validate with err | _
  · refine iff_of_false (fun h => ?_) (by simp [TaggedOperation.Valid, hv])
    have := h.reported
    simp [handleMessage, handleOperation, hv] at this
  · refine iff_of_true ?_ hv
    constructor <;> simp only [handleMessage, handleOperation, hv] <;> rfl

/-- An operation that its author's engine has applied is accepted by a receiver exactly when it is
within the limits. -/
theorem applyLocal_accepts_iff {operation : TimelineOperation} {tagged : TaggedOperation}
    {e' : SyncEngine σ} (h : e.applyLocal H operation = some (tagged, e')) {τ : Type}
    (K : Host τ) (receiver : SyncEngine τ) (peer : PeerId) :
    receiver.Accepts K peer tagged ↔ operation.validate = .ok () := by
  obtain ⟨⟨t, c⟩, h1, h2⟩ := Option.map_eq_some_iff.mp h
  obtain ⟨inv, -, h3⟩ := Option.map_eq_some_iff.mp h1
  obtain rfl : e.crdt.tagNext operation = t := congrArg Prod.fst h3
  cases h2
  exact accepts_iff

/-- A peer with nothing to send. -/
def quietPeer : Host Bool := oneMessage .requestSnapshot

theorem insertTrack_accepted : (withConfig (.new ⟨2⟩) true .default).Accepts quietPeer ⟨1⟩
    ((TimelineCrdt.new ⟨1⟩).tagNext (.insertTrack ⟨1⟩ (.new "t") 0)) :=
  have happly : (withConfig (.new ⟨1⟩) true .default).applyLocal quietPeer
      (.insertTrack ⟨1⟩ (.new "t") 0) = some ((TimelineCrdt.new ⟨1⟩).tagNext _, _) := rfl
  (applyLocal_accepts_iff happly quietPeer (withConfig (.new ⟨2⟩) true .default) ⟨1⟩).mpr
    (by decide +kernel)

/-- A track whose name is too long is there for its author, and for no receiver. -/
theorem longName_not_accepted : ∃ tagged e',
    (withConfig (.new ⟨2⟩) true .default).applyLocal quietPeer longName.operation =
      some (tagged, e') ∧
    (⟨1⟩ : TrackId) ∈ e'.crdt.session.tracks ∧
    ∀ (receiver : SyncEngine Bool) (peer : PeerId), ¬receiver.Accepts quietPeer peer tagged := by
  refine ⟨_, _, rfl, ?_, fun receiver peer h => ?_⟩
  · exact BTreeMap.mem_iff.mpr ⟨_, (BTreeMap.getElem?_insert_if ..).trans (if_pos rfl)⟩
  · have hv : ((TimelineCrdt.new ⟨2⟩).tagNext longName.operation).Valid := accepts_iff.mp h
    exact longName_not_valid hv

end SyncEngine

end AvSync
