import AvSync.EngineReports
import AvSync.Proofs.Inbound

/-!
# Engines on a host that records

A record changes nothing: the engine on it is the engine without it (`forget_run`). What an engine
reports of peers that join and sends of snapshots only grows (`Adds`), and the marks of a run are
the joins among its events and the snapshots on the record (`adds_marks`).
-/

namespace AvSync

namespace SyncEngine

variable {σ : Type} {H : Host σ} {e e' : Recorded σ}

/-! ## Without the record -/

/-- The engine, its record forgotten. -/
def forget (e : Recorded σ) : SyncEngine σ := { e with transport := e.transport.1 }

theorem forget_foldl {α : Type} {f : Recorded σ → α → Recorded σ}
    {g : SyncEngine σ → α → SyncEngine σ} (hf : ∀ e a, forget (f e a) = g (forget e) a) :
    ∀ (l : List α) (e : Recorded σ), forget (l.foldl f e) = l.foldl g (forget e)
  | [], _ => rfl
  | a :: l, e => by rw [List.foldl_cons, List.foldl_cons, forget_foldl hf l, hf]

theorem forget_sendTo (peer : PeerId) (msg : SyncMessage) :
    ((e.sendTo H.recording peer msg).1, forget (e.sendTo H.recording peer msg).2) =
      (forget e).sendTo H peer msg := rfl

theorem forget_broadcast (msg : SyncMessage) :
    ((e.broadcast H.recording msg).1, forget (e.broadcast H.recording msg).2) =
      (forget e).broadcast H msg := rfl

theorem forget_trackSent (msg : SyncMessage) :
    forget (e.trackSent H.recording msg) = (forget e).trackSent H msg := by
  cases msg <;> rfl

theorem forget_dispatch (msg : SyncMessage) :
    forget (e.dispatch H.recording msg) = (forget e).dispatch H msg := by
  unfold dispatch
  rw [← forget_broadcast]
  rcases e.broadcast H.recording msg with ⟨_ | _, e'⟩
  · dsimp only
    rw [show (forget e').config = e'.config from rfl]
    split_ifs <;> rfl
  · exact forget_trackSent msg

theorem forget_flushMessage (msg : SyncMessage) :
    forget (e.flushMessage H.recording msg) = (forget e).flushMessage H msg := by
  unfold flushMessage
  rw [← forget_broadcast]
  rcases e.broadcast H.recording msg with ⟨_ | _, e'⟩
  · rfl
  · exact forget_trackSent msg

theorem forget_flushOfflineQueue :
    forget (e.flushOfflineQueue H.recording) = (forget e).flushOfflineQueue H :=
  forget_foldl (fun _ msg => forget_flushMessage msg) _ _

theorem forget_handlePeerJoin (peer : PeerId) :
    forget (e.handlePeerJoin H.recording peer).2 = ((forget e).handlePeerJoin H peer).2 := by
  have hsent := forget_sendTo (H := H) (e := e) peer (.snapshot e.crdt.snapshot)
  unfold handlePeerJoin
  rw [show (forget e).crdt = e.crdt from rfl, ← hsent]
  rcases e.sendTo H.recording peer (.snapshot e.crdt.snapshot) with ⟨_ | _, e'⟩
  · rfl
  · exact forget_flushOfflineQueue

theorem forget_noticePeer (peer : PeerId) :
    forget (e.noticePeer H.recording peer) = (forget e).noticePeer H peer := by
  unfold noticePeer
  rw [show (forget e).knownPeers = e.knownPeers from rfl]
  split_ifs
  · rfl
  · exact forget_handlePeerJoin peer

theorem forget_noticeAll (l : List PeerId) :
    forget (l.foldl (fun e peer => e.noticePeer H.recording peer) e) =
      l.foldl (fun e peer => e.noticePeer H peer) (forget e) :=
  forget_foldl (fun _ peer => forget_noticePeer peer) _ _

theorem forget_detectPeerChanges :
    forget (e.detectPeerChanges H.recording) = (forget e).detectPeerChanges H := by
  have hleft : ∀ (l : List PeerId) (e : Recorded σ),
      forget (l.foldl (fun e peer => e.pushEvent (.peerLeft peer)) e) =
        l.foldl (fun e peer => e.pushEvent (.peerLeft peer)) (forget e) :=
    forget_foldl fun _ _ => rfl
  have hjoined := forget_noticeAll (H := H) (e := e) (H.peers e.transport.1)
  unfold detectPeerChanges
  simp only [show (forget e).transport = e.transport.1 from rfl, ← hjoined, ← hleft]
  rfl

theorem forget_handleOperation (peer : PeerId) (op : TaggedOperation) :
    forget (e.handleOperation H.recording peer op) = (forget e).handleOperation H peer op := by
  unfold handleOperation
  split
  · rfl
  · have hsent := forget_sendTo (H := H) (e := { e with crdt := e.crdt.applyRemote op }) peer
      (.ack op.opId)
    exact congrArg (fun r => r.2.pushEvent (.remoteOperation op)) hsent

theorem forget_handleMessage (peer : PeerId) (msg : SyncMessage) :
    forget (e.handleMessage H.recording peer msg) = (forget e).handleMessage H peer msg := by
  cases msg with
  | operation op => exact forget_handleOperation peer op
  | batch ops => exact forget_foldl (fun _ op => forget_handleOperation peer op) _ _
  | requestSnapshot => exact congrArg (·.2) (forget_sendTo peer (.snapshot e.crdt.snapshot))
  | _ => rfl

theorem forget_receiveLoop :
    ∀ {n : ℕ} {e : Recorded σ},
      forget (receiveLoop H.recording n e).2 = (receiveLoop H n (forget e)).2
  | 0, _ => rfl
  | n + 1, e => by
    unfold receiveLoop
    simp only [Host.recording, show (forget e).transport = e.transport.1 from rfl]
    rcases H.tryRecv e.transport.1 with ⟨_ | _ | ⟨peer, msg⟩, t⟩
    · rfl
    · rfl
    · exact (forget_receiveLoop (n := n)).trans (congrArg (fun e => (receiveLoop H n e).2)
        (forget_handleMessage (e := { e with transport := (t, e.transport.2) }) peer msg))

theorem forget_resendDue : forget (e.resendDue H.recording) = (forget e).resendDue H :=
  forget_foldl (fun _ _ => rfl) _ _

theorem forget_processMessages :
    forget (e.processMessages H.recording).2 = ((forget e).processMessages H).2 := by
  unfold processMessages
  dsimp only
  rw [forget_resendDue, forget_receiveLoop, ← forget_detectPeerChanges]
  rfl

theorem forget_step (a : EngineEvent σ) :
    forget (e.step H.recording a.recorded) = (forget e).step H a := by
  cases a with
  | applyLocal operation =>
    simp only [step, EngineEvent.recorded, applyLocal, show (forget e).crdt = e.crdt from rfl]
    rcases e.crdt.applyLocal operation with _ | ⟨tagged, crdt⟩
    · rfl
    · exact forget_dispatch _
  | processMessages => exact forget_processMessages
  | handlePeerJoin peer => exact forget_handlePeerJoin peer
  | flushOfflineQueue => exact forget_flushOfflineQueue
  | requestSnapshot => exact forget_dispatch _
  | crdtMut f => rfl
  | transportMut f => rfl

/-- The run of an engine beside that of its record. -/
theorem forget_run :
    ∀ (as : List (EngineEvent σ)) (e : Recorded σ),
      forget ((machine H.recording).run e (as.map .recorded)) = (machine H).run (forget e) as
  | [], _ => rfl
  | a :: as, e => by
    have hstep : forget ((machine H.recording).step e a.recorded) = (machine H).step (forget e) a :=
      forget_step a
    rw [List.map_cons, Machine.run_cons, Machine.run_cons, forget_run as, hstep]

/-! ## What is added -/

/-- From `e` to `e'` the peers `joins` are reported to join, and the snapshots `sends` are sent. -/
structure Adds (e e' : Recorded σ) (joins : List PeerId)
    (sends : List (PeerId × TimelineSnapshot)) : Prop where
  joined : joinedPeers e'.events = joinedPeers e.events ++ joins
  sent : sentSnapshots e'.transport.2 = sentSnapshots e.transport.2 ++ sends

/-- The snapshot for `peer`, if it can be sent. -/
def snapshotTo (H : Host σ) (e : SyncEngine σ) (peer : PeerId) :
    List (PeerId × TimelineSnapshot) :=
  match (H.sendTo peer (.snapshot e.crdt.snapshot) e.transport).1 with
  | .ok () => [(peer, e.crdt.snapshot)]
  | .error _ => []

theorem mem_snapshotTo {e : SyncEngine σ} {p q : PeerId} {s : TimelineSnapshot} :
    (p, s) ∈ e.snapshotTo H q ↔ p = q ∧ s = e.crdt.snapshot ∧ e.Sends H q := by
  unfold snapshotTo Sends
  rcases (H.sendTo q (.snapshot e.crdt.snapshot) e.transport).1 with _ | _ <;> simp

/-- The snapshot by which a message is answered, if it is a request. -/
def answerTo (H : Host σ) (m : SyncEngine σ × PeerId × SyncMessage) :
    List (PeerId × TimelineSnapshot) :=
  match m.2.2 with
  | .requestSnapshot => m.1.snapshotTo H m.2.1
  | _ => []

namespace Adds

variable {e₁ e₂ e₃ : Recorded σ} {joins joins' : List PeerId}
  {sends sends' : List (PeerId × TimelineSnapshot)}

theorem refl (h₁ : e₂.events = e₁.events) (h₂ : e₂.transport.2 = e₁.transport.2) :
    Adds e₁ e₂ [] [] :=
  ⟨by rw [h₁, List.append_nil], by rw [h₂, List.append_nil]⟩

theorem trans (h₁ : Adds e₁ e₂ joins sends) (h₂ : Adds e₂ e₃ joins' sends') :
    Adds e₁ e₃ (joins ++ joins') (sends ++ sends') :=
  ⟨by rw [h₂.joined, h₁.joined, List.append_assoc], by rw [h₂.sent, h₁.sent, List.append_assoc]⟩

theorem foldl_nil {α : Type} {f : Recorded σ → α → Recorded σ} (hf : ∀ e a, Adds e (f e a) [] []) :
    ∀ {l : List α} {e : Recorded σ}, Adds e (l.foldl f e) [] []
  | [], _ => refl rfl rfl
  | a :: _, e => (hf e a).trans (foldl_nil hf)

theorem push (event : SyncEvent) : Adds e (e.pushEvent event) (joinedPeers [event]) [] :=
  ⟨by simp [joinedPeers, pushEvent], (List.append_nil _).symm⟩

theorem sendTo (peer : PeerId) (msg : SyncMessage) (hmsg : ∀ s, msg ≠ .snapshot s) :
    Adds e (e.sendTo H.recording peer msg).2 [] [] := by
  have hnone : sentSnapshots [(peer, msg)] = [] := by
    cases msg with
    | snapshot s => exact absurd rfl (hmsg s)
    | _ => rfl
  refine ⟨(List.append_nil _).symm, ?_⟩
  unfold SyncEngine.sendTo Host.recording
  dsimp only
  split
  · exact List.filterMap_append.trans (congrArg (sentSnapshots e.transport.2 ++ ·) hnone)
  · exact (List.append_nil _).symm

theorem sendSnapshot (peer : PeerId) :
    Adds e (e.sendTo H.recording peer (.snapshot e.crdt.snapshot)).2 []
      ((forget e).snapshotTo H peer) := by
  refine ⟨(List.append_nil _).symm, ?_⟩
  unfold SyncEngine.sendTo Host.recording snapshotTo
  simp only [forget]
  rcases (H.sendTo peer (.snapshot e.crdt.snapshot) e.transport.1).1 with _ | _
  · exact (List.append_nil _).symm
  · exact List.filterMap_append

theorem trackSent (msg : SyncMessage) : Adds e (e.trackSent H.recording msg) [] [] := by
  cases msg <;> exact .refl rfl rfl

theorem dispatch (msg : SyncMessage) : Adds e (e.dispatch H.recording msg) [] [] := by
  have hsent : Adds e (e.broadcast H.recording msg).2 [] [] := .refl rfl rfl
  unfold SyncEngine.dispatch
  rcases hr : e.broadcast H.recording msg with ⟨_ | _, e'⟩ <;> rw [hr] at hsent
  · dsimp only
    split_ifs
    · exact hsent.trans (.refl rfl rfl)
    · exact hsent
  · exact hsent.trans (.trackSent msg)

theorem flushMessage (msg : SyncMessage) : Adds e (e.flushMessage H.recording msg) [] [] := by
  have hsent : Adds e (e.broadcast H.recording msg).2 [] [] := .refl rfl rfl
  unfold SyncEngine.flushMessage
  rcases hr : e.broadcast H.recording msg with ⟨_ | _, e'⟩ <;> rw [hr] at hsent
  · exact hsent
  · exact hsent.trans (.trackSent msg)

theorem flushOfflineQueue : Adds e (e.flushOfflineQueue H.recording) [] [] :=
  have hdrained : Adds e { e with offline := e.offline.drain.2 } [] [] := .refl rfl rfl
  hdrained.trans (.foldl_nil fun _ msg => .flushMessage msg)

theorem handlePeerJoin (peer : PeerId) :
    Adds e (e.handlePeerJoin H.recording peer).2 [] ((forget e).snapshotTo H peer) := by
  have hsent := Adds.sendSnapshot (H := H) (e := e) peer
  unfold SyncEngine.handlePeerJoin
  rcases hr : e.sendTo H.recording peer (.snapshot e.crdt.snapshot) with ⟨_ | _, e'⟩ <;>
    rw [hr] at hsent
  · exact hsent
  · have h := hsent.trans (flushOfflineQueue (H := H))
    rwa [List.append_nil, List.append_nil] at h

/-- A peer that is new is reported to join, and then it is sent a snapshot. -/
theorem noticePeer (peer : PeerId) :
    Adds e (e.noticePeer H.recording peer) (if peer ∈ e.knownPeers then [] else [peer])
      (if peer ∈ e.knownPeers then [] else (forget e).snapshotTo H peer) := by
  unfold SyncEngine.noticePeer
  split_ifs
  · exact .refl rfl rfl
  · exact (Adds.push (.peerJoined peer)).trans (.handlePeerJoin peer)

theorem handleOperation (peer : PeerId) (op : TaggedOperation) :
    Adds e (e.handleOperation H.recording peer op) [] [] := by
  unfold SyncEngine.handleOperation
  split
  · exact .refl rfl rfl
  · have happlied : Adds e { e with crdt := e.crdt.applyRemote op } [] [] := .refl rfl rfl
    exact (happlied.trans (.sendTo peer (.ack op.opId) (by simp))).trans (.push _)

theorem handleMessage (peer : PeerId) (msg : SyncMessage) :
    Adds e (e.handleMessage H.recording peer msg) [] (answerTo H (forget e, peer, msg)) := by
  cases msg with
  | operation op => exact .handleOperation peer op
  | batch ops => exact .foldl_nil fun _ op => .handleOperation peer op
  | ack opId => exact .refl rfl rfl
  | requestSnapshot => exact .sendSnapshot peer
  | snapshot snapshot =>
    have hmerged : Adds e { e with crdt := e.crdt.mergeSnapshot snapshot } [] [] := .refl rfl rfl
    exact hmerged.trans (.push _)
  | _ => exact .push _

theorem receiveLoop :
    ∀ {n : ℕ} {e : Recorded σ}, Adds e (SyncEngine.receiveLoop H.recording n e).2 []
      ((inbox H n (forget e)).flatMap (answerTo H))
  | 0, _ => .refl rfl rfl
  | n + 1, e => by
    unfold SyncEngine.receiveLoop inbox
    simp only [Host.recording, show (forget e).transport = e.transport.1 from rfl]
    rcases H.tryRecv e.transport.1 with ⟨_ | _ | ⟨peer, msg⟩, t⟩
    · exact .refl rfl rfl
    · exact .refl rfl rfl
    · have htaken : Adds e { e with transport := (t, e.transport.2) } [] [] := .refl rfl rfl
      have hmsg := Adds.handleMessage (H := H) (e := { e with transport := (t, e.transport.2) })
        peer msg
      have h := (htaken.trans hmsg).trans (receiveLoop (n := n))
      rw [forget_handleMessage] at h
      rw [List.flatMap_cons]
      exact h

theorem resendDue : Adds e (e.resendDue H.recording) [] [] :=
  have hdue : Adds e { (e.nowMs H.recording).2 with
      reliability := (e.reliability.dueForResend (e.nowMs H.recording).1).2 } [] [] := .refl rfl rfl
  hdue.trans (.foldl_nil (f := fun e op => (e.broadcast H.recording (.operation op)).2)
    fun _ _ => .refl rfl rfl)

/-- A poll, once the peers listed have been noticed. -/
theorem processMessages :
    Adds ((H.peers e.transport.1).foldl (fun e peer => e.noticePeer H.recording peer) e)
      (e.processMessages H.recording).2 []
      ((inbox H ((forget e).detectPeerChanges H).config.maxMessagesPerTick
        ((forget e).detectPeerChanges H)).flatMap (answerTo H)) := by
  have hleft : ∀ {l : List PeerId} {e : Recorded σ},
      Adds e (l.foldl (fun e peer => e.pushEvent (.peerLeft peer)) e) [] [] :=
    .foldl_nil fun _ _ => .push _
  have hdetect : Adds ((H.peers e.transport.1).foldl
      (fun e peer => e.noticePeer H.recording peer) e) (e.detectPeerChanges H.recording) [] [] :=
    (hleft (l := _)).trans (.refl rfl rfl)
  have h := (hdetect.trans (receiveLoop (H := H) (n := (e.detectPeerChanges
    H.recording).config.maxMessagesPerTick))).trans (resendDue (H := H))
  simp only [List.append_nil, List.nil_append] at h
  rw [← forget_detectPeerChanges]
  exact h

/-- No call but a poll reports a peer to join. -/
theorem step {a : EngineEvent σ} (ha : a ≠ .processMessages) :
    ∃ sends, Adds e (e.step H.recording a.recorded) [] sends := by
  cases a with
  | applyLocal operation =>
    refine ⟨[], ?_⟩
    simp only [SyncEngine.step, EngineEvent.recorded, SyncEngine.applyLocal]
    rcases e.crdt.applyLocal operation with _ | ⟨tagged, crdt⟩
    · exact .refl rfl rfl
    · have hedited : Adds e { e with crdt := crdt } [] [] := .refl rfl rfl
      exact hedited.trans (.dispatch _)
  | processMessages => exact absurd rfl ha
  | handlePeerJoin peer => exact ⟨_, .handlePeerJoin peer⟩
  | flushOfflineQueue => exact ⟨_, .flushOfflineQueue⟩
  | requestSnapshot => exact ⟨_, .dispatch _⟩
  | crdtMut f => exact ⟨_, .refl rfl rfl⟩
  | transportMut f => exact ⟨_, .refl rfl rfl⟩

/-! ## Marks -/

theorem marksOf (h : Adds e e' joins sends) :
    marksOf e e' = joins.map (fun peer => .joined peer e.crdt.operationLog) ++
      sends.map fun s => .sent s.1 s.2 := by
  rw [SyncEngine.marksOf, h.joined, h.sent, List.drop_left, List.drop_left]

end Adds

/-- The peer that joins, as a mark has it. -/
def Mark.join : Mark → Option PeerId
  | .joined peer _ => some peer
  | .sent .. => none

/-- The snapshot sent, as a mark has it. -/
def Mark.push : Mark → Option (PeerId × TimelineSnapshot)
  | .joined .. => none
  | .sent peer snapshot => some (peer, snapshot)

theorem Adds.marked {joins : List PeerId} {sends : List (PeerId × TimelineSnapshot)}
    (h : Adds e e' joins sends) :
    Adds e e' ((SyncEngine.marksOf e e').filterMap Mark.join)
      ((SyncEngine.marksOf e e').filterMap Mark.push) := by
  have hjoin : (SyncEngine.marksOf e e').filterMap Mark.join = joins := by
    simp [h.marksOf, List.filterMap_append, List.filterMap_map, Function.comp_def, Mark.join]
  have hpush : (SyncEngine.marksOf e e').filterMap Mark.push = sends := by
    simp [h.marksOf, List.filterMap_append, List.filterMap_map, Function.comp_def, Mark.push]
  rwa [hjoin, hpush]

theorem adds_noticeMarks :
    ∀ {l : List PeerId} {e : Recorded σ},
      Adds e (l.foldl (fun e peer => e.noticePeer H.recording peer) e)
        ((noticeMarks H e l).filterMap Mark.join) ((noticeMarks H e l).filterMap Mark.push)
  | [], _ => .refl rfl rfl
  | p :: l, e => by
    rw [noticeMarks, List.filterMap_append, List.filterMap_append]
    exact (Adds.noticePeer p).marked.trans (adds_noticeMarks (l := l))

theorem marksBy_of_ne {a : EngineEvent σ} (ha : a ≠ .processMessages) :
    marksBy H e a = marksOf e (e.step H.recording a.recorded) := by
  cases a <;> first | rfl | exact absurd rfl ha

theorem adds_marksBy (a : EngineEvent σ) :
    Adds e (e.step H.recording a.recorded) ((marksBy H e a).filterMap Mark.join)
      ((marksBy H e a).filterMap Mark.push) := by
  by_cases ha : a = .processMessages
  · subst ha
    rw [marksBy, List.filterMap_append, List.filterMap_append]
    exact adds_noticeMarks.trans Adds.processMessages.marked
  · obtain ⟨sends, h⟩ := Adds.step (H := H) (e := e) ha
    rw [marksBy_of_ne ha]
    exact h.marked

/-- The marks of a run are the joins among its events, and the snapshots on the record. -/
theorem adds_marks :
    ∀ (as : List (EngineEvent σ)) (e : Recorded σ),
      Adds e ((machine H.recording).run e (as.map .recorded))
        ((marks H e as).filterMap Mark.join) ((marks H e as).filterMap Mark.push)
  | [], _ => .refl rfl rfl
  | a :: as, e => by
    rw [marks, List.filterMap_append, List.filterMap_append]
    exact (adds_marksBy a).trans (adds_marks as _)

end SyncEngine

end AvSync
