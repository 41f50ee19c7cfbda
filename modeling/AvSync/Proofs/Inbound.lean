import AvSync.EngineRuns
import AvSync.Proofs.Buffer

/-!
# What enters the log from the network

An operation message, alone or in a batch, enters the log only if it is within the limits. A
snapshot enters with every operation that has not been seen, checked or not. So what a run takes in
is within the limits exactly when those operations are (`SyncEngine.run_entered_valid_iff`).
-/

namespace AvSync

namespace TimelineCrdt

/-- A delivery lengthens the log by the operations that have not been seen. -/
theorem operationLog_deliver :
    ∀ {l : List TaggedOperation} {c : TimelineCrdt},
      (c.deliver l).operationLog = c.operationLog ++ unseen c.seen l
  | [], c => (List.append_nil _).symm
  | o :: l, c => by
    change ((c.applyRemote o).deliver l).operationLog = _
    rw [operationLog_deliver, unseen]
    split_ifs with ho
    · rw [applyRemote_of_mem ho]
    · obtain ⟨att, p, e, he, -⟩ := applyRemote_eq ho
      rw [he, List.append_assoc, List.singleton_append]

end TimelineCrdt

namespace SyncEngine

variable {σ : Type} {H : Host σ} {e : SyncEngine σ}

/-- `e'` has taken in operations that are all within the limits exactly if `P` holds. -/
def TakesIn (e e' : SyncEngine σ) (P : Prop) : Prop :=
  ∃ l, e'.crdt.operationLog = e.crdt.operationLog ++ l ∧ ((∀ o ∈ l, o.Valid) ↔ P)

namespace TakesIn

variable {e₁ e₂ e₃ : SyncEngine σ} {P Q : Prop}

theorem refl (h : e₂.crdt = e₁.crdt) : TakesIn e₁ e₂ True :=
  ⟨[], by rw [h, List.append_nil], by simp⟩

theorem trans (h₁ : TakesIn e₁ e₂ P) (h₂ : TakesIn e₂ e₃ Q) : TakesIn e₁ e₃ (P ∧ Q) := by
  obtain ⟨l, hl, hP⟩ := h₁
  obtain ⟨m, hm, hQ⟩ := h₂
  refine ⟨l ++ m, by rw [hm, hl, List.append_assoc], ?_⟩
  rw [List.forall_mem_append, hP, hQ]

theorem congr (h : TakesIn e₁ e₂ P) (hPQ : P ↔ Q) : TakesIn e₁ e₂ Q := by
  obtain ⟨l, hl, hP⟩ := h
  exact ⟨l, hl, hP.trans hPQ⟩

theorem foldl {α : Type} {f : SyncEngine σ → α → SyncEngine σ}
    (hf : ∀ e a, TakesIn e (f e a) True) :
    ∀ {l : List α} {e : SyncEngine σ}, TakesIn e (l.foldl f e) True
  | [], _ => refl rfl
  | a :: l, _ => ((hf _ a).trans (foldl hf (l := l))).congr (and_true _ ▸ Iff.rfl)

end TakesIn

theorem takesIn_handleOperation (peer : PeerId) (op : TaggedOperation) :
    TakesIn e (e.handleOperation H peer op) True := by
  unfold handleOperation
  split
  · exact .refl rfl
  · rename_i hv
    refine ⟨unseen e.crdt.seen [op], ?_, iff_of_true (fun o ho => ?_) trivial⟩
    · exact TimelineCrdt.operationLog_deliver (l := [op])
    · have : o ∈ [op] := by
        unfold unseen at ho
        split_ifs at ho
        · exact absurd ho List.not_mem_nil
        · exact ho
      exact List.mem_singleton.mp this ▸ hv

theorem takesIn_handleMessage (peer : PeerId) (msg : SyncMessage) :
    TakesIn e (e.handleMessage H peer msg) (e.SnapshotChecked msg) := by
  cases msg with
  | operation op => exact takesIn_handleOperation peer op
  | batch ops => exact .foldl fun _ op => takesIn_handleOperation peer op
  | snapshot snapshot => exact ⟨_, TimelineCrdt.operationLog_deliver, Iff.rfl⟩
  | _ => exact .refl rfl

theorem takesIn_receiveLoop :
    ∀ {n : ℕ} {e : SyncEngine σ},
      TakesIn e (receiveLoop H n e).2 (∀ m ∈ inbox H n e, m.1.SnapshotChecked m.2.2)
  | 0, _ => (TakesIn.refl rfl).congr (by simp [inbox])
  | n + 1, e => by
    unfold receiveLoop inbox
    rcases H.tryRecv e.transport with ⟨_ | _ | ⟨peer, msg⟩, t⟩
    · exact (TakesIn.refl rfl).congr (by simp)
    · exact (TakesIn.refl rfl).congr (by simp)
    · have h := (takesIn_handleMessage (e := { e with transport := t }) (H := H) peer msg).trans
        (takesIn_receiveLoop (n := n))
      exact h.congr (by simp only [List.forall_mem_cons])

/-! ## Calls that take nothing in -/

/-- What each step of a fold keeps, the fold keeps. -/
theorem frame_foldl {α β : Type} {g : SyncEngine σ → β} {f : SyncEngine σ → α → SyncEngine σ}
    (hf : ∀ e a, g (f e a) = g e) : ∀ (l : List α) (e : SyncEngine σ), g (l.foldl f e) = g e
  | [], _ => rfl
  | a :: l, e => (frame_foldl hf l (f e a)).trans (hf e a)

theorem crdt_flushMessage (msg : SyncMessage) : (e.flushMessage H msg).crdt = e.crdt := by
  unfold flushMessage broadcast
  rcases H.broadcast msg e.transport with ⟨_ | _, t⟩
  · rfl
  · cases msg <;> rfl

theorem crdt_handlePeerJoin (peer : PeerId) : (e.handlePeerJoin H peer).2.crdt = e.crdt := by
  unfold handlePeerJoin sendTo
  rcases H.sendTo peer (.snapshot e.crdt.snapshot) e.transport with ⟨_ | _, t⟩
  · rfl
  · exact frame_foldl (g := (·.crdt)) (fun _ msg => crdt_flushMessage msg) _ _

theorem crdt_noticePeer (peer : PeerId) : (e.noticePeer H peer).crdt = e.crdt := by
  unfold noticePeer
  split_ifs
  · rfl
  · exact crdt_handlePeerJoin peer

theorem crdt_detectPeerChanges : (e.detectPeerChanges H).crdt = e.crdt :=
  (frame_foldl (g := (·.crdt)) (f := fun e peer => e.pushEvent (.peerLeft peer))
    (fun _ _ => rfl) _ _).trans
    (frame_foldl (g := (·.crdt)) (fun _ peer => crdt_noticePeer peer) _ _)

theorem crdt_resendDue : (e.resendDue H).crdt = e.crdt :=
  frame_foldl (g := (·.crdt)) (f := fun e op => (e.broadcast H (.operation op)).2)
    (fun _ _ => rfl) _ _

/-! ## Runs -/

theorem takesIn_processMessages :
    TakesIn e (e.processMessages H).2 (e.InboxChecked H .processMessages) := by
  have h := ((TakesIn.refl (crdt_detectPeerChanges (e := e) (H := H))).trans
    (takesIn_receiveLoop (H := H) (n := (e.detectPeerChanges H).config.maxMessagesPerTick))).trans
    (TakesIn.refl (crdt_resendDue (H := H)))
  exact h.congr (by rw [true_and, and_true]; exact Iff.rfl)

theorem enteredBy_valid_iff (a : EngineEvent σ) :
    (∀ o ∈ e.enteredBy H a, o.Valid) ↔ e.InboxChecked H a := by
  cases a with
  | processMessages =>
    obtain ⟨l, hl, hv⟩ := takesIn_processMessages (e := e) (H := H)
    rw [enteredBy, hl, List.drop_left, hv]
  | _ => exact iff_of_true (fun o ho => absurd ho List.not_mem_nil) trivial

/-- What enters the log from the network along a run is within the limits exactly when, in each
snapshot the run takes in, each operation that is not seen yet is. -/
theorem run_entered_valid_iff :
    ∀ (as : List (EngineEvent σ)) (e : SyncEngine σ),
      (∀ o ∈ entered H e as, o.Valid) ↔ (machine H).Along (InboxChecked H) e as
  | [], _ => iff_of_true (fun o ho => absurd ho List.not_mem_nil) trivial
  | a :: as, e => by
    rw [entered, List.forall_mem_append, enteredBy_valid_iff, run_entered_valid_iff as]
    exact Iff.rfl

/-- A peer that sends one message. -/
def oneMessage (msg : SyncMessage) : Host Bool where
  sendTo _ _ sent := (.ok (), sent)
  broadcast _ sent := (.ok (), sent)
  tryRecv sent := (.ok (if sent then none else some (⟨2⟩, msg)), true)
  peers _ := [⟨2⟩]
  nowMs sent := (0, sent)

/-- A track whose name is longer than allowed. -/
def longName : TaggedOperation :=
  .of 1 2 (.insertTrack ⟨1⟩ (.new (String.ofList (List.replicate (maxStringBytes + 1) 'a'))) 0)

theorem longName_not_valid : ¬longName.Valid := by
  have hsize : ∀ n, (String.ofList (List.replicate n 'a')).utf8ByteSize = n := by
    intro n
    rw [String.utf8ByteSize_ofList]
    induction n with
    | zero => rfl
    | succ n ih =>
      rw [List.replicate_succ, String.utf8Len_cons, ih]
      rfl
  simp only [TaggedOperation.Valid, longName, TaggedOperation.of, TimelineOperation.validate,
    validateString, TrackData.new, hsize, Nat.lt_succ_self, if_true, reduceCtorEq,
    not_false_eq_true]

/-- An operation above the limits enters the log by way of a snapshot. -/
theorem snapshot_enters_unchecked :
    ¬∀ o ∈ entered (oneMessage (.snapshot ⟨[longName]⟩)) (withConfig (.new ⟨1⟩) false .default)
      [.processMessages], o.Valid := by
  intro h
  exact longName_not_valid (h longName List.mem_cons_self)

end SyncEngine

end AvSync
