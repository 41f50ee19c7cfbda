import AvSync.Proofs.Calls
import AvSync.ReplicaRuns

/-!
# Conflict events

The events of a run are those of its observations, in order (`events_run`). An event about a move
or a delete tells the winner exactly if the latest other operation of the class decides for all of
them (`TimelineCrdt.run_tellsWinner_iff`). Where no retry raises an event, an incoming operation
raises one at most (`TimelineCrdt.run_raised_nodup`).
-/

namespace AvSync

namespace Observation

variable {b : Observation} {prior : TaggedOperation} {event : ResolutionEvent}

theorem prior_mem_rivals (h : b.prior = some prior) : prior ∈ b.rivals := by
  obtain ⟨cls, hcls, hfind⟩ := Option.bind_eq_some_iff.mp h
  have hmem := List.mem_reverse.mp (List.mem_of_find?_eq_some hfind)
  have hp := List.find?_some hfind
  simp only [Bool.decide_and, Bool.and_eq_true, decide_eq_true_eq] at hp
  refine List.mem_filter.mpr ⟨List.dropLast_subset _ hmem, ?_⟩
  simpa [hcls] using hp

/-- An event about a move or a delete compares the tags with those of the latest other one. -/
theorem event_eq_some (h : b.event = some event) (hkind : event.kind ≠ .split) :
    ∃ prior, b.prior = some prior ∧
      b.op.vectorClock.isConcurrent prior.vectorClock = true ∧
      (∀ x f n, b.op.operation ≠ .splitClip x f n) ∧
      event.opWon = decide (prior.tag < b.op.tag) := by
  obtain ⟨cls, hcls, h⟩ := Option.bind_eq_some_iff.mp h
  obtain ⟨prior, hprior, h⟩ := Option.bind_eq_some_iff.mp h
  have hsplit : ∀ x f n, b.op.operation ≠ .splitClip x f n := by
    intro x f n hop
    rw [hop] at hcls
    obtain rfl := Option.some.inj hcls
    unfold TimelineCrdt.conflictEvent at h
    split at h
    · cases h
    · split at h
      · split_ifs at h
        cases h
        exact hkind rfl
      · cases h
        exact hkind rfl
  refine ⟨prior, hprior, ?_, hsplit, ?_⟩
  · by_contra hc
    simp [TimelineCrdt.conflictEvent, hc] at h
  · unfold TimelineCrdt.conflictEvent at h
    split at h
    · cases h
    · split at h
      · rename_i hop _
        exact absurd hop (hsplit _ _ _)
      · cases h
        rfl

theorem event_of_prior (hprior : b.prior = some prior)
    (hc : b.op.vectorClock.isConcurrent prior.vectorClock = true)
    (hsplit : ∀ x f n, b.op.operation ≠ .splitClip x f n) :
    ∃ event, b.event = some event ∧ event.kind ≠ .split ∧
      event.opWon = decide (prior.tag < b.op.tag) := by
  obtain ⟨cls, hcls, -⟩ := Option.bind_eq_some_iff.mp hprior
  refine ⟨resolveTagConflict cls.1 cls.2 prior.tag b.op.tag, ?_, ?_, rfl⟩
  · rw [event, hcls, Option.bind_some, hprior, Option.bind_some, TimelineCrdt.conflictEvent, hc]
    simp only [Bool.not_true, Bool.false_eq_true, if_false]
    split
    · rename_i hop _
      exact absurd hop (hsplit _ _ _)
    · rfl
  · unfold TimelineCrdt.conflictClass at hcls
    split at hcls <;> cases hcls
    · exact nofun
    · exact nofun
    · rename_i hop
      exact absurd hop (hsplit _ _ _)

/-- The comparison is right unless the latest other operation loses and an earlier one does not. -/
theorem tellsWinner_iff : b.TellsWinner ↔ b.LatestDecides := by
  constructor
  · rintro h prior hprior hc hsplit ⟨o, ho, hle⟩
    obtain ⟨event, he, hkind, hwon⟩ := event_of_prior hprior hc hsplit
    by_contra hlt
    have hall := (h event he hkind).mp (by rw [hwon, decide_eq_true_eq]; exact not_le.mp hlt)
    exact absurd (hall o ho) (not_lt.mpr hle)
  · intro h event he hkind
    obtain ⟨prior, hprior, hc, hsplit, hwon⟩ := event_eq_some he hkind
    rw [hwon, decide_eq_true_eq]
    constructor
    · intro hlt o ho
      by_contra hge
      exact absurd (h prior hprior hc hsplit ⟨o, ho, not_lt.mp hge⟩) (not_le.mpr hlt)
    · exact fun hall => hall prior (prior_mem_rivals hprior)

end Observation

namespace TimelineCrdt

variable {c c' : TimelineCrdt} {op : TaggedOperation}

/-- The events of observations, in order. -/
def eventsOf (l : List Observation) : List ResolutionEvent := l.filterMap Observation.event

@[simp] theorem eventsOf_nil : eventsOf [] = [] := rfl

theorem eventsOf_append (l m : List Observation) : eventsOf (l ++ m) = eventsOf l ++ eventsOf m :=
  List.filterMap_append

theorem eventsOf_cons (b : Observation) (l : List Observation) :
    eventsOf (b :: l) = b.event.toList ++ eventsOf l := by
  rw [eventsOf, List.filterMap_cons]
  rcases b.event with _ | event <;> rfl

/-! ## Events of the passes -/

theorem observeResolution_events (c : TimelineCrdt) (op : TaggedOperation) :
    c.observeResolution op = { c with
      resolutionEvents := c.resolutionEvents ++ eventsOf [⟨c.operationLog, op⟩] } := by
  rw [eventsOf_cons, eventsOf_nil, List.append_nil, observeResolution, Observation.event,
    Observation.prior]
  rcases conflictClass op.operation with _ | ⟨kind, clipId⟩
  · simp
  · simp only [Option.bind_some]
    split
    · rename_i h
      simp only [h, Option.bind_none, Option.toList_none, List.append_nil]
    · rename_i h
      simp only [h, Option.bind_some]

theorem foldl_drainStep_events :
    ∀ (l : List TaggedOperation) (c : TimelineCrdt) (b : Bool) (w : List TaggedOperation),
      (l.foldl drainStep (c, b, w)).1.operationLog = c.operationLog ∧
      (l.foldl drainStep (c, b, w)).1.resolutionEvents =
        c.resolutionEvents ++ eventsOf (l.map (⟨c.operationLog, ·⟩))
  | [], c, _, _ => ⟨rfl, (List.append_nil _).symm⟩
  | o :: l, c, b, w => by
    have hstep : (drainStep (c, b, w) o).1.operationLog = c.operationLog ∧
        (drainStep (c, b, w) o).1.resolutionEvents =
          c.resolutionEvents ++ eventsOf [⟨c.operationLog, o⟩] := by
      simp only [drainStep, observeResolution_events]
      split <;> exact ⟨rfl, rfl⟩
    rcases hd : drainStep (c, b, w) o with ⟨c₁, b₁, w₁⟩
    rw [hd] at hstep
    obtain ⟨h₁, h₂⟩ := foldl_drainStep_events l c₁ b₁ w₁
    rw [List.foldl_cons, hd, h₁, h₂, hstep.1, hstep.2, List.append_assoc, List.map_cons,
      ← eventsOf_append]
    exact ⟨rfl, rfl⟩

theorem drainPass_events (c : TimelineCrdt) : c.drainPass.1.operationLog = c.operationLog ∧
    c.drainPass.1.resolutionEvents =
      c.resolutionEvents ++ eventsOf (c.pending.map (⟨c.operationLog, ·⟩)) :=
  foldl_drainStep_events c.pending { c with pending := [] } false []

theorem drainLoop_events :
    ∀ (n : ℕ) (c : TimelineCrdt),
      (drainLoop n c).resolutionEvents = c.resolutionEvents ++ eventsOf (drainObserved n c)
  | 0, c => (List.append_nil _).symm
  | n + 1, c => by
    obtain ⟨-, hpass⟩ := drainPass_events c
    rw [drainLoop, drainObserved, eventsOf_append, ← List.append_assoc, ← hpass]
    rcases hd : c.drainPass with ⟨c₁, _ | _⟩
    · simp
    · simpa using drainLoop_events n c₁

/-- A retry looks at an operation of the buffer, with the log there is. -/
theorem mem_drainObserved {b : Observation} :
    ∀ {n : ℕ} {c : TimelineCrdt}, b ∈ drainObserved n c →
      ∃ o ∈ c.pending, b = ⟨c.operationLog, o⟩
  | 0, _, h => absurd h List.not_mem_nil
  | n + 1, c, h => by
    rw [drainObserved, List.mem_append] at h
    rcases h with h | h
    · obtain ⟨o, ho, rfl⟩ := List.mem_map.mp h
      exact ⟨o, ho, rfl⟩
    · split_ifs at h
      · obtain ⟨o, ho, rfl⟩ := mem_drainObserved (n := n) h
        obtain ⟨e, he⟩ := drainPass_eq c
        rw [he] at ho ⊢
        exact ⟨o, Session.mem_of_mem_rejected ho, rfl⟩
      · exact absurd h List.not_mem_nil

/-! ## Events of the calls -/

theorem applyRemote_of_not_mem (h : op.opId ∉ c.seen) :
    c.applyRemote op = (c.receive op).drainPending := if_neg h

theorem receive_events (c : TimelineCrdt) (op : TaggedOperation) :
    (c.receive op).operationLog = c.operationLog ++ [op] ∧
      (c.receive op).resolutionEvents =
        c.resolutionEvents ++ eventsOf [⟨c.operationLog ++ [op], op⟩] := by
  simp only [receive, observeResolution_events]
  split <;> exact ⟨rfl, rfl⟩

theorem receive_pending (c : TimelineCrdt) (op : TaggedOperation) :
    (c.receive op).pending = c.pending ++ if c.session.Succeeds op then [] else [op] := by
  simp only [receive, observeResolution_events]
  rcases c.session.apply_cases op with ⟨ha, hs⟩ | ⟨err, ha, hs⟩
  · simp only [ha, if_pos hs, List.append_nil]
  · simp only [ha, if_neg hs]

theorem applyRemote_events (c : TimelineCrdt) (op : TaggedOperation) :
    (c.applyRemote op).resolutionEvents = c.resolutionEvents ++ eventsOf (c.observedBy op) := by
  rw [observedBy]
  split_ifs with hseen
  · rw [applyRemote_of_mem hseen, eventsOf_nil, List.append_nil]
  · obtain ⟨hlog, hevents⟩ := receive_events c op
    rw [applyRemote_of_not_mem hseen, drainPending, drainLoop_events, hevents, List.append_assoc,
      ← eventsOf_append, ← hlog]
    rfl

theorem deliver_events :
    ∀ (ops : List TaggedOperation) (c : TimelineCrdt),
      (c.deliver ops).resolutionEvents = c.resolutionEvents ++ eventsOf (c.deliverObserved ops)
  | [], c => (List.append_nil _).symm
  | op :: ops, c => by
    change ((c.applyRemote op).deliver ops).resolutionEvents = _
    rw [deliver_events ops, applyRemote_events, deliverObserved, eventsOf_append,
      List.append_assoc]

theorem received_of_issued {k : Call} {operation : TimelineOperation}
    (h : c.issued k = some operation) : k.received = [] := by
  cases k <;> first | rfl | cases h

theorem maintain_events {k : Upkeep} (hk : c.maintain k = some c') :
    c'.resolutionEvents = c.resolutionEvents ++ eventsOf (c.callObserved k) := by
  cases k with
  | compact =>
    cases hk
    exact (List.append_nil _).symm
  | call k =>
    rcases call_cases hk with ⟨operation, inv, h₀, h₁, hissued, rfl⟩ | ⟨-, rfl⟩
    · obtain ⟨s, p, h, he⟩ := stamp_eq { c with history := h₀ } operation inv
      simp only [he, callObserved, received_of_issued hissued, deliverObserved, eventsOf_nil,
        List.append_nil]
    · exact deliver_events _ c

theorem events_run :
    ∀ {ks : List Upkeep} {c c' : TimelineCrdt}, maintained.run (some c) ks = some c' →
      c'.resolutionEvents = c.resolutionEvents ++ eventsOf (observed (some c) ks)
  | [], c, c', h => by
    cases h
    exact (List.append_nil _).symm
  | k :: ks, c, c', h => by
    rw [Machine.run_cons] at h
    rcases hk : c.maintain k with _ | c₁
    · rw [show maintained.step (some c) k = none from hk, Machine.run_fixed fun _ => rfl] at h
      cases h
    · rw [show maintained.step (some c) k = some c₁ from hk] at h
      rw [events_run h, maintain_events hk, observed, hk, eventsOf_append, List.append_assoc]

/-- Along every run the events are those of the observations, and one about a move or a delete
tells the true winner exactly if the latest other operation of its class decides for all. -/
theorem run_tellsWinner_iff (peer : PeerId) (ks : List Upkeep) :
    (∀ c, maintained.run (some (new peer)) ks = some c →
      c.resolutionEvents = (observed (some (new peer)) ks).filterMap Observation.event) ∧
    ∀ b ∈ observed (some (new peer)) ks, b.TellsWinner ↔ b.LatestDecides := by
  refine ⟨fun c hc => ?_, fun b _ => Observation.tellsWinner_iff⟩
  rw [events_run hc]
  exact List.nil_append _

/-- An edit of `peer`, which has seen what peer 1 did up to its stamp `seen`. -/
def editBy (lamport peer seen : UInt64) (op : TimelineOperation) : TaggedOperation :=
  { TaggedOperation.of lamport peer op with
    vectorClock := (VectorClock.new.witness ⟨1⟩ seen).witness ⟨peer⟩ lamport }

/-- A track and a clip on it. -/
def contestedCalls : List Call :=
  [.applyRemote (editBy 1 1 1 (.insertTrack ⟨1⟩ (.new "t") 0)),
    .applyRemote (editBy 2 1 2 (.insertClip ⟨1⟩ ⟨1⟩ ⟨"c", "s", 0, 1000, 0⟩ 0))]

/-- A move of the clip. -/
def moveBy (lamport peer : UInt64) : TaggedOperation :=
  editBy lamport peer 2 (.moveClip ⟨1⟩ ⟨1⟩ (100 * lamport) 0)

/-- Three moves made without knowledge of each other, the greatest first and the least second. -/
def moveCalls : List Upkeep :=
  (contestedCalls ++ [moveBy 10 2, moveBy 5 3, moveBy 7 4].map Call.applyRemote).map .call

/-- The last move is reported to have won, and the first is the one that has. -/
theorem moveCalls_not_tellsWinner : ∃ b ∈ observed (some (new ⟨9⟩)) moveCalls, ¬b.TellsWinner := by
  have hlast : (observed (some (new ⟨9⟩)) moveCalls)[4]? = some ⟨
      [editBy 1 1 1 (.insertTrack ⟨1⟩ (.new "t") 0),
        editBy 2 1 2 (.insertClip ⟨1⟩ ⟨1⟩ ⟨"c", "s", 0, 1000, 0⟩ 0), moveBy 10 2, moveBy 5 3,
        moveBy 7 4], moveBy 7 4⟩ := rfl
  refine ⟨_, List.mem_of_getElem? hlast, fun h => ?_⟩
  have hall := (h ⟨.move, ⟨1⟩, ⟨7, ⟨4⟩⟩, true, "higher (lamport, peer) tag wins"⟩
    (by decide +kernel) (by decide)).mp rfl
  refine absurd (hall (moveBy 10 2) ?_) (by decide)
  simp [Observation.rivals, moveBy, editBy, TaggedOperation.of, conflictClass]

/-! ## One event for an operation -/

theorem raised_append (l m : List Observation) : raised (l ++ m) = raised l ++ raised m := by
  simp [raised]

/-- Where its retries are quiet, an operation that is taken in raises an event at most once, and
no other operation does. -/
theorem raised_observedBy (h : c.QuietRetries op) :
    raised (c.observedBy op) = [] ∨ (raised (c.observedBy op) = [op.opId] ∧ op.opId ∉ c.seen) := by
  rw [observedBy]
  split_ifs with hseen
  · exact Or.inl rfl
  · have hdrain : raised (drainObserved ((c.receive op).pending.length + 1) (c.receive op)) =
        [] := by
      rw [raised, List.map_eq_nil_iff, List.filter_eq_nil_iff]
      intro b hb
      obtain ⟨o, ho, rfl⟩ := mem_drainObserved hb
      rw [receive_pending] at ho
      rw [(receive_events c op).1, h hseen o ho]
      exact Bool.false_ne_true
    have hcons : ∀ b : Observation, raised (b :: drainObserved ((c.receive op).pending.length + 1)
        (c.receive op)) = raised [b] := by
      intro b
      rw [← List.singleton_append, raised_append, hdrain, List.append_nil]
    rw [hcons]
    rcases (⟨(c.receive op).operationLog, op⟩ : Observation).event.isSome.eq_false_or_eq_true
      with he | he
    · exact Or.inr ⟨by simp [raised, he], hseen⟩
    · exact Or.inl (by simp [raised, he])

theorem seen_applyRemote (c : TimelineCrdt) (op : TaggedOperation) :
    (c.applyRemote op).seen = insert op.opId c.seen := by
  by_cases hseen : op.opId ∈ c.seen
  · rw [applyRemote_of_mem hseen, Finset.insert_eq_of_mem hseen]
  · obtain ⟨att, p, e, heq, -⟩ := applyRemote_eq hseen
    rw [heq]

/-- Between `s` and `s'` each id is raised once at most, and has not been seen before. -/
structure RaisedOnce (s s' : Finset OperationId) (l : List OperationId) : Prop where
  subset : s ⊆ s'
  nodup : l.Nodup
  fresh : ∀ i ∈ l, i ∉ s
  seen : ∀ i ∈ l, i ∈ s'

namespace RaisedOnce

variable {s s' s'' : Finset OperationId} {l m : List OperationId}

theorem nil (h : s ⊆ s') : RaisedOnce s s' [] :=
  ⟨h, List.nodup_nil, fun _ hi => absurd hi List.not_mem_nil,
    fun _ hi => absurd hi List.not_mem_nil⟩

theorem append (h : RaisedOnce s s' l) (h' : RaisedOnce s' s'' m) :
    RaisedOnce s s'' (l ++ m) where
  subset := h.subset.trans h'.subset
  nodup := by
    refine List.nodup_append.mpr ⟨h.nodup, h'.nodup, ?_⟩
    rintro i hi j hj rfl
    exact h'.fresh i hj (h.seen i hi)
  fresh i hi := by
    rcases List.mem_append.mp hi with hi | hi
    · exact h.fresh i hi
    · exact fun his => h'.fresh i hi (h.subset his)
  seen i hi := (List.mem_append.mp hi).elim (fun hi => h'.subset (h.seen i hi)) (h'.seen i)

end RaisedOnce

theorem raisedOnce_applyRemote (h : c.QuietRetries op) :
    RaisedOnce c.seen (c.applyRemote op).seen (raised (c.observedBy op)) := by
  rw [seen_applyRemote]
  rcases raised_observedBy h with hr | ⟨hr, hseen⟩
  · rw [hr]
    exact .nil (Finset.subset_insert _ _)
  · rw [hr]
    exact ⟨Finset.subset_insert _ _, List.nodup_singleton _,
      fun i hi => List.mem_singleton.mp hi ▸ hseen,
      fun i hi => List.mem_singleton.mp hi ▸ Finset.mem_insert_self _ _⟩

theorem raisedOnce_deliver :
    ∀ {l : List TaggedOperation} {c : TimelineCrdt}, c.QuietDeliveries l →
      RaisedOnce c.seen (c.deliver l).seen (raised (c.deliverObserved l))
  | [], _, _ => .nil (Finset.Subset.refl _)
  | op :: ops, c, h => by
    rw [deliverObserved, raised_append]
    exact (raisedOnce_applyRemote h.1).append (raisedOnce_deliver (l := ops) h.2)

theorem raisedOnce_call {k : Call} (hq : c.QuietDeliveries k.received) (hk : c.call k = some c') :
    RaisedOnce c.seen c'.seen (raised (c.callObserved (.call k))) := by
  rcases call_cases hk with ⟨operation, inv, h₀, h₁, hissued, rfl⟩ | ⟨-, rfl⟩
  · obtain ⟨s, p, h, he⟩ := stamp_eq { c with history := h₀ } operation inv
    rw [callObserved, received_of_issued hissued]
    simp only [he]
    exact .nil (Finset.subset_insert _ _)
  · exact raisedOnce_deliver hq

theorem raisedOnce_run :
    ∀ {ks : List Call} {c c' : TimelineCrdt}, engine.Along QuietCall (some c) ks →
      engine.run (some c) ks = some c' →
      RaisedOnce c.seen c'.seen (raised (observed (some c) (ks.map .call)))
  | [], c, c', _, h => by
    cases h
    exact .nil (Finset.Subset.refl _)
  | k :: ks, c, c', hq, h => by
    rw [Machine.run_cons] at h
    rcases hk : c.call k with _ | c₁
    · rw [show engine.step (some c) k = none from hk, Machine.run_fixed fun _ => rfl] at h
      cases h
    · rw [Machine.along_cons] at hq
      rw [show engine.step (some c) k = some c₁ from hk] at h hq
      rw [List.map_cons, observed, raised_append, show c.maintain (.call k) = some c₁ from hk]
      exact (raisedOnce_call (hq.1 c rfl) hk).append (raisedOnce_run hq.2 h)

/-- In every run in which the retries raise no event, each incoming operation raises one at most,
and the events of the run are the events so raised. -/
theorem run_raised_nodup (peer : PeerId) (ks : List Call)
    (hq : engine.Along QuietCall (some (new peer)) ks) {c : TimelineCrdt}
    (hc : afterCalls peer ks = some c) :
    c.resolutionEvents =
        (observed (some (new peer)) (ks.map .call)).filterMap Observation.event ∧
      (raised (observed (some (new peer)) (ks.map .call))).Nodup := by
  refine ⟨?_, (raisedOnce_run hq hc).nodup⟩
  have hrun : ∀ (ks : List Call) (r : Option TimelineCrdt),
      maintained.run r (ks.map .call) = engine.run r ks := by
    intro ks
    induction ks with
    | nil => exact fun _ => rfl
    | cons k ks ih => exact fun r => ih _
  rw [events_run ((hrun ks _).trans hc)]
  exact List.nil_append _

/-- The delete of the clip. -/
def deleteBy (lamport peer : UInt64) : TaggedOperation := editBy lamport peer 2 (.deleteClip ⟨1⟩)

/-- Two deletes made without knowledge of each other. -/
def deleteCalls : List Call := [.applyRemote (deleteBy 3 2), .applyRemote (deleteBy 3 3)]

theorem deleteCalls_raised_nodup :
    (raised (observed (some (new ⟨9⟩)) ((contestedCalls ++ deleteCalls).map .call))).Nodup := by
  refine (run_raised_nodup ⟨9⟩ (contestedCalls ++ deleteCalls) ?_ rfl).2
  refine ⟨?_, ?_, ?_, ?_, trivial⟩
  all_goals
    rintro c ⟨⟩
    decide +kernel

/-- Where the clip is yet to come, the second delete raises its event on reception and again when
it is retried. -/
theorem deleteCalls_raised_twice :
    ¬(raised (observed (some (new ⟨9⟩)) (deleteCalls.map .call))).Nodup := by
  decide +kernel

end TimelineCrdt

end AvSync
