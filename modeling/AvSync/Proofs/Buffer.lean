import AvSync.Proofs.Settled

/-!
# The causal buffer

A retry pass attempts the buffered operations in order and keeps those that fail. The passes end
with one in which every operation fails; since a failed operation creates nothing, each one left
then misses a target (`drainPending_eq`). So does each one left after a remote operation has been
taken in (`applyRemote_eq`).
-/

namespace AvSync

namespace Session

variable {s : Session} {o : TaggedOperation}

theorem apply_cases (s : Session) (o : TaggedOperation) :
    (s.apply o.operation o.tag = (.ok (), s.exec o) ∧ s.Succeeds o) ∨
      ∃ err, s.apply o.operation o.tag = (.error err, s.exec o) ∧ ¬s.Succeeds o := by
  simp only [exec, Succeeds]
  rcases ha : s.apply o.operation o.tag with ⟨err | _, s'⟩
  · exact Or.inr ⟨err, rfl, by simp⟩
  · exact Or.inl ⟨rfl, rfl⟩

theorem replay_append (l m : List TaggedOperation) : s.replay (l ++ m) = (s.replay l).replay m :=
  Machine.run_append s l m

theorem applied_append :
    ∀ (l m : List TaggedOperation) (s : Session),
      s.applied (l ++ m) = s.applied l ++ (s.replay l).applied m
  | [], _, _ => rfl
  | o :: l, m, s => by
    simp only [List.cons_append, applied, applied_append l m]
    split_ifs <;> rfl

theorem applied_append_rejected_perm :
    ∀ (l : List TaggedOperation) (s : Session), (s.applied l ++ s.rejected l).Perm l
  | [], _ => .nil
  | o :: l, s => by
    have ih := applied_append_rejected_perm l (s.exec o)
    simp only [applied, rejected]
    split_ifs
    · exact ih.cons o
    · exact List.perm_middle.trans (ih.cons o)

theorem mem_of_mem_applied {l : List TaggedOperation} (h : o ∈ s.applied l) : o ∈ l :=
  (applied_append_rejected_perm l s).mem_iff.mp (List.mem_append_left _ h)

theorem mem_of_mem_rejected {l : List TaggedOperation} (h : o ∈ s.rejected l) : o ∈ l :=
  (applied_append_rejected_perm l s).mem_iff.mp (List.mem_append_right _ h)

/-- Where nothing applies, nothing is created. -/
theorem misses_of_applied_nil {op : TimelineOperation} :
    ∀ {l : List TaggedOperation} {s : Session}, s.applied l = [] →
      ((s.replay l).Misses op ↔ s.Misses op)
  | [], _, _ => Iff.rfl
  | o :: l, s, h => by
    by_cases ho : s.Succeeds o
    · simp [applied, ho] at h
    · simp only [applied, ho, if_false] at h
      exact (misses_of_applied_nil h).trans (misses_exec_of_fails ho)

/-- Where nothing applies, every operation still misses a target at the end. -/
theorem missing_of_applied_nil :
    ∀ {l : List TaggedOperation} {s : Session}, s.applied l = [] →
      ∀ o ∈ l, (s.replay l).Misses o.operation
  | [], _, _, o, ho => absurd ho List.not_mem_nil
  | b :: l, s, h, o, ho => by
    have hb : ¬s.Succeeds b := fun hb => by simp [applied, hb] at h
    have hl : (s.exec b).applied l = [] := by simpa [applied, hb] using h
    rcases List.mem_cons.mp ho with rfl | ho
    · rw [misses_of_applied_nil h]
      exact misses_of_fails hb
    · exact missing_of_applied_nil hl o ho

end Session

namespace TimelineCrdt

variable {c : TimelineCrdt}

theorem observeResolution_eq (c : TimelineCrdt) (o : TaggedOperation) :
    ∃ e, c.observeResolution o = { c with resolutionEvents := e } := by
  unfold observeResolution
  split
  · exact ⟨_, rfl⟩
  · split <;> exact ⟨_, rfl⟩

theorem drainStep_eq (c : TimelineCrdt) (b : Bool) (w : List TaggedOperation)
    (o : TaggedOperation) :
    ∃ e, drainStep (c, b, w) o =
      ({ c with session := c.session.exec o, resolutionEvents := e },
        b || decide (c.session.Succeeds o), if c.session.Succeeds o then w else w ++ [o]) := by
  obtain ⟨e, he⟩ := observeResolution_eq c o
  refine ⟨e, ?_⟩
  rcases c.session.apply_cases o with ⟨ha, ho⟩ | ⟨err, ha, ho⟩
  · simp only [drainStep, he, ha, ho, decide_true, Bool.or_true, if_true]
  · simp only [drainStep, he, ha, ho, decide_false, Bool.or_false, if_false]

theorem foldl_drainStep_eq :
    ∀ (l : List TaggedOperation) (c : TimelineCrdt) (b : Bool) (w : List TaggedOperation),
      ∃ e, l.foldl drainStep (c, b, w) =
        ({ c with session := c.session.replay l, resolutionEvents := e },
          b || !(c.session.applied l).isEmpty, w ++ c.session.rejected l)
  | [], c, b, w => ⟨c.resolutionEvents, by simp [Session.applied, Session.rejected]⟩
  | o :: l, c, b, w => by
    obtain ⟨e, he⟩ := drainStep_eq c b w o
    obtain ⟨e', he'⟩ := foldl_drainStep_eq l
      { c with session := c.session.exec o, resolutionEvents := e }
      (b || decide (c.session.Succeeds o)) (if c.session.Succeeds o then w else w ++ [o])
    refine ⟨e', ?_⟩
    rw [List.foldl_cons, he, he']
    by_cases ho : c.session.Succeeds o
    · simp only [ho, Session.applied, Session.rejected, if_true, decide_true, Bool.or_true,
        Bool.true_or, List.isEmpty_cons, Bool.not_false]
      rfl
    · simp only [ho, Session.applied, Session.rejected, if_false, decide_false, Bool.or_false,
        List.append_assoc, List.singleton_append]
      rfl

theorem drainPass_eq (c : TimelineCrdt) :
    ∃ e, c.drainPass = ({ c with
      session := c.session.replay c.pending
      pending := c.session.rejected c.pending
      resolutionEvents := e }, !(c.session.applied c.pending).isEmpty) := by
  obtain ⟨e, he⟩ := foldl_drainStep_eq c.pending { c with pending := [] } false []
  refine ⟨e, ?_⟩
  simp only [drainPass, he, Bool.false_or, List.nil_append]

theorem drainLoop_eq :
    ∀ (n : ℕ) (c : TimelineCrdt), c.pending.length < n → ∃ att p e,
      drainLoop n c = { c with
        session := c.session.replay att, pending := p, resolutionEvents := e } ∧
      (∀ o ∈ att, o ∈ c.pending) ∧ (c.session.applied att ++ p).Perm c.pending ∧
      ∀ o ∈ p, (c.session.replay att).Misses o.operation
  | 0, _, h => absurd h (Nat.not_lt_zero _)
  | n + 1, c, h => by
    obtain ⟨e, he⟩ := drainPass_eq c
    have hperm := Session.applied_append_rejected_perm c.pending c.session
    simp only [drainLoop, he]
    rcases ha : c.session.applied c.pending with _ | ⟨a, as⟩
    · rw [ha, List.nil_append] at hperm
      refine ⟨c.pending, _, e, rfl, fun _ ho => ho, by rwa [ha], fun o ho => ?_⟩
      exact Session.missing_of_applied_nil ha o (Session.mem_of_mem_rejected ho)
    · have hlen := hperm.length_eq
      rw [ha, List.cons_append, List.length_cons, List.length_append] at hlen
      obtain ⟨att, p, e', h1, h2, h3, h4⟩ := drainLoop_eq n { c with
        session := c.session.replay c.pending
        pending := c.session.rejected c.pending
        resolutionEvents := e } (by simp only; omega)
      refine ⟨c.pending ++ att, p, e', ?_, ?_, ?_, ?_⟩
      · rw [Session.replay_append]
        exact h1
      · intro o ho
        exact (List.mem_append.mp ho).elim id fun ho => Session.mem_of_mem_rejected (h2 o ho)
      · rw [Session.applied_append, List.append_assoc]
        exact (h3.append_left _).trans hperm
      · rw [Session.replay_append]
        exact h4

/-- Draining attempts buffered operations until each one left misses a target. -/
theorem drainPending_eq (c : TimelineCrdt) : ∃ att p e,
    c.drainPending = { c with
      session := c.session.replay att, pending := p, resolutionEvents := e } ∧
    (∀ o ∈ att, o ∈ c.pending) ∧ (c.session.applied att ++ p).Perm c.pending ∧
    ∀ o ∈ p, (c.session.replay att).Misses o.operation :=
  drainLoop_eq _ c (Nat.lt_succ_self _)

theorem applyRemote_of_mem {o : TaggedOperation} (h : o.opId ∈ c.seen) : c.applyRemote o = c :=
  if_pos h

/-- An operation taken in is attempted first, then the buffer is drained. -/
theorem applyRemote_eq {o : TaggedOperation} (h : o.opId ∉ c.seen) : ∃ att p e,
    c.applyRemote o = { c with
      session := c.session.replay (o :: att)
      pending := p
      resolutionEvents := e
      vectorClock := (c.vectorClock.merge o.vectorClock).witness o.peerId o.lamportTs
      lamport := c.lamport.observe o.lamportTs
      seen := insert o.opId c.seen
      operationLog := c.operationLog ++ [o] } ∧
    (∀ b ∈ att, b ∈ c.pending ++ [o]) ∧
    (c.session.applied (o :: att) ++ p).Perm (c.pending ++ [o]) ∧
    ∀ b ∈ p, (c.session.replay (o :: att)).Misses b.operation := by
  simp only [applyRemote, h, if_false]
  obtain ⟨e, he⟩ := observeResolution_eq { c with
    vectorClock := (c.vectorClock.merge o.vectorClock).witness o.peerId o.lamportTs
    lamport := c.lamport.observe o.lamportTs
    seen := insert o.opId c.seen
    operationLog := c.operationLog ++ [o] } o
  simp only [he]
  rcases c.session.apply_cases o with ⟨ha, ho⟩ | ⟨err, ha, ho⟩
  · simp only [ha]
    obtain ⟨att, p, e', h1, h2, h3, h4⟩ := drainPending_eq { c with
      session := c.session.exec o
      resolutionEvents := e
      vectorClock := (c.vectorClock.merge o.vectorClock).witness o.peerId o.lamportTs
      lamport := c.lamport.observe o.lamportTs
      seen := insert o.opId c.seen
      operationLog := c.operationLog ++ [o] }
    refine ⟨att, p, e', h1, fun b hb => List.mem_append_left _ (h2 b hb), ?_, h4⟩
    simp only [Session.applied, ho, if_true, List.cons_append]
    exact (h3.cons o).trans (List.perm_append_singleton o _).symm
  · simp only [ha]
    obtain ⟨att, p, e', h1, h2, h3, h4⟩ := drainPending_eq { c with
      session := c.session.exec o
      pending := c.pending ++ [o]
      resolutionEvents := e
      vectorClock := (c.vectorClock.merge o.vectorClock).witness o.peerId o.lamportTs
      lamport := c.lamport.observe o.lamportTs
      seen := insert o.opId c.seen
      operationLog := c.operationLog ++ [o] }
    exact ⟨att, p, e', h1, h2, by simpa only [Session.applied, ho, if_false] using h3, h4⟩

end TimelineCrdt

end AvSync
