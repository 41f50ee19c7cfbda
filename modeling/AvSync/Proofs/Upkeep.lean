import AvSync.Proofs.Calls
import AvSync.Proofs.Compaction
import AvSync.ReplicaRuns

/-!
# The buffer and the log

Every call puts the operation it buffers into the log too. Compaction cuts the log by the tags of
the registers, and a buffered operation owns no register: the buffer stays within the log along a
run exactly when each compaction keeps what is buffered (`run_bufferLogged_iff`). A replica that
joins from a snapshot then takes the buffered operations over (`BufferLogged.joins`).
-/

namespace AvSync

namespace TimelineCrdt

variable {c c' : TimelineCrdt} {o : TaggedOperation} {k : Call}

/-- Every buffered operation is in the log. -/
def BufferLogged (c : TimelineCrdt) : Prop := ∀ o ∈ c.pending, o ∈ c.operationLog

/-- Each buffered operation has the id of a split of the log, of the first insert of an entity in
the log, or of the last write of a register. -/
def KeepsBuffer (c : TimelineCrdt) : Prop :=
  ∀ o ∈ c.pending, (∃ b ∈ c.operationLog, b.operation.IsSplit ∧ b.opId = o.opId) ∨
    (∃ r b, c.operationLog.find? (inserts r) = some b ∧ b.opId = o.opId) ∨
      ∃ t ∈ registerTags c.session, t ≠ .initial ∧ o.opId = ⟨t.lamport, t.peer⟩

/-! ## Calls -/

theorem bufferLogged_stamp (h : c.BufferLogged) (op : TimelineOperation)
    (inv : Option TimelineOperation) : (c.stamp op inv).2.BufferLogged := by
  obtain ⟨s, p, h₀, heq⟩ := stamp_eq c op inv
  have hp := stamp_pending (c := c) op inv
  rw [heq] at hp ⊢
  intro b hb
  change b ∈ p at hb
  rw [show p = _ from hp] at hb
  split_ifs at hb
  · exact List.mem_append_left _ (h b hb)
  · exact (List.mem_append.mp hb).elim (fun hb => List.mem_append_left _ (h b hb))
      fun hb => List.mem_append_right _ hb

theorem bufferLogged_applyRemote (h : c.BufferLogged) (o : TaggedOperation) :
    (c.applyRemote o).BufferLogged := by
  by_cases ho : o.opId ∈ c.seen
  · rwa [applyRemote_of_mem ho]
  · obtain ⟨att, p, e, heq, -, hperm, -⟩ := applyRemote_eq ho
    rw [heq]
    intro b hb
    have hb := hperm.mem_iff.mp (List.mem_append_right _ hb)
    exact (List.mem_append.mp hb).elim (fun hb => List.mem_append_left _ (h b hb))
      fun hb => List.mem_append_right _ hb

theorem bufferLogged_deliver {l : List TaggedOperation} (h : c.BufferLogged) :
    (c.deliver l).BufferLogged := by
  induction l generalizing c with
  | nil => exact h
  | cons o l ih => exact ih (bufferLogged_applyRemote h o)

theorem bufferLogged_call (h : c.BufferLogged) (hk : c.call k = some c') : c'.BufferLogged := by
  rcases call_cases hk with ⟨op, inv, h₀, h₁, -, rfl⟩ | ⟨-, rfl⟩
  · exact bufferLogged_stamp (c := { c with history := h₀ }) h op inv
  · exact bufferLogged_deliver h

theorem bufferLogged_compact_iff (h : c.BufferLogged) :
    c.compact.BufferLogged ↔ c.KeepsBuffer := by
  refine forall₂_congr fun o ho => ?_
  have hlog : ∃ b ∈ c.operationLog, b.opId = o.opId := ⟨o, h o ho, rfl⟩
  change o ∈ c.operationLog.filter _ ↔ _
  rw [List.mem_filter, decide_eq_true_eq, and_iff_right (h o ho), mem_keptIds_iff]
  simp only [hlog, true_and]

/-- Along a run of calls and compactions the buffer stays within the log exactly when each
compaction keeps what is buffered. -/
theorem run_bufferLogged_iff (peer : PeerId) (steps : List Upkeep) :
    (∀ m, m <+: steps → ∀ c, maintained.run (some (new peer)) m = some c → c.BufferLogged) ↔
      maintained.Along (fun c u => ∀ c₀, c = some c₀ → u = .compact → c₀.KeepsBuffer)
        (some (new peer)) steps := by
  have hstep : ∀ (c : Option TimelineCrdt) (u : Upkeep), True →
      (∀ c₀, c = some c₀ → c₀.BufferLogged) →
        ((∀ c₀, maintained.step c u = some c₀ → c₀.BufferLogged) ↔
          ∀ c₀, c = some c₀ → u = .compact → c₀.KeepsBuffer) := by
    rintro (_ | c) u - hc
    · exact ⟨fun _ c₀ h => absurd h (by simp), fun _ c₀ h => absurd h (by simp [maintained])⟩
    have hc := hc c rfl
    rcases u with k | _
    · exact iff_of_true (fun c' hk => bufferLogged_call hc hk) fun _ _ hu => absurd hu (by simp)
    · constructor
      · intro h c₀ h₀ _
        exact Option.some.inj h₀ ▸ (bufferLogged_compact_iff hc).mp (h _ rfl)
      · intro h c' hc'
        exact Option.some.inj hc' ▸ (bufferLogged_compact_iff hc).mpr (h c rfl rfl)
  refine Machine.forall_prefix_iff_along (fun _ _ _ _ => trivial) hstep trivial fun c hc => ?_
  exact Option.some.inj hc ▸ fun o ho => absurd ho List.not_mem_nil

/-- A move of a clip that is not there yet, and a compaction. -/
def droppedSteps : List Upkeep :=
  [.call (.applyRemote (.of 1 2 (.moveClip ⟨7⟩ ⟨1⟩ 50 0))), .compact]

/-- The move is still buffered and no longer in the log. -/
theorem droppedSteps_not_bufferLogged : ∃ c, maintained.run (some (new ⟨1⟩)) droppedSteps = some c ∧
    c.pending.length = 1 ∧ c.operationLog = [] :=
  ⟨_, rfl, by decide +kernel, by decide +kernel⟩

/-! ## Joining from a snapshot -/

theorem subset_log_deliver {l : List TaggedOperation} (ho : o ∈ c.operationLog) :
    o ∈ (c.deliver l).operationLog := by
  induction l generalizing c with
  | nil => exact ho
  | cons b l ih =>
    refine ih ?_
    by_cases hb : b.opId ∈ c.seen
    · rwa [applyRemote_of_mem hb]
    · obtain ⟨att, p, e, heq, -⟩ := applyRemote_eq hb
      rw [heq]
      exact List.mem_append_left _ ho

/-- A replica that joins from a snapshot has the buffered operations too, and applies each once its
targets have arrived. -/
theorem BufferLogged.joins (h : c.BufferLogged) (hids : (c.operationLog.map (·.opId)).Nodup)
    (ho : o ∈ c.pending) (q : PeerId) (l : List TaggedOperation) :
    o ∈ ((fromSnapshot c.snapshot q).deliver l).operationLog ∧
      (((fromSnapshot c.snapshot q).deliver l).session.HasTargets o.operation →
        o ∉ ((fromSnapshot c.snapshot q).deliver l).pending) := by
  obtain ⟨att, t, -, hlog, hseen⟩ := (Trace.new q).deliver (l := sortByRank c.operationLog)
  have hmem : ∀ b, b ∈ sortByRank c.operationLog ↔ b ∈ c.operationLog := fun b =>
    (List.perm_insertionSort _ _).mem_iff
  obtain ⟨b, hb, hbo⟩ := (t.mem_seen _).mp (hseen o (.inl ((hmem o).mpr (h o ho))))
  have hbc : b ∈ c.operationLog := (hmem b).mp (by simpa [TimelineCrdt.new] using hlog b hb)
  obtain rfl := List.inj_on_of_nodup_map hids hbc (h o ho) hbo
  obtain ⟨att', t', -⟩ := t.deliver (l := l)
  exact ⟨subset_log_deliver hb, fun ht hp => (t'.missing b hp).1 ht⟩

end TimelineCrdt

end AvSync
