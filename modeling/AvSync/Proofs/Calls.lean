import AvSync.Calls
import AvSync.Proofs.Buffer

/-!
# Local operations and the buffer

Taking in a remote operation retries the buffer, so each operation left in it misses a target. A
local operation does not retry: what it creates may be what a buffered operation waits for. Every
buffered operation misses a target throughout a run exactly when no local operation of the run
does that (`run_allWait_iff`).
-/

namespace AvSync

namespace TimelineCrdt

variable {c : TimelineCrdt}

/-! ## The state after a local operation -/

theorem stamp_fst (c : TimelineCrdt) (op : TimelineOperation) (inv : Option TimelineOperation) :
    (c.stamp op inv).1 = c.tagNext op := rfl

theorem stamp_of_succeeds {op : TimelineOperation} (inv : Option TimelineOperation)
    (h : c.session.Succeeds (c.tagNext op)) :
    (c.stamp op inv).2 = { c with
      lamport := c.lamport.tick.2
      vectorClock := c.vectorClock.increment c.localPeerId
      session := c.session.exec (c.tagNext op)
      history := inv.elim c.history fun inv => c.history.record ⟨op, inv⟩
      operationLog := c.operationLog ++ [c.tagNext op]
      seen := insert (c.tagNext op).opId c.seen } := by
  rcases c.session.apply_cases (c.tagNext op) with ⟨ha, -⟩ | ⟨err, -, hf⟩
  · have ha' : c.session.apply op ⟨c.lamport.tick.1, c.localPeerId⟩ =
        (.ok (), c.session.exec (c.tagNext op)) := ha
    simp only [stamp, ha']
    rfl
  · exact absurd h hf

theorem stamp_of_fails {op : TimelineOperation} (inv : Option TimelineOperation)
    (h : ¬c.session.Succeeds (c.tagNext op)) :
    (c.stamp op inv).2 = { c with
      lamport := c.lamport.tick.2
      vectorClock := c.vectorClock.increment c.localPeerId
      session := c.session.exec (c.tagNext op)
      pending := c.pending ++ [c.tagNext op]
      operationLog := c.operationLog ++ [c.tagNext op]
      seen := insert (c.tagNext op).opId c.seen } := by
  rcases c.session.apply_cases (c.tagNext op) with ⟨-, hs⟩ | ⟨err, ha, -⟩
  · exact absurd hs h
  · have ha' : c.session.apply op ⟨c.lamport.tick.1, c.localPeerId⟩ =
        (.error err, c.session.exec (c.tagNext op)) := ha
    simp only [stamp, ha']
    rfl

theorem stamp_session (op : TimelineOperation) (inv : Option TimelineOperation) :
    (c.stamp op inv).2.session = c.session.exec (c.tagNext op) := by
  by_cases h : c.session.Succeeds (c.tagNext op)
  · rw [stamp_of_succeeds inv h]
  · rw [stamp_of_fails inv h]

theorem stamp_pending (op : TimelineOperation) (inv : Option TimelineOperation) :
    (c.stamp op inv).2.pending =
      if c.session.Succeeds (c.tagNext op) then c.pending else c.pending ++ [c.tagNext op] := by
  split_ifs with h
  · rw [stamp_of_succeeds inv h]
  · rw [stamp_of_fails inv h]

/-- What a local operation does whether or not it applies. -/
theorem stamp_eq (c : TimelineCrdt) (op : TimelineOperation) (inv : Option TimelineOperation) :
    ∃ s p h, (c.stamp op inv).2 = { c with
      lamport := c.lamport.tick.2
      vectorClock := (c.tagNext op).vectorClock
      session := s
      pending := p
      history := h
      operationLog := c.operationLog ++ [c.tagNext op]
      seen := insert (c.tagNext op).opId c.seen } := by
  by_cases h : c.session.Succeeds (c.tagNext op)
  · exact ⟨_, _, _, stamp_of_succeeds inv h⟩
  · exact ⟨_, _, _, stamp_of_fails inv h⟩

/-- A call that returns is a stamp, up to the history, or takes in remote operations. -/
theorem call_cases {k : Call} {c' : TimelineCrdt} (h : c.call k = some c') :
    (∃ op inv h₀ h₁, c.issued k = some op ∧
      c' = { ({ c with history := h₀ }.stamp op inv).2 with history := h₁ }) ∨
      (c.issued k = none ∧ c' = c.deliver k.received) := by
  rcases k with op | _ | _ | o | snap
  · obtain ⟨⟨t, c₁⟩, h1, rfl⟩ := Option.map_eq_some_iff.mp h
    obtain ⟨inv, -, h2⟩ := Option.map_eq_some_iff.mp h1
    refine Or.inl ⟨op, inv, c.history, c₁.history, rfl, ?_⟩
    have : c₁ = (c.stamp op inv).2 := (congrArg Prod.snd h2).symm
    rw [this]
  · simp only [call, undo, Option.some.injEq] at h
    rcases hp : c.history.popUndo with _ | ⟨entry, h₀⟩ <;> simp only [hp] at h
    · exact Or.inr ⟨by simp [issued, hp], h.symm⟩
    · exact Or.inl ⟨entry.inverse, none, h₀, _, by simp [issued, hp], h.symm⟩
  · simp only [call, redo, Option.some.injEq] at h
    rcases hp : c.history.popRedo with _ | ⟨entry, h₀⟩ <;> simp only [hp] at h
    · exact Or.inr ⟨by simp [issued, hp], h.symm⟩
    · exact Or.inl ⟨entry.forward, none, h₀, _, by simp [issued, hp], h.symm⟩
  · exact Or.inr ⟨rfl, (Option.some.inj h).symm⟩
  · exact Or.inr ⟨rfl, (Option.some.inj h).symm⟩

section

variable {I : Session → Prop} (hI : ∀ s o, I s → I (s.exec o))

include hI

theorem session_applyRemote (h : I c.session) (o : TaggedOperation) :
    I (c.applyRemote o).session := by
  by_cases hseen : o.opId ∈ c.seen
  · rwa [applyRemote_of_mem hseen]
  · obtain ⟨att, p, e, heq, -⟩ := applyRemote_eq hseen
    rw [heq]
    exact Machine.run_inv (M := Session.machine) (fun s o _ hs => hI s o hs) h

/-- What single operations keep of the session, calls keep. -/
theorem session_call {k : Call} {c' : TimelineCrdt} (h : I c.session) (hk : c.call k = some c') :
    I c'.session := by
  rcases call_cases hk with ⟨op, inv, h₀, h₁, -, rfl⟩ | ⟨-, rfl⟩
  · change I ({ c with history := h₀ }.stamp op inv).2.session
    rw [stamp_session]
    exact hI _ _ h
  · rw [deliver]
    clear hk
    induction k.received generalizing c with
    | nil => exact h
    | cons o l ih => exact ih (session_applyRemote hI h o)

theorem session_afterCalls {peer : PeerId} {calls : List Call} (h : I .new)
    (hc : afterCalls peer calls = some c) : I c.session := by
  refine Machine.run_inv (M := engine) (I := fun r => ∀ c, r = some c → I c.session)
    (fun r k _ ih c₁ h₁ => ?_) (fun c₁ h₁ => Option.some.inj h₁ ▸ h) c hc
  obtain ⟨c₀, rfl, hk⟩ := Option.bind_eq_some_iff.mp h₁
  exact session_call hI (ih c₀ rfl) hk

end

/-! ## The buffer -/

theorem missingTargets_ne_nil {op : TimelineOperation} {s : Session} :
    missingTargets op s ≠ [] ↔ ¬s.HasTargets op := by
  rw [not_iff_comm, not_not, missingTargets, List.filter_eq_nil_iff, Session.HasTargets]
  refine forall₂_congr fun r _ => ?_
  rcases r with x | x <;> simp [Session.HasTarget]

theorem AllWait.applyRemote (h : c.AllWait) (o : TaggedOperation) : (c.applyRemote o).AllWait := by
  by_cases ho : o.opId ∈ c.seen
  · rwa [applyRemote_of_mem ho]
  · obtain ⟨att, p, e, heq, -, -, hp⟩ := applyRemote_eq ho
    rw [heq]
    exact fun b hb => missingTargets_ne_nil.mpr (hp b hb).1

theorem AllWait.deliver {ops : List TaggedOperation} (h : c.AllWait) : (c.deliver ops).AllWait := by
  induction ops generalizing c with
  | nil => exact h
  | cons o ops ih => exact ih (h.applyRemote o)

/-- After a local operation each buffered one misses a target exactly when the operation created
none that one requires. -/
theorem allWait_stamp_iff (h : c.AllWait) (op : TimelineOperation)
    (inv : Option TimelineOperation) : (c.stamp op inv).2.AllWait ↔
      ∀ o ∈ c.pending, ∀ r ∈ o.operation.requiredTargets, ¬c.session.Creates op r := by
  have hold : (∀ o ∈ c.pending, ¬(c.session.exec (c.tagNext op)).HasTargets o.operation) ↔
      ∀ o ∈ c.pending, ∀ r ∈ o.operation.requiredTargets, ¬c.session.Creates op r := by
    refine forall₂_congr fun o ho => ?_
    have hmiss := missingTargets_ne_nil.mp (h o ho)
    have hlen : o.operation.requiredTargets.length ≤ 1 := by
      rcases o.operation with _ | _ | _ | _ | _ | _ | _ | _ | _ | ⟨_ | _, _, _⟩ | _ <;>
        simp [TimelineOperation.requiredTargets]
    rcases hr : o.operation.requiredTargets with _ | ⟨r, _ | ⟨r', l⟩⟩
    · exact absurd (fun r hr' => by rw [hr] at hr'; cases hr') hmiss
    · simp only [Session.HasTargets, hr, List.forall_mem_singleton] at hmiss ⊢
      rw [Session.hasTarget_exec, not_or]
      exact and_iff_right hmiss
    · rw [hr] at hlen
      simp at hlen
  rw [← hold]
  simp only [AllWait, stamp_session, stamp_pending, missingTargets_ne_nil]
  split_ifs with hs
  · rfl
  · constructor
    · exact fun hw o ho => hw o (List.mem_append_left _ ho)
    · intro hw o ho
      rcases List.mem_append.mp ho with ho | ho
      · exact hw o ho
      · obtain rfl := List.mem_singleton.mp ho
        rw [Session.hasTargets_exec_of_fails hs]
        exact fun ht => hs (Session.succeeds_of_hasTargets ht)

theorem allWait_call_iff (h : c.AllWait) {k : Call} {c' : TimelineCrdt} (hk : c.call k = some c') :
    c'.AllWait ↔ c.UnblocksNone k := by
  rcases call_cases hk with ⟨op, inv, h₀, h₁, hop, rfl⟩ | ⟨hop, rfl⟩
  · rw [UnblocksNone, hop]
    have := allWait_stamp_iff (c := { c with history := h₀ }) h op inv
    exact this.trans ⟨fun hw op' hop' => Option.some.inj hop' ▸ hw, fun hw => hw op rfl⟩
  · refine ⟨fun _ op hop' => ?_, fun _ => h.deliver⟩
    rw [hop] at hop'
    cases hop'

theorem unblocksNone_of_hangs (h : c.AllWait) {k : Call} (hk : c.call k = none) :
    c.UnblocksNone k := by
  rcases k with op | _ | _ | o | snap <;> simp only [call, reduceCtorEq] at hk
  rw [Option.map_eq_none_iff, applyLocal, Option.map_eq_none_iff] at hk
  intro op' hop' o ho r hr hc
  obtain rfl : op = op' := Option.some.inj hop'
  have hmiss := missingTargets_ne_nil.mp (h o ho)
  rcases op with x | _ | _ | _ | _ | _ | _ | _ | _ | _ | _ <;> rcases r with y | y <;>
    simp only [Session.Creates] at hc
  · -- the clip is there already, or the inverse would be a delete
    subst hc
    simp only [computeInverse] at hk
    split_ifs at hk with hx
    refine hmiss fun r hr' => ?_
    rcases hop : o.operation with _ | _ | _ | _ | _ | _ | _ | _ | _ | ⟨_ | _, _, _⟩ | _ <;>
      simp_all [TimelineOperation.requiredTargets, Session.HasTarget]
  · simp only [computeInverse] at hk
    split_ifs at hk
  · simp only [computeInverse] at hk
    split at hk <;> cases hk

/-- Every buffered operation misses a target after each call of a run exactly when no local
operation of the run creates what a buffered one requires. -/
theorem run_allWait_iff (peer : PeerId) (calls : List Call) :
    (∀ m, m <+: calls → ∀ c, afterCalls peer m = some c → c.AllWait) ↔
      engine.Along (fun c k => ∀ c₀, c = some c₀ → c₀.UnblocksNone k) (some (new peer)) calls := by
  have hstep : ∀ (c : Option TimelineCrdt) (k : Call), True → (∀ c₀, c = some c₀ → c₀.AllWait) →
      ((∀ c₀, engine.step c k = some c₀ → c₀.AllWait) ↔ ∀ c₀, c = some c₀ → c₀.UnblocksNone k) := by
    rintro (_ | c) k - hc
    · exact ⟨fun _ c₀ h => absurd h (by simp), fun _ c₀ h => absurd h (by simp [engine])⟩
    have hc := hc c rfl
    rcases hk : c.call k with _ | c'
    · refine ⟨fun _ c₀ h => ?_, fun _ c₀ h => absurd h (by simp [engine, hk])⟩
      exact Option.some.inj h ▸ unblocksNone_of_hangs hc hk
    · have he : engine.step (some c) k = some c' := hk
      rw [he]
      constructor
      · exact fun hw c₀ h => Option.some.inj h ▸ (allWait_call_iff hc hk).mp (hw c' rfl)
      · exact fun hw c₀ h => Option.some.inj h ▸ (allWait_call_iff hc hk).mpr (hw c rfl)
  refine Machine.forall_prefix_iff_along (fun _ _ _ _ => trivial) hstep trivial fun c hc => ?_
  exact Option.some.inj hc ▸ fun o ho => absurd ho List.not_mem_nil

/-- A move received before its clip, which is then inserted locally. -/
def strandedCalls : List Call :=
  [.applyRemote (.of 1 2 (.moveClip ⟨7⟩ ⟨1⟩ 50 0)),
    .applyLocal (.insertClip ⟨7⟩ ⟨1⟩ (.new "c" 0 100) 0)]

/-- The clip is there, and the move stays in the buffer. -/
theorem strandedCalls_not_allWait :
    ∃ c, afterCalls ⟨1⟩ strandedCalls = some c ∧ ¬c.AllWait := by
  refine ⟨_, rfl, fun h => ?_⟩
  exact h _ List.mem_cons_self (by decide +kernel)

end TimelineCrdt

end AvSync
