import AvSync.Proofs.Calls
import AvSync.Proofs.Clocks
import AvSync.Proofs.Tags

/-!
# Local stamps

The Lamport counter is at or above every register tag and every buffered timestamp (`Bounded`), and,
while remote operations are honest, every seen id of the local peer (`Ahead`). A local operation
stamped while both counters are below their maximum is then ahead of everything before it
(`Ahead.advances`), all along a run (`run_advances`).
-/

namespace AvSync

namespace TimelineCrdt

variable {peer : PeerId} {c c' : TimelineCrdt} {earlier : List TaggedOperation}

/-- The Lamport counter is at or above every register tag and every buffered timestamp. -/
structure Bounded (c : TimelineCrdt) : Prop where
  tags_le : Session.TagsIn (fun u => u.lamport ≤ c.lamport.counter) c.session
  pending_le : ∀ o ∈ c.pending, o.lamportTs ≤ c.lamport.counter

theorem counter_applyRemote (c : TimelineCrdt) (o : TaggedOperation) :
    c.lamport.counter ≤ (c.applyRemote o).lamport.counter := by
  by_cases hseen : o.opId ∈ c.seen
  · rw [applyRemote_of_mem hseen]
  · obtain ⟨att, p, e, heq, -⟩ := applyRemote_eq hseen
    rw [heq, LamportClock.observe_counter]
    exact le_max_left _ _

theorem le_tick (c : LamportClock) : c.counter ≤ c.tick.1 := by
  have := toNat_le_u64Max c.counter
  rw [UInt64.le_iff_toNat_le, LamportClock.tick, toNat_saturatingAdd, UInt64.toNat_one]
  omega

theorem next_lt (h : c.lamport.counter < u64Max) : c.lamport.counter < c.lamport.tick.1 :=
  lt_saturatingAdd_one h

namespace Bounded

theorem new (peer : PeerId) : Bounded (.new peer) where
  tags_le := Session.tagsIn_new le_rfl
  pending_le _ ho := absurd ho List.not_mem_nil

theorem withHistory (h : Bounded c) (h₀ : History) : Bounded { c with history := h₀ } :=
  ⟨h.tags_le, h.pending_le⟩

theorem applyRemote (h : Bounded c) (o : TaggedOperation) : Bounded (c.applyRemote o) := by
  by_cases hseen : o.opId ∈ c.seen
  · rwa [applyRemote_of_mem hseen]
  obtain ⟨att, p, e, heq, hatt, hperm, -⟩ := applyRemote_eq hseen
  have hle : c.lamport.counter ≤ (c.lamport.observe o.lamportTs).counter := by
    rw [LamportClock.observe_counter]
    exact le_max_left _ _
  have hole : o.lamportTs ≤ (c.lamport.observe o.lamportTs).counter := by
    rw [LamportClock.observe_counter]
    exact le_max_right _ _
  have hpend : ∀ b ∈ c.pending ++ [o], b.lamportTs ≤ (c.lamport.observe o.lamportTs).counter := by
    intro b hb
    rcases List.mem_append.mp hb with hb | hb
    · exact (h.pending_le b hb).trans hle
    · exact List.mem_singleton.mp hb ▸ hole
  rw [heq]
  constructor
  · refine (h.tags_le.mono fun u hu => hu.trans hle).replay ?_ fun b hb => ?_
    · exact UInt64.le_iff_toNat_le.mpr (Nat.zero_le _)
    · rcases List.mem_cons.mp hb with rfl | hb
      · exact hole
      · exact hpend b (hatt b hb)
  · exact fun b hb => hpend b (hperm.mem_iff.mp (List.mem_append_right _ hb))

theorem deliver {ops : List TaggedOperation} (h : Bounded c) : Bounded (c.deliver ops) := by
  induction ops generalizing c with
  | nil => exact h
  | cons o ops ih => exact ih (h.applyRemote o)

theorem stamp (h : Bounded c) (op : TimelineOperation) (inv : Option TimelineOperation) :
    Bounded (c.stamp op inv).2 := by
  have hle := le_tick c.lamport
  have htags : Session.TagsIn (fun u => u.lamport ≤ c.lamport.tick.1)
      (c.session.exec (c.tagNext op)) :=
    (h.tags_le.mono fun u hu => hu.trans hle).exec le_rfl
      (UInt64.le_iff_toNat_le.mpr (Nat.zero_le _))
  have hpend : ∀ o ∈ c.pending ++ [c.tagNext op], o.lamportTs ≤ c.lamport.tick.1 := by
    intro o ho
    rcases List.mem_append.mp ho with ho | ho
    · exact (h.pending_le o ho).trans hle
    · exact List.mem_singleton.mp ho ▸ le_rfl
  by_cases hs : c.session.Succeeds (c.tagNext op)
  · rw [stamp_of_succeeds inv hs]
    exact ⟨htags, fun o ho => hpend o (List.mem_append_left _ ho)⟩
  · rw [stamp_of_fails inv hs]
    exact ⟨htags, hpend⟩

theorem call (h : Bounded c) {k : Call} (hc : c.call k = some c') : Bounded c' := by
  rcases call_cases hc with ⟨op, inv, h₀, h₁, -, rfl⟩ | ⟨-, rfl⟩
  · exact ((h.withHistory h₀).stamp op inv).withHistory h₁
  · exact h.deliver

theorem afterCalls {calls : List Call} (hc : afterCalls peer calls = some c) : Bounded c := by
  refine Machine.run_inv (M := engine) (I := fun o => ∀ c, o = some c → Bounded c)
    (fun o k _ ih c₁ h => ?_) (fun c₁ h => Option.some.inj h ▸ .new peer) c hc
  obtain ⟨c₀, rfl, hk⟩ := Option.bind_eq_some_iff.mp h
  exact (ih c₀ rfl).call hk

/-- A stamp made below the maximum is greater than every tag of the session. -/
theorem newest (h : Bounded c) (hl : c.lamport.counter < u64Max) (op : TimelineOperation) :
    ∀ u ∈ registerTags c.session, u < (c.tagNext op).tag :=
  Session.tagsIn_iff.mp (h.tags_le.mono fun _ hu =>
    OpTag.lt_iff.mpr (Or.inl (lt_of_le_of_lt hu (next_lt hl))))

end Bounded

/-- The clocks of the timeline are at or above all that carries a stamp. -/
structure Ahead (peer : PeerId) (c : TimelineCrdt) (earlier : List TaggedOperation) : Prop
    extends Bounded c where
  local_eq : c.localPeerId = peer
  seen_le : ∀ i ∈ c.seen, i.peer = peer → i.lamport ≤ c.lamport.counter
  earlier_le : ∀ o ∈ earlier, o.opId.peer = peer ∧ o.opId.lamport ≤ c.lamport.counter
  entry_le : ∀ o ∈ earlier, o.vectorClock.get peer ≤ c.vectorClock.get peer

namespace Ahead

theorem new (peer : PeerId) : Ahead peer (.new peer) [] where
  toBounded := .new peer
  local_eq := rfl
  seen_le i hi := absurd hi (Finset.notMem_empty i)
  earlier_le _ ho := absurd ho List.not_mem_nil
  entry_le _ ho := absurd ho List.not_mem_nil

theorem applyRemote (h : Ahead peer c earlier) {o : TaggedOperation} (ho : c.Honest o) :
    Ahead peer (c.applyRemote o) earlier := by
  have hb := h.toBounded.applyRemote o
  by_cases hseen : o.opId ∈ c.seen
  · rwa [applyRemote_of_mem hseen]
  obtain ⟨att, p, e, heq, -⟩ := applyRemote_eq hseen
  have hle : c.lamport.counter ≤ (c.lamport.observe o.lamportTs).counter := by
    rw [LamportClock.observe_counter]
    exact le_max_left _ _
  rw [heq] at hb ⊢
  refine ⟨hb, h.local_eq, fun i hi hip => ?_, fun b hb => ?_, fun b hb => ?_⟩
  · rcases Finset.mem_insert.mp hi with rfl | hi
    · exact (ho (hip.trans h.local_eq.symm)).trans (LamportClock.observe_counter _ _).ge
    · exact (h.seen_le i hi hip).trans hle
  · exact ⟨(h.earlier_le b hb).1, (h.earlier_le b hb).2.trans hle⟩
  · refine (h.entry_le b hb).trans ?_
    simp only [VectorClock.get_witness, VectorClock.get_merge]
    split_ifs with hp
    · rw [hp]
      exact (le_max_left _ _).trans (le_max_left _ _)
    · exact le_max_left _ _

theorem deliver {ops : List TaggedOperation} (h : Ahead peer c earlier)
    (ho : ∀ o ∈ ops, c.Honest o) : Ahead peer (c.deliver ops) earlier := by
  induction ops generalizing c with
  | nil => exact h
  | cons o ops ih =>
    have h' := h.applyRemote (ho o List.mem_cons_self)
    refine ih h' fun b hb hp => ?_
    rw [h'.local_eq, ← h.local_eq] at hp
    refine (ho b (List.mem_cons_of_mem o hb) hp).trans (max_le_max_right _ ?_)
    exact counter_applyRemote c o

/-- A local operation stamped below both maxima is ahead. -/
theorem advances (h : Ahead peer c earlier) (hl : c.lamport.counter < u64Max)
    (hv : c.vectorClock.get c.localPeerId < u64Max) (op : TimelineOperation) :
    c.Advances earlier (c.tagNext op) := by
  have hnext := next_lt hl
  have hentry : ((c.tagNext op).vectorClock.get c.localPeerId).toNat =
      (c.vectorClock.get c.localPeerId).toNat + 1 := by
    rw [UInt64.lt_iff_toNat_lt, u64Max_toNat] at hv
    simp only [tagNext, VectorClock.get_increment, if_true, UInt64.toNat_add, UInt64.toNat_one]
    omega
  refine ⟨fun o ho => ?_, fun hs => ?_, h.newest hl op, hentry, fun o ho => ?_⟩
  · exact OperationId.lt_iff.mpr (Or.inl ((h.earlier_le o ho).2.trans_lt hnext))
  · exact absurd (h.seen_le _ hs h.local_eq) (not_le.mpr hnext)
  · have := h.entry_le o ho
    rw [← h.local_eq, UInt64.le_iff_toNat_le] at this
    rw [UInt64.lt_iff_toNat_lt]
    omega

theorem stamp (h : Ahead peer c earlier) (hl : c.lamport.counter < u64Max)
    (hv : c.vectorClock.get c.localPeerId < u64Max) (op : TimelineOperation)
    (inv : Option TimelineOperation) :
    Ahead peer (c.stamp op inv).2 (earlier ++ [c.tagNext op]) := by
  have hadv := h.advances hl hv op
  have hle := (next_lt hl).le
  have hseen : ∀ i ∈ insert (c.tagNext op).opId c.seen, i.peer = peer →
      i.lamport ≤ c.lamport.tick.1 := by
    intro i hi hip
    rcases Finset.mem_insert.mp hi with rfl | hi
    · exact le_rfl
    · exact (h.seen_le i hi hip).trans hle
  have hearlier : ∀ o ∈ earlier ++ [c.tagNext op], o.opId.peer = peer ∧
      o.opId.lamport ≤ c.lamport.tick.1 := by
    intro o ho
    rcases List.mem_append.mp ho with ho | ho
    · exact ⟨(h.earlier_le o ho).1, (h.earlier_le o ho).2.trans hle⟩
    · exact List.mem_singleton.mp ho ▸ ⟨h.local_eq, le_rfl⟩
  have hentry : ∀ o ∈ earlier ++ [c.tagNext op], o.vectorClock.get peer ≤
      (c.vectorClock.increment c.localPeerId).get peer := by
    intro o ho
    rcases List.mem_append.mp ho with ho | ho
    · exact h.local_eq ▸ (hadv.entry_gt o ho).le
    · exact List.mem_singleton.mp ho ▸ le_rfl
  have hb := h.toBounded.stamp op inv
  by_cases hs : c.session.Succeeds (c.tagNext op)
  · rw [stamp_of_succeeds inv hs] at hb ⊢
    exact ⟨hb, h.local_eq, hseen, hearlier, hentry⟩
  · rw [stamp_of_fails inv hs] at hb ⊢
    exact ⟨hb, h.local_eq, hseen, hearlier, hentry⟩

theorem withHistory (h : Ahead peer c earlier) (h₀ : History) :
    Ahead peer { c with history := h₀ } earlier :=
  ⟨h.toBounded.withHistory h₀, h.local_eq, h.seen_le, h.earlier_le, h.entry_le⟩

theorem call (h : Ahead peer c earlier) {k : Call} (hk : c.StampSafe k)
    (hc : c.call k = some c') :
    Ahead peer c' (earlier ++ ((c.issued k).map c.tagNext).toList) := by
  rcases call_cases hc with ⟨op, inv, h₀, h₁, hop, rfl⟩ | ⟨hop, rfl⟩
  · obtain ⟨hl, hv⟩ := hk.2 (by rw [hop]; rfl)
    rw [hop]
    exact ((h.withHistory h₀).stamp hl hv op inv).withHistory h₁
  · rw [hop, Option.map_none, Option.toList_none, List.append_nil]
    exact h.deliver hk.1

/-- Every local operation of a run of safe calls is ahead of what came before it. -/
theorem run :
    ∀ {m : List Call} {c : TimelineCrdt} {earlier : List TaggedOperation}, Ahead peer c earlier →
      engine.Along (fun c k => ∀ c₀, c = some c₀ → c₀.StampSafe k) (some c) m →
      ∀ {c'}, engine.run (some c) m = some c' → Ahead peer c' (earlier ++ created (some c) m)
  | [], c, earlier, h, _, c', hc => by
    obtain rfl := Option.some.inj hc
    rwa [created, List.append_nil]
  | k :: m, c, earlier, h, hs, c', hc => by
    have hk := hs.1 c rfl
    rcases hck : c.call k with _ | c₁
    · have hstep : engine.step (some c) k = none := hck
      rw [Machine.run_cons, hstep, Machine.run_fixed fun _ => rfl] at hc
      cases hc
    · have hstep : engine.step (some c) k = some c₁ := hck
      rw [Machine.run_cons, hstep] at hc
      have hs' := hs.2
      rw [hstep] at hs'
      have hcr : created (some c) (k :: m) =
          ((c.issued k).map c.tagNext).toList ++ created (some c₁) m := by
        simp only [created, hck]
      rw [hcr, ← List.append_assoc]
      exact (h.call hk hck).run hs' hc

end Ahead

/-- In a run of safe calls each local operation is logged with a stamp that is ahead of all that
came before it. -/
theorem run_advances (peer : PeerId) (calls : List Call)
    (hsafe : engine.Along (fun c k => ∀ c₀, c = some c₀ → c₀.StampSafe k) (some (new peer)) calls)
    (m : List Call) (k : Call) (hm : m ++ [k] <+: calls) (c c' : TimelineCrdt)
    (op : TimelineOperation) (hc : afterCalls peer m = some c) (hk : c.call k = some c')
    (hop : c.issued k = some op) :
    c'.operationLog = c.operationLog ++ [c.tagNext op] ∧
      c'.vectorClock = (c.tagNext op).vectorClock ∧
      c.Advances (created (some (new peer)) m) (c.tagNext op) := by
  obtain ⟨rest, rfl⟩ := hm
  obtain ⟨hsm, hsk⟩ := Machine.along_append.mp (Machine.along_append.mp hsafe).1
  have hahead : Ahead peer c (created (some (new peer)) m) := (Ahead.new peer).run hsm hc
  obtain ⟨hl, hv⟩ := (hsk.1 c hc).2 (by rw [hop]; rfl)
  rcases call_cases hk with ⟨op', inv, h₀, h₁, hop', rfl⟩ | ⟨hop', -⟩
  · obtain rfl := Option.some.inj (hop.symm.trans hop')
    obtain ⟨s, p, h, he⟩ := stamp_eq { c with history := h₀ } op inv
    refine ⟨?_, ?_, hahead.advances hl hv op⟩
    · rw [he]
      rfl
    · rw [he]
      rfl
  · rw [hop] at hop'
    cases hop'

/-- A local insert, a remote one, and the undo of the local one. -/
def stampedCalls : List Call :=
  [.applyLocal (.insertTrack ⟨1⟩ (.new "t") 0),
    .applyRemote (.of 5 2 (.insertTrack ⟨2⟩ (.new "u") 1)), .undo]

theorem stampedCalls_advances :
    ∃ c c' op, afterCalls ⟨1⟩ (stampedCalls.take 2) = some c ∧ c.call .undo = some c' ∧
      c'.operationLog = c.operationLog ++ [c.tagNext op] ∧
      c.Advances (created (some (new ⟨1⟩)) (stampedCalls.take 2)) (c.tagNext op) := by
  have hsafe : engine.Along (fun c k => ∀ c₀, c = some c₀ → c₀.StampSafe k) (some (new ⟨1⟩))
      stampedCalls := by
    refine ⟨?_, ?_, ?_, trivial⟩
    · rintro c ⟨⟩
      decide +kernel
    · rintro c ⟨⟩
      decide +kernel
    · rintro c ⟨⟩
      decide +kernel
  have h := run_advances ⟨1⟩ stampedCalls hsafe (stampedCalls.take 2) .undo ⟨[], rfl⟩ _ _
    (.deleteTrack ⟨1⟩) rfl rfl rfl
  exact ⟨_, _, _, rfl, rfl, h.1, h.2.2⟩

/-- A remote insert stamped with the largest timestamp, then two local ones. -/
def exhaustedCalls : List Call :=
  [.applyRemote (.of u64Max 2 (.insertTrack ⟨1⟩ (.new "t") 0)),
    .applyLocal (.insertTrack ⟨2⟩ (.new "u") 1)]

/-- The second local operation gets the id of the first. -/
theorem exhaustedCalls_not_advances :
    ∃ c, afterCalls ⟨1⟩ exhaustedCalls = some c ∧
      ∀ op, ¬c.Advances (created (some (new ⟨1⟩)) exhaustedCalls) (c.tagNext op) := by
  refine ⟨_, rfl, fun op h => h.id_fresh ?_⟩
  exact Finset.mem_insert_self _ _

end TimelineCrdt

end AvSync
