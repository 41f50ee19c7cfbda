import AvSync.Network
import AvSync.Proofs.Calls
import AvSync.Proofs.Clocks

/-!
# Vector clocks and causality

While timestamps last, a replica has logged what it knows of, and no two operations have one id
(`Logged`). Where a replica does not raise an entry beyond what it has heard was counted, the vector
clocks of a run count the operations of each peer, and those of two operations are ordered as
causality orders them (`run_happensBefore_iff`). Lamport timestamps go up along causality in every
run that does not exhaust them (`run_lamportTs_lt`).
-/

namespace AvSync

namespace Net

open TimelineCrdt

variable {N : Net} {p : PeerId} {op : TaggedOperation}

/-! ## Logs -/

/-- What holds of a net whose replicas have timestamps left: a replica has logged what it knows of,
and no two operations have one id. -/
structure Logged (N : Net) : Prop where
  local_eq : ∀ p, (N.replica p).localPeerId = p
  mem_log : ∀ p o, o ∈ (N.replica p).operationLog ↔ o ∈ N.history.known p
  mem_seen : ∀ p i, i ∈ (N.replica p).seen ↔ ∃ o ∈ (N.replica p).operationLog, o.opId = i
  known_created : ∀ p, ∀ o ∈ N.history.known p, o ∈ N.history.created
  stamped : ∀ o ∈ N.history.created, o.opId = ⟨o.lamportTs, o.peerId⟩ ∧
    o.lamportTs ≤ (N.replica o.peerId).lamport.counter
  id_inj : ∀ a ∈ N.history.created, ∀ b ∈ N.history.created, a.opId = b.opId → a = b

namespace Logged

theorem new : Logged Net.new where
  local_eq _ := rfl
  mem_log _ _ := ⟨fun h => absurd h List.not_mem_nil, fun h => h.elim⟩
  mem_seen _ i := ⟨fun h => absurd h (Finset.notMem_empty i), fun ⟨_, h, _⟩ =>
    absurd h List.not_mem_nil⟩
  known_created _ _ h := h.elim
  stamped _ h := h.elim
  id_inj _ h := h.elim

variable (h : N.Logged)

include h

theorem log_created {o : TaggedOperation} (ho : o ∈ (N.replica p).operationLog) :
    o ∈ N.history.created :=
  h.known_created p o ((h.mem_log p o).mp ho)

/-- The id of the next local operation is ahead of those of the peer's operations. -/
theorem next_ne (hl : (N.replica p).lamport.counter < u64Max) {operation : TimelineOperation}
    {o : TaggedOperation} (ho : o ∈ N.history.created) :
    o.opId ≠ ((N.replica p).tagNext operation).opId := by
  intro hid
  obtain ⟨h1, h2⟩ := h.stamped o ho
  rw [h1] at hid
  have hp : o.peerId = p := (congrArg OperationId.peer hid).trans (h.local_eq p)
  have hts : o.lamportTs = (N.replica p).lamport.tick.1 := congrArg OperationId.lamport hid
  rw [hp, hts] at h2
  exact absurd (show (N.replica p).lamport.counter < (N.replica p).lamport.tick.1 from
    lt_saturatingAdd_one hl) (not_lt.mpr h2)

theorem create {operation : TimelineOperation} {c' : TimelineCrdt}
    (hop : (N.replica p).applyLocal operation = some (op, c'))
    (hl : N.Ticks (.create p operation)) :
    Logged ⟨Function.update N.replica p c', N.history.create p op⟩ := by
  obtain ⟨inv, -, hstamp⟩ := Option.map_eq_some_iff.mp hop
  obtain rfl : (N.replica p).tagNext operation = op := congrArg Prod.fst hstamp
  obtain rfl : ((N.replica p).stamp operation inv).2 = c' := congrArg Prod.snd hstamp
  have hlt : (N.replica p).lamport.counter < (N.replica p).lamport.tick.1 :=
    lt_saturatingAdd_one hl
  have hnew : ∀ o ∈ N.history.created, o.opId ≠ ((N.replica p).tagNext operation).opId :=
    fun o ho => h.next_ne hl ho
  obtain ⟨s, pend, hist, hc'⟩ := stamp_eq (N.replica p) operation inv
  constructor
  · intro q
    by_cases hq : q = p
    · subst hq
      simp only [Function.update_self, hc', h.local_eq]
    · simp only [Function.update_of_ne hq, h.local_eq]
  · intro q o
    by_cases hq : q = p
    · subst hq
      simp only [Function.update_self, hc', List.mem_append, List.mem_singleton, h.mem_log,
        CausalHistory.mem_known_create, true_and, or_comm]
    · simp only [Function.update_of_ne hq, h.mem_log, CausalHistory.mem_known_create,
        Ne.symm hq, false_and, false_or]
  · intro q i
    by_cases hq : q = p
    · subst hq
      simp only [Function.update_self, hc', Finset.mem_insert, h.mem_seen, List.mem_append,
        List.mem_singleton, or_and_right, exists_or, exists_eq_left, eq_comm (a := i), or_comm]
    · simp only [Function.update_of_ne hq, h.mem_seen]
  · intro q o ho
    rcases CausalHistory.mem_known_create.mp ho with ⟨-, rfl⟩ | ho
    · exact Set.mem_insert _ _
    · exact Set.mem_insert_of_mem _ (h.known_created q o ho)
  · rintro o (rfl | ho)
    · refine ⟨rfl, ?_⟩
      have hp : ((N.replica p).tagNext operation).peerId = p := h.local_eq p
      simp only [hp, Function.update_self, hc']
      exact le_rfl
    · obtain ⟨h1, h2⟩ := h.stamped o ho
      refine ⟨h1, h2.trans ?_⟩
      by_cases hq : o.peerId = p
      · simp only [hq, Function.update_self, hc']
        exact hlt.le
      · simp only [Function.update_of_ne hq, le_refl]
  · rintro a (rfl | ha) b (rfl | hb) hab
    · rfl
    · exact absurd hab.symm (hnew b hb)
    · exact absurd hab (hnew a ha)
    · exact h.id_inj a ha b hb hab

/-- An operation that a replica has seen is dropped, and was known. -/
theorem deliver_of_seen (ho : op ∈ N.history.created) (hseen : op.opId ∈ (N.replica p).seen) :
    N.step (.deliver p op) = N := by
  obtain ⟨o, hlog, hid⟩ := (h.mem_seen p _).mp hseen
  obtain rfl := h.id_inj o (h.log_created hlog) op ho hid
  have hlearn : N.history.learn p o = N.history := by
    rw [CausalHistory.learn, Set.insert_eq_of_mem ((h.mem_log p o).mp hlog),
      Function.update_eq_self]
  rw [Net.step, applyRemote_of_mem hseen, Function.update_eq_self, hlearn]

theorem deliver (ho : op ∈ N.history.created) : (N.step (.deliver p op)).Logged := by
  by_cases hseen : op.opId ∈ (N.replica p).seen
  · rw [h.deliver_of_seen ho hseen]
    exact h
  obtain ⟨att, pend, e, he, -⟩ := applyRemote_eq hseen
  rw [Net.step, he]
  constructor
  · intro q
    by_cases hq : q = p
    · subst hq
      simp only [Function.update_self, h.local_eq]
    · simp only [Function.update_of_ne hq, h.local_eq]
  · intro q o
    by_cases hq : q = p
    · subst hq
      simp only [Function.update_self, List.mem_append, List.mem_singleton, h.mem_log,
        CausalHistory.mem_known_learn, true_and, or_comm]
    · simp only [Function.update_of_ne hq, h.mem_log, CausalHistory.mem_known_learn, Ne.symm hq,
        false_and, false_or]
  · intro q i
    by_cases hq : q = p
    · subst hq
      simp only [Function.update_self, Finset.mem_insert, h.mem_seen, List.mem_append,
        List.mem_singleton, or_and_right, exists_or, exists_eq_left, eq_comm (a := i), or_comm]
    · simp only [Function.update_of_ne hq, h.mem_seen]
  · intro q o hk
    rcases CausalHistory.mem_known_learn.mp hk with ⟨-, rfl⟩ | hk
    · exact ho
    · exact h.known_created q o hk
  · intro o ho'
    obtain ⟨h1, h2⟩ := h.stamped o ho'
    refine ⟨h1, h2.trans ?_⟩
    by_cases hq : o.peerId = p
    · simp only [hq, Function.update_self, LamportClock.observe_counter, le_max_left]
    · simp only [Function.update_of_ne hq, le_refl]
  · exact h.id_inj

theorem step {e : NetEvent} (he : N.Enabled e) (ht : N.Ticks e) : (N.step e).Logged := by
  rcases e with ⟨p, operation⟩ | ⟨p, op⟩
  · obtain ⟨⟨op, c'⟩, hop⟩ := Option.isSome_iff_exists.mp he
    simp only [Net.step, hop]
    exact h.create hop ht
  · exact h.deliver he

end Logged

/-! ## Vector clocks -/

/-- The entries a vector clock counts. -/
def count (v : VectorClock) (q : PeerId) : ℕ := (v.get q).toNat

/-- What holds of a net while its clocks count. -/
structure Sound (N : Net) : Prop extends N.Logged where
  tracks : N.history.Tracks (·.peerId) (fun o => count o.vectorClock)
    fun p => count (N.replica p).vectorClock
  positive : ∀ p, (N.replica p).vectorClock.Positive
  created : ∀ o ∈ N.history.created, o.vectorClock.Positive ∧ 0 < o.vectorClock.get o.peerId

theorem sound_new : new.Sound where
  __ := Logged.new
  tracks := by
    have h0 : (fun p => count (new.replica p).vectorClock) = fun _ _ => 0 := by
      funext p q
      exact congrArg UInt64.toNat (VectorClock.get_new q)
    rw [h0]
    exact CausalHistory.Tracks.empty
  positive _ := VectorClock.positive_new
  created _ h := h.elim

theorem count_increment_self {v : VectorClock} (h : v.get p < u64Max) :
    count (v.increment p) p = count v p + 1 := by
  rw [UInt64.lt_iff_toNat_lt, u64Max_toNat] at h
  rw [count, VectorClock.get_increment, if_pos rfl, UInt64.toNat_add, UInt64.toNat_one, count]
  omega

theorem count_increment_of_ne {v : VectorClock} {q : PeerId} (h : q ≠ p) :
    count (v.increment p) q = count v q := by
  rw [count, VectorClock.get_increment, if_neg h.symm, count]

/-- A witness that is counted already changes nothing. -/
theorem count_merge {v w : VectorClock} {x : UInt64} (h : x ≤ max (v.get p) (w.get p))
    (q : PeerId) : count ((v.merge w).witness p x) q = max (count v q) (count w q) := by
  have hq : ((v.merge w).witness p x).get q = max (v.get q) (w.get q) := by
    rw [VectorClock.get_witness, VectorClock.get_merge, VectorClock.get_merge]
    split_ifs with hpq
    · subst hpq
      exact max_eq_left h
    · rfl
  rw [count, hq, toNat_max, count, count]

theorem Sound.create (h : N.Sound) {operation : TimelineOperation} {c' : TimelineCrdt}
    (hop : (N.replica p).applyLocal operation = some (op, c'))
    (hc : N.Counted (.create p operation)) :
    Sound ⟨Function.update N.replica p c', N.history.create p op⟩ := by
  obtain ⟨hl, hv⟩ := hc
  have hlogged := h.toLogged.create hop hl
  have hlocal := h.local_eq p
  obtain ⟨inv, -, hstamp⟩ := Option.map_eq_some_iff.mp hop
  obtain ⟨s, pend, hist, he⟩ := stamp_eq (N.replica p) operation inv
  obtain rfl : (N.replica p).tagNext operation = op := congrArg Prod.fst hstamp
  have hc' : c' = _ := (congrArg Prod.snd hstamp).symm.trans he
  generalize hold : N.replica p = c at *
  have hvec : (c.tagNext operation).vectorClock = c.vectorClock.increment p := by
    rw [← hlocal]
    rfl
  have hpeer : (c.tagNext operation).peerId = p := hlocal
  have hpos : 0 < c.vectorClock.get p + 1 := by
    rw [UInt64.lt_iff_toNat_lt, u64Max_toNat] at hv
    rw [UInt64.lt_iff_toNat_lt, UInt64.toNat_add, UInt64.toNat_one, UInt64.toNat_zero]
    omega
  have hvpos : (c.tagNext operation).vectorClock.Positive :=
    hvec ▸ (hold ▸ h.positive p).increment hpos
  refine ⟨hlogged, h.tracks.create hpeer ?_ ?_ ?_ ?_, ?_, ?_⟩
  · intro q
    simp only [Function.update_self, hc']
  · simp only [Function.update_self, hc', hvec, hold]
    exact count_increment_self hv
  · intro q hq
    simp only [Function.update_self, hc', hvec, hold]
    exact count_increment_of_ne hq
  · intro r hr
    simp only [Function.update_of_ne hr]
  · intro q
    by_cases hq : q = p
    · subst hq
      simpa only [Function.update_self, hc'] using hvpos
    · simpa only [Function.update_of_ne hq] using h.positive q
  · rintro o (rfl | ho)
    · refine ⟨hvpos, ?_⟩
      rw [hpeer, hvec, VectorClock.get_increment, if_pos rfl]
      exact hpos
    · exact h.created o ho

theorem Sound.deliver (h : N.Sound) (ho : op ∈ N.history.created)
    (hc : N.Counted (.deliver p op)) : (N.step (.deliver p op)).Sound := by
  by_cases hseen : op.opId ∈ (N.replica p).seen
  · rw [h.deliver_of_seen ho hseen]
    exact h
  have hlogged := h.toLogged.deliver (p := p) ho
  obtain ⟨att, pend, e, he, -⟩ := applyRemote_eq hseen
  have hcount := hc hseen
  obtain ⟨hop1, hop2⟩ := h.created op ho
  rw [step, he] at hlogged ⊢
  refine ⟨hlogged, h.tracks.learn ho (fun q => ?_) fun r hr => ?_, fun q => ?_, h.created⟩
  · simp only [Function.update_self]
    exact count_merge hcount q
  · simp only [Function.update_of_ne hr]
  · by_cases hq : q = p
    · subst hq
      simp only [Function.update_self]
      refine ((h.positive q).merge hop1).witness ?_
      rw [VectorClock.get_merge]
      exact hop2.trans_le ((le_max_right _ _).trans (le_max_left _ _))
    · simpa only [Function.update_of_ne hq] using h.positive q

theorem Sound.step (h : N.Sound) {e : NetEvent} (he : N.Enabled e) (hc : N.Counted e) :
    (N.step e).Sound := by
  rcases e with ⟨p, operation⟩ | ⟨p, op⟩
  · obtain ⟨⟨op, c'⟩, hop⟩ := Option.isSome_iff_exists.mp he
    simp only [Net.step, hop]
    exact h.create hop hc
  · exact h.deliver he hc

/-- In a run whose steps count, vector clocks order two operations as causality does. -/
theorem run_happensBefore_iff (events : List NetEvent) (hrun : machine.Valid new events)
    (hc : machine.Along Counted new events) (a b : TaggedOperation)
    (ha : a ∈ (machine.run new events).history.created)
    (hb : b ∈ (machine.run new events).history.created) (hne : a ≠ b) :
    a.vectorClock.happensBefore b.vectorClock = true ↔
      (machine.run new events).history.Precedes a b := by
  have h : (machine.run new events).Sound :=
    Machine.Along.run_inv (fun N e _ h he => h.step he.1 he.2) (hrun.and hc) sound_new
  rw [VectorClock.happensBefore_iff (h.created b hb).1, ← h.tracks.precedes_iff ha hb hne]
  simp only [count, UInt64.le_iff_toNat_le, UInt64.lt_iff_toNat_lt]

/-- Two tracks: the second is inserted where the first is known. -/
def relayed : TaggedOperation := (TimelineCrdt.new ⟨1⟩).tagNext (.insertTrack ⟨1⟩ (.new "t") 0)

def relayedRun : List NetEvent :=
  [.create ⟨1⟩ (.insertTrack ⟨1⟩ (.new "t") 0), .deliver ⟨2⟩ relayed,
    .create ⟨2⟩ (.insertTrack ⟨2⟩ (.new "u") 1)]

theorem relayedRun_happensBefore_iff :
    ∃ b ∈ (machine.run new relayedRun).history.created, relayed ≠ b ∧
      (relayed.vectorClock.happensBefore b.vectorClock = true ↔
        (machine.run new relayedRun).history.Precedes relayed b) := by
  have hne : relayed ≠ ((TimelineCrdt.new ⟨2⟩).applyRemote relayed).tagNext
      (.insertTrack ⟨2⟩ (.new "u") 1) := fun h => absurd (congrArg (·.lamportTs) h) (by decide)
  refine ⟨_, Or.inl rfl, hne, run_happensBefore_iff relayedRun ⟨rfl, Or.inl rfl, rfl, trivial⟩ ?_
    _ _ (Or.inr (Or.inl rfl)) (Or.inl rfl) hne⟩
  exact ⟨⟨by decide, by decide⟩, fun _ => by decide +kernel, ⟨by decide +kernel,
    by decide +kernel⟩, trivial⟩

/-! ## Lamport timestamps -/

/-- A replica's counter is not behind what it has seen, and timestamps go up along causality. -/
structure Ordered (N : Net) : Prop where
  seen_le : ∀ p, ∀ i ∈ (N.replica p).seen, i.lamport ≤ (N.replica p).lamport.counter
  known_le : ∀ p, ∀ o ∈ N.history.known p, o.lamportTs ≤ (N.replica p).lamport.counter
  stamped : ∀ o ∈ N.history.created, o.opId.lamport = o.lamportTs
  direct_lt : ∀ a b, N.history.direct a b → a.lamportTs < b.lamportTs

theorem ordered_new : new.Ordered where
  seen_le _ i hi := absurd hi (Finset.notMem_empty i)
  known_le _ _ h := h.elim
  stamped _ h := h.elim
  direct_lt _ _ h := h.elim

theorem Ordered.update (h : N.Ordered) (op : TaggedOperation) {c' : TimelineCrdt}
    {H : CausalHistory PeerId TaggedOperation} (hid : op.opId.lamport = op.lamportTs)
    (hseen : ∀ i ∈ c'.seen, i = op.opId ∨ i ∈ (N.replica p).seen)
    (hle : (N.replica p).lamport.counter ≤ c'.lamport.counter)
    (hop : op.lamportTs ≤ c'.lamport.counter)
    (hknown : ∀ q o, o ∈ H.known q → p = q ∧ o = op ∨ o ∈ N.history.known q)
    (hcreated : ∀ o ∈ H.created, o = op ∨ o ∈ N.history.created)
    (hdirect : ∀ a b, H.direct a b → N.history.direct a b ∨ a.lamportTs < b.lamportTs) :
    Ordered ⟨Function.update N.replica p c', H⟩ where
  seen_le q i hi := by
    by_cases hq : q = p
    · subst hq
      simp only [Function.update_self] at hi ⊢
      rcases hseen i hi with rfl | hi
      · exact hid ▸ hop
      · exact (h.seen_le q i hi).trans hle
    · simp only [Function.update_of_ne hq] at hi ⊢
      exact h.seen_le q i hi
  known_le q o ho := by
    by_cases hq : q = p
    · subst hq
      simp only [Function.update_self]
      rcases hknown q o ho with ⟨-, rfl⟩ | ho
      · exact hop
      · exact (h.known_le q o ho).trans hle
    · simp only [Function.update_of_ne hq]
      exact h.known_le q o ((hknown q o ho).resolve_left fun e => hq e.1.symm)
  stamped o ho := (hcreated o ho).elim (fun e => e ▸ hid) (h.stamped o)
  direct_lt a b hab := (hdirect a b hab).elim (h.direct_lt a b) id

theorem Ordered.step (h : N.Ordered) {e : NetEvent} (he : N.Enabled e) (ht : N.Ticks e) :
    (N.step e).Ordered := by
  rcases e with ⟨p, operation⟩ | ⟨p, op⟩
  · obtain ⟨⟨op, c'⟩, hop⟩ := Option.isSome_iff_exists.mp he
    obtain ⟨inv, -, hstamp⟩ := Option.map_eq_some_iff.mp hop
    obtain ⟨s, pend, hist, hc'⟩ := stamp_eq (N.replica p) operation inv
    have hlt : (N.replica p).lamport.counter < (N.replica p).lamport.tick.1 :=
      lt_saturatingAdd_one ht
    simp only [Net.step, hop]
    obtain rfl : (N.replica p).tagNext operation = op := congrArg Prod.fst hstamp
    obtain rfl := (congrArg Prod.snd hstamp).symm.trans hc'
    refine h.update ((N.replica p).tagNext operation) rfl
      (fun i hi => Finset.mem_insert.mp hi) hlt.le le_rfl
      (fun q o => CausalHistory.mem_known_create.mp) (fun o => id) fun a b hab => ?_
    rcases hab with hab | ⟨rfl, ha⟩
    · exact Or.inl hab
    · exact Or.inr ((h.known_le p a ha).trans_lt hlt)
  · have hid := h.stamped op he
    rw [Net.step]
    by_cases hseen : op.opId ∈ (N.replica p).seen
    · rw [applyRemote_of_mem hseen]
      exact h.update op hid (fun i => Or.inr) le_rfl (hid ▸ h.seen_le p _ hseen)
        (fun q o => CausalHistory.mem_known_learn.mp) (fun o => Or.inr) fun a b => Or.inl
    · obtain ⟨att, pend, e, heq, -⟩ := applyRemote_eq hseen
      rw [heq]
      refine h.update op hid (fun i hi => Finset.mem_insert.mp hi) ?_ ?_
        (fun q o => CausalHistory.mem_known_learn.mp) (fun o => Or.inr) fun a b => Or.inl
      · rw [LamportClock.observe_counter]
        exact le_max_left _ _
      · rw [LamportClock.observe_counter]
        exact le_max_right _ _

/-- Lamport timestamps go up along causality. -/
theorem run_lamportTs_lt {events : List NetEvent} (hrun : machine.Valid new events)
    (ht : machine.Along Ticks new events) {a b : TaggedOperation}
    (hab : (machine.run new events).history.Precedes a b) : a.lamportTs < b.lamportTs := by
  have h : (machine.run new events).Ordered :=
    Machine.Along.run_inv (fun N e _ h he => h.step he.1 he.2) (hrun.and ht) ordered_new
  induction hab with
  | single hab => exact h.direct_lt _ _ hab
  | tail _ hbc ih => exact ih.trans (h.direct_lt _ _ hbc)

/-! ## A timestamp taken for a count -/

/-! Peer 2 creates a track, peer 1 hears of it and creates another, and peer 2 hears of that. -/

/-- Peer 1 once it has heard of the first track. -/
def hearer : TimelineCrdt :=
  (TimelineCrdt.new ⟨1⟩).applyRemote ((TimelineCrdt.new ⟨2⟩).tagNext
    (.insertTrack ⟨1⟩ (.new "t") 0))

/-- The second track, at timestamp 2 though it is the first that peer 1 creates. -/
def raising : TaggedOperation := hearer.tagNext (.insertTrack ⟨2⟩ (.new "u") 1)

/-- Both peers then create a track, neither hearing of the other's. -/
def raisedRun : List NetEvent :=
  [.create ⟨2⟩ (.insertTrack ⟨1⟩ (.new "t") 0),
    .deliver ⟨1⟩ ((TimelineCrdt.new ⟨2⟩).tagNext (.insertTrack ⟨1⟩ (.new "t") 0)),
    .create ⟨1⟩ (.insertTrack ⟨2⟩ (.new "u") 1), .deliver ⟨2⟩ raising,
    .create ⟨1⟩ (.insertTrack ⟨3⟩ (.new "v") 2), .create ⟨2⟩ (.insertTrack ⟨4⟩ (.new "w") 3)]

/-- The timestamp taken for a count makes the one look like it happened before the other. -/
theorem raisedRun_not_causal :
    machine.Valid new raisedRun ∧ ∃ a ∈ (machine.run new raisedRun).history.created,
      ∃ b ∈ (machine.run new raisedRun).history.created, a ≠ b ∧
        a.vectorClock.happensBefore b.vectorClock = true ∧
          ¬(machine.run new raisedRun).history.Precedes a b := by
  have hrun : machine.Valid new raisedRun :=
    ⟨rfl, Or.inl rfl, rfl, Or.inl rfl, rfl, rfl, trivial⟩
  refine ⟨hrun, _, Or.inr (Or.inl rfl), _, Or.inl rfl,
    fun h => absurd (congrArg (·.peerId) h) (by decide), by decide +kernel, fun h => ?_⟩
  have hticks : machine.Along Ticks new raisedRun :=
    ⟨by decide, trivial, by decide +kernel, trivial, by decide +kernel, by decide +kernel, trivial⟩
  exact absurd (run_lamportTs_lt hrun hticks h) (by decide +kernel)

end Net

end AvSync
