import AvSync.Proofs.Editing
import AvSync.Recording

/-!
# What a replay leads to

A replay returns exactly if each gap that it sleeps for can be scaled (`isSome_replay`), and has then
delivered the operations it includes, so after any replays of a recording a timeline agrees with
every replica that knows exactly what they have included (`run_replayed`). The gaps add up to the
span of the recording (`slept_replay`).
-/

namespace AvSync

namespace SessionRecording

variable {D : DurationScaling} {recording : SessionRecording} {c : TimelineCrdt}
  {speed : ReplaySpeed} {s : Replaying} {l : List RecordedOperation}

theorem mem_new {ops : List RecordedOperation} {r : RecordedOperation} :
    r ∈ (new ops).ops ↔ r ∈ ops := List.mem_insertionSort _

theorem replayMatching_eq {included : RecordedOperation → Bool} :
    recording.replayMatching D c speed included =
      (recording.ops.filter included).foldlM (replayOne D speed) ⟨c, none, []⟩ := by
  rw [replayMatching]
  generalize (⟨c, none, []⟩ : Replaying) = s
  induction recording.ops generalizing s with
  | nil => rfl
  | cons r l ih =>
    rw [List.foldlM_cons, List.filter_cons]
    split_ifs
    · rw [List.foldlM_cons]
      exact congrArg _ (funext ih)
    · exact ih s

/-! ## The timeline -/

theorem crdt_foldlM {t : Replaying} (h : l.foldlM (replayOne D speed) s = some t) :
    t.crdt = s.crdt.deliver (l.map (·.operation)) := by
  induction l generalizing s with
  | nil => exact congrArg (·.crdt) (Option.some.inj h).symm
  | cons r l ih =>
    rw [List.foldlM_cons] at h
    obtain ⟨s', hs, ht⟩ := Option.bind_eq_some_iff.mp h
    obtain ⟨p, -, rfl⟩ := Option.map_eq_some_iff.mp hs
    exact ih ht

/-- The operations that a replay includes. -/
def included (recording : SessionRecording) (request : ReplayRequest) : List TaggedOperation :=
  (recording.ops.filter request.includes).map (·.operation)

theorem mem_included {request : ReplayRequest} {o : TaggedOperation} :
    o ∈ recording.included request ↔
      ∃ r ∈ recording.ops, r.operation = o ∧ request.includes r = true := by
  simp only [included, List.mem_map, List.mem_filter]
  constructor
  · rintro ⟨r, ⟨hr, hi⟩, ho⟩
    exact ⟨r, hr, ho, hi⟩
  · rintro ⟨r, hr, ho, hi⟩
    exact ⟨r, ⟨hr, hi⟩, ho⟩

theorem crdt_replay {request : ReplayRequest} {t : Replaying}
    (h : recording.replay D c speed request = some t) :
    t.crdt = c.deliver (recording.included request) := by
  rw [replay, replayMatching_eq] at h
  exact crdt_foldlM h

/-! ## The pace -/

theorem paced_cons_cons {a b : ℤ} {times : List ℤ} :
    Paced D speed (a :: b :: times) ↔
      (∀ factor, speed = .realtime factor → D.positive factor = true →
        (D.divF64 (b - a).toNat factor).isSome) ∧ Paced D speed (b :: times) := by
  simp only [Paced, gaps, List.forall_mem_cons]
  grind

theorem isSome_pause {prev timestamp : ℤ} (h : prev ≤ timestamp) :
    (pause D speed (some prev) timestamp).isSome ↔ ∀ factor, speed = .realtime factor →
      D.positive factor = true → (D.divF64 (timestamp - prev).toNat factor).isSome := by
  cases speed with
  | instant => simp [pause]
  | realtime factor =>
    by_cases hpos : D.positive factor = true <;> simp [pause, hpos, h]

/-- A replay goes on to its end exactly if the speed can be kept over the times to come. -/
theorem isSome_foldlM (hl : (s.previous.toList ++ l.map (·.timestamp)).Pairwise (· ≤ ·)) :
    (l.foldlM (replayOne D speed) s).isSome ↔
      Paced D speed (s.previous.toList ++ l.map (·.timestamp)) := by
  induction l generalizing s with
  | nil =>
    refine iff_of_true rfl fun factor _ _ gap hgap => ?_
    rw [List.map_nil, List.append_nil] at hgap
    rcases hprev : s.previous with _ | prev <;> rw [hprev] at hgap <;>
      exact absurd hgap List.not_mem_nil
  | cons r l ih =>
    have hnext : (r.timestamp :: l.map (·.timestamp)).Pairwise (· ≤ ·) :=
      (List.pairwise_append.mp hl).2.1
    have hrest : ∀ {p}, pause D speed s.previous r.timestamp = some p →
        (((r :: l).foldlM (replayOne D speed) s).isSome ↔
          Paced D speed (r.timestamp :: l.map (·.timestamp))) := by
      intro p hp
      rw [List.foldlM_cons, replayOne, hp]
      exact ih (s := ⟨_, some r.timestamp, _⟩) hnext
    rcases hprev : s.previous with _ | prev <;> rw [hprev] at hl hrest
    · exact hrest (p := none) (by cases speed <;> rfl)
    · have hle : prev ≤ r.timestamp := List.rel_of_pairwise_cons hl List.mem_cons_self
      simp only [Option.toList_some, List.singleton_append, List.map_cons, paced_cons_cons,
        ← isSome_pause hle]
      rcases hp : pause D speed (some prev) r.timestamp with _ | p
      · rw [List.foldlM_cons, replayOne, hprev, hp]
        simp
      · rw [hrest hp]
        simp

/-- A replay returns exactly if its speed can be kept. -/
theorem isSome_replay {request : ReplayRequest} :
    (recording.replay D c speed request).isSome ↔
      Paced D speed (recording.includedTimes request) := by
  rw [replay, replayMatching_eq]
  exact isSome_foldlM (List.pairwise_map.mpr (recording.sorted.filter _))

/-- Replays that return have delivered the operations that they include. -/
theorem replays_eq {requests : List (ReplaySpeed × ReplayRequest)}
    (h : ∀ k ∈ requests, Paced D k.1 (recording.includedTimes k.2)) :
    recording.replays D c requests =
      some (c.deliver (requests.flatMap fun k => recording.included k.2)) := by
  induction requests generalizing c with
  | nil => rfl
  | cons k requests ih =>
    obtain ⟨t, ht⟩ := Option.isSome_iff_exists.mp
      (isSome_replay (c := c).mpr (h k List.mem_cons_self))
    rw [replays, List.foldlM_cons, ht, List.flatMap_cons, TimelineCrdt.deliver,
      List.foldl_append]
    refine (ih (c := t.crdt) fun k hk => h k (List.mem_cons_of_mem _ hk)).trans ?_
    rw [crdt_replay ht]
    rfl

/-- What is slept for a gap. -/
def scaled (D : DurationScaling) (factor : F64) (l : List ℕ) : List ℕ :=
  (l.filterMap (D.divF64 · factor)).filter (0 < ·)

theorem slept_foldlM {factor : F64} (hpos : D.positive factor = true) {r : RecordedOperation}
    (hs : s.previous = some r.timestamp)
    (hl : (r :: l).Pairwise fun a b => a.timestamp ≤ b.timestamp) {t : Replaying}
    (h : l.foldlM (replayOne D (.realtime factor)) s = some t) :
    t.slept = s.slept ++ scaled D factor (gaps ((r :: l).map (·.timestamp))) := by
  induction l generalizing r s with
  | nil =>
    obtain rfl := Option.some.inj h
    exact (List.append_nil _).symm
  | cons r' l ih =>
    have hle : r.timestamp ≤ r'.timestamp := List.rel_of_pairwise_cons hl List.mem_cons_self
    rw [List.foldlM_cons] at h
    obtain ⟨s', hs', ht⟩ := Option.bind_eq_some_iff.mp h
    obtain ⟨p, hp, rfl⟩ := Option.map_eq_some_iff.mp hs'
    simp only [pause, hs, hpos, hle, and_self, if_true] at hp
    obtain ⟨d, hd, rfl⟩ := Option.map_eq_some_iff.mp hp
    rw [ih (r := r') rfl hl.tail ht]
    simp only [List.map_cons, gaps, scaled, List.filterMap_cons, hd, List.filter_cons,
      decide_eq_true_eq]
    split_ifs <;> simp

/-- The gaps of a sorted list add up. -/
theorem sum_gaps : ∀ {a : ℤ} {l : List ℤ}, (a :: l).Pairwise (· ≤ ·) →
    (gaps (a :: l)).sum = ((a :: l).getLast (List.cons_ne_nil _ _) - a).toNat
  | a, [], _ => by simp [gaps]
  | a, b :: l, h => by
    have hab : a ≤ b := List.rel_of_pairwise_cons h List.mem_cons_self
    have hlast : b ≤ (b :: l).getLast (List.cons_ne_nil _ _) := by
      rcases List.mem_cons.mp (List.getLast_mem (List.cons_ne_nil b l)) with he | he
      · exact he.ge
      · exact List.rel_of_pairwise_cons h.tail he
    rw [gaps, List.sum_cons, sum_gaps h.tail, List.getLast_cons_cons]
    omega

/-- A replay at a pace that can be kept sleeps for the scaled gaps of its recording, which add up
to the span of that. -/
theorem slept_replay {factor : F64} (hpos : D.positive factor = true) {t : Replaying}
    (h : recording.replay D c (.realtime factor) .all = some t) :
    t.slept = scaled D factor (gaps (recording.ops.map (·.timestamp))) ∧
      ∀ first last, recording.timeRange = some (first, last) →
        (gaps (recording.ops.map (·.timestamp))).sum = (last - first).toNat := by
  have hsorted := recording.sorted
  have hall : recording.ops.filter ReplayRequest.all.includes = recording.ops :=
    List.filter_eq_self.mpr fun _ _ => rfl
  rw [replay, replayMatching_eq, hall] at h
  rw [timeRange]
  generalize recording.ops = ops at hsorted h ⊢
  rcases ops with _ | ⟨r, l⟩
  · obtain rfl := Option.some.inj h
    exact ⟨rfl, fun first last h => by simp at h⟩
  · refine ⟨?_, fun first last h => ?_⟩
    · have hslept := slept_foldlM (s := ⟨c.applyRemote r.operation, some r.timestamp, []⟩) hpos rfl
        hsorted h
      exact hslept.trans (List.nil_append _)
    · rw [List.map_cons, sum_gaps (List.pairwise_map.mpr hsorted)]
      simp only [List.head?_cons, List.getLast?_eq_some_getLast (List.cons_ne_nil r l),
        Option.some.injEq, Prod.mk.injEq] at h
      have hlast : ((r :: l).map (·.timestamp)).getLast (List.cons_ne_nil _ _) =
          ((r :: l).getLast (List.cons_ne_nil _ _)).timestamp := List.getLast_map ..
      rw [← h.1, ← h.2, ← hlast]
      rfl

end SessionRecording

namespace Net

/-- After any replays of a recording into a fresh timeline, at speeds that can be kept, whatever the
times in it and in whatever order and however often it has the operations, the timeline agrees with
each replica that knows just the operations that the replays have included. -/
theorem run_replayed {events : List NetEvent} (hrun : machine.Valid new events)
    (he : machine.Along EditsOwn new events) (D : DurationScaling) (p x : PeerId)
    {ops : List RecordedOperation} {requests : List (ReplaySpeed × ReplayRequest)}
    (hpaced : ∀ k ∈ requests,
      SessionRecording.Paced D k.1 ((SessionRecording.new ops).includedTimes k.2))
    (hops : ∀ o, o ∈ ((machine.run new events).replica p).operationLog ↔
      ∃ k ∈ requests, ∃ r ∈ ops, r.operation = o ∧ k.2.includes r = true) :
    ∃ c, (SessionRecording.new ops).replays D (.new x) requests = some c ∧
      c.Agree ((machine.run new events).replica p) := by
  have h := run_coherent hrun he
  refine ⟨_, SessionRecording.replays_eq hpaced, ?_⟩
  have hmem : ∀ o, o ∈ ((machine.run new events).replica p).operationLog ↔
      o ∈ requests.flatMap fun k => (SessionRecording.new ops).included k.2 := by
    intro o
    simp only [hops, List.mem_flatMap, SessionRecording.mem_included, SessionRecording.mem_new]
  obtain ⟨hfed, hlog⟩ := (Fed.new (N := machine.run new events) x).deliver h fun o ho =>
    h.log_created ((hmem o).mpr ho)
  refine hfed.agree h (h.fed p) fun o => ?_
  rw [hlog, hmem]
  exact or_iff_right List.not_mem_nil

/-- The log of `editedRun` as the second replica has it, on clocks that differ: its own edit was
captured first. -/
def editedRecording : List RecordedOperation :=
  ((machine.run new editedRun).replica ⟨2⟩).operationLog.zipWith (fun o t => ⟨o, t⟩) [7, 3]

theorem editedRecording_ops : editedRecording.map (·.operation) =
    ((machine.run new editedRun).replica ⟨2⟩).operationLog := rfl

/-- Division by a power of two that is not too small. -/
def halving : DurationScaling := ⟨fun f => 0 < f.bits, fun d _ => some (d / 2)⟩

/-- The insertion of the clip alone is replayed first, and waits for its track. -/
theorem editedRun_replayed :
    ∃ c, (SessionRecording.new editedRecording).replays halving (.new ⟨3⟩)
        [(.instant, .until 3), (.realtime ⟨0x4000000000000000⟩, .all)] = some c ∧
      c.Agree ((machine.run new editedRun).replica ⟨1⟩) := by
  refine run_replayed editedRun_valid editedRun_editsOwn _ ⟨1⟩ ⟨3⟩
    (fun k _ factor _ _ gap _ => rfl) fun o => ?_
  refine (editedRun_sameLog o).trans ?_
  rw [← editedRecording_ops, List.mem_map]
  constructor
  · rintro ⟨r, hr, ho⟩
    exact ⟨_, List.mem_cons_of_mem _ List.mem_cons_self, r, hr, ho, rfl⟩
  · rintro ⟨k, -, r, hr, ho, -⟩
    exact ⟨r, hr, ho⟩

end Net

end AvSync
