import AvSync.Editing
import AvSync.Proofs.Convergence
import AvSync.Proofs.LocalRuns
import AvSync.Proofs.Network

/-!
# Replicas that edit together agree

A local edit that finds its targets attempts one more operation (`Trace.stamp`), and unblocks
nothing: whatever waits misses an entity that some operation brings in, and the edit brings in one
that no operation does. So the log of every replica is what it has attempted and what waits, as it
is for one that is only fed (`Coherent`), and replicas with the same log agree (`run_agree`).
-/

namespace AvSync

namespace TimelineCrdt

variable {c : TimelineCrdt} {att : List TaggedOperation} {op : TimelineOperation}

/-- A local edit that finds its targets is the next operation attempted. -/
theorem Trace.stamp (h : Trace c att) (hs : c.session.HasTargets op)
    (hid : (c.tagNext op).opId ∉ c.seen)
    (hm : ∀ o ∈ c.pending, (c.session.exec (c.tagNext op)).Misses o.operation)
    (inv : Option TimelineOperation) : Trace (c.stamp op inv).2 (att ++ [c.tagNext op]) := by
  have hok : c.session.Succeeds (c.tagNext op) := Session.succeeds_of_hasTargets hs
  have happ : Session.new.applied (att ++ [c.tagNext op]) =
      Session.new.applied att ++ [c.tagNext op] := by
    rw [Session.applied_append, ← h.session_eq]
    simp only [Session.applied, hok, if_true]
  rw [stamp_of_succeeds inv hok]
  constructor
  · simp only [Session.replay_append, ← h.session_eq]
    rfl
  · simp only [happ, List.append_assoc]
    refine (List.Perm.append_left _ List.perm_append_comm).trans ?_
    rw [← List.append_assoc]
    exact h.perm.append_right _
  · exact hm
  · intro o ho
    rcases List.mem_append.mp ho with ho | ho
    · exact List.mem_append_left _ (h.mem_log o ho)
    · exact List.mem_append_right _ ho
  · intro i
    simp only [Finset.mem_insert, h.mem_seen, List.mem_append, List.mem_singleton, or_and_right,
      exists_or, exists_eq_left, eq_comm (a := i), or_comm]
  · rw [List.map_append]
    refine List.Nodup.append h.nodup (List.nodup_singleton _) fun i hi hi' => ?_
    obtain ⟨o, ho, rfl⟩ := List.mem_map.mp hi
    exact hid ((h.mem_seen _).mpr ⟨o, ho, List.mem_singleton.mp hi'⟩)
  · rw [happ, List.filter_append, h.order, ← List.filter_append]

/-- Two timelines that have attempted operations of one set, in which children have one owner each,
and hold the same of them. -/
theorem Trace.agree {d : TimelineCrdt} {att' ops : List TaggedOperation} (h : Trace c att)
    (h' : Trace d att') (H : OneOwner ops) (T : TagsDistinct ops)
    (hc : c.operationLog.Perm ops) (hd : d.operationLog.Perm ops) : c.Agree d := by
  have ha : ∀ o ∈ att, o ∈ ops := fun o ho => hc.mem_iff.mp (h.mem_log o ho)
  have ha' : ∀ o ∈ att', o ∈ ops := fun o ho => hd.mem_iff.mp (h'.mem_log o ho)
  have hnd : ops.Nodup := hc.nodup_iff.mp h.nodup.of_map
  obtain ⟨h1, -, h3⟩ := Session.replay_eq_of_oneOwner H T hnd ha ha' (h.perm.trans hc)
    (h'.perm.trans hd) (fun o ho => h.session_eq ▸ h.missing o ho)
    (fun o ho => h'.session_eq ▸ h'.missing o ho)
  have hs : c.session = d.session := by rw [h.session_eq, h'.session_eq, h1]
  have hf : c.session.Forest := h.session_eq ▸ (Session.replay_inv_of_oneOwner H ha).2.2
  obtain ⟨v, hv⟩ := hf.materialize
  exact ⟨hs, ⟨v, hv, by rw [view, ← hs]; exact hv⟩, fun o => h3.mem_iff⟩

end TimelineCrdt

namespace Net

open TimelineCrdt

variable {N : Net} {p : PeerId} {op : TaggedOperation}

theorem EditsOwn.ticks {e : NetEvent} (h : N.EditsOwn e) : N.Ticks e := by
  cases e with
  | create p operation => exact h.2.2
  | deliver p op => trivial

/-- What holds of a net whose replicas edit what they have, under ids of their own. -/
structure Coherent (N : Net) : Prop extends N.Logged where
  traced : ∀ p, ∃ att, Trace (N.replica p) att
  /-- An entity is introduced once. -/
  once : ∀ a ∈ N.history.created, ∀ b ∈ N.history.created, ∀ {r},
    a.operation.introduced = some r → b.operation.introduced = some r → a = b
  /-- What an operation requires, an operation introduces. -/
  grounded : ∀ a ∈ N.history.created, ∀ r ∈ a.operation.requiredTargets,
    ∃ b ∈ N.history.created, b.operation.introduced = some r

namespace Coherent

theorem new : Coherent Net.new where
  __ := Logged.new
  traced p := ⟨[], Trace.new p⟩
  once _ h := h.elim
  grounded _ h := h.elim

variable (h : N.Coherent)

include h

/-- What a replica has, an operation introduces. -/
theorem introduced {r : RequiredTarget} (hr : (N.replica p).session.HasTarget r) :
    ∃ o ∈ N.history.created, o.operation.introduced = some r := by
  obtain ⟨att, t⟩ := h.traced p
  rw [t.session_eq] at hr
  obtain ⟨o, ho, hop, -⟩ := Session.introduced_of_replay hr
  exact ⟨o, h.log_created (t.mem_log o ho), hop⟩

/-- An edit that brings in an unused entity leaves what waits waiting. -/
theorem misses {operation : TimelineOperation} (hu : ∀ r, operation.introduced = some r →
    N.Unused r) {o : TaggedOperation} (ho : o ∈ N.history.created)
    (hm : (N.replica p).session.Misses o.operation) :
    ((N.replica p).session.exec ((N.replica p).tagNext operation)).Misses o.operation := by
  refine ⟨fun ht => hm.1 fun r hr => ?_, hm.2⟩
  rcases Session.hasTarget_exec.mp (ht r hr) with h1 | h1
  · exact h1
  · obtain ⟨b, hb, hbr⟩ := h.grounded o ho r hr
    exact absurd hbr (hu r h1.introduced.1 b hb)

theorem create {operation : TimelineOperation} {c' : TimelineCrdt}
    (hop : (N.replica p).applyLocal operation = some (op, c'))
    (he : N.EditsOwn (.create p operation)) :
    Coherent ⟨Function.update N.replica p c', N.history.create p op⟩ := by
  have hlogged := h.toLogged.create hop he.ticks
  obtain ⟨ht, hu, hl⟩ := he
  obtain ⟨inv, -, hstamp⟩ := Option.map_eq_some_iff.mp hop
  obtain rfl : (N.replica p).tagNext operation = op := congrArg Prod.fst hstamp
  obtain rfl : ((N.replica p).stamp operation inv).2 = c' := congrArg Prod.snd hstamp
  refine ⟨hlogged, fun q => ?_, ?_, ?_⟩
  · by_cases hq : q = p
    · subst hq
      obtain ⟨att, t⟩ := h.traced q
      simp only [Function.update_self]
      refine ⟨_, t.stamp ht (fun hs => ?_) (fun o ho => ?_) inv⟩
      · obtain ⟨o, ho, hid⟩ := (t.mem_seen _).mp hs
        exact h.next_ne hl (h.log_created ho) hid
      · exact h.misses hu (h.log_created (t.mem_log_pending ho)) (t.missing o ho)
    · simp only [Function.update_of_ne hq]
      exact h.traced q
  · rintro a (rfl | ha) b (rfl | hb) r har hbr
    · rfl
    · exact absurd hbr (hu r har b hb)
    · exact absurd har (hu r hbr a ha)
    · exact h.once a ha b hb har hbr
  · rintro a (rfl | ha) r hr
    · obtain ⟨b, hb, hbr⟩ := h.introduced (ht r hr)
      exact ⟨b, Set.mem_insert_of_mem _ hb, hbr⟩
    · obtain ⟨b, hb, hbr⟩ := h.grounded a ha r hr
      exact ⟨b, Set.mem_insert_of_mem _ hb, hbr⟩

theorem deliver (ho : op ∈ N.history.created) : (N.step (.deliver p op)).Coherent := by
  by_cases hseen : op.opId ∈ (N.replica p).seen
  · rw [h.deliver_of_seen ho hseen]
    exact h
  refine ⟨h.toLogged.deliver ho, fun q => ?_, h.once, h.grounded⟩
  rw [Net.step]
  by_cases hq : q = p
  · subst hq
    obtain ⟨att, t⟩ := h.traced q
    obtain ⟨att', t', -, -⟩ := t.applyRemote hseen
    simp only [Function.update_self]
    exact ⟨_, t'⟩
  · simp only [Function.update_of_ne hq]
    exact h.traced q

theorem step {e : NetEvent} (he : N.Enabled e) (hown : N.EditsOwn e) : (N.step e).Coherent := by
  rcases e with ⟨p, operation⟩ | ⟨p, op⟩
  · obtain ⟨⟨op, c'⟩, hop⟩ := Option.isSome_iff_exists.mp he
    simp only [Net.step, hop]
    exact h.create hop hown
  · exact h.deliver he

/-- The children of the splits among operations that have been created have one owner each. -/
theorem oneOwner {ops : List TaggedOperation} (hops : ∀ o ∈ ops, o ∈ N.history.created) :
    OneOwner ops where
  claim_eq a ha b hb c f n c' f' hac hbc := by
    obtain rfl := h.once a (hops a ha) b (hops b hb) (r := .clip n)
      (by rw [hac]; rfl) (by rw [hbc]; rfl)
    rw [hac] at hbc
    cases hbc
    exact ⟨rfl, rfl⟩
  not_inserted a ha b hb c f n r d x hac hbc := by
    obtain rfl := h.once a (hops a ha) b (hops b hb) (r := .clip n)
      (by rw [hac]; rfl) (by rw [hbc]; rfl)
    rw [hac] at hbc
    cases hbc

theorem tagsDistinct {ops : List TaggedOperation} (hops : ∀ o ∈ ops, o ∈ N.history.created) :
    TagsDistinct ops := by
  intro a ha b hb hne htag
  refine hne (h.id_inj a (hops a ha) b (hops b hb) ?_)
  simp only [TaggedOperation.tag, OpTag.mk.injEq] at htag
  rw [(h.stamped a (hops a ha)).1, (h.stamped b (hops b hb)).1, htag.1, htag.2]

end Coherent

/-! ## Agreement -/

/-- A timeline that has attempted operations of the net and logged what it was given of them. -/
structure Fed (N : Net) (c : TimelineCrdt) : Prop where
  traced : ∃ att, Trace c att
  created : ∀ o ∈ c.operationLog, o ∈ N.history.created

namespace Fed

variable {c d : TimelineCrdt} {l : List TaggedOperation}

theorem new (x : PeerId) : N.Fed (.new x) :=
  ⟨⟨[], Trace.new x⟩, fun _ h => absurd h List.not_mem_nil⟩

/-- Operations of the net that are delivered join the log. -/
theorem deliver (h : N.Coherent) (hc : N.Fed c) (hl : ∀ o ∈ l, o ∈ N.history.created) :
    N.Fed (c.deliver l) ∧ ∀ o, o ∈ (c.deliver l).operationLog ↔ o ∈ c.operationLog ∨ o ∈ l := by
  obtain ⟨att, t⟩ := hc.traced
  obtain ⟨att', t', -, hlog, hseen⟩ := t.deliver (l := l)
  have hcreated : ∀ o ∈ (c.deliver l).operationLog, o ∈ N.history.created := fun o ho =>
    (List.mem_append.mp (hlog o ho)).elim (hc.created o) (hl o)
  refine ⟨⟨⟨_, t'⟩, hcreated⟩, fun o => ⟨fun ho => List.mem_append.mp (hlog o ho), fun ho => ?_⟩⟩
  have hid : o.opId ∈ (c.deliver l).seen :=
    hseen o (ho.elim (fun ho => Or.inr ((t.mem_seen _).mpr ⟨o, ho, rfl⟩)) Or.inl)
  obtain ⟨b, hb, hbo⟩ := (t'.mem_seen _).mp hid
  have ho' : o ∈ N.history.created := ho.elim (hc.created o) (hl o)
  exact h.id_inj b (hcreated b hb) o ho' hbo ▸ hb

/-- Timelines with the same log agree. -/
theorem agree (h : N.Coherent) (hc : N.Fed c) (hd : N.Fed d)
    (hcd : ∀ o, o ∈ c.operationLog ↔ o ∈ d.operationLog) : c.Agree d := by
  obtain ⟨att, t⟩ := hc.traced
  obtain ⟨att', t'⟩ := hd.traced
  have hperm : d.operationLog.Perm c.operationLog :=
    (List.perm_ext_iff_of_nodup t'.nodup.of_map t.nodup.of_map).mpr fun o => (hcd o).symm
  exact t.agree t' (h.oneOwner hc.created) (h.tagsDistinct hc.created) (.refl _) hperm

/-- A snapshot of one merged into the other holds the logs of both. -/
theorem mergeSnapshot (h : N.Coherent) (hc : N.Fed c) (hd : N.Fed d) :
    N.Fed (c.mergeSnapshot d.snapshot) ∧
      ∀ o, o ∈ (c.mergeSnapshot d.snapshot).operationLog ↔
        o ∈ c.operationLog ∨ o ∈ d.operationLog := by
  have hmem : ∀ o, o ∈ sortByRank d.snapshot.ops ↔ o ∈ d.operationLog := fun o =>
    (List.perm_insertionSort _ _).mem_iff
  obtain ⟨h1, h2⟩ := hc.deliver (l := sortByRank d.snapshot.ops) h fun o ho =>
    hd.created o ((hmem o).mp ho)
  exact ⟨h1, fun o => (h2 o).trans (or_congr_right (hmem o))⟩

end Fed

theorem Coherent.fed (h : N.Coherent) (p : PeerId) : N.Fed (N.replica p) :=
  ⟨h.traced p, fun _ => h.log_created⟩

theorem run_coherent {events : List NetEvent} (hrun : machine.Valid new events)
    (he : machine.Along EditsOwn new events) : (machine.run new events).Coherent :=
  Machine.Along.run_inv (fun _ _ _ h he => h.step he.1 he.2) (hrun.and he) Coherent.new

/-- Replicas that edit what they have, under ids of their own, agree whenever they know the same
operations. -/
theorem run_agree (events : List NetEvent) (hrun : machine.Valid new events)
    (he : machine.Along EditsOwn new events) (p q : PeerId)
    (hpq : (machine.run new events).SameLog p q) :
    ((machine.run new events).replica p).Agree ((machine.run new events).replica q) :=
  have h := run_coherent hrun he
  (h.fed p).agree h (h.fed q) hpq

/-- A clip is inserted on the track of another replica, and both hear of it. -/
def editedRun : List NetEvent :=
  [.create ⟨1⟩ (.insertTrack ⟨1⟩ (.new "t") 0), .deliver ⟨2⟩ relayed,
    .create ⟨2⟩ (.insertClip ⟨1⟩ ⟨1⟩ (.new "c" 0 100) 0),
    .deliver ⟨1⟩ (((TimelineCrdt.new ⟨2⟩).applyRemote relayed).tagNext
      (.insertClip ⟨1⟩ ⟨1⟩ (.new "c" 0 100) 0))]

theorem editedRun_valid : machine.Valid new editedRun :=
  ⟨rfl, Or.inl rfl, rfl, Or.inl rfl, trivial⟩

theorem editedRun_editsOwn : machine.Along EditsOwn new editedRun := by
  refine ⟨⟨fun r hr => absurd hr List.not_mem_nil, fun r _ o ho => ho.elim, by decide⟩, trivial,
    ⟨fun r hr => absurd hr List.not_mem_nil, fun r hr o ho => ?_, by decide +kernel⟩, trivial,
    trivial⟩
  rcases ho with rfl | ho
  · cases hr
    exact fun he => absurd he (by decide)
  · exact ho.elim

theorem editedRun_sameLog : (machine.run new editedRun).SameLog ⟨1⟩ ⟨2⟩ := fun o =>
  ((run_coherent editedRun_valid editedRun_editsOwn).mem_log ⟨1⟩ o).trans
    (Iff.trans (by rfl) ((run_coherent editedRun_valid editedRun_editsOwn).mem_log ⟨2⟩ o).symm)

theorem editedRun_agree : ((machine.run new editedRun).replica ⟨1⟩).Agree
    ((machine.run new editedRun).replica ⟨2⟩) :=
  run_agree editedRun editedRun_valid editedRun_editsOwn ⟨1⟩ ⟨2⟩ editedRun_sameLog

/-- Two replicas that have merged a snapshot of the other agree, and so does a replica that is
restored from a snapshot with the one it was taken of, then and after another merge. -/
theorem run_exchange (events : List NetEvent) (hrun : machine.Valid new events)
    (he : machine.Along EditsOwn new events) (p q x : PeerId) :
    let c := (machine.run new events).replica p
    let d := (machine.run new events).replica q
    (c.mergeSnapshot d.snapshot).Agree (d.mergeSnapshot c.snapshot) ∧
      (fromSnapshot c.snapshot x).Agree c ∧
        ((fromSnapshot c.snapshot x).mergeSnapshot d.snapshot).Agree
          (c.mergeSnapshot d.snapshot) := by
  intro c d
  have h := run_coherent hrun he
  obtain ⟨hcd, hlog⟩ := (h.fed p).mergeSnapshot h (h.fed q)
  obtain ⟨hdc, hlog'⟩ := (h.fed q).mergeSnapshot h (h.fed p)
  -- a restored replica is a fresh one that merges the snapshot
  obtain ⟨hr, hlogr⟩ := (Fed.new x).mergeSnapshot h (h.fed p)
  have hrest : ∀ o, o ∈ (fromSnapshot c.snapshot x).operationLog ↔ o ∈ c.operationLog :=
    fun o => (hlogr o).trans (or_iff_right List.not_mem_nil)
  obtain ⟨hrd, hlogrd⟩ := hr.mergeSnapshot h (h.fed q)
  refine ⟨hcd.agree h hdc fun o => ?_, hr.agree h (h.fed p) hrest, hrd.agree h hcd fun o => ?_⟩
  · exact (hlog o).trans (or_comm.trans (hlog' o).symm)
  · exact (hlogrd o).trans ((or_congr_left (hrest o)).trans (hlog o).symm)

/-- The two of `editedRun`, before the second hears of the clip, and a third restored. -/
theorem editedRun_exchange :
    let c := (machine.run new (editedRun.take 3)).replica ⟨1⟩
    let d := (machine.run new (editedRun.take 3)).replica ⟨2⟩
    (c.mergeSnapshot d.snapshot).Agree (d.mergeSnapshot c.snapshot) ∧
      (fromSnapshot c.snapshot ⟨3⟩).Agree c ∧
        ((fromSnapshot c.snapshot ⟨3⟩).mergeSnapshot d.snapshot).Agree
          (c.mergeSnapshot d.snapshot) :=
  run_exchange (editedRun.take 3) ((Machine.valid_append (m := editedRun.drop 3)).mp
    editedRun_valid).1 ((Machine.along_append (m := editedRun.drop 3)).mp editedRun_editsOwn).1
    ⟨1⟩ ⟨2⟩ ⟨3⟩

end Net

end AvSync
