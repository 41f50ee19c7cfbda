import AvSync.Replication
import AvSync.Proofs.Buffer

/-!
# What a delivery attempts

A timeline that is only fed remote operations has attempted a list of them, one after the other,
on the empty session (`Trace`). Those that applied and those still buffered are together the log,
the buffered ones miss a target, and the log is the set that was delivered
(`OpSet.Delivers.trace`).
-/

namespace AvSync

namespace TimelineCrdt

variable {c : TimelineCrdt} {att : List TaggedOperation} {o : TaggedOperation}

/-- Whether an operation requires no entity. -/
def untargeted (o : TaggedOperation) : Bool := o.operation.requiredTargets.isEmpty

/-- `c` has attempted `att` on the empty session. -/
structure Trace (c : TimelineCrdt) (att : List TaggedOperation) : Prop where
  session_eq : c.session = Session.new.replay att
  perm : (Session.new.applied att ++ c.pending).Perm c.operationLog
  missing : ∀ o ∈ c.pending, c.session.Misses o.operation
  mem_log : ∀ o ∈ att, o ∈ c.operationLog
  mem_seen : ∀ i, i ∈ c.seen ↔ ∃ o ∈ c.operationLog, o.opId = i
  nodup : (c.operationLog.map (·.opId)).Nodup
  order : (Session.new.applied att).filter untargeted = c.operationLog.filter untargeted

theorem hasTargets_of_untargeted {s : Session} (h : untargeted o = true) :
    s.HasTargets o.operation := by
  rw [untargeted, List.isEmpty_iff] at h
  intro r hr
  rw [h] at hr
  exact absurd hr List.not_mem_nil

namespace Trace

theorem new (peer : PeerId) : Trace (.new peer) [] where
  session_eq := rfl
  perm := .nil
  missing := fun _ h => absurd h List.not_mem_nil
  mem_log := fun _ h => absurd h List.not_mem_nil
  mem_seen := fun i => by simp [TimelineCrdt.new]
  nodup := .nil
  order := rfl

theorem mem_log_pending (h : Trace c att) (ho : o ∈ c.pending) : o ∈ c.operationLog :=
  h.perm.mem_iff.mp (List.mem_append_right _ ho)

/-- Of the operations a remote one unblocks, none is untargeted. -/
theorem filter_applied {p : List TaggedOperation} (h : Trace c att)
    (hperm : (c.session.applied (o :: p)).Subperm (c.pending ++ [o])) :
    (c.session.applied (o :: p)).filter untargeted = [o].filter untargeted := by
  have hpend : c.pending.filter untargeted = [] := by
    rw [List.filter_eq_nil_iff]
    exact fun b hb hu => (h.missing b hb).1 (hasTargets_of_untargeted hu)
  have hsub := hperm.filter untargeted
  rw [List.filter_append, hpend, List.nil_append] at hsub
  by_cases ho : untargeted o = true
  · have hs : c.session.Succeeds o :=
      Session.succeeds_of_hasTargets (hasTargets_of_untargeted ho)
    have hlen := hsub.length_le
    simp only [Session.applied, hs, if_true, List.filter_cons, ho, List.filter_nil,
      List.length_cons, List.length_nil] at hlen ⊢
    have : ((c.session.exec o).applied p).filter untargeted = [] :=
      List.length_eq_zero_iff.mp (by omega)
    rw [this]
  · simp only [List.filter_cons, ho, List.filter_nil, if_false, Bool.false_eq_true] at hsub ⊢
    exact List.subperm_nil.mp hsub

theorem applyRemote (h : Trace c att) (ho : o.opId ∉ c.seen) :
    ∃ att', Trace (c.applyRemote o) (att ++ o :: att') ∧
      (∀ b ∈ att', b ∈ c.pending ++ [o]) ∧
      (c.applyRemote o).operationLog = c.operationLog ++ [o] := by
  obtain ⟨att', p, e, heq, hatt, hperm, hmiss⟩ := applyRemote_eq ho
  refine ⟨att', ?_, hatt, by rw [heq]⟩
  rw [heq]
  have happ : Session.new.applied (att ++ o :: att') =
      Session.new.applied att ++ c.session.applied (o :: att') := by
    rw [Session.applied_append, h.session_eq]
  constructor
  · simp only [Session.replay_append, ← h.session_eq]
  · simp only [happ, List.append_assoc]
    refine (hperm.append_left _).trans ?_
    rw [← List.append_assoc]
    exact h.perm.append_right _
  · exact hmiss
  · intro b hb
    simp only [List.mem_append, List.mem_cons] at hb ⊢
    rcases hb with hb | rfl | hb
    · exact Or.inl (h.mem_log b hb)
    · exact Or.inr (Or.inl rfl)
    · rcases List.mem_append.mp (hatt b hb) with hb | hb
      · exact Or.inl (h.mem_log_pending hb)
      · exact Or.inr (List.mem_cons.mp hb)
  · intro i
    simp only [Finset.mem_insert, h.mem_seen, List.mem_append, List.mem_singleton]
    constructor
    · rintro (rfl | ⟨b, hb, hi⟩)
      · exact ⟨o, Or.inr rfl, rfl⟩
      · exact ⟨b, Or.inl hb, hi⟩
    · rintro ⟨b, hb | rfl, hi⟩
      · exact Or.inr ⟨b, hb, hi⟩
      · exact Or.inl hi.symm
  · simp only [List.map_append, List.map_cons, List.map_nil]
    refine List.Nodup.append h.nodup (List.nodup_singleton _) fun i hi hi' => ?_
    obtain ⟨b, hb, rfl⟩ := List.mem_map.mp hi
    rw [List.mem_singleton] at hi'
    exact ho ((h.mem_seen _).mpr ⟨b, hb, hi'⟩)
  · have hsub : (c.session.applied (o :: att')).Subperm (c.pending ++ [o]) :=
      (List.sublist_append_left _ p).subperm.trans hperm.subperm
    rw [happ, List.filter_append, h.order, h.filter_applied hsub, ← List.filter_append]

theorem deliver :
    ∀ {l : List TaggedOperation} {c : TimelineCrdt} {att : List TaggedOperation}, Trace c att →
      ∃ att', Trace (c.deliver l) (att ++ att') ∧ (∀ b ∈ att', b ∈ c.pending ++ l) ∧
        (∀ b ∈ (c.deliver l).operationLog, b ∈ c.operationLog ++ l) ∧
        ∀ b, b ∈ l ∨ b.opId ∈ c.seen → b.opId ∈ (c.deliver l).seen
  | [], c, att, h => ⟨[], by simpa [TimelineCrdt.deliver] using h, by simp,
      by simp [TimelineCrdt.deliver], by simp [TimelineCrdt.deliver]⟩
  | o :: l, c, att, h => by
    by_cases ho : o.opId ∈ c.seen
    · obtain ⟨att', h1, h2, h3, h4⟩ := deliver (l := l) h
      have heq : c.deliver (o :: l) = c.deliver l := by
        simp only [TimelineCrdt.deliver, List.foldl_cons, applyRemote_of_mem ho]
      rw [heq]
      refine ⟨att', h1, fun b hb => ?_, fun b hb => ?_, fun b hb => ?_⟩
      · have := h2 b hb
        simp only [List.mem_append, List.mem_cons] at this ⊢
        tauto
      · have := h3 b hb
        simp only [List.mem_append, List.mem_cons] at this ⊢
        tauto
      · rcases hb with hb | hb
        · rcases List.mem_cons.mp hb with rfl | hb
          · exact h4 b (Or.inr ho)
          · exact h4 b (Or.inl hb)
        · exact h4 b (Or.inr hb)
    · obtain ⟨att₁, t1, hatt₁, hlog⟩ := h.applyRemote ho
      obtain ⟨att₂, h1, h2, h3, h4⟩ := deliver (l := l) t1
      have heq : c.deliver (o :: l) = (c.applyRemote o).deliver l := rfl
      have hpend : ∀ b ∈ (c.applyRemote o).pending, b ∈ c.pending ++ [o] := by
        obtain ⟨a', p, e, he, -, hperm, -⟩ := applyRemote_eq ho
        rw [he]
        exact fun b hb => hperm.mem_iff.mp (List.mem_append_right _ hb)
      rw [heq]
      refine ⟨o :: att₁ ++ att₂, by rwa [← List.append_assoc], fun b hb => ?_, fun b hb => ?_,
        fun b hb => ?_⟩
      · simp only [List.mem_append, List.mem_cons, List.cons_append] at hb h2 hpend hatt₁ ⊢
        rcases hb with rfl | hb | hb
        · tauto
        · have := hatt₁ b hb
          tauto
        · have h5 := h2 b hb
          have h6 := hpend b
          tauto
      · have := h3 b hb
        simp only [hlog, List.mem_append, List.mem_cons] at this ⊢
        tauto
      · refine h4 b ?_
        rw [t1.mem_seen, hlog]
        rcases hb with hb | hb
        · rcases List.mem_cons.mp hb with rfl | hb
          · exact Or.inr ⟨b, by simp, rfl⟩
          · exact Or.inl hb
        · obtain ⟨a, ha, hab⟩ := (h.mem_seen _).mp hb
          exact Or.inr ⟨a, List.mem_append_left _ ha, hab⟩

end Trace

end TimelineCrdt

namespace OpSet

open TimelineCrdt

variable {D : OpSet} {l : List TaggedOperation} {o o' : TaggedOperation}

theorem eq_of_opId (ho : o ∈ D.ops) (ho' : o' ∈ D.ops) (h : o.opId = o'.opId) : o = o' :=
  List.inj_on_of_nodup_map D.distinct ho ho' h

theorem Stamped.tag_ne (hD : D.Stamped) (ho : o ∈ D.ops) (ho' : o' ∈ D.ops) (h : o ≠ o') :
    o.tag ≠ o'.tag := by
  intro ht
  refine h (eq_of_opId ho ho' ?_)
  simp only [TaggedOperation.tag, OpTag.mk.injEq] at ht
  rw [hD o ho, hD o' ho', ht.1, ht.2]

theorem nodup (D : OpSet) : D.ops.Nodup := D.distinct.of_map

/-- What a delivery to a fresh timeline comes down to. -/
theorem Delivers.trace (h : D.Delivers l) (peer : PeerId) :
    ∃ att, Trace (replica peer l) att ∧ (∀ o ∈ att, o ∈ D.ops) ∧
      (replica peer l).operationLog.Perm D.ops := by
  obtain ⟨att, h1, h2, h3, h4⟩ := (Trace.new peer).deliver (l := l)
  rw [List.nil_append] at h1
  refine ⟨att, h1, fun o ho => (h o).mp (by simpa [TimelineCrdt.new] using h2 o ho), ?_⟩
  have hmem : ∀ b ∈ (replica peer l).operationLog, b ∈ D.ops := fun b hb =>
    (h b).mp (by simpa [TimelineCrdt.new] using h3 b hb)
  refine (List.perm_ext_iff_of_nodup h1.nodup.of_map D.nodup).mpr fun b => ⟨hmem b, fun hb => ?_⟩
  obtain ⟨a, ha, hab⟩ := (h1.mem_seen _).mp (h4 b (Or.inl ((h b).mpr hb)))
  exact eq_of_opId (hmem a ha) hb hab ▸ ha

end OpSet

end AvSync
