import AvSync.Proofs.Contests

/-!
# When replicas agree on who owns what

Replicas of a set with shared children agree for every two deliveries exactly when the set settles
the liveness of each child and each split point (`SharedIds.agreed_iff`). The other way round two
deliveries disagree: one brings the splits of the owners first, the other those that lose.
-/

namespace AvSync

namespace OpSet

open TimelineCrdt Session

variable {D : OpSet} {s : Session} {c : TimelineCrdt} {att l m : List TaggedOperation}
  {o b d w : TaggedOperation} {k k' j : Claim} {n x : ClipId} {P : Claim → ClipId → Prop}

/-! ## Returning -/

theorem Board.parentOf_eq_none (H : D.SharedIds) (h : Board D s) (hk : D.Claims k n) :
    s.parentOf k.clip = none := by
  obtain ⟨r, a, p, hins⟩ := H.parent_inserted hk
  rcases hc : s.clips[k.clip]? with _ | e
  · rw [parentOf, hc]
    rfl
  · have hclaim : e.originClaim = none := Option.eq_none_iff_forall_ne_some.mpr fun k' hk' =>
      H.child_not_inserted (h.claims k.clip k' (by rw [claimOf, hc, Option.bind_some, hk'])) hins
    have hparent := h.linked k.clip e hc
    rw [ClipCrdt.ClaimLinked, hclaim, Option.map_none] at hparent
    rw [parentOf, hc, Option.bind_some, hparent, Option.map_none]

theorem Board.keepsForest (H : D.SharedIds) (h : Board D s) (ho : o ∈ D.ops) :
    s.KeepsForest o := by
  intro p f n hop _ hd
  have hk : D.Claims ⟨p, f⟩ n := ⟨o, ho, hop⟩
  obtain ⟨i, hi⟩ := hd
  rcases i with _ | i
  · exact H.ne hk (Option.some.inj hi)
  · rw [ParentLinks.walk_succ, h.parentOf_eq_none H hk] at hi
    cases hi

theorem Fed.forest (H : D.SharedIds) (F : Fed D c att) : c.session.Forest := by
  rw [F.trace.session_eq]
  exact (Machine.run_inv (M := machine) (I := fun s : Session => Board D s ∧ s.Forest)
    (fun s o ho h => ⟨h.1.exec H (F.att_mem o ho),
      (forest_exec_iff h.2).mpr (h.1.keepsForest H (F.att_mem o ho))⟩) ⟨.new D, forest_new⟩).2

/-! ## Delivering in steps -/

theorem Fed.new (D : OpSet) (p : PeerId) : Fed D (.new p) [] :=
  ⟨.new p, fun _ h => absurd h List.not_mem_nil, fun _ h => absurd h List.not_mem_nil⟩

theorem Fed.deliver (F : Fed D c att) (hl : ∀ o ∈ l, o ∈ D.ops) :
    ∃ att', Fed D (c.deliver l) (att ++ att') ∧ (∀ b ∈ att', b ∈ c.pending ++ l) ∧
      (∀ o ∈ (c.deliver l).operationLog, o ∈ c.operationLog ++ l) ∧
      ∀ o ∈ c.operationLog ++ l, o ∈ (c.deliver l).operationLog := by
  obtain ⟨att', htrace, hatt, hlog, hseen⟩ := F.trace.deliver (l := l)
  have hlogD : ∀ o ∈ (c.deliver l).operationLog, o ∈ D.ops := fun o ho =>
    (List.mem_append.mp (hlog o ho)).elim (F.log_mem o) (hl o)
  refine ⟨att', ⟨htrace, fun o ho => ?_, hlogD⟩, hatt, hlog, fun o ho => ?_⟩
  · rcases List.mem_append.mp ho with ho | ho
    · exact F.att_mem o ho
    · rcases List.mem_append.mp (hatt o ho) with ho | ho
      · exact F.log_mem o (F.trace.mem_log_pending ho)
      · exact hl o ho
  · have hin : o ∈ l ∨ o.opId ∈ c.seen := by
      rcases List.mem_append.mp ho with ho | ho
      · exact Or.inr ((F.trace.mem_seen _).mpr ⟨o, ho, rfl⟩)
      · exact Or.inl ho
    have hoD : o ∈ D.ops := (List.mem_append.mp ho).elim (F.log_mem o) (hl o)
    obtain ⟨b, hb, hbo⟩ := (htrace.mem_seen _).mp (hseen o hin)
    exact eq_of_opId (hlogD b hb) hoD hbo ▸ hb

/-- What every attempt of a delivery keeps. -/
theorem Fed.deliver_inv (H : D.SharedIds) (F : Fed D c att) (hl : ∀ o ∈ l, o ∈ D.ops)
    {I : Session → Prop}
    (hI : ∀ s, ∀ b ∈ c.pending ++ l, b ∈ D.ops → Board D s → I s → I (s.exec b))
    (hs : I c.session) : I (c.deliver l).session := by
  obtain ⟨att', F', hatt, -⟩ := F.deliver hl
  have hD : ∀ b ∈ att', b ∈ D.ops := fun b hb => F'.att_mem b (List.mem_append_right _ hb)
  rw [F'.trace.session_eq, replay_append, ← F.trace.session_eq]
  exact (Machine.run_inv (M := machine) (I := fun s : Session => Board D s ∧ I s)
    (fun s b hb h => ⟨h.1.exec H (hD b hb), hI s b (hatt b hb) (hD b hb) h.1 h.2⟩)
    ⟨F.board H, hs⟩).2

theorem Delivers.fed (hl : D.Delivers l) (p : PeerId) :
    ∃ att, Fed D (replica p l) att ∧ ∀ o ∈ D.ops, o ∈ (replica p l).operationLog := by
  obtain ⟨att, F, -, -, hlog⟩ := (Fed.new D p).deliver (l := l) fun o ho => (hl o).mp ho
  exact ⟨att, F, fun o ho => hlog o (List.mem_append_right _ ((hl o).mpr ho))⟩

/-- The parents are there, and only inserts and splits have been taken in. -/
structure Opened (D : OpSet) (c : TimelineCrdt) : Prop where
  parents : ∀ k n, D.Claims k n → k.clip ∈ c.session.clips
  log : ∀ o ∈ c.operationLog, o.operation.IsSplit ∨ o.operation.requiredTargets = []

theorem Opened.pending (F : Fed D c att) (h : Opened D c) : c.pending = [] := by
  refine List.eq_nil_iff_forall_not_mem.mpr fun o ho => (F.trace.missing o ho).1 fun r hr => ?_
  have hlog := F.trace.mem_log_pending ho
  rcases h.log o hlog with hsplit | hnil
  · obtain ⟨k, n, hop⟩ := TimelineOperation.isSplit_iff_claim.mp hsplit
    rw [hop] at hr
    exact List.mem_singleton.mp hr ▸ h.parents k n ⟨o, F.log_mem o hlog, hop⟩
  · rw [hnil] at hr
    exact absurd hr List.not_mem_nil

/-- First come the operations that need nothing. -/
theorem exists_opened (H : D.SharedIds) (p : PeerId) :
    ∃ att, Fed D (replica p (D.ops.filter untargeted)) att ∧
      Opened D (replica p (D.ops.filter untargeted)) ∧
      ∀ k n, D.Claims k n → n ∉ (replica p (D.ops.filter untargeted)).session.clips := by
  have hl : ∀ o ∈ D.ops.filter untargeted, o ∈ D.ops := fun o ho => List.mem_of_mem_filter ho
  obtain ⟨att, F, -, hlog, hin⟩ := (Fed.new D p).deliver hl
  have hfree : ∀ o ∈ (replica p (D.ops.filter untargeted)).operationLog,
      o.operation.requiredTargets = [] := fun o ho => by
    have hu := (List.mem_filter.mp (hlog o ho)).2
    rwa [untargeted, List.isEmpty_iff] at hu
  refine ⟨att, F, ⟨fun k n hk => ?_, fun o ho => Or.inr (hfree o ho)⟩, fun k n hk => ?_⟩
  · obtain ⟨r, a, q, o, ho, hop⟩ := H.parent_inserted hk
    refine F.mem_of_insert (hin o (List.mem_filter.mpr ⟨ho, ?_⟩)) hop
    rw [untargeted, hop]
    rfl
  · refine (Fed.new D p).deliver_inv H hl (I := fun s => n ∉ s.clips) (fun s b hb hbD _ hn => ?_) ?_
    · have hu := (List.mem_filter.mp hb).2
      rw [mem_exec, not_or]
      refine ⟨hn, fun hcr => ?_⟩
      rcases hop : b.operation with y | _ | _ | _ | _ | _ | _ | _ | _ | _ | _ <;>
        rw [hop] at hcr <;> try exact hcr
      case insertClip =>
        obtain rfl : y = n := hcr
        exact H.child_not_inserted hk ⟨b, hbD, hop⟩
      case splitClip =>
        rw [untargeted, hop] at hu
        cases hu
    · simp [TimelineCrdt.new, Session.new]

namespace Opened

variable (H : D.SharedIds) (F : Fed D c att) (h : Opened D c) (hl : ∀ o ∈ l, o ∈ D.ops)

include H F h hl

/-- What every attempt keeps, where the parents are there. -/
theorem deliver_inv {I : Session → Prop}
    (hI : ∀ s, ∀ b ∈ l, Board D s → (∀ k n, D.Claims k n → k.clip ∈ s.clips) → I s →
      I (s.exec b)) (hs : I c.session) : I (c.deliver l).session := by
  refine (F.deliver_inv H hl (I := fun s => (∀ k n, D.Claims k n → k.clip ∈ s.clips) ∧ I s)
    (fun s b hb hbD hB hi => ⟨fun k n hk => mem_exec.mpr (Or.inl (hi.1 k n hk)), ?_⟩)
    ⟨h.parents, hs⟩).2
  rw [h.pending F, List.nil_append] at hb
  exact hI s b hb hB hi.1 hi.2

theorem deliver (hsplit : ∀ o ∈ l, o.operation.IsSplit) :
    ∃ att', Fed D (c.deliver l) att' ∧ Opened D (c.deliver l) ∧
      ∀ o ∈ l, o ∈ (c.deliver l).operationLog := by
  obtain ⟨att', F', -, hlog, hin⟩ := F.deliver hl
  refine ⟨_, F', ⟨?_, fun o ho => ?_⟩, fun o ho => hin o (List.mem_append_right _ ho)⟩
  · exact h.deliver_inv H F hl (I := fun s => ∀ k n, D.Claims k n → k.clip ∈ s.clips)
      (fun s b _ _ _ hi k n hk => mem_exec.mpr (Or.inl (hi k n hk))) h.parents
  · rcases List.mem_append.mp (hlog o ho) with ho | ho
    · exact h.log o ho
    · exact Or.inl (hsplit o ho)

end Opened

/-! ## The liveness of a child -/

theorem replica_append (p : PeerId) (l m : List TaggedOperation) :
    replica p (l ++ m) = (replica p l).deliver m := List.foldl_append

theorem delivers_append (hl : ∀ o ∈ l, o ∈ D.ops) : D.Delivers (l ++ D.ops) := fun o => by
  rw [List.mem_append]
  exact ⟨fun h => h.elim (hl o) id, Or.inr⟩

/-- The owner's splits and the deletes decide the liveness of `n`. -/
def Decided (D : OpSet) (k : Claim) (n : ClipId) (s : Session) : Prop :=
  s.claimOf n = some k ∧ ∃ a, s.aliveOf n = some a ∧ ∃ o ∈ D.ops, o.tag = a.tag ∧
    (a.value = true ∧ o.operation = .splitClip k.clip k.offset n ∨
      a.value = false ∧ o.operation = .deleteClip n)

theorem exists_aliveOf (hx : x ∈ s.clips) : ∃ a, s.aliveOf x = some a := by
  obtain ⟨c, hc⟩ := BTreeMap.mem_iff.mp hx
  exact ⟨c.alive, congrArg (Option.map _) hc⟩

/-- A split that loses does nothing. -/
theorem exec_of_lost (hop : o.operation = .splitClip k.clip k.offset n) (hkn : k.clip ≠ n)
    (hk : s.claimOf n = some k') (hlt : k' < k) : s.exec o = s := by
  obtain ⟨child, hn, hc⟩ := Option.bind_eq_some_iff.mp hk
  rw [exec, hop]
  exact congrArg Prod.snd (applySplit_of_lost hkn hn hc hlt)

theorem Decided.exec (H : D.SharedIds) (hown : D.Owns k n) (hB : Board D s) (hb : b ∈ D.ops)
    (h : Decided D k n s) : Decided D k n (s.exec b) := by
  obtain ⟨hk, a, ha, hdec⟩ := h
  have hclaim : (s.exec b).claimOf n = some k := by
    obtain ⟨k', hle, hk'⟩ := hB.claimOf_mono H hb hk
    rw [hk', le_antisymm hle (hown.le_owner (hB.exec H hb) hk')]
  obtain ⟨a', ha', -⟩ := aliveOf_mono (o := b) ha
  refine ⟨hclaim, a', ha', ?_⟩
  rcases aliveOf_of_exec ha' with hold | ⟨hv, ht⟩
  · obtain rfl := Option.some.inj (ha.symm.trans hold)
    exact hdec
  · rcases TimelineOperation.liveness_cases hv with ⟨r, e, p, hop, -⟩ | ⟨p, f, hop, hv⟩ | ⟨hop, hv⟩
    · exact absurd ⟨b, hb, hop⟩ (H.child_not_inserted hown.1)
    · rcases (hown.2 ⟨p, f⟩ ⟨b, hb, hop⟩).eq_or_lt with rfl | hlt
      · exact ⟨b, hb, ht, Or.inl ⟨hv, hop⟩⟩
      · rw [exec_of_lost (k := ⟨p, f⟩) hop (H.ne ⟨b, hb, hop⟩) hk hlt] at ha'
        obtain rfl := Option.some.inj (ha.symm.trans ha')
        exact hdec
    · exact ⟨b, hb, ht, Or.inr ⟨hv, hop⟩⟩

/-- The owner's split comes first, and a delete is newer. -/
theorem exists_dead (H : D.SharedIds) (hown : D.Owns k n) (hd : d ∈ D.ops)
    (hdel : d.operation = .deleteClip n)
    (hold : ∀ o ∈ D.ops, o.operation = .splitClip k.clip k.offset n → o.tag < d.tag) (p : PeerId) :
    ∃ l, D.Delivers l ∧ ∃ a, (replica p l).session.aliveOf n = some a ∧ a.value = false := by
  obtain ⟨w, hw, hop⟩ := hown.1
  obtain ⟨att, F, hopen, hfresh⟩ := exists_opened H p
  have hwD : ∀ o ∈ [w], o ∈ D.ops := fun o ho => List.mem_singleton.mp ho ▸ hw
  obtain ⟨att', F', hopen', hin⟩ := hopen.deliver H F hwD fun o ho => by
    rw [List.mem_singleton.mp ho, hop]
    trivial
  -- the child is created by the owner's split
  have hdec : n ∈ ((replica p (D.ops.filter untargeted)).deliver [w]).session.clips →
      Decided D k n ((replica p (D.ops.filter untargeted)).deliver [w]).session := by
    refine hopen.deliver_inv H F hwD (I := fun s => n ∈ s.clips → Decided D k n s)
      (fun s b hb hB _ hi hn => ?_) fun hn => absurd hn (hfresh k n hown.1)
    obtain rfl := List.mem_singleton.mp hb
    by_cases hs : n ∈ s.clips
    · exact (hi hs).exec H hown hB hw
    · have hB' := hB.exec H hw
      obtain ⟨k', hk'⟩ := Option.ne_none_iff_exists'.mp (hB'.owned k n hown.1 hn)
      obtain ⟨a, ha⟩ := exists_aliveOf hn
      have hgone : s.clips[n]? = none := BTreeMap.not_mem_iff.mp hs
      refine ⟨?_, a, ha, b, hw, ?_⟩
      · rcases hB.claimOf_exec H hw hk' with hold | hop'
        · rw [claimOf, hgone] at hold
          cases hold
        · rw [hk', (TimelineOperation.claim_eq (hop.symm.trans hop')).1]
      · rcases aliveOf_of_exec ha with hold | ⟨hv, ht⟩
        · rw [aliveOf, hgone] at hold
          cases hold
        · rw [hop] at hv
          exact ⟨ht, Or.inl ⟨(Option.some.inj ((if_pos rfl).symm.trans hv)).symm, hop⟩⟩
  have hn := F'.mem_of_split H (hin w List.mem_cons_self) hop (hopen'.parents k n hown.1)
  have hpre : ∀ o ∈ D.ops.filter untargeted ++ [w], o ∈ D.ops := fun o ho =>
    (List.mem_append.mp ho).elim List.mem_of_mem_filter (hwD o)
  have hdeliv := delivers_append hpre
  obtain ⟨att₁, F₁, full⟩ := hdeliv.fed p
  have hend : Decided D k n (replica p (D.ops.filter untargeted ++ [w] ++ D.ops)).session := by
    rw [replica_append, replica_append]
    exact F'.deliver_inv H (fun _ ho => ho) (fun s b _ hb hB hi => hi.exec H hown hB hb) (hdec hn)
  obtain ⟨-, a, ha, o, ho, ht, ⟨-, hop'⟩ | ⟨hv, -⟩⟩ := hend
  · have htarget : (replica p (D.ops.filter untargeted ++ [w] ++ D.ops)).session.HasTargets
        d.operation := fun r hr => by
      obtain ⟨child, hchild, -⟩ := Option.map_eq_some_iff.mp ha
      rw [hdel] at hr
      exact List.mem_singleton.mp hr ▸ BTreeMap.mem_iff.mpr ⟨child, hchild⟩
    obtain ⟨a', ha', hle⟩ := F₁.aliveOf_ge H (full d hd) htarget (v := false) (x := n)
      (by rw [hdel]; exact if_pos rfl) fun k' h => by cases hdel.symm.trans h
    obtain rfl := Option.some.inj (ha.symm.trans ha')
    exact absurd (ht ▸ hold o ho hop') hle.not_gt
  · exact ⟨_, hdeliv, a, ha, hv⟩

/-- A split that is newer than the deletes comes first. -/
theorem exists_alive (H : D.SharedIds) (hw : w ∈ D.ops)
    (hop : w.operation = .splitClip k.clip k.offset n)
    (hnew : ∀ d ∈ D.ops, d.operation = .deleteClip n → d.tag < w.tag) (p : PeerId) :
    ∃ l, D.Delivers l ∧ ∃ a, (replica p l).session.aliveOf n = some a ∧ a.value = true := by
  have hk : D.Claims k n := ⟨w, hw, hop⟩
  obtain ⟨att, F, hopen, hfresh⟩ := exists_opened H p
  have hwD : ∀ o ∈ [w], o ∈ D.ops := fun o ho => List.mem_singleton.mp ho ▸ hw
  obtain ⟨att', F', hopen', hin⟩ := hopen.deliver H F hwD fun o ho => by
    rw [List.mem_singleton.mp ho, hop]
    trivial
  have hnewer : ∀ {s : Session} {b : TaggedOperation}, (∃ a, s.aliveOf n = some a ∧ w.tag ≤ a.tag) →
      ∃ a, (s.exec b).aliveOf n = some a ∧ w.tag ≤ a.tag := by
    rintro s b ⟨a, ha, hle⟩
    obtain ⟨a', ha', hle'⟩ := aliveOf_mono (o := b) ha
    exact ⟨a', ha', hle.trans hle'⟩
  -- the child is created by the newer split
  have hcreate : n ∈ ((replica p (D.ops.filter untargeted)).deliver [w]).session.clips →
      ∃ a, ((replica p (D.ops.filter untargeted)).deliver [w]).session.aliveOf n = some a ∧
        w.tag ≤ a.tag := by
    refine hopen.deliver_inv H F hwD
      (I := fun s => n ∈ s.clips → ∃ a, s.aliveOf n = some a ∧ w.tag ≤ a.tag)
      (fun s b hb hB _ hi hn => ?_) fun hn => absurd hn (hfresh k n hk)
    obtain rfl := List.mem_singleton.mp hb
    by_cases hs : n ∈ s.clips
    · exact hnewer (hi hs)
    · obtain ⟨a, ha⟩ := exists_aliveOf hn
      rcases aliveOf_of_exec ha with hold | ⟨-, ht⟩
      · rw [aliveOf, BTreeMap.not_mem_iff.mp hs] at hold
        cases hold
      · exact ⟨a, ha, ht.le⟩
  have hn := F'.mem_of_split H (hin w List.mem_cons_self) hop (hopen'.parents k n hk)
  have hpre : ∀ o ∈ D.ops.filter untargeted ++ [w], o ∈ D.ops := fun o ho =>
    (List.mem_append.mp ho).elim List.mem_of_mem_filter (hwD o)
  have hdeliv := delivers_append hpre
  obtain ⟨att₁, F₁, -⟩ := hdeliv.fed p
  have hend : ∃ a, (replica p (D.ops.filter untargeted ++ [w] ++ D.ops)).session.aliveOf n =
      some a ∧ w.tag ≤ a.tag := by
    rw [replica_append, replica_append]
    exact F'.deliver_inv H (fun _ ho => ho)
      (I := fun s => ∃ a, s.aliveOf n = some a ∧ w.tag ≤ a.tag) (fun s b _ _ _ hi => hnewer hi)
      (hcreate hn)
  obtain ⟨a, ha, hle⟩ := hend
  obtain ⟨o, ho, hv, ht⟩ := (F₁.board H).alive n a ha
  rcases TimelineOperation.liveness_cases hv with ⟨-, -, -, -, h⟩ | ⟨-, -, -, h⟩ | ⟨hop', -⟩
  · exact ⟨_, hdeliv, a, ha, h⟩
  · exact ⟨_, hdeliv, a, ha, h⟩
  · exact absurd (ht ▸ hnew o ho hop') hle.not_gt

theorem SharedIds.tag_lt (H : D.SharedIds) (ho : o ∈ D.ops) (hb : b ∈ D.ops)
    (hne : o.operation ≠ b.operation) (hle : o.tag ≤ b.tag) : o.tag < b.tag :=
  hle.lt_of_ne (H.stamped.tag_ne ho hb fun h => hne (congrArg _ h))

theorem Agrees.livenessSettled (H : D.SharedIds) (hD : D.Agrees) (n : ClipId) :
    D.LivenessSettled n := by
  by_contra hn
  have hdel : D.Has (.deleteClip n) := by
    by_contra h
    exact hn (.undeleted h)
  obtain ⟨d₀, hd₀⟩ := hdel
  obtain ⟨d, ⟨hd, hdel⟩, hmax⟩ := Set.exists_max_image
    {o | o ∈ D.ops ∧ o.operation = .deleteClip n} TaggedOperation.tag
    ((List.finite_toSet D.ops).subset fun o ho => ho.1) ⟨d₀, hd₀⟩
  have hsplit : ∃ w ∈ D.ops, ∃ k : Claim, w.operation = .splitClip k.clip k.offset n ∧
      d.tag ≤ w.tag := by
    by_contra h
    push Not at h
    exact hn (.deleted hd hdel h)
  obtain ⟨w, hw, k, hop, hle⟩ := hsplit
  have hlt : d.tag < w.tag := H.tag_lt hd hw (by rw [hdel, hop]; simp) hle
  obtain ⟨k₀, hk₀⟩ := Claims.exists_owner ⟨w, hw, hop⟩
  have hold : ∀ o ∈ D.ops, o.operation = .splitClip k₀.clip k₀.offset n → o.tag < d.tag := by
    intro o ho hop
    have hnew : ∃ e ∈ D.ops, e.operation = .deleteClip n ∧ o.tag ≤ e.tag := by
      by_contra h
      push Not at h
      exact hn (.owned ho hop hk₀ h)
    obtain ⟨e, he, hedel, hle⟩ := hnew
    exact (H.tag_lt ho he (by rw [hop, hedel]; simp) hle).trans_le (hmax e ⟨he, hedel⟩)
  obtain ⟨l, hl, a, ha, hdead⟩ := exists_dead H hk₀ hd hdel hold ⟨0⟩
  obtain ⟨m, hm, a', ha', halive⟩ := exists_alive H hw hop
    (fun e he hedel => (hmax e ⟨he, hedel⟩).trans_lt hlt) ⟨0⟩
  obtain ⟨c, hc, rfl⟩ := Option.map_eq_some_iff.mp ha
  obtain ⟨c', hc', rfl⟩ := Option.map_eq_some_iff.mp ha'
  have heq := (hD l m ⟨0⟩ ⟨0⟩ hl hm).alive n
  rw [hc, hc', Option.map_some, Option.map_some, hdead, halive] at heq
  cases heq

/-! ## The split points -/

theorem pointOf_exec_of_not_split (h : ¬o.operation.IsSplit) :
    (s.exec o).pointOf j = s.pointOf j :=
  congrFun (congrArg Auction.point (auction_exec_of_not_split h)) j

theorem pointOf_exec_split (H : D.SharedIds) (hB : Board D s) (ho : o ∈ D.ops)
    (hop : o.operation = .splitClip k.clip k.offset n) :
    (s.exec o).pointOf j = (s.auction.bid k n (decide (k.clip ∈ s.clips))).point j :=
  congrFun (congrArg Auction.point (hB.auction_exec H ho hop)) j

/-- The splits of a set whose claims meet `P`. -/
theorem exists_splits (D : OpSet) (P : Claim → ClipId → Prop) :
    ∃ L : List TaggedOperation, ∀ o, o ∈ L ↔ o ∈ D.ops ∧
      ∃ (k : Claim) (n : ClipId), o.operation = .splitClip k.clip k.offset n ∧ P k n := by
  classical
  refine ⟨D.ops.filter fun o => ∃ (k : Claim) (n : ClipId),
    o.operation = .splitClip k.clip k.offset n ∧ P k n, fun o => ?_⟩
  rw [List.mem_filter, decide_eq_true_iff]

theorem isSplit_of_claim (h : ∃ (k : Claim) (n : ClipId),
    o.operation = .splitClip k.clip k.offset n ∧ P k n) : o.operation.IsSplit :=
  TimelineOperation.isSplit_iff_claim.mpr (by
    obtain ⟨k, n, hop, -⟩ := h
    exact ⟨k, n, hop⟩)

/-- No item moves on where each child belongs to its owner. -/
theorem pointOf_exec_ne_none (H : D.SharedIds) (hB : Board D s) (ho : o ∈ D.ops)
    (hown : ∀ m k, s.claimOf m = some k → D.Owns k m) (hj : s.pointOf j ≠ none) :
    (s.exec o).pointOf j ≠ none := by
  by_cases hsplit : o.operation.IsSplit
  · obtain ⟨k, n, hop⟩ := TimelineOperation.isSplit_iff_claim.mp hsplit
    rw [pointOf_exec_split H hB ho hop]
    exact Auction.point_bid_ne_none hj fun k₀ hk₀ => (hown n k₀ hk₀).2 k ⟨o, ho, hop⟩
  · rwa [pointOf_exec_of_not_split hsplit]

/-- All owners come first: a place that owns a child displays one. -/
theorem exists_displayed (H : D.SharedIds) (hown : D.Owns j n) (p : PeerId) :
    ∃ l, D.Delivers l ∧ (replica p l).session.pointOf j ≠ none := by
  obtain ⟨att, F, hopen, hfresh⟩ := exists_opened H p
  obtain ⟨L, hL⟩ := D.exists_splits D.Owns
  have hLD : ∀ o ∈ L, o ∈ D.ops := fun o ho => ((hL o).mp ho).1
  obtain ⟨att', F', hopen', hin⟩ := hopen.deliver H F hLD fun o ho =>
    isSplit_of_claim ((hL o).mp ho).2
  have hfirst : (∀ m k, ((replica p (D.ops.filter untargeted)).deliver L).session.claimOf m =
        some k → D.Owns k m) ∧
      ∀ m, ((replica p (D.ops.filter untargeted)).deliver L).session.claimOf m = some j →
        ((replica p (D.ops.filter untargeted)).deliver L).session.pointOf j ≠ none := by
    have hnone : ∀ m k, (replica p (D.ops.filter untargeted)).session.claimOf m ≠ some k := by
      intro m k hk
      have hm := hfresh k m ((F.board H).claims m k hk)
      rw [claimOf, BTreeMap.not_mem_iff.mp hm] at hk
      cases hk
    refine hopen.deliver_inv H F hLD
      (I := fun s => (∀ m k, s.claimOf m = some k → D.Owns k m) ∧
        ∀ m, s.claimOf m = some j → s.pointOf j ≠ none)
      (fun s b hb hB hpar hi => ?_) ⟨fun m k hk => absurd hk (hnone m k), fun m hm =>
        absurd hm (hnone m j)⟩
    obtain ⟨hbD, k, m, hop, hkm⟩ := (hL b).mp hb
    refine ⟨fun m' k' hk' => ?_, fun m' hm' => ?_⟩
    · rcases hB.claimOf_exec H hbD hk' with hold | hop'
      · exact hi.1 m' k' hold
      · obtain ⟨rfl, rfl⟩ := TimelineOperation.claim_eq (hop.symm.trans hop')
        exact hkm
    · rcases hB.claimOf_exec H hbD hm' with hold | hop'
      · exact pointOf_exec_ne_none H hB hbD hi.1 (hi.2 m' hold)
      · obtain ⟨rfl, rfl⟩ := TimelineOperation.claim_eq (hop.symm.trans hop')
        rw [pointOf_exec_split H hB hbD hop, decide_eq_true (hpar k m hkm.1)]
        exact Auction.point_bid_ne_none_of_wins fun k₀ hk₀ => hkm.2 k₀ (hB.claims m k₀ hk₀)
  have hclaim : ∀ m k, D.Owns k m →
      ((replica p (D.ops.filter untargeted)).deliver L).session.claimOf m = some k := by
    intro m k hk
    obtain ⟨o, ho, hop⟩ := hk.1
    obtain ⟨k', hle, hk'⟩ := F'.claimOf_le H (hin o ((hL o).mpr ⟨ho, k, m, hop, hk⟩)) hop
      (hopen'.parents k m hk.1)
    rw [hk', le_antisymm hle (hk.2 k' (hfirst.1 m k' hk').1)]
  have hpre : ∀ o ∈ D.ops.filter untargeted ++ L, o ∈ D.ops := fun o ho =>
    (List.mem_append.mp ho).elim List.mem_of_mem_filter (hLD o)
  refine ⟨_, delivers_append hpre, ?_⟩
  rw [replica_append, replica_append]
  refine (F'.deliver_inv H (fun _ ho => ho)
    (I := fun s => (∀ m k, D.Owns k m → s.claimOf m = some k) ∧ s.pointOf j ≠ none)
    (fun s b _ hb hB hi => ⟨fun m k hk => ?_, ?_⟩) ⟨hclaim, hfirst.2 n (hclaim n j hown)⟩).2
  · obtain ⟨k', hle, hk'⟩ := hB.claimOf_mono H hb (hi.1 m k hk)
    rw [hk', le_antisymm hle (hk.le_owner (hB.exec H hb) hk')]
  · refine pointOf_exec_ne_none H hB hb (fun m k hk => ?_) hi.2
    obtain ⟨k₀, hk₀⟩ := Claims.exists_owner (hB.claims m k hk)
    exact Option.some.inj ((hi.1 m k₀ hk₀).symm.trans hk) ▸ hk₀

namespace Opened

variable (H : D.SharedIds) (F : Fed D c att) (h : Opened D c)

include H F h

/-- With splits at `j` alone, `j` owns what they name and displays the smallest. -/
theorem displays_least (hl : ∀ o ∈ l, o ∈ D.ops ∧ ∃ m, o.operation = .splitClip j.clip j.offset m)
    (hnone : ∀ m k', c.session.claimOf m ≠ some k') (hmin : ∀ m, D.Claims j m → n ≤ m) :
    (∀ m k', (c.deliver l).session.claimOf m = some k' → k' = j) ∧
      ((c.deliver l).session.claimOf n = some j → (c.deliver l).session.pointOf j = some n) := by
  refine h.deliver_inv H F (fun o ho => (hl o ho).1)
    (I := fun s => (∀ m k', s.claimOf m = some k' → k' = j) ∧
      (s.claimOf n = some j → s.pointOf j = some n))
    (fun s b hb hB hpar hi => ?_) ⟨fun m k' hk' => absurd hk' (hnone m k'), fun hn =>
      absurd hn (hnone n j)⟩
  obtain ⟨hbD, m, hop⟩ := hl b hb
  have hm : D.Claims j m := ⟨b, hbD, hop⟩
  refine ⟨fun m' k₁ hk₁ => ?_, fun hn => ?_⟩
  · rcases hB.claimOf_exec H hbD hk₁ with hold | hop₁
    · exact hi.1 m' k₁ hold
    · exact (TimelineOperation.claim_eq (hop₁.symm.trans hop)).1
  · rw [pointOf_exec_split H hB hbD hop, decide_eq_true (hpar j m hm)]
    rcases hB.claimOf_exec H hbD hn with hold | hop₁
    · exact Auction.point_bid_of_le (hi.2 hold) (fun _ => le_rfl) fun _ => hmin m hm
    · obtain ⟨-, rfl⟩ := TimelineOperation.claim_eq (hop₁.symm.trans hop)
      exact Auction.point_bid_self (fun k₀ hk₀ => (hi.1 n k₀ hk₀).ge) fun m' hm' =>
        hmin m' (hB.claims m' j (hB.sound j m' hm'))

/-- A smaller claim takes the child on display away. -/
theorem takes_display (hw : w ∈ D.ops) (hop : w.operation = .splitClip k.clip k.offset n)
    (hkj : k < j) (hclaim : c.session.claimOf n = some j) (hpoint : c.session.pointOf j = some n) :
    (c.deliver [w]).session.pointOf j = none := by
  have hwD : ∀ o ∈ [w], o ∈ D.ops := fun o ho => List.mem_singleton.mp ho ▸ hw
  obtain ⟨att', F', h', hin⟩ := h.deliver H F hwD fun o ho => by
    rw [List.mem_singleton.mp ho, hop]
    trivial
  have hstep : (c.deliver [w]).session.pointOf j = none ∨
      (c.deliver [w]).session.claimOf n = some j ∧
        (c.deliver [w]).session.pointOf j = some n := by
    refine h.deliver_inv H F hwD
      (I := fun s => s.pointOf j = none ∨ s.claimOf n = some j ∧ s.pointOf j = some n)
      (fun s b hb hB hpar hi => ?_) (Or.inr ⟨hclaim, hpoint⟩)
    obtain rfl := List.mem_singleton.mp hb
    left
    rw [pointOf_exec_split H hB hw hop]
    rcases hi with hi | ⟨hn, hi⟩
    · exact Auction.point_bid_of_none hi hkj.ne
    · exact Auction.point_bid_of_takes ⟨hn, hkj, hi⟩
  rcases hstep with hgone | ⟨hn, -⟩
  · exact hgone
  · obtain ⟨k', hle, hk'⟩ := F'.claimOf_le H (hin w List.mem_cons_self) hop
      (h'.parents k n ⟨w, hw, hop⟩)
    exact absurd (Option.some.inj (hn.symm.trans hk') ▸ hle) hkj.not_ge

/-- Only splits at a place bring something back on display there. -/
theorem stays_empty (hl : ∀ o ∈ l, o ∈ D.ops ∧ ∀ m, o.operation ≠ .splitClip j.clip j.offset m)
    (hgone : c.session.pointOf j = none) : (c.deliver l).session.pointOf j = none := by
  refine h.deliver_inv H F (fun o ho => (hl o ho).1) (I := fun s => s.pointOf j = none)
    (fun s b hb hB _ hi => ?_) hgone
  obtain ⟨hbD, hnot⟩ := hl b hb
  by_cases hsplit : b.operation.IsSplit
  · obtain ⟨k', m, hop⟩ := TimelineOperation.isSplit_iff_claim.mp hsplit
    rw [pointOf_exec_split H hB hbD hop]
    exact Auction.point_bid_of_none hi fun hk => hnot m (hk ▸ hop)
  · rwa [pointOf_exec_of_not_split hsplit]

end Opened

/-- The splits at a place come first, and then its smallest child goes to its owner: nothing is
left on display there. -/
theorem exists_hidden (H : D.SharedIds) (hj : D.Claims j n) (hmin : ∀ m, D.Claims j m → n ≤ m)
    (hown : D.Owns k n) (hkj : k < j) (p : PeerId) :
    ∃ l, D.Delivers l ∧ (replica p l).session.pointOf j = none := by
  classical
  obtain ⟨w, hw, hop⟩ := hown.1
  obtain ⟨att, F, hopen, hfresh⟩ := exists_opened H p
  obtain ⟨L, hL⟩ := D.exists_splits fun k' _ => k' = j
  have hLj : ∀ o ∈ L, o ∈ D.ops ∧ ∃ m, o.operation = .splitClip j.clip j.offset m := fun o ho => by
    obtain ⟨hoD, k', m, hop', rfl⟩ := (hL o).mp ho
    exact ⟨hoD, m, hop'⟩
  have hwD : ∀ o ∈ [w], o ∈ D.ops := fun o ho => List.mem_singleton.mp ho ▸ hw
  obtain ⟨att₁, F₁, hopen₁, hin₁⟩ := hopen.deliver H F (fun o ho => (hLj o ho).1) fun o ho =>
    isSplit_of_claim ((hL o).mp ho).2
  obtain ⟨att₂, F₂, hopen₂, -⟩ := hopen₁.deliver H F₁ hwD fun o ho => by
    rw [List.mem_singleton.mp ho, hop]
    trivial
  have hnone : ∀ m k', (replica p (D.ops.filter untargeted)).session.claimOf m ≠ some k' := by
    intro m k' hk'
    have hm := hfresh k' m ((F.board H).claims m k' hk')
    rw [claimOf, BTreeMap.not_mem_iff.mp hm] at hk'
    cases hk'
  obtain ⟨hj', hshown⟩ := hopen.displays_least H F hLj hnone hmin
  have hclaim : ((replica p (D.ops.filter untargeted)).deliver L).session.claimOf n = some j := by
    obtain ⟨o, ho, hop'⟩ := hj
    obtain ⟨k', -, hk'⟩ := F₁.claimOf_le H (hin₁ o ((hL o).mpr ⟨ho, j, n, hop', rfl⟩)) hop'
      (hopen₁.parents j n ⟨o, ho, hop'⟩)
    rw [hk', hj' n k' hk']
  have hgone := hopen₁.takes_display H F₁ hw hop hkj hclaim (hshown hclaim)
  have hrest : ∀ o, o ∈ D.ops.filter (fun o => ∀ m, o.operation ≠ .splitClip j.clip j.offset m) ↔
      o ∈ D.ops ∧ ∀ m, o.operation ≠ .splitClip j.clip j.offset m := fun o => by
    rw [List.mem_filter, decide_eq_true_iff]
  refine ⟨D.ops.filter untargeted ++ L ++ [w] ++
    D.ops.filter fun o => ∀ m, o.operation ≠ .splitClip j.clip j.offset m, fun o => ?_, ?_⟩
  · simp only [List.mem_append, List.mem_singleton, hrest, hL]
    constructor
    · rintro (((ho | ho) | rfl) | ho)
      · exact List.mem_of_mem_filter ho
      · exact ho.1
      · exact hw
      · exact ho.1
    · intro ho
      by_cases hat : ∃ m, o.operation = .splitClip j.clip j.offset m
      · obtain ⟨m, hm⟩ := hat
        exact Or.inl (Or.inl (Or.inr ⟨ho, j, m, hm, rfl⟩))
      · exact Or.inr ⟨ho, not_exists.mp hat⟩
  · rw [replica_append, replica_append, replica_append]
    exact hopen₂.stays_empty H F₂ (fun o ho => (hrest o).mp ho) hgone

theorem Agrees.pointSettled (H : D.SharedIds) (hD : D.Agrees) (j : Claim) : D.PointSettled j := by
  intro l hl hlost n hn
  by_contra hnot
  push Not at hnot
  obtain ⟨m, hm, hmin⟩ := hl.exists_least
  have hmlost : ¬D.Owns j m := fun hown =>
    hlost ((hmin l hl).antisymm (hnot m hown) ▸ hown)
  obtain ⟨k, hk⟩ := hm.exists_owner
  have hkj : k < j := (hk.2 j hm).lt_of_ne fun h => hmlost (h ▸ hk)
  obtain ⟨l₁, hl₁, hshown⟩ := exists_displayed H hn ⟨0⟩
  obtain ⟨l₂, hl₂, hhidden⟩ := exists_hidden H hm hmin hk hkj ⟨0⟩
  obtain ⟨i, hi⟩ := Option.ne_none_iff_exists'.mp hshown
  obtain ⟨c, hc, hci⟩ := Option.bind_eq_some_iff.mp hi
  have heq := (hD l₁ l₂ ⟨0⟩ ⟨0⟩ hl₁ hl₂).splits j.clip
  rw [hc, Option.map_some, eq_comm, Option.map_eq_some_iff] at heq
  obtain ⟨c', hc', hsplits⟩ := heq
  rw [pointOf, hc', Option.bind_some, hsplits, hci] at hhidden
  cases hhidden

/-- Every two deliveries of a set with shared children agree exactly when the set settles the
liveness of each child and each split point. -/
theorem SharedIds.agrees_iff (H : D.SharedIds) :
    D.Agrees ↔ (∀ n, D.LivenessSettled n) ∧ ∀ k, D.PointSettled k := by
  constructor
  · exact fun hD => ⟨hD.livenessSettled H, hD.pointSettled H⟩
  · rintro ⟨hlive, hpoint⟩ l m p q hl hm
    obtain ⟨att, F, full⟩ := hl.fed p
    obtain ⟨att', F', full'⟩ := hm.fed q
    exact agreed_of_settled H F F' full full' hlive hpoint (F.forest H)

/-- Clip 8 takes the place of clip 9 at 10 frames into clip 2, and leaves it for clip 1: clip 2 is
cut off there only if clip 9 comes last. -/
example :
    let pre : List TaggedOperation := [.of 1 1 (.insertTrack ⟨1⟩ (.new "t") 0),
      .of 2 1 (.insertClip ⟨1⟩ ⟨1⟩ (.new "a" 0 100) 0),
      .of 3 1 (.insertClip ⟨2⟩ ⟨1⟩ (.new "b" 200 100) 0)]
    let a : TaggedOperation := .of 4 1 (.splitClip ⟨2⟩ 10 ⟨9⟩)
    let b : TaggedOperation := .of 5 1 (.splitClip ⟨2⟩ 10 ⟨8⟩)
    let c : TaggedOperation := .of 6 1 (.splitClip ⟨1⟩ 10 ⟨8⟩)
    (replica ⟨7⟩ (pre ++ [a, b, c])).view.map (·.clips) ≠
      (replica ⟨8⟩ (pre ++ [c, b, a])).view.map (·.clips) := by
  decide +kernel

/-! ## Two clips and a child -/

/-- Two clips, a split of one of them into clip 9, a delete of clip 9, and another such split. -/
def contest (k₁ k₂ : Claim) : OpSet where
  ops := [.of 1 1 (.insertTrack ⟨1⟩ (.new "t") 0),
    .of 2 1 (.insertClip ⟨1⟩ ⟨1⟩ (.new "a" 0 100) 0),
    .of 3 1 (.insertClip ⟨2⟩ ⟨1⟩ (.new "b" 200 100) 0),
    .of 4 1 (.splitClip k₁.clip k₁.offset ⟨9⟩), .of 5 1 (.deleteClip ⟨9⟩),
    .of 6 1 (.splitClip k₂.clip k₂.offset ⟨9⟩)]
  distinct := by
    simp only [TaggedOperation.of, List.map_cons, List.map_nil]
    decide

theorem contest_claims {k₁ k₂ : Claim} :
    (contest k₁ k₂).Claims k n ↔ (k = k₁ ∨ k = k₂) ∧ n = ⟨9⟩ := by
  rcases k with ⟨c, f⟩
  rcases k₁ with ⟨c₁, f₁⟩
  rcases k₂ with ⟨c₂, f₂⟩
  simp only [Claims, Has, contest, TaggedOperation.of, List.mem_cons, List.not_mem_nil, or_false,
    exists_eq_or_imp, exists_eq_left, reduceCtorEq, false_or, TimelineOperation.splitClip.injEq,
    Claim.mk.injEq, eq_comm (a := n), eq_comm (a := c), eq_comm (a := f)]
  rw [← and_assoc, ← and_assoc, ← or_and_right]

theorem contest_sharedIds {k₁ k₂ : Claim} (h₁ : k₁.clip = ⟨1⟩ ∨ k₁.clip = ⟨2⟩)
    (h₂ : k₂.clip = ⟨1⟩ ∨ k₂.clip = ⟨2⟩) : (contest k₁ k₂).SharedIds where
  stamped := by simp [Stamped, contest, TaggedOperation.of]
  parent_inserted := by
    intro k n hk
    have hclip : k.clip = ⟨1⟩ ∨ k.clip = ⟨2⟩ := by
      rcases (contest_claims.mp hk).1 with rfl | rfl
      · exact h₁
      · exact h₂
    rcases hclip with h | h <;> rw [h]
    · exact ⟨_, _, _, _, List.mem_cons_of_mem _ List.mem_cons_self, rfl⟩
    · exact ⟨_, _, _, _, List.mem_cons_of_mem _ (List.mem_cons_of_mem _ List.mem_cons_self), rfl⟩
  child_not_inserted := by
    intro k n r d p hk h
    obtain rfl := (contest_claims.mp hk).2
    simp [Has, contest, TaggedOperation.of] at h

/-- The owner's split is the newest of the three. -/
theorem reclaimed_agrees : (contest ⟨⟨2⟩, 20⟩ ⟨⟨1⟩, 10⟩).Agrees := by
  have hlt : (⟨⟨1⟩, 10⟩ : Claim) < ⟨⟨2⟩, 20⟩ := by decide
  have hown : (contest ⟨⟨2⟩, 20⟩ ⟨⟨1⟩, 10⟩).Owns ⟨⟨1⟩, 10⟩ ⟨9⟩ := by
    refine ⟨contest_claims.mpr ⟨Or.inr rfl, rfl⟩, fun k hk => ?_⟩
    rcases (contest_claims.mp hk).1 with rfl | rfl
    · exact hlt.le
    · exact le_rfl
  refine (contest_sharedIds (Or.inr rfl) (Or.inl rfl)).agrees_iff.mpr ⟨fun n => ?_, fun k => ?_⟩
  · by_cases hn : n = ⟨9⟩
    · subst hn
      refine .owned (k := ⟨⟨1⟩, 10⟩) (o := .of 6 1 (.splitClip ⟨1⟩ 10 ⟨9⟩)) ?_ rfl hown ?_
      · simp [contest]
      · intro d hd hdel
        simp only [contest, List.mem_cons, List.not_mem_nil, or_false] at hd
        rcases hd with rfl | rfl | rfl | rfl | rfl | rfl <;> cases hdel
        decide
    · refine .undeleted fun h => hn ?_
      simp only [Has, contest, TaggedOperation.of, List.mem_cons, List.not_mem_nil, or_false,
        exists_eq_or_imp, exists_eq_left, reduceCtorEq, false_or,
        TimelineOperation.deleteClip.injEq] at h
      exact h.symm
  · -- the place that loses its only child owns none
    intro l hl hlost n hn
    obtain ⟨hk, rfl⟩ := contest_claims.mp hl
    obtain ⟨-, rfl⟩ := contest_claims.mp hn.1
    exact absurd hn hlost

/-- Where the split that loses is the newest, clip 9 is dead if the owner's split comes first, and
alive if it comes last. -/
theorem contested_not_agreed : (contest ⟨⟨1⟩, 10⟩ ⟨⟨2⟩, 10⟩).SharedIds ∧
    ∃ l m, (contest ⟨⟨1⟩, 10⟩ ⟨⟨2⟩, 10⟩).Delivers l ∧ (contest ⟨⟨1⟩, 10⟩ ⟨⟨2⟩, 10⟩).Delivers m ∧
      (replica ⟨7⟩ l).view ≠ (replica ⟨8⟩ m).view := by
  refine ⟨contest_sharedIds (Or.inl rfl) (Or.inr rfl), _, _,
    delivers_append fun o ho => absurd ho List.not_mem_nil,
    delivers_append (l := (contest ⟨⟨1⟩, 10⟩ ⟨⟨2⟩, 10⟩).ops.take 3 ++
      (contest ⟨⟨1⟩, 10⟩ ⟨⟨2⟩, 10⟩).ops.drop 5) fun o ho => ?_, fun h => ?_⟩
  · exact (List.mem_append.mp ho).elim List.mem_of_mem_take List.mem_of_mem_drop
  · exact absurd (congrArg (Option.map (·.clips)) h) (by decide +kernel)

end OpSet

end AvSync
