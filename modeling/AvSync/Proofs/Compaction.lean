import AvSync.Compaction
import AvSync.Proofs.Alike
import AvSync.Proofs.Convergence
import AvSync.Proofs.Tags

/-!
# Compaction keeps the timeline

An operation that compaction drops owns no register at the end and creates no entity. A replay
may leave it to the end, and there it changes detached flags at most (`Session.replay_filter`).
-/

namespace AvSync

/-- The entity an insert brings in. -/
def TimelineOperation.inserted : TimelineOperation → Option RequiredTarget
  | insertClip x .. => some (.clip x)
  | insertTrack x .. => some (.track x)
  | _ => none

namespace TimelineCrdt

/-! ## What is kept -/

theorem mem_retainTag {byId keep : Finset OperationId} {t : OpTag} {i : OperationId} :
    i ∈ retainTag byId keep t ↔
      i ∈ keep ∨ t ≠ .initial ∧ i ∈ byId ∧ i = ⟨t.lamport, t.peer⟩ := by
  unfold retainTag
  by_cases ht : t = .initial
  · simp [ht]
  · simp only [ht, if_false, ne_eq, not_false_eq_true, true_and]
    split_ifs with hb
    · rw [Finset.mem_insert, or_comm]
      exact or_congr_right ⟨fun h => ⟨h ▸ hb, h⟩, fun h => h.2⟩
    · exact ⟨Or.inl, fun h => h.elim id fun h => absurd (h.2 ▸ h.1) hb⟩

theorem mem_foldl_retainTag {byId : Finset OperationId} {i : OperationId} :
    ∀ {tags : List OpTag} {keep : Finset OperationId}, i ∈ tags.foldl (retainTag byId) keep ↔
      i ∈ keep ∨ ∃ t ∈ tags, t ≠ .initial ∧ i ∈ byId ∧ i = ⟨t.lamport, t.peer⟩
  | [], keep => by simp
  | t :: tags, keep => by
    rw [List.foldl_cons, mem_foldl_retainTag]
    simp only [mem_retainTag, List.exists_mem_cons_iff, or_assoc]

/-- Whether the scan has met an insert of the entity. -/
def Met (seenClips : Finset ClipId) (seenTracks : Finset TrackId) : RequiredTarget → Prop
  | .clip x => x ∈ seenClips
  | .track x => x ∈ seenTracks

/-- One step of the scan: an insert is kept where its entity has not been met, and meets it. -/
theorem bootstrap_cons (o : TaggedOperation) (ops : List TaggedOperation) (sc : Finset ClipId)
    (st : Finset TrackId) (keep : Finset OperationId) : ∃ sc' st' keep',
      bootstrap (o :: ops) sc st keep = bootstrap ops sc' st' keep' ∧
      (∀ i, i ∈ keep' ↔ i ∈ keep ∨ o.opId = i ∧ ∃ r, o.operation.inserted = some r ∧ ¬Met sc st r) ∧
      ∀ r, Met sc' st' r ↔ Met sc st r ∨ o.operation.inserted = some r := by
  rcases hop : o.operation with x | _ | _ | _ | _ | _ | x | _ | _ | _ | _ <;>
    simp only [bootstrap, hop, TimelineOperation.inserted, Option.some.injEq, exists_eq_left',
      reduceCtorEq, false_and, exists_false, and_false, or_false]
  case insertClip =>
    by_cases hx : x ∈ sc
    · refine ⟨sc, st, keep, by simp [hx], fun i => by simp [Met, hx], fun r => ?_⟩
      exact (or_iff_left_of_imp fun h => h ▸ hx).symm
    · refine ⟨insert x sc, st, insert o.opId keep, by simp [hx], fun i => ?_, fun r => ?_⟩
      · simp [Met, hx, or_comm, eq_comm]
      · rcases r with y | y <;> simp [Met, or_comm, eq_comm]
  case insertTrack =>
    by_cases hx : x ∈ st
    · refine ⟨sc, st, keep, by simp [hx], fun i => by simp [Met, hx], fun r => ?_⟩
      exact (or_iff_left_of_imp fun h => h ▸ hx).symm
    · refine ⟨sc, insert x st, insert o.opId keep, by simp [hx], fun i => ?_, fun r => ?_⟩
      · simp [Met, hx, or_comm, eq_comm]
      · rcases r with y | y <;> simp [Met, or_comm, eq_comm]
  all_goals exact ⟨sc, st, keep, rfl, fun i => Iff.rfl, fun r => Iff.rfl⟩

/-- Whether an operation inserts the entity. -/
def inserts (r : RequiredTarget) (o : TaggedOperation) : Bool :=
  decide (o.operation.inserted = some r)

theorem inserts_iff {r : RequiredTarget} {o : TaggedOperation} :
    inserts r o = true ↔ o.operation.inserted = some r := decide_eq_true_iff

/-- The scan keeps the first insert of each entity not met before. -/
theorem mem_bootstrap {i : OperationId} :
    ∀ {ops : List TaggedOperation} {sc : Finset ClipId} {st : Finset TrackId}
      {keep : Finset OperationId}, i ∈ bootstrap ops sc st keep ↔ i ∈ keep ∨ ∃ r o, ¬Met sc st r ∧
        ops.find? (inserts r) = some o ∧ o.opId = i
  | [], _, _, keep => by simp [bootstrap]
  | o :: ops, sc, st, keep => by
    obtain ⟨sc', st', keep', heq, hkeep, hmet⟩ := bootstrap_cons o ops sc st keep
    rw [heq, mem_bootstrap, hkeep, or_assoc]
    refine or_congr_right ?_
    constructor
    · rintro (⟨hi, r, hr, hm⟩ | ⟨r, b, hm, hb, hi⟩)
      · exact ⟨r, o, hm, List.find?_cons_of_pos (inserts_iff.mpr hr), hi⟩
      · rw [hmet, not_or] at hm
        refine ⟨r, b, hm.1, ?_, hi⟩
        rwa [List.find?_cons_of_neg (mt inserts_iff.mp hm.2)]
    · rintro ⟨r, b, hm, hb, hi⟩
      by_cases hr : o.operation.inserted = some r
      · rw [List.find?_cons_of_pos (inserts_iff.mpr hr), Option.some.injEq] at hb
        exact .inl ⟨hb ▸ hi, r, hr, hm⟩
      · rw [List.find?_cons_of_neg (mt inserts_iff.mp hr)] at hb
        exact .inr ⟨r, b, mt (hmet r).mp (not_or.mpr ⟨hm, hr⟩), hb, hi⟩

section

variable {ops l m : List TaggedOperation} {s : Session} {o : TaggedOperation}

theorem isSplit_eq_true {op : TimelineOperation} : isSplit op = true ↔ op.IsSplit := by
  rcases op with _ | _ | _ | _ | _ | _ | _ | _ | _ | _ | _ <;>
    simp [isSplit, TimelineOperation.IsSplit]

/-- A kept id is a split's, that of the first insert of an entity, or that of a register's tag. -/
theorem mem_keptIds_iff {i : OperationId} : i ∈ keptIds ops s ↔
    (∃ o ∈ ops, o.operation.IsSplit ∧ o.opId = i) ∨
      (∃ r o, ops.find? (inserts r) = some o ∧ o.opId = i) ∨
        ∃ t ∈ registerTags s, t ≠ .initial ∧ (∃ o ∈ ops, o.opId = i) ∧ i = ⟨t.lamport, t.peer⟩ := by
  have hmet : ∀ r, ¬Met ∅ ∅ r := by
    rintro (x | x) <;> exact Finset.notMem_empty x
  simp only [keptIds, mem_foldl_retainTag, mem_bootstrap, hmet, not_false_eq_true, true_and,
    List.mem_toFinset, List.mem_map, List.mem_filter, isSplit_eq_true, or_assoc, and_assoc]

theorem mem_keptIds {i : OperationId} (h : i ∈ keptIds ops s) :
    (∃ o ∈ ops, o.opId = i ∧ (o.operation.IsSplit ∨ o.operation.inserted.isSome)) ∨
      ∃ t ∈ registerTags s, t ≠ .initial ∧ i = ⟨t.lamport, t.peer⟩ := by
  rcases mem_keptIds_iff.mp h with ⟨o, ho, hs, hi⟩ | ⟨r, o, ho, hi⟩ | ⟨t, ht, hti, -, hi⟩
  · exact .inl ⟨o, ho, hi, .inl hs⟩
  · have hr := inserts_iff.mp (List.find?_some ho)
    exact .inl ⟨o, List.mem_of_find?_eq_some ho, hi, .inr (by rw [hr]; rfl)⟩
  · exact .inr ⟨t, ht, hti, hi⟩

theorem split_mem_keptIds (ho : o ∈ ops) (hs : o.operation.IsSplit) : o.opId ∈ keptIds ops s :=
  mem_keptIds_iff.mpr (.inl ⟨o, ho, hs, rfl⟩)

/-- Of each entity, an insert no later than any given one is kept. -/
theorem insert_mem_keptIds {r : RequiredTarget} (ho : o.operation.inserted = some r) :
    ∃ b ∈ l ++ [o], b.operation.inserted = some r ∧ b.opId ∈ keptIds (l ++ o :: m) s := by
  obtain ⟨b, hb⟩ := Option.isSome_iff_exists.mp (List.find?_isSome.mpr
    ⟨o, List.mem_append_right l (List.mem_singleton_self o), inserts_iff.mpr ho⟩)
  refine ⟨b, List.mem_of_find?_eq_some hb, inserts_iff.mp (List.find?_some hb), ?_⟩
  refine mem_keptIds_iff.mpr (.inr (.inl ⟨r, b, ?_, rfl⟩))
  rw [List.append_cons, List.find?_append, hb, Option.some_or]

/-- No register carries the tag of an operation that is dropped. -/
theorem tagsIn_of_dropped (ho : o ∈ ops) (hid : o.opId = ⟨o.lamportTs, o.peerId⟩)
    (hi : o.tag ≠ .initial) (hk : o.opId ∉ keptIds ops s) : s.TagsIn (· ≠ o.tag) := by
  rw [Session.tagsIn_iff]
  rintro u hu rfl
  refine hk (mem_foldl_retainTag.mpr (.inr ⟨o.tag, hu, hi, ?_, hid⟩))
  exact List.mem_toFinset.mpr (List.mem_map_of_mem ho)

theorem mem_compactOps : o ∈ compactOps ops s ↔ o ∈ ops ∧ o.opId ∈ keptIds ops s := by
  rw [compactOps, List.mem_filter, decide_eq_true_iff]

theorem find?_filter_of_find? {α : Type} {p q : α → Bool} {l : List α} {a : α}
    (h : l.find? q = some a) (ha : p a = true) : (l.filter p).find? q = some a := by
  induction l with
  | nil => cases h
  | cons b l ih =>
    by_cases hq : q b = true
    · rw [List.find?_cons_of_pos hq, Option.some.injEq] at h
      rw [List.filter_cons_of_pos (h ▸ ha), List.find?_cons_of_pos hq, h]
    · rw [List.find?_cons_of_neg hq] at h
      by_cases hp : p b = true
      · rw [List.filter_cons_of_pos hp, List.find?_cons_of_neg hq, ih h]
      · rw [List.filter_cons_of_neg hp, ih h]

/-- What makes compaction keep an operation is still there in the compacted log. -/
theorem keptIds_compactOps (ho : o ∈ compactOps ops s) :
    o.opId ∈ keptIds (compactOps ops s) s := by
  have hkept := (mem_compactOps.mp ho).2
  rcases mem_keptIds_iff.mp hkept with ⟨b, hb, hs, hi⟩ | ⟨r, b, hb, hi⟩ | ⟨t, ht, hti, -, hi⟩
  · -- a split is kept itself
    have hbk : b ∈ compactOps ops s := mem_compactOps.mpr ⟨hb, hi ▸ hkept⟩
    exact mem_keptIds_iff.mpr (.inl ⟨b, hbk, hs, hi⟩)
  · -- the first insert of an entity is kept, and so it is the first that is kept
    have hfirst : (compactOps ops s).find? (inserts r) = some b :=
      find?_filter_of_find? hb (decide_eq_true (hi ▸ hkept))
    exact mem_keptIds_iff.mpr (.inr (.inl ⟨r, b, hfirst, hi⟩))
  · -- the operation a tag names is looked up among those that are kept
    exact mem_keptIds_iff.mpr (.inr (.inr ⟨t, ht, hti, ⟨o, ho, rfl⟩, hi⟩))

/-- Compacting a second time changes nothing, and compaction leaves operations out, none of them a
split, in whatever session the tags are read. -/
theorem compactOps_stable (ops : List TaggedOperation) (s : Session) :
    compactOps (compactOps ops s) s = compactOps ops s ∧ (compactOps ops s).Sublist ops ∧
      ∀ o ∈ ops, o.operation.IsSplit → o ∈ compactOps ops s := by
  refine ⟨?_, List.filter_sublist, fun o ho hs => ?_⟩
  · refine List.filter_eq_self.mpr fun o ho => ?_
    exact decide_eq_true (keptIds_compactOps ho)
  · exact mem_compactOps.mpr ⟨ho, split_mem_keptIds ho hs⟩

end

end TimelineCrdt

namespace Session

variable {s s' : Session} {l : List TaggedOperation} {o b : TaggedOperation}

/-! ## Leaving out what owns nothing -/

theorem SameRegisters.tagsIn {P : OpTag → Prop} (h : SameRegisters s s') (hs : s.TagsIn P) :
    s'.TagsIn P where
  clips x c hx := by
    obtain ⟨d, hd, hcd⟩ := h.symm.clips_some hx
    rw [ClipCrdt.attached_eq_iff] at hcd
    have := hs.clips x d hd
    rwa [hcd] at this
  tracks := h.tracks ▸ hs.tracks
  envelopes := h.envelopes ▸ hs.envelopes
  metadata := by
    have := hs.metadata
    rwa [sessionMetadataTags, h.metadata] at this

/-- A write that owns no register afterwards changes detached flags at most. -/
theorem sameRegisters_writeOp {op : TimelineOperation} {t : OpTag}
    (hT : (s.writeOp op t).TagsIn (· ≠ t)) : SameRegisters (s.writeOp op t) s := by
  have hclip : ∀ (x : ClipId) (w : ClipWrite), (s.modifyClip x (·.write w t)).TagsIn (· ≠ t) →
      SameRegisters (s.modifyClip x (·.write w t)) s := by
    refine fun x w hT => ⟨rfl, rfl, rfl, fun y => ?_⟩
    have hy := hT.clips y
    rw [clips_modifyClip] at hy ⊢
    split_ifs at hy ⊢
    · rcases hc : s.clips[y]? with _ | c
      · rfl
      · rw [hc] at hy
        rw [Option.map_some, Option.map_some, Option.map_some,
          ClipCrdt.write_eq_of_not_mem fun h => hy _ rfl t h rfl]
        rfl
    · rfl
  have htrack : ∀ (x : TrackId) (w : TrackWrite),
      (s.modifyTrack x (·.write w t)).TagsIn (· ≠ t) →
      SameRegisters (s.modifyTrack x (·.write w t)) s := by
    refine fun x w hT => ⟨rfl, ?_, rfl, fun _ => rfl⟩
    ext1 y
    have hy := hT.tracks y
    rw [tracks_modifyTrack] at hy ⊢
    split_ifs at hy ⊢
    · rcases hr : s.tracks[y]? with _ | r
      · rfl
      · rw [hr] at hy
        rw [Option.map_some, TrackCrdt.write_eq_of_not_mem fun h => hy _ rfl t h rfl]
    · rfl
  rcases op with _ | _ | _ | _ | _ | _ | _ | _ | _ | ⟨y, k, p⟩ | v
  case splitClip => exact .refl s
  case insertTrack | updateTrackMetadata | deleteTrack => exact htrack _ _ hT
  case updateEnvelope =>
    refine ⟨rfl, rfl, ?_, fun _ => rfl⟩
    have hk := hT.envelopes (toLex (y, k))
    simp only [Session.writeOp, setEnvelope, EnvelopeStore.set] at hk ⊢
    refine congrArg EnvelopeStore.mk ?_
    ext1 k'
    rw [BTreeMap.getElem?_insert_if] at hk ⊢
    split_ifs with hkk
    · subst hkk
      have htag := hk _ (if_pos rfl)
      rcases hr : s.envelopes.envelopes[toLex (y, k)]? with _ | r
      · -- the first write of an envelope owns it
        rw [hr, Option.getD_none, LwwReg.tag_set] at htag
        exact absurd (max_eq_right (OpTag.initial_le t)) htag
      · rw [hr, Option.getD_some] at htag
        rw [Option.getD_some, LwwReg.set_eq_self p htag]
    · rfl
  case updateSessionMetadata =>
    have hm := hT.metadata
    simp only [sessionMetadataTags, List.forall_mem_cons, List.not_mem_nil, false_implies,
      implies_true, and_true, Session.writeOp, updateMetadata, SessionMetadataState.update] at hm
    obtain ⟨h1, h2, h3, h4, h5⟩ := hm
    refine ⟨?_, rfl, rfl, fun _ => rfl⟩
    simp only [Session.writeOp, updateMetadata, SessionMetadataState.update,
      LwwReg.setOption_eq_self _ h1, LwwReg.setOption_eq_self _ h2,
      LwwReg.setOption_eq_self _ h3, LwwReg.setOption_eq_self _ h4,
      LwwReg.setOption_eq_self _ h5]
  all_goals exact hclip _ _ hT

theorem hasTargets_of_succeeds (hns : ¬o.operation.IsSplit) (hs : s.Succeeds o) :
    s.HasTargets o.operation := by
  by_contra ht
  obtain ⟨err, ha⟩ := apply_of_missing (t := o.tag) hns ht
  simp [Succeeds, ha] at hs

/-- What applies and creates nothing is a settled write. -/
theorem settled_of_succeeds (hns : ¬o.operation.IsSplit) (hs : s.Succeeds o)
    (hr : ∀ r, o.operation.inserted = some r → s.HasTarget r) : s.Settled o.operation := by
  have ht := hasTargets_of_succeeds hns hs
  rcases hop : o.operation with x | _ | _ | _ | _ | _ | x | _ | _ | _ | _ <;> rw [hop] at hns hr ht
  case insertClip => exact hr (.clip x) rfl
  case splitClip => exact absurd trivial hns
  case insertTrack => exact hr (.track x) rfl
  all_goals exact ht

theorem applied_of_applies :
    ∀ {l : List TaggedOperation} {s : Session}, s.Applies l → s.applied l = l
  | [], _, _ => rfl
  | o :: l, s, h => by
    have ho : s.Succeeds o := h.1
    have hl : (s.exec o).Applies l := h.2
    simp only [applied, ho, if_true, applied_of_applies hl]

/-- Wherever `b` applies, `r` is there afterwards. -/
def Brings (b : TaggedOperation) (r : RequiredTarget) : Prop :=
  ∀ s : Session, s.Succeeds b → (s.exec b).HasTarget r

/-- The entity of each dropped insert is there when the insert is attempted, or a kept operation
before it brings it. -/
def Introduced (kept : TaggedOperation → Bool) (s : Session) (l : List TaggedOperation) : Prop :=
  ∀ l₁ o l₂ r, l = l₁ ++ o :: l₂ → kept o = false → o.operation.inserted = some r →
    s.HasTarget r ∨ ∃ b ∈ l₁, kept b = true ∧ Brings b r

/-- Operations that own no register in the end and create nothing may be left out of a run. -/
theorem replay_filter {kept : TaggedOperation → Bool} :
    ∀ {l : List TaggedOperation} {s : Session}, s.Applies l →
      l.Pairwise (fun a b => a.tag ≠ b.tag) → Introduced kept s l →
      (∀ o ∈ l, kept o = false → ¬o.operation.IsSplit ∧
        (s.replay l).TagsIn (· ≠ o.tag)) →
      s.Applies (l.filter kept) ∧ SameRegisters (s.replay l) (s.replay (l.filter kept))
  | [], s, _, _, _, _ => ⟨trivial, .refl s⟩
  | o :: l, s, hl, hd, hin, hdrop => by
    rw [List.pairwise_cons] at hd
    rcases hk : kept o with _ | _
    · obtain ⟨hns, hT⟩ := hdrop o List.mem_cons_self hk
      have hset : s.Settled o.operation := settled_of_succeeds hns hl.1 fun r hr =>
        (hin [] o l r rfl hk hr).resolve_right (by simp)
      have hend : s.replay (o :: l) = (s.replay l).writeOp o.operation o.tag :=
        (hset.replay_last hd.1).trans hset.replay.exec_eq
      have hsame : SameRegisters (s.replay (o :: l)) (s.replay l) := by
        rw [hend] at hT ⊢
        exact sameRegisters_writeOp hT
      obtain ⟨h1, h2⟩ := replay_filter (l := l) ((hset.applies_iff hd.1).mp hl.2) hd.2
        (fun l₁ o' l₂ r hl' hk' hr => by
          rcases hin (o :: l₁) o' l₂ r (by rw [hl']; rfl) hk' hr with h | ⟨b, hb, hbk, hbr⟩
          · exact .inl h
          · rcases List.mem_cons.mp hb with rfl | hb
            · rw [hk] at hbk
              exact absurd hbk Bool.false_ne_true
            · exact .inr ⟨b, hb, hbk, hbr⟩)
        fun o' ho' hk' => by
          obtain ⟨h1, h2⟩ := hdrop o' (List.mem_cons_of_mem o ho') hk'
          exact ⟨h1, hsame.tagsIn h2⟩
      rw [List.filter_cons_of_neg (by simp [hk])]
      exact ⟨h1, hsame.trans h2⟩
    · obtain ⟨h1, h2⟩ := replay_filter (l := l) hl.2 hd.2
        (fun l₁ o' l₂ r hl' hk' hr => by
          rcases hin (o :: l₁) o' l₂ r (by rw [hl']; rfl) hk' hr with h | ⟨b, hb, hbk, hbr⟩
          · exact .inl h.exec
          · rcases List.mem_cons.mp hb with rfl | hb
            · exact .inl (hbr s hl.1)
            · exact .inr ⟨b, hb, hbk, hbr⟩)
        fun o' ho' => hdrop o' (List.mem_cons_of_mem o ho')
      rw [List.filter_cons_of_pos hk]
      exact ⟨⟨hl.1, h1⟩, h2⟩

end Session

namespace Session

variable {s : Session} {ops : List TaggedOperation} {o : TaggedOperation}

/-! ## The detached flags of split children -/

/-- A clip with a parent is the child of a split of `ops`, and it is detached exactly when its start
has been written. -/
def ChildrenWritten (ops : List TaggedOperation) (s : Session) : Prop :=
  ∀ (x : ClipId) (c : ClipCrdt), s.clips[x]? = some c → c.parent ≠ none →
    (∃ o ∈ ops, ∃ p f, o.operation = .splitClip p f x) ∧
      (c.detached = true ↔ c.startFrame.tag ≠ .initial)

theorem childrenWritten_new : ChildrenWritten ops new := by
  intro x c h
  simp [new] at h

/-- Of the operations that are not inserts, those that write a clip's start detach the clip. -/
theorem detach_eq {op : TimelineOperation} (h : op.inserted = none) :
    op.clipWrite.detach = op.clipWrite.startFrame.isSome := by
  rcases op with _ | _ | _ | _ | _ | _ | _ | _ | _ | _ | _ <;> first | rfl | cases h

theorem written_write {c : ClipCrdt} {op : TimelineOperation} {t : OpTag} (h : op.inserted = none)
    (ht : t ≠ .initial) (hc : c.detached = true ↔ c.startFrame.tag ≠ .initial) :
    (c.write op.clipWrite t).detached = true ↔
      (c.write op.clipWrite t).startFrame.tag ≠ .initial := by
  simp only [ClipCrdt.write, detach_eq h]
  rcases op.clipWrite.startFrame with _ | v
  · simpa [LwwReg.setOption] using hc
  · have hmax : max c.startFrame.tag t ≠ .initial := fun he =>
      ht (le_antisymm (he ▸ le_max_right _ _) (OpTag.initial_le t))
    simp [LwwReg.setOption, LwwReg.tag_set, hmax]

theorem ChildrenWritten.exec (H : OneOwner ops) (hs : Owned ops s) (h : ChildrenWritten ops s)
    (ho : o ∈ ops) (ht : o.tag ≠ .initial) : ChildrenWritten ops (s.exec o) := by
  intro x c hx hp
  by_cases hsplit : o.operation.IsSplit
  · obtain ⟨p, f, n, hop⟩ := TimelineOperation.isSplit_iff.mp hsplit
    rcases hs.split ho hop with ⟨-, -, he⟩ | ⟨-, -, -, he⟩ | ⟨-, -, -, he⟩
    · exact h x c (he ▸ hx) hp
    · exact h x c (he ▸ hx) hp
    rw [he, clips_splitOff] at hx
    split_ifs at hx with hn hpx
    · subst hn
      obtain rfl := Option.some.inj hx
      refine ⟨⟨o, ho, p, f, hop⟩, ?_⟩
      rcases hd : s.clips[n]? with _ | d
      · simp [childRecord, ClipCrdt.link, ClipCrdt.fromSplit, LwwReg.newInitial]
      · exact (h n d hd (by simpa [hd, ClipCrdt.revive] using hp)).2
    · obtain ⟨d, hd, rfl⟩ := Option.map_eq_some_iff.mp hx
      rw [ClipCrdt.recordSplit_eq] at hp ⊢
      exact h x d hd hp
    · exact h x c hx hp
  · rcases clip_exec_of_not_split hsplit hx with ⟨d, hd, rfl | ⟨hex, rfl⟩⟩ | ⟨-, _, _, _, -, rfl⟩
    · exact h x c hd hp
    · obtain ⟨⟨o', ho', p, f, hop'⟩, hdet⟩ := h x d hd hp
      refine ⟨⟨o', ho', p, f, hop'⟩, written_write ?_ ht hdet⟩
      -- a split child is not inserted
      rcases hop : o.operation with y | _ | _ | _ | _ | _ | _ | _ | _ | _ | _ <;>
        rw [hop] at hex <;> first | rfl | cases hex
      exact absurd hop (H.not_inserted o' ho' o ho hop')
    · exact absurd rfl hp

theorem childrenWritten_replay (H : OneOwner ops) {l : List TaggedOperation}
    (hl : ∀ o ∈ l, o ∈ ops) (ht : ∀ o ∈ ops, o.tag ≠ .initial) :
    ChildrenWritten ops (new.replay l) := by
  refine (Machine.run_inv (M := machine)
    (I := fun s : Session => Owned ops s ∧ ChildrenWritten ops s) (fun s o ho h => ?_)
    ⟨owned_new, childrenWritten_new⟩).2
  exact ⟨h.1.exec H (hl o ho), h.2.exec H h.1 (hl o ho) (ht o (hl o ho))⟩

/-- Runs that end in the same registers end in the same flags, but for roots. -/
theorem ChildrenWritten.sameDetached {ops' : List TaggedOperation} {s' : Session}
    (h : ChildrenWritten ops s) (h' : ChildrenWritten ops' s') (hr : SameRegisters s s') :
    SameDetached s s' := by
  intro x c d hx hx' hp
  obtain ⟨e, he, hce⟩ := hr.clips_some hx
  obtain rfl := Option.some.inj (he.symm.trans hx')
  rw [ClipCrdt.attached_eq_iff] at hce
  have h1 := (h x c hx hp).2
  have h2 := (h' x e hx' (by rw [hce]; exact hp)).2
  rw [hce] at h2
  rw [Bool.eq_iff_iff, h1, ← h2]

end Session

namespace OpSet

open TimelineCrdt Session

variable {D : OpSet} {l : List TaggedOperation} {c : TimelineCrdt} {att : List TaggedOperation}
  {o : TaggedOperation}

/-! ## The compacted log -/

theorem eq_of_append_cons {α : Type} {a : α} :
    ∀ {l l' m m' : List α}, a ∉ l → a ∉ l' → l ++ a :: m = l' ++ a :: m' → l = l'
  | [], [], _, _, _, _, _ => rfl
  | [], b :: l', _, _, _, h', h => absurd ((List.cons.inj h).1 ▸ List.mem_cons_self) h'
  | b :: l, [], _, _, h', _, h => absurd ((List.cons.inj h).1 ▸ List.mem_cons_self) h'
  | b :: l, b' :: l', _, _, h, h', heq => by
    obtain ⟨rfl, ht⟩ := List.cons.inj heq
    rw [eq_of_append_cons (fun hl => h (List.mem_cons_of_mem b hl))
      (fun hl => h' (List.mem_cons_of_mem b hl)) ht]

theorem tag_ne_initial (h : 1 ≤ o.lamportTs) : o.tag ≠ .initial := by
  intro he
  rw [show o.lamportTs = 0 from congrArg OpTag.lamport he] at h
  exact absurd h (by decide)

theorem untargeted_of_inserted {r : RequiredTarget} (h : o.operation.inserted = some r) :
    untargeted o = true := by
  unfold untargeted
  rcases hop : o.operation with _ | _ | _ | _ | _ | _ | _ | _ | _ | _ | _ <;>
    rw [hop] at h <;> first | rfl | cases h

theorem brings_of_inserted {r : RequiredTarget} (h : o.operation.inserted = some r) :
    Brings o r := by
  intro s _
  refine hasTarget_exec.mpr (.inr ?_)
  rcases hop : o.operation with _ | _ | _ | _ | _ | _ | _ | _ | _ | _ | _ <;> rw [hop] at h <;>
    cases h <;> rfl

/-- Whether compaction keeps an operation. -/
def isKept (c : TimelineCrdt) (o : TaggedOperation) : Bool :=
  decide (o.opId ∈ keptIds c.operationLog c.session)

/-- The inserts a delivery applies are in the order of its log, so the first one of an entity is
kept. -/
theorem introduced_of_trace (h : Trace c att) : Introduced (isKept c) new (new.applied att) := by
  intro l₁ o l₂ r happ hk hr
  refine .inr ?_
  have hnd : (new.applied att ++ c.pending).Nodup := h.perm.nodup_iff.mpr h.nodup.of_map
  have hou := untargeted_of_inserted hr
  have ho : o ∈ c.operationLog :=
    h.perm.mem_iff.mp (List.mem_append_left _ (by rw [happ]; simp))
  obtain ⟨L₁, L₂, hlog⟩ := List.append_of_mem ho
  obtain ⟨b, hb, hbr, hbk⟩ := insert_mem_keptIds (l := L₁) (m := L₂) (s := c.session) hr
  rw [← hlog] at hbk
  have hbk : isKept c b = true := decide_eq_true hbk
  have hbL : b ∈ L₁ := by
    rcases List.mem_append.mp hb with hb | hb
    · exact hb
    · rw [List.mem_singleton.mp hb, hk] at hbk
      exact absurd hbk Bool.false_ne_true
  have hord := h.order
  rw [happ, hlog, List.filter_append, List.filter_append, List.filter_cons_of_pos hou,
    List.filter_cons_of_pos hou] at hord
  have hn₁ : o ∉ l₁ := by
    rw [happ] at hnd
    have := (List.nodup_append.mp (List.nodup_append.mp hnd).1).2.2
    exact fun ho => this o ho o List.mem_cons_self rfl
  have hn₂ : o ∉ L₁ := by
    have := h.nodup.of_map
    rw [hlog] at this
    exact fun ho => (List.nodup_append.mp this).2.2 o ho o List.mem_cons_self rfl
  have heq := eq_of_append_cons (fun h => hn₁ (List.mem_of_mem_filter h))
    (fun h => hn₂ (List.mem_of_mem_filter h)) hord
  have hbl : b ∈ l₁.filter untargeted :=
    heq ▸ List.mem_filter.mpr ⟨hbL, untargeted_of_inserted hbr⟩
  exact ⟨b, List.mem_of_mem_filter hbl, hbk, brings_of_inserted hbr⟩

/-- What compaction drops may be left out of the run that a delivery is. -/
theorem replay_kept (hD : D.Stamped) (hpos : ∀ o ∈ D.ops, 1 ≤ o.lamportTs) (h : Trace c att)
    (hlog : c.operationLog.Perm D.ops) (happ : new.replay att = new.replay (new.applied att))
    (hval : new.Applies (new.applied att)) :
    new.Applies ((new.applied att).filter (isKept c)) ∧
      SameRegisters c.session (new.replay ((new.applied att).filter (isKept c))) := by
  have hmem : ∀ o ∈ new.applied att, o ∈ D.ops := fun o ho =>
    (h.perm.trans hlog).mem_iff.mp (List.mem_append_left _ ho)
  have hnd : (new.applied att).Nodup :=
    ((h.perm.nodup_iff.mpr h.nodup.of_map).sublist (List.sublist_append_left _ _))
  rw [h.session_eq, happ]
  refine replay_filter hval ?_ (introduced_of_trace h) fun o ho hk => ?_
  · exact hnd.pairwise_of_forall_ne fun a ha b hb => hD.tag_ne (hmem a ha) (hmem b hb)
  · have hk : o.opId ∉ keptIds c.operationLog c.session := of_decide_eq_false hk
    have hol : o ∈ c.operationLog := h.perm.mem_iff.mp (List.mem_append_left _ ho)
    refine ⟨fun hs => hk (split_mem_keptIds hol hs), ?_⟩
    rw [← happ, ← h.session_eq]
    exact tagsIn_of_dropped hol (hD o (hmem o ho)) (tag_ne_initial (hpos o (hmem o ho))) hk

/-- The operations kept from the buffer are splits. -/
theorem split_of_pending (hD : D.Stamped) (h : Trace c att) (hlog : c.operationLog.Perm D.ops)
    (hatt : ∀ o ∈ att, o ∈ D.ops) (happ : new.replay att = new.replay (new.applied att))
    (ho : o ∈ c.pending) (hk : isKept c o = true) : o.operation.IsSplit := by
  have hol := h.mem_log_pending ho
  rcases mem_keptIds (of_decide_eq_true hk) with ⟨b, hb, hbo, hs⟩ | ⟨t, ht, hti, hto⟩
  · obtain rfl := eq_of_opId (hlog.mem_iff.mp hb) (hlog.mem_iff.mp hol) hbo
    refine hs.elim id fun hi => ?_
    obtain ⟨r, hr⟩ := Option.isSome_iff_exists.mp hi
    exact absurd (hasTargets_of_untargeted (untargeted_of_inserted hr)) (h.missing b ho).1
  · -- the tag is that of an operation that applied, which is another one
    have hT : c.session.TagsIn fun u => u = .initial ∨ ∃ a ∈ new.applied att, a.tag = u := by
      rw [h.session_eq, happ]
      exact (tagsIn_new (.inl rfl)).replay (.inl rfl) fun a ha => .inr ⟨a, ha, rfl⟩
    rcases tagsIn_iff.mp hT t ht with he | ⟨a, ha, hat⟩
    · exact absurd he hti
    · have hao : a.opId = o.opId := by
        rw [hto, ← hat]
        exact hD a (hatt a (mem_of_mem_applied ha))
      obtain rfl := eq_of_opId (hatt a (mem_of_mem_applied ha)) (hlog.mem_iff.mp hol) hao
      have hnd : (new.applied att ++ c.pending).Nodup := h.perm.nodup_iff.mpr h.nodup.of_map
      exact absurd rfl ((List.nodup_append.mp hnd).2.2 a ha a ho)

/-- A replica that replays the compacted log, in the order of the log or from a snapshot, has the
view of the original, and every operation kept applies, but for splits. -/
theorem FreshIds.compaction (H : D.FreshIds) (hpos : ∀ o ∈ D.ops, 1 ≤ o.lamportTs)
    (hl : D.Delivers l) (p q : PeerId) (c' : TimelineCrdt)
    (hc' : c' = replica q (compactOps (replica p l).operationLog (replica p l).session) ∨
      c' = fromSnapshot (replica p l).compact.snapshot q) :
    (∃ v, (replica p l).view = some v ∧ c'.view = some v) ∧
      ∀ o ∈ compactOps (replica p l).operationLog (replica p l).session,
        ¬o.operation.IsSplit → o ∈ c'.operationLog ∧ o ∉ c'.pending := by
  obtain ⟨att, t, hatt, hlog⟩ := hl.trace p
  have hone := H.oneOwner
  obtain ⟨happ, hval⟩ := owned_new.replay_applied hone hatt
  obtain ⟨hkval, hsame⟩ := replay_kept H.stamped hpos t hlog happ hval
  have hpend := fun {o} => split_of_pending (o := o) H.stamped t hlog hatt happ
  obtain ⟨v, hv⟩ := hl.view hone p
  generalize replica p l = c at *
  -- the kept operations as a set of their own
  have hsub : ∀ o ∈ c.operationLog.filter (isKept c), o ∈ D.ops := fun o ho =>
    hlog.mem_iff.mp (List.mem_of_mem_filter ho)
  let K : OpSet := ⟨c.operationLog.filter (isKept c), t.nodup.sublist (List.filter_sublist.map _)⟩
  have hK : ∃ m, K.Delivers m ∧ c' = replica q m := by
    rcases hc' with rfl | rfl
    · exact ⟨_, fun o => Iff.rfl, rfl⟩
    · exact ⟨_, fun o => (List.perm_insertionSort _ _).mem_iff, rfl⟩
  obtain ⟨m, hm, rfl⟩ := hK
  have hKone : OneOwner K.ops :=
    ⟨fun o ho o' ho' => hone.claim_eq o (hsub o ho) o' (hsub o' ho'),
      fun o ho o' ho' => hone.not_inserted o (hsub o ho) o' (hsub o' ho')⟩
  have hKtags : TagsDistinct K.ops := fun o ho o' ho' =>
    H.stamped.tagsDistinct o (hsub o ho) o' (hsub o' ho')
  obtain ⟨att', t', hatt', hlog'⟩ := hm.trace q
  have hperm : ((new.applied att).filter (isKept c) ++ c.pending.filter (isKept c)).Perm K.ops := by
    rw [← List.filter_append]
    exact t.perm.filter _
  obtain ⟨heq, -, hpp⟩ := replay_eq_of_oneOwner hKone hKtags K.nodup
    (l := (new.applied att).filter (isKept c)) (p := c.pending.filter (isKept c))
    (fun o ho => hperm.mem_iff.mp (List.mem_append_left _ ho)) hatt'
    (by rwa [applied_of_applies hkval]) (t'.perm.trans hlog')
    (fun o ho => (hsame.misses o.operation).mp (t.missing o (List.mem_of_mem_filter ho)))
    fun o ho => t'.session_eq ▸ t'.missing o ho
  have hpos' : ∀ o ∈ D.ops, o.tag ≠ .initial := fun o ho => tag_ne_initial (hpos o ho)
  rw [heq, ← t'.session_eq] at hsame
  refine ⟨⟨v, hv, ?_⟩, fun o ho hns => ⟨hlog'.mem_iff.mpr ho, fun hop => ?_⟩⟩
  · have h1 := childrenWritten_replay hone hatt hpos'
    have h2 := childrenWritten_replay hKone hatt' fun o ho => hpos' o (hsub o ho)
    rw [← t.session_eq] at h1
    rw [← t'.session_eq] at h2
    rw [view, ← hsame.materialize_eq (h1.sameDetached h2 hsame)]
    exact hv
  · have hop' := hpp.mem_iff.mpr hop
    exact hns (hpend (List.mem_of_mem_filter hop') (List.mem_filter.mp hop').2)

/-- A track, a clip on it, a split of the clip, and two moves of the piece. -/
def movedTwice : OpSet where
  ops := [.of 1 1 (.insertTrack ⟨1⟩ (.new "t") 0),
    .of 2 1 (.insertClip ⟨1⟩ ⟨1⟩ (.new "c" 0 100) 0), .of 3 1 (.splitClip ⟨1⟩ 40 ⟨2⟩),
    .of 4 1 (.moveClip ⟨2⟩ ⟨1⟩ 200 0), .of 5 1 (.moveClip ⟨2⟩ ⟨1⟩ 300 0)]
  distinct := by decide

theorem movedTwice_freshIds : movedTwice.FreshIds where
  stamped := by simp [Stamped, movedTwice, TaggedOperation.of]
  split_once := by
    intro o ho o' ho' c f n c' f' h h'
    simp only [movedTwice, List.mem_cons, List.not_mem_nil, or_false] at ho ho'
    rcases ho with rfl | rfl | rfl | rfl | rfl <;>
      rcases ho' with rfl | rfl | rfl | rfl | rfl <;> simp_all [TaggedOperation.of]
  not_inserted := by
    rintro c f n r d p ⟨o, ho, h⟩ ⟨o', ho', h'⟩
    simp only [movedTwice, List.mem_cons, List.not_mem_nil, or_false] at ho ho'
    rcases ho with rfl | rfl | rfl | rfl | rfl <;>
      rcases ho' with rfl | rfl | rfl | rfl | rfl <;>
      simp only [TaggedOperation.of, reduceCtorEq] at h h'
    cases h
    simp at h'

/-- The piece's first move is dropped. -/
theorem movedTwice_compaction :
    (∃ v, (replica ⟨7⟩ movedTwice.ops.reverse).view = some v ∧
      (fromSnapshot (replica ⟨7⟩ movedTwice.ops.reverse).compact.snapshot ⟨8⟩).view = some v) ∧
    ∀ o ∈ compactOps (replica ⟨7⟩ movedTwice.ops.reverse).operationLog
        (replica ⟨7⟩ movedTwice.ops.reverse).session, ¬o.operation.IsSplit →
      o ∈ (fromSnapshot (replica ⟨7⟩ movedTwice.ops.reverse).compact.snapshot ⟨8⟩).operationLog ∧
      o ∉ (fromSnapshot (replica ⟨7⟩ movedTwice.ops.reverse).compact.snapshot ⟨8⟩).pending :=
  movedTwice_freshIds.compaction (by decide) (fun _ => List.mem_reverse) ⟨7⟩ ⟨8⟩ _ (.inr rfl)

example : ((replica ⟨7⟩ movedTwice.ops.reverse).compact.operationLog.map (·.lamportTs)) =
    [5, 3, 2, 1] := by decide +kernel

end OpSet

end AvSync
