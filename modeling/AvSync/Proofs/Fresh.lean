import AvSync.Proofs.Delivery

/-!
# Splits whose child has one owner

Where all splits of a child come from one parent at one offset, and no child is inserted, an
existing child already belongs to that claim and its parent is there (`Owned`). A split then
records its point and creates or revives the child, and an operation that fails changes nothing.
Any two operations that apply commute (`confluent_of_oneOwner`).
-/

namespace AvSync

/-- No two operations of `ops` have one tag. -/
def TagsDistinct (ops : List TaggedOperation) : Prop :=
  ∀ o ∈ ops, ∀ o' ∈ ops, o ≠ o' → o.tag ≠ o'.tag

/-- All splits of a clip in `ops` make one claim, and `ops` does not insert a clip it splits off. -/
structure OneOwner (ops : List TaggedOperation) : Prop where
  claim_eq : ∀ o ∈ ops, ∀ o' ∈ ops, ∀ {c f n c' f'}, o.operation = .splitClip c f n →
    o'.operation = .splitClip c' f' n → c = c' ∧ f = f'
  not_inserted : ∀ o ∈ ops, ∀ o' ∈ ops, ∀ {c f n r d p}, o.operation = .splitClip c f n →
    o'.operation ≠ .insertClip n r d p

theorem OpSet.Stamped.tagsDistinct {D : OpSet} (h : D.Stamped) : TagsDistinct D.ops :=
  fun _ ho _ ho' => h.tag_ne ho ho'

theorem OpSet.FreshIds.oneOwner {D : OpSet} (h : D.FreshIds) : OneOwner D.ops where
  claim_eq o ho o' ho' := by
    intro c f n c' f' h1 h2
    obtain rfl := h.split_once o ho o' ho' h1 h2
    rw [h1] at h2
    cases h2
    exact ⟨rfl, rfl⟩
  not_inserted o ho o' ho' := fun h1 h2 => h.not_inserted ⟨o, ho, h1⟩ ⟨o', ho', h2⟩

namespace ClipCrdt

theorem splits_recordSplit (c : ClipCrdt) (f g : UInt64) (n : ClipId) :
    (c.recordSplit f n).splits[g]? =
      if f = g then some ((c.splits[f]?.map (min n)).getD n) else c.splits[g]? := by
  unfold recordSplit
  rcases h : c.splits[f]? with _ | old
  · simp only [BTreeMap.getElem?_insert_if, Option.map_none, Option.getD_none]
  · by_cases hn : n < old
    · simp only [hn, if_true, BTreeMap.getElem?_insert_if, Option.map_some, Option.getD_some,
        min_eq_left hn.le]
    · simp only [hn, if_false, Option.map_some, Option.getD_some, min_eq_right (not_lt.mp hn)]
      split_ifs with hfg
      · rw [← hfg, h]
      · rfl

/-- Recording a split point touches nothing but the split points. -/
theorem recordSplit_eq (c : ClipCrdt) (f : UInt64) (n : ClipId) :
    c.recordSplit f n = { c with splits := (c.recordSplit f n).splits } := by
  unfold recordSplit
  rcases c.splits[f]? with _ | old
  · rfl
  · by_cases hn : n < old <;> simp [hn]

theorem recordSplit_comm (c : ClipCrdt) (f g : UInt64) (m n : ClipId) :
    (c.recordSplit f m).recordSplit g n = (c.recordSplit g n).recordSplit f m := by
  have hs : ((c.recordSplit f m).recordSplit g n).splits =
      ((c.recordSplit g n).recordSplit f m).splits := by
    ext1 a
    simp only [splits_recordSplit]
    by_cases hfg : f = g
    · subst hfg
      rcases c.splits[f]? with _ | old <;> by_cases ha : f = a <;>
        simp [ha, min_comm, min_left_comm]
    · by_cases ha : f = a <;> by_cases hb : g = a <;> simp_all
  rw [recordSplit_eq (c.recordSplit f m), recordSplit_eq (c.recordSplit g n), hs,
    recordSplit_eq c f m, recordSplit_eq c g n]

theorem recordSplit_revive (c : ClipCrdt) (f : UInt64) (n : ClipId) (t : OpTag) :
    (c.recordSplit f n).revive t = (c.revive t).recordSplit f n := by
  unfold recordSplit
  rcases h : c.splits[f]? with _ | old
  · simp [revive, h]
  · by_cases hn : n < old <;> simp [revive, h, hn]

theorem revive_comm (c : ClipCrdt) {t u : OpTag} (h : t ≠ u) :
    (c.revive t).revive u = (c.revive u).revive t := by
  simp only [revive, LwwReg.set_comm h]

end ClipCrdt

namespace Session

variable {s : Session} {ops : List TaggedOperation} {o b : TaggedOperation}

theorem childRecord_revive (k : Claim) {t u : OpTag} (h : t ≠ u) :
    (childRecord k t).revive u = (childRecord k u).revive t := by
  simp only [childRecord, ClipCrdt.fromSplit, ClipCrdt.link, ClipCrdt.revive,
    LwwReg.set_of_first h]

/-- Every child of a split of `ops` belongs to that split's claim, and its parent is there. -/
def Owned (ops : List TaggedOperation) (s : Session) : Prop :=
  ∀ o ∈ ops, ∀ {c f n}, o.operation = .splitClip c f n → c ≠ n →
    ∀ child, s.clips[n]? = some child → child.originClaim = some ⟨c, f⟩ ∧ c ∈ s.clips

/-- Records a split point and creates or revives its child. -/
def splitOff (s : Session) (c : ClipId) (f : UInt64) (n : ClipId) (t : OpTag) : Session :=
  (s.modifyClip c (·.recordSplit f n)).setClip n
    ((s.clips[n]?.map (·.revive t)).getD (childRecord ⟨c, f⟩ t))

theorem clips_splitOff {c n y : ClipId} {f : UInt64} {t : OpTag} :
    (s.splitOff c f n t).clips[y]? =
      if n = y then some ((s.clips[y]?.map (·.revive t)).getD (childRecord ⟨c, f⟩ t))
      else if c = y then s.clips[y]?.map (·.recordSplit f n) else s.clips[y]? := by
  rw [splitOff, clips_setClip, clips_modifyClip]
  split_ifs with h
  · rw [h]
  · rfl
  · rfl

/-- The three things a split does to children that have one owner. -/
theorem Owned.split (h : Owned ops s) (ho : o ∈ ops) {c f n}
    (hop : o.operation = .splitClip c f n) :
    (c = n ∧ s.Succeeds o ∧ s.exec o = s) ∨
      (c ≠ n ∧ c ∉ s.clips ∧ ¬s.Succeeds o ∧ s.exec o = s) ∨
      (c ≠ n ∧ c ∈ s.clips ∧ s.Succeeds o ∧ s.exec o = s.splitOff c f n o.tag) := by
  have hown := h o ho hop
  simp only [Succeeds, exec, hop, apply]
  have hstep := applySplit_step s c f n o.tag
  generalize s.applySplit c f n o.tag = r at hstep ⊢
  rcases hstep with e | ⟨e, hn, hk, hlt⟩ | ⟨e, hn, hc⟩ | ⟨e, hn, hc⟩ | ⟨e, hn, hk⟩ |
    ⟨e, hn, hk, hlt⟩
  · exact Or.inl ⟨e, rfl, rfl⟩
  · have := (hown e _ hn).1
    rw [hk, Option.some.injEq] at this
    exact absurd hlt (this ▸ lt_irrefl _)
  · exact Or.inr (Or.inl ⟨e, hc, by simp, rfl⟩)
  · refine Or.inr (Or.inr ⟨e, hc, rfl, ?_⟩)
    simp only [splitOff, BTreeMap.not_mem_iff.mp hn, Option.map_none, Option.getD_none]
  · have hc := (hown e _ hn).2
    refine Or.inr (Or.inr ⟨e, hc, succeeds_clipReply.mpr hc, ?_⟩)
    rw [splitOff, hn, Option.map_some, Option.getD_some, modifyClip_comm_of_ne e.symm]
    refine (modifyClip_of_some ?_).symm ▸ rfl
    rw [clips_modifyClip, if_neg e, hn]
  · have := (hown e _ hn).1
    rw [hk, Option.some.injEq] at this
    exact absurd hlt (this ▸ lt_irrefl _)

theorem Owned.exec_of_fails (h : Owned ops s) (ho : o ∈ ops) (hf : ¬s.Succeeds o) :
    s.exec o = s := by
  by_cases hsplit : o.operation.IsSplit
  · obtain ⟨c, f, n, hop⟩ := TimelineOperation.isSplit_iff.mp hsplit
    rcases h.split ho hop with ⟨-, hs, -⟩ | ⟨-, -, -, he⟩ | ⟨-, -, hs, -⟩
    · exact absurd hs hf
    · exact he
    · exact absurd hs hf
  · have ht : ¬s.HasTargets o.operation := fun ht => hf (succeeds_of_hasTargets ht)
    obtain ⟨err, ha⟩ := apply_of_missing (t := o.tag) hsplit ht
    rw [exec, ha]

/-- An operation keeps the owners where it makes no other claim to a child of `ops`, and inserts
none that is not there. -/
theorem Owned.exec_of (h : Owned ops s) (ho : o ∈ ops)
    (hclaim : ∀ o' ∈ ops, ∀ {c f n c' f'}, o.operation = .splitClip c f n →
      o'.operation = .splitClip c' f' n → c = c' ∧ f = f')
    (hins : ∀ o' ∈ ops, ∀ {c f n r d p}, o'.operation = .splitClip c f n →
      o.operation = .insertClip n r d p → n ∈ s.clips) : Owned ops (s.exec o) := by
  by_cases hs : s.Succeeds o
  swap
  · rwa [h.exec_of_fails ho hs]
  intro o' ho' c f n hop' hcn child hchild
  by_cases hsplit : o.operation.IsSplit
  · obtain ⟨c₂, f₂, n₂, hop⟩ := TimelineOperation.isSplit_iff.mp hsplit
    rcases h.split ho hop with ⟨-, -, he⟩ | ⟨-, -, hf, -⟩ | ⟨hne, hc₂, -, he⟩
    · rw [he] at hchild ⊢
      exact h o' ho' hop' hcn child hchild
    · exact absurd hs hf
    have hmem : c ∈ s.clips → c ∈ (s.exec o).clips := HasTarget.exec (r := .clip c)
    rw [he, clips_splitOff] at hchild
    by_cases hn : n₂ = n
    · subst hn
      obtain ⟨rfl, rfl⟩ := hclaim o' ho' hop hop'
      refine ⟨?_, hmem hc₂⟩
      rw [if_pos rfl, Option.some.injEq] at hchild
      rcases hv : s.clips[n₂]? with _ | d
      · rw [hv] at hchild
        exact hchild ▸ rfl
      · rw [hv] at hchild
        exact hchild ▸ (h o' ho' hop' hcn d hv).1
    · rw [if_neg hn] at hchild
      split_ifs at hchild with hc
      · obtain ⟨d, hd, rfl⟩ := Option.map_eq_some_iff.mp hchild
        have := h o' ho' hop' hcn d hd
        rw [ClipCrdt.recordSplit_eq]
        exact ⟨this.1, hmem this.2⟩
      · have := h o' ho' hop' hcn child hchild
        exact ⟨this.1, hmem this.2⟩
  · rcases clip_exec_of_not_split hsplit hchild with ⟨d, hd, hcd⟩ | ⟨hn, r, a, p, hop, -⟩
    · have := h o' ho' hop' hcn d hd
      rcases hcd with rfl | ⟨-, rfl⟩ <;>
        exact ⟨this.1, HasTarget.exec (r := .clip c) this.2⟩
    · exact absurd (hins o' ho' hop' hop) (BTreeMap.not_mem_iff.mpr hn)

theorem Owned.exec (H : OneOwner ops) (h : Owned ops s) (ho : o ∈ ops) : Owned ops (s.exec o) :=
  h.exec_of ho (fun o' ho' => H.claim_eq o ho o' ho') fun o' ho' _ _ _ _ _ _ hop' hop =>
    absurd hop (H.not_inserted o' ho' o ho hop')

theorem owned_new : Owned ops new := by
  intro o _ c f n _ _ child h
  simp [new] at h

theorem Owned.exec_succeeds (h : Owned ops s) (ho : o ∈ ops) (hs : s.Succeeds o) :
    s.HasTargets o.operation ∨ ∃ c f, o.operation = .splitClip c f c := by
  by_cases hsplit : o.operation.IsSplit
  · obtain ⟨c, f, n, hop⟩ := TimelineOperation.isSplit_iff.mp hsplit
    rw [hop]
    rcases h.split ho hop with ⟨rfl, -⟩ | ⟨-, -, hf, -⟩ | ⟨-, hc, -⟩
    · exact Or.inr ⟨c, f, rfl⟩
    · exact absurd hs hf
    · exact Or.inl fun r hr => List.mem_singleton.mp hr ▸ hc
  · refine Or.inl (not_not.mp fun ht => ?_)
    obtain ⟨err, ha⟩ := apply_of_missing (t := o.tag) hsplit ht
    simp [Succeeds, ha] at hs

/-! ## Creators -/

/-- `o` creates a record, or is a split. -/
inductive Creator (s : Session) (o : TaggedOperation) : Prop
  | clip {x r d p} : o.operation = .insertClip x r d p → x ∉ s.clips → Creator s o
  | track {x d p} : o.operation = .insertTrack x d p → x ∉ s.tracks → Creator s o
  | split {c f n} : o.operation = .splitClip c f n → Creator s o

theorem settled_or_creator (h : o.operation.IsSplit ∨ s.HasTargets o.operation) :
    s.Settled o.operation ∨ Creator s o := by
  rcases h with h | ht
  · obtain ⟨c, f, n, hop⟩ := TimelineOperation.isSplit_iff.mp h
    exact Or.inr (.split hop)
  rcases hop : o.operation with x | _ | _ | _ | _ | _ | x | _ | _ | _ | _
  case insertClip =>
    by_cases hx : x ∈ s.clips
    · exact Or.inl hx
    · exact Or.inr (.clip hop hx)
  case splitClip => exact Or.inr (.split hop)
  case insertTrack =>
    by_cases hx : x ∈ s.tracks
    · exact Or.inl hx
    · exact Or.inr (.track hop hx)
  all_goals
    rw [hop] at ht
    exact Or.inl ht

theorem Owned.settled_or_creator (h : Owned ops s) (ho : o ∈ ops) (hs : s.Succeeds o) :
    s.Settled o.operation ∨ Creator s o := by
  refine Session.settled_or_creator ?_
  rcases h.exec_succeeds ho hs with ht | ⟨c, f, hop⟩
  · exact Or.inr ht
  · exact Or.inl (TimelineOperation.isSplit_iff.mpr ⟨c, f, c, hop⟩)

theorem Creator.metadata (h : Creator s o) (s' : Session) : (s'.exec o).metadata = s'.metadata := by
  rcases h with ⟨hop, -⟩ | ⟨hop, -⟩ | hop
  all_goals simp only [exec, hop, apply]
  · split <;> rfl
  · split <;> rfl
  · rename_i c f n
    have hstep := applySplit_step s' c f n o.tag
    generalize s'.applySplit c f n o.tag = r at hstep ⊢
    rcases hstep with _ | _ | _ | _ | _ | _ <;> rfl

theorem Creator.envelopes (h : Creator s o) (s' : Session) :
    (s'.exec o).envelopes = s'.envelopes := by
  rcases h with ⟨hop, -⟩ | ⟨hop, -⟩ | hop
  all_goals simp only [exec, hop, apply]
  · split <;> rfl
  · split <;> rfl
  · rename_i c f n
    have hstep := applySplit_step s' c f n o.tag
    generalize s'.applySplit c f n o.tag = r at hstep ⊢
    rcases hstep with _ | _ | _ | _ | _ | _ <;> rfl

/-- Creators that both apply leave the same tracks in either order. -/
theorem Creator.tracks_comm (ho : Creator s o) (hb : Creator s b) (ht : o.tag ≠ b.tag) :
    ((s.exec o).exec b).tracks = ((s.exec b).exec o).tracks := by
  ext1 z
  simp only [tracks_exec]
  rcases ho with ⟨hop, -⟩ | ⟨hop, hx⟩ | hop <;> rcases hb with ⟨hop', -⟩ | ⟨hop', hx'⟩ | hop' <;>
    simp only [hop, hop', TimelineOperation.editedTrack, reduceCtorEq, if_false,
      Option.some.injEq]
  rename_i x d p x' d' p'
  by_cases hz : x = z <;> by_cases hz' : x' = z
  · subst hz
    subst hz'
    have := TrackCrdt.fromInsert_comm ht x' d d' p p'
    rw [TrackCrdt.apply_eq_write, TrackCrdt.apply_eq_write] at this
    simp only [if_true, trackStep, hop, hop', BTreeMap.not_mem_iff.mp hx, Option.elim_none,
      Option.elim_some]
    exact congrArg some this
  · simp only [hz, hz', if_true, if_false]
  · simp only [hz, hz', if_true, if_false]
  · simp only [hz, hz', if_false]

theorem clips_exec_insert {x : ClipId} {r : TrackId} {d : ClipData} {p : UInt64}
    (hop : o.operation = .insertClip x r d p) (y : ClipId) :
    (s.exec o).clips[y]? = if x = y then
      some (s.clips[y]?.elim (.fromInsert r d p o.tag) (·.write o.operation.clipWrite o.tag))
      else s.clips[y]? := by
  rw [clips_exec (by rw [hop]; exact id)]
  simp only [hop, TimelineOperation.editedClip, Option.some.injEq, clipStep]

/-- Two inserts of clips, the first of them a new one, leave the same clips in either order. -/
theorem insert_insert (ht : o.tag ≠ b.tag) {x x' : ClipId} {r r' : TrackId} {d d' : ClipData}
    {p p' : UInt64} (hop : o.operation = .insertClip x r d p) (hx : x ∉ s.clips)
    (hop' : b.operation = .insertClip x' r' d' p') :
    ((s.exec o).exec b).clips = ((s.exec b).exec o).clips := by
  ext1 y
  rw [clips_exec_insert hop', clips_exec_insert hop, clips_exec_insert hop,
    clips_exec_insert hop']
  by_cases hy : x = y <;> by_cases hy' : x' = y
  · subst hy
    subst hy'
    have := ClipCrdt.fromInsert_comm ht x' r r' d d' p p'
    rw [ClipCrdt.apply_eq_write id, ClipCrdt.apply_eq_write id] at this
    simp only [if_true, hop, hop', BTreeMap.not_mem_iff.mp hx, Option.elim_none,
      Option.elim_some]
    exact congrArg some this
  · simp only [hy, hy', if_true, if_false]
  · simp only [hy, hy', if_true, if_false]
  · simp only [hy, hy', if_false]

theorem clips_exec_insertTrack {x : TrackId} {d : TrackData} {p : UInt64}
    (hop : o.operation = .insertTrack x d p) : (s.exec o).clips = s.clips := by
  ext1 y
  rw [clips_exec (by rw [hop]; exact id), hop]
  simp only [TimelineOperation.editedClip, reduceCtorEq, if_false]

/-- What a split does to each record: nothing, or the points and the child of `splitOff`. -/
theorem Owned.clips_exec_split (h : Owned ops s) (ho : o ∈ ops) {c f n}
    (hop : o.operation = .splitClip c f n) (hs : s.Succeeds o) :
    (c = n ∧ s.exec o = s) ∨ (c ≠ n ∧ c ∈ s.clips ∧ ∀ y, (s.exec o).clips[y]? =
      if n = y then some ((s.clips[y]?.map (·.revive o.tag)).getD (childRecord ⟨c, f⟩ o.tag))
      else if c = y then s.clips[y]?.map (·.recordSplit f n) else s.clips[y]?) := by
  rcases h.split ho hop with ⟨e, -, he⟩ | ⟨-, -, hf, -⟩ | ⟨e, hc, -, he⟩
  · exact Or.inl ⟨e, he⟩
  · exact absurd hs hf
  · exact Or.inr ⟨e, hc, fun y => by rw [he, clips_splitOff]⟩

theorem Owned.succeeds_exec (h : Owned ops s) (ho : o ∈ ops) (hso : s.Succeeds o) :
    (s.exec b).Succeeds o := by
  rcases h.exec_succeeds ho hso with ht | ⟨c, f, hop⟩
  · exact succeeds_of_hasTargets ht.exec
  · rw [Succeeds, hop]
    exact congrArg Prod.fst (if_pos rfl : (s.exec b).applySplit c f c o.tag = _)

section

variable (H : OneOwner ops) (h : Owned ops s) (ho : o ∈ ops) (hb : b ∈ ops) (hsb : s.Succeeds b)

include H h ho hb hsb

theorem Owned.insertTrack_split {x d p} (hop : o.operation = .insertTrack x d p)
    {c f n} (hop' : b.operation = .splitClip c f n) :
    ((s.exec o).exec b).clips = ((s.exec b).exec o).clips := by
  have hc := clips_exec_insertTrack (s := s) hop
  rw [clips_exec_insertTrack hop]
  ext1 y
  rcases h.clips_exec_split hb hop' hsb with ⟨e, he⟩ | ⟨e, -, hy⟩ <;>
    rcases (h.exec H ho).clips_exec_split hb hop' (h.succeeds_exec hb hsb) with
      ⟨e', he'⟩ | ⟨e', -, hy'⟩
  · rw [he, he', hc]
  · exact absurd e e'
  · exact absurd e' e
  · rw [hy, hy', hc]

theorem Owned.insert_split {x r d p} (hop : o.operation = .insertClip x r d p) (hx : x ∉ s.clips)
    {c f n} (hop' : b.operation = .splitClip c f n) :
    ((s.exec o).exec b).clips = ((s.exec b).exec o).clips := by
  have hnx : n ≠ x := fun e => H.not_inserted b hb o ho hop' (e ▸ hop)
  ext1 y
  rcases h.clips_exec_split hb hop' hsb with ⟨rfl, he⟩ | ⟨hcn, hc, hy⟩
  · rcases (h.exec H ho).clips_exec_split hb hop' (h.succeeds_exec hb hsb) with
      ⟨-, he'⟩ | ⟨hcn, -⟩
    · rw [he, he']
    · exact absurd rfl hcn
  · rcases (h.exec H ho).clips_exec_split hb hop' (h.succeeds_exec hb hsb) with
      ⟨e, -⟩ | ⟨-, -, hy'⟩
    · exact absurd e hcn
    have hcx : c ≠ x := fun e => hx (e ▸ hc)
    rw [hy', clips_exec_insert hop, clips_exec_insert hop, hy]
    by_cases hxy : x = y
    · subst hxy
      simp only [hnx, hcx, if_true, if_false]
    · simp only [hxy, if_false]

variable (ht : o.tag ≠ b.tag) (hso : s.Succeeds o)

include ht hso

theorem Owned.split_split {c f n c' f' n'} (hop : o.operation = .splitClip c f n)
    (hop' : b.operation = .splitClip c' f' n') :
    ((s.exec o).exec b).clips = ((s.exec b).exec o).clips := by
  ext1 y
  rcases h.clips_exec_split ho hop hso with ⟨rfl, he⟩ | ⟨hcn, hc, hy⟩
  · rcases (h.exec H hb).clips_exec_split ho hop (h.succeeds_exec ho hso) with
      ⟨-, he'⟩ | ⟨hcn, -⟩
    · rw [he, he']
    · exact absurd rfl hcn
  rcases (h.exec H hb).clips_exec_split ho hop (h.succeeds_exec ho hso) with
    ⟨e, -⟩ | ⟨-, -, hy'⟩
  · exact absurd e hcn
  rcases h.clips_exec_split hb hop' hsb with ⟨rfl, he⟩ | ⟨hcn', hc', hz⟩
  · rcases (h.exec H ho).clips_exec_split hb hop' (h.succeeds_exec hb hsb) with
      ⟨-, he'⟩ | ⟨hcn', -⟩
    · rw [he, he']
    · exact absurd rfl hcn'
  rcases (h.exec H ho).clips_exec_split hb hop' (h.succeeds_exec hb hsb) with
    ⟨e, -⟩ | ⟨-, -, hz'⟩
  · exact absurd e hcn'
  rw [hz', hy, hy', hz]
  -- a parent that is also the other split's child is there already
  have hmem : ∀ {z}, z ∈ s.clips → ∃ d, s.clips[z]? = some d := BTreeMap.mem_iff.mp
  by_cases hn : n = y <;> by_cases hn' : n' = y
  · subst hn
    subst hn'
    obtain ⟨rfl, rfl⟩ := H.claim_eq o ho b hb hop hop'
    simp only [if_true, Option.map_some, Option.getD_some]
    rcases s.clips[n']? with _ | d
    · simp only [Option.map_none, Option.getD_none, childRecord_revive _ ht]
    · simp only [Option.map_some, Option.getD_some, ClipCrdt.revive_comm _ ht]
  · subst hn
    simp only [hn', if_true, if_false]
    split_ifs with hcn''
    · obtain ⟨d, hd⟩ := hmem (hcn'' ▸ hc')
      simp only [hd, Option.map_some, Option.getD_some, ClipCrdt.recordSplit_revive]
    · rfl
  · subst hn'
    simp only [hn, if_true, if_false]
    split_ifs with hcn''
    · obtain ⟨d, hd⟩ := hmem (hcn'' ▸ hc)
      simp only [hd, Option.map_some, Option.getD_some, ClipCrdt.recordSplit_revive]
    · rfl
  · simp only [hn, hn', if_false]
    split_ifs
    · simp only [Option.map_map, Function.comp_def, ClipCrdt.recordSplit_comm _ f f']
    · rfl
    · rfl
    · rfl

/-- Creators that both apply leave the same clips in either order. -/
theorem Owned.creators_clips (co : Creator s o) (cb : Creator s b) :
    ((s.exec o).exec b).clips = ((s.exec b).exec o).clips := by
  rcases co with @⟨x, r, d, p, hop, hx⟩ | @⟨x, d, p, hop, -⟩ | @⟨c, f, n, hop⟩ <;>
    rcases cb with @⟨x', r', d', p', hop', hx'⟩ | @⟨x', d', p', hop', -⟩ | @⟨c', f', n', hop'⟩
  · exact insert_insert ht hop hx hop'
  · rw [clips_exec_insertTrack hop']
    ext1 y
    rw [clips_exec_insert hop, clips_exec_insert hop, clips_exec_insertTrack hop']
  · exact h.insert_split H ho hb hsb hop hx hop'
  · rw [clips_exec_insertTrack hop]
    ext1 y
    rw [clips_exec_insert hop', clips_exec_insert hop', clips_exec_insertTrack hop]
  · rw [clips_exec_insertTrack hop, clips_exec_insertTrack hop', clips_exec_insertTrack hop,
      clips_exec_insertTrack hop']
  · exact h.insertTrack_split H ho hb hsb hop hop'
  · exact (h.insert_split H hb ho hso hop' hx' hop).symm
  · exact (h.insertTrack_split H hb ho hso hop' hop).symm
  · exact h.split_split H ho hb hsb ht hso hop hop'

end

/-- Operations of one owner each that apply commute and stay applicable. -/
theorem confluent_of_oneOwner (H : OneOwner ops) (T : TagsDistinct ops) :
    machine.Confluent (· ∈ ops) (Owned ops) where
  inv_step h ho _ := h.exec H ho
  enabled_step h ho _ _ hs _ := h.succeeds_exec ho hs
  step_comm {s o b} h ho hb hne hso hsb := by
    have ht := T o ho b hb hne
    rcases h.settled_or_creator ho hso with hset | co
    · exact hset.exec_comm ht
    rcases h.settled_or_creator hb hsb with hset | cb
    · exact (hset.exec_comm ht.symm).symm
    change (s.exec o).exec b = (s.exec b).exec o
    refine Session.ext ?_ (co.tracks_comm cb ht) (h.creators_clips H ho hb hsb ht hso co cb) ?_
    · rw [cb.metadata, co.metadata, co.metadata, cb.metadata]
    · rw [cb.envelopes, co.envelopes, co.envelopes, cb.envelopes]

/-- Attempts that fail may be left out. -/
theorem Owned.replay_applied (H : OneOwner ops) :
    ∀ {l : List TaggedOperation} {s : Session}, Owned ops s → (∀ o ∈ l, o ∈ ops) →
      s.replay l = s.replay (s.applied l) ∧ s.Applies (s.applied l)
  | [], _, _, _ => ⟨rfl, trivial⟩
  | o :: l, s, h, hl => by
    have ho := hl o List.mem_cons_self
    have ih := replay_applied H (h.exec H ho) fun b hb => hl b (List.mem_cons_of_mem o hb)
    by_cases hs : s.Succeeds o
    · simp only [applied, hs, if_true]
      exact ⟨ih.1, hs, ih.2⟩
    · simp only [applied, hs, if_false]
      rw [h.exec_of_fails ho hs] at ih ⊢
      refine ⟨?_, ih.2⟩
      calc s.replay (o :: l) = (s.exec o).replay l := rfl
        _ = s.replay (s.applied l) := by rw [h.exec_of_fails ho hs, ih.1]

theorem Owned.not_succeeds (h : Owned ops s) (ho : o ∈ ops) (ht : s.Misses o.operation) :
    ¬s.Succeeds o := fun hs =>
  (h.exec_succeeds ho hs).elim ht.1 fun ⟨c, f, hop⟩ => ht.2 c f hop

/-- Two lists of attempts on the empty session that apply the same operations, up to ones that
miss a target where they end, end in the same session. -/
theorem replay_eq_of_oneOwner (H : OneOwner ops) (T : TagsDistinct ops) (hnd : ops.Nodup)
    {l m p q : List TaggedOperation}
    (hl : ∀ o ∈ l, o ∈ ops) (hm : ∀ o ∈ m, o ∈ ops) (hlp : (new.applied l ++ p).Perm ops)
    (hmq : (new.applied m ++ q).Perm ops)
    (hp : ∀ o ∈ p, (new.replay l).Misses o.operation)
    (hq : ∀ o ∈ q, (new.replay m).Misses o.operation) :
    new.replay l = new.replay m ∧ (new.applied l).Perm (new.applied m) ∧ p.Perm q := by
  obtain ⟨hl₁, hl₂⟩ := owned_new.replay_applied H hl
  obtain ⟨hm₁, hm₂⟩ := owned_new.replay_applied H hm
  have hin : ∀ o ∈ new.applied l ++ p, o ∈ ops := fun o ho => hlp.mem_iff.mp ho
  have hin' : ∀ o ∈ new.applied m ++ q, o ∈ ops := fun o ho => hmq.mem_iff.mp ho
  have C := confluent_of_oneOwner H T
  have hend : Owned ops (new.replay l) := hl₁ ▸
    C.inv_run (fun o ho => hin o (List.mem_append_left _ ho)) hl₂ owned_new
  have hend' : Owned ops (new.replay m) := hm₁ ▸
    C.inv_run (fun o ho => hin' o (List.mem_append_left _ ho)) hm₂ owned_new
  have hp' : ∀ o ∈ p, ¬(new.replay (new.applied l)).Succeeds o := fun o ho => by
    rw [← hl₁]
    exact hend.not_succeeds (hin o (List.mem_append_right _ ho)) (hp o ho)
  have hq' : ∀ o ∈ q, ¬(new.replay (new.applied m)).Succeeds o := fun o ho => by
    rw [← hm₁]
    exact hend'.not_succeeds (hin' o (List.mem_append_right _ ho)) (hq o ho)
  rw [hl₁, hm₁]
  exact C.run_eq hin (hlp.nodup_iff.mpr hnd) (hlp.trans hmq.symm) hl₂ hm₂ owned_new hp' hq'

end Session

end AvSync
