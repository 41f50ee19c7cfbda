import AvSync.Proofs.Shows
import AvSync.Proofs.Tags

/-!
# What a newest edit does

An edit of an existing clip rewrites its record and no other (`rewrites_exec`), and a write whose
tag is greater than every tag in the session sets every register it names. A move therefore keeps
the clip exactly when its own duration gives it its visible length and no clip above it dictates
another track (`moveClip_keeps_iff`).
-/

namespace AvSync

namespace LwwReg

variable {α : Type} {r : LwwReg α} {t : OpTag}

theorem setOption_of_lt (h : r.tag < t) (v : Option α) :
    r.setOption v t = v.elim r fun v => ⟨v, t⟩ := by
  rcases v with _ | v
  · rfl
  · exact set_of_lt v h

end LwwReg

namespace Session

variable {s s' : Session} {o : TaggedOperation} {x y : ClipId} {c d : ClipCrdt}
  {above : List ClipCrdt} {t : OpTag} {r : ResolvedClip} {a n : UInt64}

theorem Newest.clip (h : s.Newest t) (hx : s.clips[x]? = some c) : ∀ u ∈ c.tags, u < t :=
  (tagsIn_iff.mpr h).clips x c hx

theorem Newest.ne_initial (h : s.Newest t) : t ≠ .initial := by
  have hname : s.metadata.name.tag ∈ TimelineCrdt.registerTags s :=
    List.mem_append_right _ List.mem_cons_self
  rintro rfl
  exact (h _ hname).not_ge (OpTag.initial_le _)

/-- Only the record of one clip differs. -/
structure Rewrites (s s' : Session) (x : ClipId) (d : ClipCrdt) : Prop where
  record : s'.clips[x]? = some d
  others : ∀ y, y ≠ x → s'.clips[y]? = s.clips[y]?
  tracks : s'.tracks = s.tracks
  metadata : s'.metadata = s.metadata
  envelopes : s'.envelopes = s.envelopes

theorem rewrites_exec (hop : o.operation.editedClip = some x) (hx : s.clips[x]? = some c) :
    Rewrites s (s.exec o) x (c.write o.operation.clipWrite o.tag) := by
  have hmem : x ∈ s.clips := BTreeMap.mem_iff.mpr ⟨c, hx⟩
  have hone : ∀ r ∈ [RequiredTarget.clip x], s.HasTarget r := by
    intro r hr
    rw [List.mem_singleton.mp hr]
    exact hmem
  have hset : s.exec o = s.modifyClip x (·.write o.operation.clipWrite o.tag) := by
    have hs : s.Settled o.operation := by
      rcases h : o.operation with _ | _ | _ | _ | _ | _ | _ | _ | _ | _ | _ <;>
        rw [h] at hop <;> cases hop
      · exact hmem
      all_goals exact hone
    rw [hs.exec_eq]
    rcases h : o.operation with _ | _ | _ | _ | _ | _ | _ | _ | _ | _ | _ <;>
      rw [h] at hop <;> cases hop <;> rfl
  rw [hset]
  refine ⟨?_, fun y hy => ?_, rfl, rfl, rfl⟩
  · rw [clips_modifyClip, if_pos rfl, hx, Option.map_some]
  · rw [clips_modifyClip, if_neg hy.symm]

namespace Rewrites

variable (h : Rewrites s s' x d)

include h

theorem symm (hx : s.clips[x]? = some c) : Rewrites s' s x c :=
  ⟨hx, fun y hy => (h.others y hy).symm, h.tracks.symm, h.metadata.symm, h.envelopes.symm⟩

theorem liveTrack {t : TrackId} : s'.LiveTrack t ↔ s.LiveTrack t := by
  rw [LiveTrack, h.tracks, LiveTrack]

/-- The records above the clip stay as they were. -/
theorem lineage (hl : s.Lineage x (c :: above)) (hp : d.parent = c.parent) :
    s'.Lineage x (d :: above) := by
  rcases hl with ⟨hx, htop⟩ | @⟨_, _, link, _, hx, hlink, hpar⟩
  · refine .top h.record fun link hlink => ?_
    rw [hp] at hlink
    have hne : link.clip ≠ x := fun he => htop link hlink (he ▸ BTreeMap.mem_iff.mpr ⟨c, hx⟩)
    rw [BTreeMap.not_mem_iff, h.others _ hne, ← BTreeMap.not_mem_iff]
    exact htop link hlink
  · refine .child h.record (hp.trans hlink) (hpar.transfer fun y hy => h.others y ?_)
    rintro rfl
    exact (Lineage.child hx hlink hpar).not_descends hlink hy

theorem rel {R : ClipCrdt → ClipCrdt → Prop} (hR : ∀ e, R e e) (hx : s.clips[x]? = some c)
    (hcd : R c d) (y : ClipId) : Option.Rel R s.clips[y]? s'.clips[y]? := by
  by_cases hy : y = x
  · rw [hy, hx, h.record]
    exact .some hcd
  · exact rel_of_eq hR (h.others y hy).symm

/-- No link changes when the rewritten record keeps its own. -/
theorem rel_parent (hx : s.clips[x]? = some c) (hp : c.parent = d.parent) (y : ClipId) :
    Option.Rel (fun c d => c.parent = d.parent) s.clips[y]? s'.clips[y]? :=
  h.rel (R := fun c d => c.parent = d.parent) (fun _ => rfl) hx hp y

theorem rangeOf_self (hl : s.Lineage x (c :: above)) (hspan : SameSpan c d) :
    s.rangeOf x = s'.rangeOf x :=
  hl.rangeOf_congr (fun y _ => h.rel_parent hl.clips hspan.parent y)
    (fun y _ => h.rel .refl hl.clips hspan y) fun y _ hy => rel_of_eq .refl (h.others y hy).symm

end Rewrites

theorem Lineage.value_iff (hl : s.Lineage x (c :: above)) (φ : Field) (hw : φ.Written c)
    {a : Inherited} (ha : s.valuesOf x = some a) :
    φ.get a = φ.value c ↔ ¬φ.Overrides above (φ.value c) := by
  have hset := hl.valuesOf φ
  rw [ha, Option.map_some] at hset
  have : Inheritance.settled φ.Written φ.value ([] ++ c :: above) = some (φ.value c) ↔
      ¬φ.Overrides above (φ.value c) :=
    Inheritance.settled_eq_nearest_iff hw fun _ hc => absurd hc List.not_mem_nil
  rw [← this, List.nil_append, hset, Option.some.injEq]

theorem Lineage.rangeOf_own (h : s.Lineage x (c :: above)) (hown : c.OwnGeometry)
    (hs : c.startFrame.tag ≠ .initial) (hd : c.durationFrames.tag ≠ .initial ∨ c.parent ≠ none) :
    s.rangeOf x = some (ownRange c) := by
  rw [h.rangeOf_eq]
  rcases hp : c.parent with _ | link
  · exact if_neg (not_or.mpr ⟨hs, hd.resolve_right (not_not.mpr hp)⟩)
  · exact if_pos (hown.resolve_left (by rw [hp]; exact Option.some_ne_none link))

/-- The range of a clip with geometry of its own is the one in its registers. -/
theorem Lineage.eq_ownRange {g : UInt64 × UInt64} (hl : s.Lineage x (c :: above))
    (hown : c.OwnGeometry) (hr : s.rangeOf x = some g) : g = ownRange c := by
  rw [hl.rangeOf_eq] at hr
  rcases hp : c.parent with _ | link
  · rw [hp] at hr
    simp only at hr
    split_ifs at hr
    exact (Option.some.inj hr).symm
  · have hdet : c.detached = true := hown.resolve_left (by rw [hp]; exact Option.some_ne_none link)
    rw [hp] at hr
    simp only [hdet, if_true] at hr
    exact (Option.some.inj hr).symm

/-- A clip with a range has geometry of its own once it is detached and has a start. -/
theorem Lineage.rangeOf_detached {g : UInt64 × UInt64} {l : List ClipCrdt}
    (hl : s.Lineage x (c :: above)) (hg : s.rangeOf x = some g) (hl' : s'.Lineage x (d :: l))
    (hp : d.parent = c.parent) (hdet : d.detached = true) (hs : d.startFrame.tag ≠ .initial)
    (hdur : d.durationFrames = c.durationFrames) : s'.rangeOf x = some (ownRange d) := by
  refine hl'.rangeOf_own (.inr hdet) hs ?_
  by_cases hpar : c.parent = none
  · -- a root with a range has written its duration
    refine .inl fun he => ?_
    rw [hdur] at he
    rw [hl.rangeOf_eq, hpar] at hg
    exact Option.some_ne_none g (hg.symm.trans (if_pos (Or.inr he)))
  · exact .inr (hp.trans_ne hpar)

/-! ## Moving a clip -/

theorem moveClip_keeps_iff (ops : List TaggedOperation) {track : TrackId} {start position : UInt64}
    (hr : (new.replay ops).resolveClip x = some (some r)) (hvis : r.visible = true)
    (ho : o.operation = .moveClip x track start position)
    (ht : (new.replay ops).LiveTrack track) (hnew : (new.replay ops).Newest o.tag) :
    (∃ r', ((new.replay ops).exec o).resolveClip x = some (some r') ∧ r'.visible = true ∧
      r'.values.trackId = track ∧ r'.startFrame = start ∧ r'.durationFrames = r.durationFrames) ↔
    (new.replay ops).KeptByMove x track start r.durationFrames := by
  generalize new.replay ops = s at *
  obtain ⟨l, hl⟩ := lineage_of_resolveClip hr
  obtain ⟨c, above, hc, rfl⟩ := hl.head
  obtain ⟨a, -, hra⟩ := hl.resolveClip_eq
  obtain rfl := Option.some.inj (Option.some.inj (hra.symm.trans hr))
  obtain ⟨halive, -, p, hp, hpos⟩ := resolved_visible.mp hvis
  obtain ⟨g, hg, rfl⟩ := Option.map_eq_some_iff.mp hp
  have hrw := rewrites_exec (o := o) (by rw [ho]; rfl) hc
  have htags := hnew.clip hc
  simp only [ClipCrdt.tags, List.forall_mem_cons] at htags
  obtain ⟨-, htrack, hstart, -⟩ := htags
  rw [ho] at hrw
  set d := c.write (TimelineOperation.clipWrite (.moveClip x track start position)) o.tag with hd
  have hdt : d.track = ⟨track, o.tag⟩ := LwwReg.set_of_lt _ htrack
  have hds : d.startFrame = ⟨start, o.tag⟩ := LwwReg.set_of_lt _ hstart
  have hl' := hrw.lineage hl rfl
  obtain ⟨a', ha', hra'⟩ := hl'.resolveClip_eq
  have hrange : (s.exec o).rangeOf x = some (ownRange d) :=
    hl.rangeOf_detached hg hl' rfl (Bool.or_true _) (by rw [hds]; exact hnew.ne_initial) rfl
  have hlen : d.visibleLength (ownRange d) = c.lengthAt start := by
    rw [ownRange, hds]
    rfl
  rw [hrange, Option.map_some, hlen] at hra'
  have htrk := hl'.value_iff .track (by
    change d.track.tag ≠ .initial
    rw [hdt]
    exact hnew.ne_initial) ha'
  have hval : Field.track.value d = track := by rw [Field.value, Field.reg, hdt]
  rw [hval] at htrk
  have hkept : s.KeptByMove x track start (c.visibleLength g) ↔
      ¬Field.track.Overrides above track ∧ c.lengthAt start = c.visibleLength g := by
    constructor
    · rintro ⟨c', above', hl'', h⟩
      obtain ⟨rfl, rfl⟩ := List.cons.inj (hl.unique hl'')
      exact h
    · exact fun h => ⟨c, above, hl, h⟩
  have hdur : (s.resolved x c a
      ((s.rangeOf x).map fun r => (r.1, c.visibleLength r))).durationFrames =
        c.visibleLength g := by
    rw [hg]
    rfl
  rw [hdur, hkept, ← htrk]
  have hstartd : d.startFrame.value = start := by rw [hds]
  constructor
  · rintro ⟨r', hr', -, htr, -, hlen'⟩
    obtain rfl := Option.some.inj (Option.some.inj (hra'.symm.trans hr'))
    exact ⟨htr, hlen'⟩
  · rintro ⟨htr, hlen'⟩
    refine ⟨_, hra', resolved_visible.mpr ⟨halive, ?_, _, rfl, ?_⟩, htr, hstartd, hlen'⟩
    · rw [hrw.liveTrack]
      have htr : a'.trackId = track := htr
      rw [htr]
      exact ht
    · exact hlen' ▸ hpos

/-- A track, and a clip of 1000 frames split at 400. -/
def splitOps : List TaggedOperation :=
  [.of 1 1 (.insertTrack ⟨1⟩ (.new "t") 0), .of 2 1 (.insertClip ⟨1⟩ ⟨1⟩ (.new "c" 0 1000) 0),
    .of 3 1 (.splitClip ⟨1⟩ 400 ⟨2⟩)]

theorem splitOps_liveTrack : (new.replay splitOps).LiveTrack ⟨1⟩ := ⟨_, rfl, rfl⟩

theorem splitOps_newest (op : TimelineOperation) :
    (new.replay splitOps).Newest (TaggedOperation.of 4 1 op).tag := by
  change (new.replay splitOps).Newest ⟨4, ⟨1⟩⟩
  decide +kernel

theorem splitOps_move_keeps : ∃ r, (new.replay splitOps).resolveClip ⟨1⟩ = some (some r) ∧
    ((∃ r', ((new.replay splitOps).exec (.of 4 1 (.moveClip ⟨1⟩ ⟨1⟩ 500 1))).resolveClip ⟨1⟩ =
        some (some r') ∧ r'.visible = true ∧ r'.values.trackId = ⟨1⟩ ∧ r'.startFrame = 500 ∧
          r'.durationFrames = r.durationFrames) ↔
      (new.replay splitOps).KeptByMove ⟨1⟩ ⟨1⟩ 500 r.durationFrames) :=
  ⟨_, rfl, moveClip_keeps_iff splitOps rfl rfl rfl splitOps_liveTrack (splitOps_newest _)⟩

/-- The piece split off has no duration of its own: moved, it is gone. -/
theorem splitOps_move_loses : (∃ r, (new.replay splitOps).resolveClip ⟨2⟩ = some (some r) ∧
      r.visible = true ∧ r.durationFrames = 600) ∧ (new.replay splitOps).LiveTrack ⟨1⟩ ∧
    (new.replay splitOps).Newest (TaggedOperation.of 4 1 (.moveClip ⟨2⟩ ⟨1⟩ 500 1)).tag ∧
      ∃ r', ((new.replay splitOps).exec (.of 4 1 (.moveClip ⟨2⟩ ⟨1⟩ 500 1))).resolveClip ⟨2⟩ =
        some (some r') ∧ r'.visible = false ∧ r'.durationFrames = 0 :=
  ⟨⟨_, rfl, rfl, rfl⟩, splitOps_liveTrack, splitOps_newest _, _, rfl, rfl, rfl⟩

/-! ## Deleting a clip -/

theorem forest_exec_of_not_split (hf : s.Forest) (h : ¬o.operation.IsSplit) :
    (s.exec o).Forest := by
  rw [Forest, parentOf_exec_of_not_split h]
  exact hf

theorem not_isSplit_of_editedClip (h : o.operation.editedClip = some x) : ¬o.operation.IsSplit := by
  intro hs
  obtain ⟨c, f, n, hop⟩ := TimelineOperation.isSplit_iff.mp hs
  rw [hop] at h
  cases h

/-- Pieces that follow a deleted clip have no range. -/
theorem Rewrites.rangeOf_follower (h : Rewrites s s' x d) (hf : s'.Forest)
    (hd : d.alive.value = false) (hy : s.Follows y x) : y = x ∨ s'.rangeOf y = none := by
  induction hy with
  | refl x => exact .inl rfl
  | @step y x c link hc hl hdet _ ih =>
    by_cases hyx : y = x
    · exact .inl hyx
    · refine .inr ?_
      have hc' : s'.clips[y]? = some c := (h.others y hyx).trans hc
      obtain ⟨l, hlin⟩ := hf.lineage (BTreeMap.mem_iff.mpr ⟨c, hc'⟩)
      obtain ⟨c₁, m, hc₁, rfl⟩ := hlin.head
      obtain rfl := Option.some.inj (hc'.symm.trans hc₁)
      rw [hlin.rangeOf_eq, hl]
      simp only [hdet, Bool.false_eq_true, if_false]
      rcases ih h with hlx | hnone
      · rw [hlx, h.record, Option.bind_some, hd]
        rfl
      · simp only [hnone, Option.map_none, ite_self, Option.bind_fun_none]

theorem Rewrites.shows_follower (h : Rewrites s s' x d) (hf : s'.Forest)
    (hd : d.alive.value = false) (hy : s.Follows y x) : s'.shows y = none := by
  refine Option.eq_none_iff_forall_ne_some.mpr fun u hu => ?_
  obtain ⟨e, -, q, he, hlive, -, hq, -⟩ := shows_eq_some.mp hu
  rcases h.rangeOf_follower hf hd hy with rfl | hnone
  · obtain rfl := Option.some.inj (h.record.symm.trans he)
    rw [hd] at hlive
    cases hlive
  · rw [hnone] at hq
    cases hq

/-- With its values and its link kept, a rewritten clip changes only what follows it. -/
theorem Rewrites.shows_of_not_follows (h : Rewrites s s' x d) (hf : s.Forest)
    (hc : s.clips[x]? = some c) (hfields : SameFields c d) (hy : ¬s.Follows y x) :
    s.shows y = s'.shows y := by
  have hne : ∀ {z}, s.Follows y z → z ≠ x := fun hz he => hy (he ▸ hz)
  by_cases hmem : y ∈ s.clips
  · obtain ⟨l, hl⟩ := hf.lineage hmem
    refine shows_congr (rel_of_eq (fun _ => ⟨rfl, rfl⟩) (h.others y (hne (.refl y))).symm)
      (hl.valuesOf_congr fun z _ => h.rel .refl hc hfields z) ?_ fun t => h.liveTrack.symm
    exact hl.rangeOf_congr (fun z _ => h.rel_parent hc hfields.parent z)
      (fun z hz => rel_of_eq .refl (h.others z (hne hz)).symm)
      fun z hz _ => rel_of_eq .refl (h.others z (hne hz)).symm
  · have hmem' : y ∉ s'.clips := by
      rw [BTreeMap.not_mem_iff, h.others y (hne (.refl y)), ← BTreeMap.not_mem_iff]
      exact hmem
    rw [shows_of_not_mem hmem, shows_of_not_mem hmem']

/-- On the same tracks, clips that are left out leave the others in their order. -/
theorem clips_sublist {v v' : SessionView} {P : ClipView → Prop} (hv : s.materialize = some v)
    (hv' : s'.materialize = some v') (htracks : v'.tracks = v.tracks)
    (hmem : ∀ u, u ∈ v'.clips ↔ u ∈ v.clips ∧ P u) : v'.clips.Sublist v.clips := by
  classical
  have heq : v'.clips = v.clips.filter fun u => P u := by
    refine clips_ext (htracks ▸ pairwise_clips_of_materialize hv')
      ((pairwise_clips_of_materialize hv).sublist List.filter_sublist)
      (nodup_clips_of_materialize hv')
      ((nodup_clips_of_materialize hv).sublist (List.filter_sublist.map _)) fun u => ?_
    rw [hmem, List.mem_filter, decide_eq_true_eq]
  rw [heq]
  exact List.filter_sublist

/-- Deleting a visible clip removes it and the pieces that follow it, and nothing else. -/
theorem deleteClip_view (ops : List TaggedOperation) {v : SessionView} {w : ClipView}
    (hv : (new.replay ops).materialize = some v) (hw : w ∈ v.clips)
    (ho : o.operation = .deleteClip w.clipId) (hnew : (new.replay ops).Newest o.tag) :
    ∃ v', ((new.replay ops).exec o).materialize = some v' ∧ v'.metadata = v.metadata ∧
      v'.tracks = v.tracks ∧ v'.envelopes = v.envelopes ∧ v'.clips.Sublist v.clips ∧
      ∀ u, u ∈ v'.clips ↔ u ∈ v.clips ∧ ¬(new.replay ops).Follows u.clipId w.clipId := by
  generalize new.replay ops = s at *
  have hf := materialize_returns_iff.mp ⟨v, hv⟩
  have hedit : o.operation.editedClip = some w.clipId := by rw [ho]; rfl
  have hf' : (s.exec o).Forest := forest_exec_of_not_split hf (not_isSplit_of_editedClip hedit)
  obtain ⟨v', hv'⟩ := hf'.materialize
  obtain ⟨c, a, p, hc, halive, -⟩ := shows_eq_some.mp ((mem_clips_iff hv).mp hw)
  have hrw := rewrites_exec hedit hc
  have htag : c.alive.tag < o.tag := hnew.clip hc _ List.mem_cons_self
  rw [ho] at hrw
  set d := c.write (TimelineOperation.clipWrite (.deleteClip w.clipId)) o.tag with hd
  have hdead : d.alive.value = false := by
    have : d.alive = ⟨false, o.tag⟩ := LwwReg.set_of_lt _ htag
    rw [this]
  have hfields : SameFields c d :=
    ⟨rfl, fun φ => by cases φ <;> rfl, fun φ => by cases φ <;> rfl⟩
  have hmem : ∀ u, u ∈ v'.clips ↔ u ∈ v.clips ∧ ¬s.Follows u.clipId w.clipId := by
    intro u
    rw [mem_clips_iff hv', mem_clips_iff hv]
    by_cases hu : s.Follows u.clipId w.clipId
    · simp [hrw.shows_follower hf' hdead hu, hu]
    · simp [hrw.shows_of_not_follows hf hc hfields hu, hu]
  obtain ⟨hm, htr, henv⟩ := view_parts hv
  obtain ⟨hm', htr', henv'⟩ := view_parts hv'
  have htracks : v'.tracks = v.tracks := by
    rw [htr, htr', trackViews, trackViews, hrw.tracks]
  refine ⟨v', hv', ?_, htracks, ?_, clips_sublist hv hv' htracks hmem, hmem⟩
  · rw [hm, hm', metadataView, metadataView, hrw.metadata]
  · rw [henv, henv', hrw.envelopes]

theorem splitOps_delete_view : ∃ v w, (new.replay splitOps).materialize = some v ∧ w ∈ v.clips ∧
    w.clipId = ⟨2⟩ ∧
      ∃ v', ((new.replay splitOps).exec (.of 4 1 (.deleteClip w.clipId))).materialize = some v' ∧
        v'.metadata = v.metadata ∧ v'.tracks = v.tracks ∧ v'.envelopes = v.envelopes ∧
        v'.clips.Sublist v.clips ∧
          ∀ u, u ∈ v'.clips ↔ u ∈ v.clips ∧ ¬(new.replay splitOps).Follows u.clipId w.clipId :=
  ⟨_, _, rfl, List.mem_cons_of_mem _ List.mem_cons_self, rfl,
    deleteClip_view splitOps rfl (List.mem_cons_of_mem _ List.mem_cons_self) rfl
      (splitOps_newest _)⟩

/-- The piece split off goes with the clip it comes from. -/
theorem splitOps_delete_takes_piece : ∃ v v', (new.replay splitOps).materialize = some v ∧
    v.clips.map (·.clipId) = [⟨1⟩, ⟨2⟩] ∧
      (new.replay splitOps).Newest (TaggedOperation.of 4 1 (.deleteClip ⟨1⟩)).tag ∧
        ((new.replay splitOps).exec (.of 4 1 (.deleteClip ⟨1⟩))).materialize = some v' ∧
          v'.clips = [] :=
  ⟨_, _, rfl, rfl, splitOps_newest _, rfl, rfl⟩

/-! ## Inserting a clip -/

/-- The visible length of an inserted range is the inserted length, capped by the first split
point, exactly when it ends before the frames do. -/
theorem lengthAt_eq_iff (hd : d.durationFrames.value = n) : d.lengthAt a =
      min (d.firstSplitOffset.getD n) n ↔
    a.toNat + (min (d.firstSplitOffset.getD n) n).toNat ≤ u64Max.toNat := by
  rw [← UInt64.toNat_inj, ClipCrdt.lengthAt, ClipCrdt.visibleLength, hd]
  have ha := toNat_le_u64Max a
  have hn := toNat_le_u64Max n
  simp only [toNat_min, toNat_saturatingSub, toNat_saturatingAdd, u64Max_toNat]
  rcases d.firstSplitOffset with _ | g
  · simp only [Option.getD_none, toNat_saturatingSub, toNat_saturatingAdd]
    omega
  · simp only [Option.getD_some]
    omega

/-- The record holds what an insert writes. -/
structure HoldsInsert (d : ClipCrdt) (track : TrackId) (clip : ClipData) (position : UInt64) :
    Prop where
  alive : d.alive.value = true
  written : ∀ φ : Field, φ.Written d
  value : ∀ φ : Field, φ.value d = φ.get (insertedValues track clip position)
  startFrame : d.startFrame.value = clip.startFrame ∧ d.startFrame.tag ≠ .initial
  durationFrames : d.durationFrames.value = clip.durationFrames ∧ d.durationFrames.tag ≠ .initial

theorem HoldsInsert.fromInsert (ht : t ≠ .initial) (track : TrackId) (clip : ClipData)
    (position : UInt64) :
    HoldsInsert (.fromInsert track clip position t) track clip position where
  alive := rfl
  written φ := by cases φ <;> exact ht
  value φ := by cases φ <;> rfl
  startFrame := ⟨rfl, ht⟩
  durationFrames := ⟨rfl, ht⟩

theorem HoldsInsert.write (h : ∀ u ∈ c.tags, u < t) (ht : t ≠ .initial) (x : ClipId)
    (track : TrackId) (clip : ClipData) (position : UInt64) :
    HoldsInsert (c.write (TimelineOperation.clipWrite (.insertClip x track clip position)) t)
      track clip position := by
  simp only [ClipCrdt.tags, List.forall_mem_cons] at h
  obtain ⟨h1, h2, h3, h4, h5, h6, h7, h8, h9, h10, h11, -⟩ := h
  constructor
  · exact congrArg LwwReg.value (LwwReg.set_of_lt true h1)
  · rintro (_ | _ | _ | _ | _ | _ | _ | _) <;>
      simp only [Field.Written, Field.reg, ClipCrdt.write, TimelineOperation.clipWrite,
        LwwReg.setOption, LwwReg.set_of_lt, h2, h5, h6, h7, h8, h9, h10, h11] <;> exact ht
  · rintro (_ | _ | _ | _ | _ | _ | _ | _) <;>
      simp only [Field.value, Field.reg, ClipCrdt.write, TimelineOperation.clipWrite,
        LwwReg.setOption, LwwReg.set_of_lt, h2, h5, h6, h7, h8, h9, h10, h11] <;> rfl
  · simp only [ClipCrdt.write, TimelineOperation.clipWrite, LwwReg.setOption, LwwReg.set_of_lt, h3]
    exact ⟨trivial, ht⟩
  · simp only [ClipCrdt.write, TimelineOperation.clipWrite, LwwReg.setOption, LwwReg.set_of_lt, h4]
    exact ⟨trivial, ht⟩

/-- The values of a clip that holds an insert are the inserted ones exactly when no clip above it
dictates others. -/
theorem HoldsInsert.values_iff {track : TrackId} {clip : ClipData} {position : UInt64}
    (h : HoldsInsert d track clip position) (hl : s.Lineage x (d :: above)) {a : Inherited}
    (ha : s.valuesOf x = some a) : a = insertedValues track clip position ↔
      ∀ φ : Field, ¬φ.Overrides above (φ.get (insertedValues track clip position)) := by
  have key : ∀ φ : Field, φ.get a = φ.get (insertedValues track clip position) ↔
      ¬φ.Overrides above (φ.get (insertedValues track clip position)) := by
    intro φ
    rw [← h.value φ]
    exact hl.value_iff φ (h.written φ) ha
  constructor
  · exact fun he φ => (key φ).mp (congrArg φ.get he)
  · exact fun he => Field.ext_get fun φ => (key φ).mpr (he φ)

/-- A clip that holds an insert resolves to it exactly when no clip above it dictates other values
and its geometry is the inserted one. -/
theorem HoldsInsert.resolves_iff {track : TrackId} {clip : ClipData} {position : UInt64}
    (h : HoldsInsert d track clip position) (hl : s.Lineage x (d :: above))
    (ht : s.LiveTrack track)
    (hn : n = min (d.firstSplitOffset.getD clip.durationFrames) clip.durationFrames) :
    (∃ r, s.resolveClip x = some (some r) ∧ r.values = insertedValues track clip position ∧
      r.startFrame = clip.startFrame ∧ r.durationFrames = n ∧
      (0 < clip.durationFrames → (0 : UInt64) ∉ d.splits → r.visible = true)) ↔
    (∀ φ : Field, ¬φ.Overrides above (φ.get (insertedValues track clip position))) ∧
      ((s.rangeOf x).map fun r => (r.1, d.visibleLength r)).getD (0, 0) = (clip.startFrame, n) := by
  obtain ⟨a, ha, hra⟩ := hl.resolveClip_eq
  generalize (s.rangeOf x).map (fun r => (r.1, d.visibleLength r)) = g at hra ⊢
  rw [← h.values_iff hl ha]
  constructor
  · rintro ⟨r, hr, hvals, hstart, hlen, -⟩
    obtain rfl := Option.some.inj (Option.some.inj (hra.symm.trans hr))
    exact ⟨hvals, Prod.ext hstart hlen⟩
  · rintro ⟨hvals, hgeo⟩
    have hstart : (g.getD (0, 0)).1 = clip.startFrame := congrArg Prod.fst hgeo
    have hlen : (g.getD (0, 0)).2 = n := congrArg Prod.snd hgeo
    refine ⟨_, hra, hvals, hstart, hlen, fun hpos hzero => ?_⟩
    have hn0 : 0 < n := by
      rw [hn]
      refine lt_min ?_ hpos
      rcases hf : d.firstSplitOffset with _ | g
      · exact hpos
      · refine UInt64.pos_iff_ne_zero.mpr ?_
        rintro rfl
        exact hzero (BTreeMap.firstKey_eq_some.mp hf).1
    refine resolved_visible.mpr ⟨h.alive, ?_, ?_⟩
    · rw [hvals]
      exact ht
    · rw [← hlen] at hn0
      rcases g with _ | p
      · exact absurd hn0 (lt_irrefl _)
      · exact ⟨p, rfl, hn0⟩

/-- The geometry of a clip that holds an insert and has geometry of its own is the inserted one
exactly when that ends before the frames do. -/
theorem HoldsInsert.geometry_iff {track : TrackId} {clip : ClipData} {position : UInt64}
    (h : HoldsInsert d track clip position) (hl : s.Lineage x (d :: above)) (hown : d.OwnGeometry)
    (hn : n = min (d.firstSplitOffset.getD clip.durationFrames) clip.durationFrames) :
    ((s.rangeOf x).map fun r => (r.1, d.visibleLength r)).getD (0, 0) = (clip.startFrame, n) ↔
      clip.startFrame.toNat + n.toNat ≤ u64Max.toNat := by
  have hrange := hl.rangeOf_own hown h.startFrame.2 (.inl h.durationFrames.2)
  have hlen : d.visibleLength (ownRange d) = d.lengthAt clip.startFrame := by
    rw [ownRange, h.startFrame.1]
    rfl
  rw [hrange, Option.map_some, Option.getD_some, hlen, ownRange, h.startFrame.1, Prod.mk.injEq, hn]
  rw [← lengthAt_eq_iff h.durationFrames.1]
  exact and_iff_right rfl

section

variable {track : TrackId} {clip : ClipData} {position : UInt64}

/-- The clip resolves to what an insert brings, with the length that its split points leave it. -/
def Overwrites (s : Session) (o : TaggedOperation) (x : ClipId) (track : TrackId) (clip : ClipData)
    (position : UInt64) : Prop :=
  ∃ r, (s.exec o).resolveClip x = some (some r) ∧
    r.values = insertedValues track clip position ∧ r.startFrame = clip.startFrame ∧
    r.durationFrames = s.cappedLength x clip.durationFrames ∧
    (0 < clip.durationFrames → (∀ c, s.clips[x]? = some c → (0 : UInt64) ∉ c.splits) →
      r.visible = true)

/-- A new clip is a root without split points. -/
theorem overwrites_iff_of_new (ho : o.operation = .insertClip x track clip position)
    (hc : s.clips[x]? = none) (hlive : (s.exec o).LiveTrack track) (ht : o.tag ≠ .initial) :
    s.Overwrites o x track clip position ↔ s.OverwrittenBy x track clip position := by
  have hns : ¬o.operation.IsSplit := by rw [ho]; exact id
  have hd : (s.exec o).clips[x]? = some (.fromInsert track clip position o.tag) := by
    rw [clips_exec hns, ho, TimelineOperation.editedClip, if_pos rfl, hc, clipStep, ho]
    rfl
  have hold : HoldsInsert (.fromInsert track clip position o.tag) track clip position :=
    .fromInsert ht track clip position
  have hl : (s.exec o).Lineage x [.fromInsert track clip position o.tag] :=
    .top hd fun link h => absurd h (by simp [ClipCrdt.fromInsert])
  have hcap : s.cappedLength x clip.durationFrames =
      min ((ClipCrdt.fromInsert track clip position o.tag).firstSplitOffset.getD
        clip.durationFrames) clip.durationFrames := by
    rw [cappedLength, hc]
    rfl
  have hsplits : (∀ c, (none : Option ClipCrdt) = some c → (0 : UInt64) ∉ c.splits) ↔
      (0 : UInt64) ∉ (ClipCrdt.fromInsert track clip position o.tag).splits := by
    simp [ClipCrdt.fromInsert]
  have hfull : s.cappedLength x clip.durationFrames = clip.durationFrames := by
    rw [cappedLength, hc]
    exact min_self _
  rw [Overwrites, hc, hsplits, hold.resolves_iff hl hlive hcap,
    hold.geometry_iff hl (.inl rfl) hcap, OverwrittenBy,
    if_neg (BTreeMap.not_mem_iff.mpr hc), hfull]
  refine and_iff_right fun φ hover => ?_
  obtain ⟨p, hp, -⟩ := hover
  cases hp

/-- The geometry of a clip that is written by an insert: its own, or the one it had. -/
theorem HoldsInsert.rewritten_geometry_iff (h : HoldsInsert d track clip position)
    (hrw : Rewrites s s' x d) (hl : s.Lineage x (c :: above)) (hp : d.parent = c.parent)
    (hdet : d.detached = c.detached)
    (hn : n = min (d.firstSplitOffset.getD clip.durationFrames) clip.durationFrames)
    (hsplits : d.splits = c.splits) :
    ((s'.rangeOf x).map fun r => (r.1, d.visibleLength r)).getD (0, 0) = (clip.startFrame, n) ↔
      if c.OwnGeometry then clip.startFrame.toNat + n.toNat ≤ u64Max.toNat
      else ∃ r, s.resolveClip x = some (some r) ∧ r.startFrame = clip.startFrame ∧
        r.durationFrames = n := by
  split_ifs with hown
  · exact h.geometry_iff (hrw.lineage hl hp) (by rwa [ClipCrdt.OwnGeometry, hp, hdet]) hn
  · obtain ⟨a, -, hr⟩ := hl.resolveClip_eq
    have hspan : SameSpan c d :=
      ⟨hp.symm, hdet.symm, fun h => absurd h hown, fun h => absurd (.inl h) hown⟩
    have hlen : d.visibleLength = c.visibleLength := by
      funext r
      simp only [ClipCrdt.visibleLength, ClipCrdt.firstSplitOffset, hsplits]
    rw [← hrw.rangeOf_self hl hspan, Prod.ext_iff, hr, hlen]
    constructor
    · exact fun h => ⟨_, rfl, h⟩
    · rintro ⟨r, hr', h⟩
      obtain rfl := Option.some.inj (Option.some.inj hr')
      exact h

theorem overwrites_iff_of_mem (ho : o.operation = .insertClip x track clip position)
    (hc : s.clips[x]? = some c) (hlive : (s.exec o).LiveTrack track) (hnew : s.Newest o.tag) :
    s.Overwrites o x track clip position ↔ s.OverwrittenBy x track clip position := by
  have hmem : x ∈ s.clips := BTreeMap.mem_iff.mpr ⟨c, hc⟩
  have hrw := rewrites_exec (o := o) (by rw [ho]; rfl) hc
  rw [ho] at hrw
  set d := c.write (TimelineOperation.clipWrite (.insertClip x track clip position)) o.tag with hd
  have hold : HoldsInsert d track clip position :=
    .write (hnew.clip hc) hnew.ne_initial x track clip position
  have hcap : s.cappedLength x clip.durationFrames =
      min (d.firstSplitOffset.getD clip.durationFrames) clip.durationFrames := by
    rw [cappedLength, hc]
    rfl
  have hsplits : (∀ c', some c = some c' → (0 : UInt64) ∉ c'.splits) ↔ (0 : UInt64) ∉ d.splits :=
    ⟨fun h => h c rfl, fun h c' hc' => Option.some.inj hc' ▸ h⟩
  have key : ∀ {above}, s.Lineage x (c :: above) → _ := fun hl =>
    hold.rewritten_geometry_iff hrw hl rfl (Bool.or_false _) hcap rfl
  rw [Overwrites, hc, hsplits, OverwrittenBy, if_pos hmem]
  constructor
  · intro h
    obtain ⟨l, hl⟩ := lineage_of_resolveClip h.choose_spec.1
    obtain ⟨d', above, hd', rfl⟩ := hl.head
    obtain rfl := Option.some.inj (hrw.record.symm.trans hd')
    have hback := (hrw.symm hc).lineage hl rfl
    obtain ⟨hvals, hgeo⟩ := (hold.resolves_iff hl hlive hcap).mp h
    exact ⟨c, above, hback, hvals, (key hback).mp hgeo⟩
  · rintro ⟨c', above, hl, hvals, hgeo⟩
    obtain rfl := Option.some.inj (hc.symm.trans hl.clips)
    exact (hold.resolves_iff (hrw.lineage hl rfl) hlive hcap).mpr ⟨hvals, (key hl).mpr hgeo⟩

end

theorem insertClip_overwrites_iff (ops : List TaggedOperation) {track : TrackId}
    {clip : ClipData} {position : UInt64} (ho : o.operation = .insertClip x track clip position)
    (ht : (new.replay ops).LiveTrack track) (hnew : (new.replay ops).Newest o.tag) :
    (∃ r, ((new.replay ops).exec o).resolveClip x = some (some r) ∧
      r.values = insertedValues track clip position ∧ r.startFrame = clip.startFrame ∧
      r.durationFrames = (new.replay ops).cappedLength x clip.durationFrames ∧
      (0 < clip.durationFrames →
        (∀ c, (new.replay ops).clips[x]? = some c → (0 : UInt64) ∉ c.splits) →
          r.visible = true)) ↔
    (new.replay ops).OverwrittenBy x track clip position := by
  generalize new.replay ops = s at *
  have hlive : (s.exec o).LiveTrack track := by
    have hr : (s.exec o).tracks = s.tracks := by
      ext1 y
      rw [tracks_exec, ho]
      rfl
    rw [LiveTrack, hr]
    exact ht
  by_cases hx : x ∈ s.clips
  · obtain ⟨c, hc⟩ := BTreeMap.mem_iff.mp hx
    exact overwrites_iff_of_mem ho hc hlive hnew
  · exact overwrites_iff_of_new ho (BTreeMap.not_mem_iff.mp hx) hlive hnew.ne_initial

theorem splitOps_insert_overwrites :
    (∃ r, ((new.replay splitOps).exec
        (.of 4 1 (.insertClip ⟨1⟩ ⟨1⟩ (.new "d" 5000 100) 3))).resolveClip ⟨1⟩ = some (some r) ∧
      r.values = insertedValues ⟨1⟩ (.new "d" 5000 100) 3 ∧
      r.startFrame = 5000 ∧ r.durationFrames = (new.replay splitOps).cappedLength ⟨1⟩ 100 ∧
      (0 < (100 : UInt64) → (∀ c, (new.replay splitOps).clips[(⟨1⟩ : ClipId)]? = some c →
        (0 : UInt64) ∉ c.splits) → r.visible = true)) ↔
    (new.replay splitOps).OverwrittenBy ⟨1⟩ ⟨1⟩ (.new "d" 5000 100) 3 :=
  insertClip_overwrites_iff splitOps rfl splitOps_liveTrack (splitOps_newest _)

/-- Inserted again, the piece split off keeps the range of the clip it comes from. -/
theorem splitOps_insert_keeps_range : (new.replay splitOps).LiveTrack ⟨1⟩ ∧
    (new.replay splitOps).Newest
      (TaggedOperation.of 4 1 (.insertClip ⟨2⟩ ⟨1⟩ (.new "d" 5000 100) 3)).tag ∧
    ∃ r, ((new.replay splitOps).exec
        (.of 4 1 (.insertClip ⟨2⟩ ⟨1⟩ (.new "d" 5000 100) 3))).resolveClip ⟨2⟩ = some (some r) ∧
      r.startFrame = 400 ∧ r.durationFrames = 600 :=
  ⟨splitOps_liveTrack, splitOps_newest _, _, rfl, rfl, rfl⟩

end Session

end AvSync
