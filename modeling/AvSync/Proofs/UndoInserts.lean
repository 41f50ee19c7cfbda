import AvSync.Proofs.UndoShapes
import AvSync.Proofs.UndoUpdates

/-!
# Undoing inserts and deletes

The inverse of a delete, and of an insert over a clip that was there, inserts what the clip showed:
the record is alive then and has written every register, gain, mute and lock with their defaults
(`Rewrites.reinserted_iff`). A clip or a track that was not there is deleted again, and leaves no
trace in the view.
-/

namespace AvSync

namespace Session

variable {s s' : Session} {o o' : TaggedOperation} {x y : ClipId} {c d : ClipCrdt}
  {above l : List ClipCrdt} {v : SessionView} {u w : ResolvedClip}

/-! ## A clip inserted again -/

/-- What a clip below shows in a field once the field is written in the record. -/
theorem Rewrites.fieldUnder_eq (h : Rewrites s s' x d) (hl : s.Lineage x (c :: above))
    (hp : d.parent = c.parent) (hb : s.Below x y l) (φ : Field) (hw : φ.Written d)
    {b b' : Inherited} (hb₁ : s.valuesOf y = some b) (hb₂ : s'.valuesOf y = some b') :
    fieldUnder φ above l (φ.value d) (φ.get b) = some (φ.get b') := by
  have hold := (hb.lineage hl).valuesOf φ
  have hnew := ((h.below hl hb).lineage (h.lineage hl hp)).valuesOf φ
  rw [hb₁, Option.map_some] at hold
  rw [hb₂, Option.map_some] at hnew
  rw [← hnew, fieldUnder]
  split_ifs with hdon
  · rw [Inheritance.settled_append_eq_under hdon hw]
  · obtain ⟨p, hp⟩ := Option.ne_none_iff_exists'.mp hdon
    have hchain : ∀ e, Inheritance.settled φ.Written φ.value (l ++ e :: above) =
        some (φ.value p) := fun e => by
      have := Inheritance.donor_append hp (l ++ [e])
      rw [List.append_assoc, List.singleton_append] at this
      exact Inheritance.settled_of_donor this
    rw [← hold, hchain, hchain]

section

variable (h : Rewrites s s' x d) (hf : s.Forest) (hl : s.Lineage x (c :: above))
  (hu : s.resolveClip x = some (some u)) (hp : d.parent = c.parent)
  (hdet : d.detached = c.detached) (hs : c.splits = d.splits)
  (hold : HoldsInsert d u.values.trackId ⟨u.values.name, u.values.source, u.startFrame,
    u.durationFrames, u.values.color⟩ u.values.orderHint)

include h hl hp hdet hold

theorem Rewrites.rangeOf_reinserted : s'.rangeOf x = s.rangeReset x c u := by
  have hl' := h.lineage hl hp
  rw [rangeReset]
  split_ifs with hown
  · rw [hl'.rangeOf_own ?_ hold.startFrame.2 (.inl hold.durationFrames.2), ownRange,
      hold.startFrame.1, hold.durationFrames.1]
    rwa [ClipCrdt.OwnGeometry, hp, hdet]
  · exact (h.rangeOf_self hl ⟨hp.symm, hdet.symm, fun h => absurd h hown,
      fun h => absurd (.inl h) hown⟩).symm

include hf hs

theorem Rewrites.hasFrames_iff (hy : y ∈ s.clips) : s.HasFrames x (s.rangeReset x c u) y ↔
    ∃ g, s'.extentOf y = some g ∧ 0 < g.2 := by
  have hf' := h.forest hl.clips hp.symm hf
  have hro := h.rangeOf_reinserted hl hp hdet hold
  obtain ⟨m, hm⟩ := hf.lineage hy
  -- the record afterwards
  have hrec : ∀ {e e'}, s.clips[y]? = some e → s'.clips[y]? = some e' →
      e.splits = e'.splits ∧ (e'.alive.value = true ↔ y = x ∨ e.alive.value = true) := by
    intro e e' he he'
    by_cases hyx : y = x
    · subst hyx
      obtain rfl := Option.some.inj (hl.clips.symm.trans he)
      obtain rfl := Option.some.inj (h.record.symm.trans he')
      exact ⟨hs, iff_of_true hold.alive (.inl rfl)⟩
    · obtain rfl := Option.some.inj (he.symm.trans ((h.others y hyx).symm.trans he'))
      simp [hyx]
  have hrange : ∀ q, s'.rangeOf y = some q ↔ (∃ r ∈ s.rangeReset x c u, s.Derives x r y q) ∨
      ¬s.Follows y x ∧ s.rangeOf y = some q := by
    intro q
    by_cases hfol : s.Follows y x
    · rcases hr : s.rangeReset x c u with _ | r
      · -- without a range for the clip, there is none for its followers
        have hnone : s'.rangeOf y ≠ some q := by
          intro hq
          obtain ⟨r, hr', -⟩ := (h.follows hfol).derives hf' hq
          rw [hro, hr] at hr'
          cases hr'
        simp [hnone, hfol]
      · rw [h.rangeOf_iff_derives hf' hl.clips hs hold.alive (hro.trans hr) hfol]
        simp [hfol]
    · rw [← h.rangeOf_of_not_follows hm hl.clips hp.symm hfol]
      simp only [hfol, not_false_eq_true, true_and]
      refine (or_iff_right ?_).symm
      rintro ⟨r, -, hder⟩
      exact hfol hder.follows
  obtain ⟨e, he⟩ := BTreeMap.mem_iff.mp hy
  obtain ⟨e', he'⟩ : ∃ e', s'.clips[y]? = some e' := by
    by_cases hyx : y = x
    · exact ⟨d, hyx ▸ h.record⟩
    · exact ⟨e, (h.others y hyx).trans he⟩
  obtain ⟨hsplits, halive⟩ := hrec he he'
  constructor
  · rintro ⟨e₀, q, he₀, hlive, hpos, hq⟩
    obtain rfl := Option.some.inj (he.symm.trans he₀)
    refine ⟨_, extentOf_eq_some.mpr ⟨e', q, he', halive.mpr hlive, (hrange q).mpr hq, rfl⟩, ?_⟩
    rwa [← visibleLength_congr hsplits]
  · rintro ⟨g, hg, hpos⟩
    obtain ⟨e₀, q, he₀, hlive, hq, rfl⟩ := extentOf_eq_some.mp hg
    obtain rfl := Option.some.inj (he'.symm.trans he₀)
    refine ⟨e, q, he, halive.mp hlive, ?_, (hrange q).mp hq⟩
    rwa [visibleLength_congr hsplits]

include hu

/-- A visible clip keeps its frames, unless it follows the clip and ends after it. -/
theorem Rewrites.extentOf_reinserted_iff (hw : s.VisibleAs y w) :
    s.extentOf y = s'.extentOf y ↔
      (c.OwnGeometry → s.Follows y x → w.endFrame ≤ u.endFrame) := by
  have hf' := h.forest hl.clips hp.symm hf
  obtain ⟨e, m, a, q, hm, helive, -, -, hq, hpos, hres⟩ := Visible.parts ⟨w, hw⟩
  obtain rfl := Option.some.inj (Option.some.inj (hres.symm.trans hw.1))
  by_cases hfol : s.Follows y x
  swap
  · have hne : y ≠ x := fun e => hfol (e ▸ .refl y)
    exact iff_of_true (extentOf_congr (rel_of_eq .refl (h.others y hne).symm)
      (h.rangeOf_of_not_follows hm hl.clips hp.symm hfol)) fun _ hfol' => absurd hfol' hfol
  obtain ⟨r, hr, -, hxalive⟩ := hfol.derives hf hq
  have halive : c.alive.value = true := by
    by_cases hyx : y = x
    · subst hyx
      rwa [Option.some.inj (hl.clips.symm.trans hm.clips)]
    · exact hxalive hyx c hl.clips
  have hcuts : SameCuts c d := ⟨halive.trans hold.alive.symm, hs⟩
  by_cases hown : c.OwnGeometry
  swap
  · have hspan : SameSpan c d := ⟨hp.symm, hdet.symm, fun h => absurd h hown,
      fun h => absurd (.inl h) hown⟩
    exact iff_of_true (extentOf_congr (h.rel .refl hl.clips hcuts y)
      (h.rangeOf_all hl.clips hspan hcuts hm)) fun hown' => absurd hown' hown
  -- the range is cut at its visible end
  obtain ⟨b, -, hres'⟩ := hl.resolveClip_eq
  rw [hr] at hres'
  obtain rfl := Option.some.inj (Option.some.inj (hres'.symm.trans hu))
  obtain ⟨hz, hcut⟩ := cut_visibleLength (c := c) (rangeOf_le hr)
  have hr' : s'.rangeOf x = (s.rangeOf x).map (cut (saturatingAdd r.1 (c.visibleLength r))) := by
    rw [h.rangeOf_reinserted hl hp hdet hold, rangeReset, if_pos hown, hr]
    exact congrArg some hcut.symm
  have hext := extentOf_cut (h.rel .refl hl.clips hcuts y)
    (hfol.rangeOf_map (fun _ _ _ hle => childRange_cut hle) hf hf' (h.rel .refl hl.clips hcuts x)
      (fun z _ hz => h.others z hz) hr')
  have hg := extentOf_eq_some.mpr ⟨e, q, hm.clips, helive, hq, rfl⟩
  rw [hext, hg, Option.map_some, Option.some.injEq, eq_comm, shorten_eq_iff hpos, hz]
  exact ⟨fun hend _ _ => hend, fun hend => hend hown hfol⟩

omit hf hu hs hdet in
/-- What a clip below shows in a field once the clip has been inserted again. -/
theorem Rewrites.fieldUnder_reinserted (hb : s.Below x y l) (hw : s.resolveClip y = some (some w))
    {b' : Inherited} (hb' : s'.valuesOf y = some b') (φ : Field) :
    s.valuesOf y = some w.values ∧
      fieldUnder φ above l (φ.get u.values.reset) (φ.get w.values) = some (φ.get b') := by
  obtain ⟨_, _, -, hv, -⟩ := resolveClip_iff.mp hw
  have hvalue : φ.value d = φ.get u.values.reset := hold.value φ
  rw [← hvalue]
  exact ⟨hv, h.fieldUnder_eq hl hp hb φ (hold.written φ) hv hb'⟩

omit hu in
/-- A hidden clip below stays hidden unless it gets frames on a live track. -/
theorem Rewrites.shows_hidden_iff (hb : s.Below x y l) (hw : s.resolveClip y = some (some w))
    (hvis : w.visible = false) : s.shows y = s'.shows y ↔
      (s.HasFrames x (s.rangeReset x c u) y →
        ∀ t, fieldUnder .track above l u.values.trackId w.values.trackId = some t →
          ¬s.LiveTrack t) := by
  have hmem := (hb.lineage hl).mem
  obtain ⟨b', hb'⟩ := ((h.below hl hb).lineage (h.lineage hl hp)).valuesOf_some
  obtain ⟨-, htrack⟩ := h.fieldUnder_reinserted hl hp hold hb hw hb' .track
  have htrack : fieldUnder .track above l u.values.trackId w.values.trackId = some b'.trackId :=
    htrack
  have hnone : s.shows y = none := by
    rw [shows, hw]
    simp [Option.filter, hvis]
  rw [hnone]
  constructor
  · intro heq hframes t ht hlive
    obtain rfl := Option.some.inj (htrack.symm.trans ht)
    obtain ⟨g, hg, hpos⟩ := (h.hasFrames_iff hf hl hp hdet hs hold hmem).mp hframes
    rw [shows_iff_extent.mpr ⟨b', g, hb', h.liveTrack.mpr hlive, hg, hpos, rfl⟩] at heq
    cases heq
  · intro hno
    refine (Option.eq_none_iff_forall_ne_some.mpr fun w' hw' => ?_).symm
    obtain ⟨a, g, ha, ht, hg, hpos, -⟩ := shows_iff_extent.mp hw'
    obtain rfl := Option.some.inj (hb'.symm.trans ha)
    exact hno ((h.hasFrames_iff hf hl hp hdet hs hold hmem).mpr ⟨g, hg, hpos⟩) _ htrack
      (h.liveTrack.mp ht)

/-- A visible clip below shows the same exactly when it keeps its values and its frames. -/
theorem Rewrites.shows_visible_iff (hb : s.Below x y l) (hw : s.VisibleAs y w) :
    s.shows y = s'.shows y ↔
      (∀ φ : Field, fieldUnder φ above l (φ.get u.values.reset) (φ.get w.values) =
        some (φ.get w.values)) ∧ (c.OwnGeometry → s.Follows y x → w.endFrame ≤ u.endFrame) := by
  obtain ⟨b', hb'⟩ := ((h.below hl hb).lineage (h.lineage hl hp)).valuesOf_some
  have hfield := h.fieldUnder_reinserted hl hp hold hb hw.1 hb'
  have hb₁ : s.valuesOf y = some w.values := (hfield .track).1
  rw [← h.extentOf_reinserted_iff hf hl hu hp hdet hs hold hw]
  have hshows := shows_eq_some_iff_visibleAs.mpr ⟨w, hw, rfl⟩
  obtain ⟨a, g, ha, ht, hg, hpos, hwg⟩ := shows_iff_extent.mp hshows
  obtain rfl := Option.some.inj (hb₁.symm.trans ha)
  constructor
  · intro heq
    obtain ⟨a, g', ha', -, hg', -, hwg'⟩ := shows_iff_extent.mp (heq.symm.trans hshows)
    obtain rfl := Option.some.inj (hb'.symm.trans ha')
    have hvals := hwg.symm.trans hwg'
    simp only [ClipView.mk.injEq, true_and] at hvals
    refine ⟨fun φ => (hfield φ).2.trans (by rw [hvals.1]), ?_⟩
    rw [hg, hg', Prod.ext hvals.2.1 hvals.2.2]
  · rintro ⟨hvals, hext⟩
    have hbb : b' = w.values := Field.ext_get fun φ =>
      Option.some.inj ((hfield φ).2.symm.trans (hvals φ))
    exact shows_of_extentOf_eq (hb₁.trans (hbb ▸ hb'.symm)) (fun _ => h.liveTrack.symm) hext

/-- An insert of what the clip shows: every clip shows the same exactly when the clip is
reinsertable. -/
theorem Rewrites.reinserted_iff : (∀ y, s.shows y = s'.shows y) ↔ s.Reinsertable x := by
  constructor
  · intro hall c' above' u' hl' hu' y m w hb hw
    obtain ⟨rfl, rfl⟩ := List.cons.inj (hl.unique hl')
    obtain rfl := Option.some.inj (Option.some.inj (hu.symm.trans hu'))
    exact ⟨fun hvis =>
        (h.shows_visible_iff hf hl hu hp hdet hs hold hb ⟨hw, hvis⟩).mp (hall y),
      fun hvis => (h.shows_hidden_iff hf hl hp hdet hs hold hb hw hvis).mp (hall y)⟩
  · intro hre y
    by_cases hy : y ∈ s.clips
    swap
    · rw [Session.shows_of_not_mem hy, h.shows_of_not_mem hl.clips hy]
    obtain ⟨k, hk⟩ := hf.lineage hy
    by_cases hdesc : s.Descends y x
    · obtain ⟨m, hb⟩ := exists_below hdesc
      obtain ⟨w, hw⟩ := hk.resolveClip_some
      obtain ⟨hshown, hhidden⟩ := hre c above u hl hu y m w hb hw
      rcases hvis : w.visible with _ | _
      · exact (h.shows_hidden_iff hf hl hp hdet hs hold hb hw hvis).mpr (hhidden hvis)
      · exact (h.shows_visible_iff hf hl hu hp hdet hs hold hb ⟨hw, hvis⟩).mpr (hshown hvis)
    · have hne : y ≠ x := fun e => hdesc (e ▸ descends_refl s y)
      exact shows_of_extentOf_eq (h.valuesOf_of_not_descends hk hdesc)
        (fun _ => h.liveTrack.symm)
        (extentOf_congr (rel_of_eq .refl (h.others y hne).symm)
          (h.rangeOf_of_not_follows hk hl.clips hp.symm fun hfol => hdesc hfol.descends))

end

/-- A dead record that nothing links to shows nothing. -/
theorem Rewrites.shows_of_unknown (h : Rewrites s s' x d) (hf : s.Forest) (hx : s.Unknown x)
    (hdead : d.alive.value = false) (y : ClipId) : s.shows y = s'.shows y := by
  by_cases hyx : y = x
  · subst hyx
    rw [Session.shows_of_not_mem hx.absent]
    refine (Option.eq_none_iff_forall_ne_some.mpr fun w hw => ?_).symm
    obtain ⟨e, -, -, he, hlive, -⟩ := shows_eq_some.mp hw
    rw [← Option.some.inj (h.record.symm.trans he), hdead] at hlive
    cases hlive
  · by_cases hy : y ∈ s.clips
    · obtain ⟨l, hl⟩ := hf.lineage hy
      have hne : ∀ z, s.Descends y z → z ≠ x := by
        rintro z hz rfl
        exact hyx (hx.eq_of_descends hz)
      have hrel : ∀ {R : ClipCrdt → ClipCrdt → Prop}, (∀ e, R e e) → ∀ z, s.Descends y z →
          Option.Rel R s.clips[z]? s'.clips[z]? :=
        fun hR z hz => rel_of_eq hR (h.others z (hne z hz)).symm
      exact shows_congr (hrel (fun _ => ⟨rfl, rfl⟩) y (descends_refl s y))
        (hl.valuesOf_congr fun z hz => hrel .refl z hz)
        (hl.rangeOf_congr (fun z hz => hrel (R := fun c d => c.parent = d.parent) (fun _ => rfl)
          z hz)
          (fun z hz => hrel .refl z hz.descends) fun z hz _ => hrel .refl z hz.descends)
        fun _ => h.liveTrack.symm
    · have hy' : y ∉ s'.clips := by
        rw [BTreeMap.not_mem_iff, h.others y hyx, ← BTreeMap.not_mem_iff]
        exact hy
      rw [Session.shows_of_not_mem hy, Session.shows_of_not_mem hy']

/-- With all but the clips kept, the view is kept exactly when every clip shows the same. -/
theorem Rewrites.materialize_iff (h : Rewrites s s' x d) (hv : s.materialize = some v)
    (hf' : s'.Forest) : s'.materialize = some v ↔ ∀ y, s.shows y = s'.shows y := by
  rw [materialize_eq_iff hv hf']
  refine ⟨fun hview => hview.2.2.2, fun hshow => ⟨?_, ?_, ?_, hshow⟩⟩
  · rw [metadataView, metadataView, h.metadata]
  · rw [trackViews, trackViews, h.tracks]
  · rw [h.envelopes]

section

variable (hv : s.materialize = some v) (hnew : s.Newest o.tag) (hlt : o.tag < o'.tag)

include hv hnew hlt

theorem undo_clip_iff (hu : s.resolveClip x = some (some u))
    (ho : o.operation = .deleteClip x ∨ ∃ r data p, o.operation = .insertClip x r data p)
    (ho' : o'.operation = reinsertClip x u) :
    ((s.exec o).exec o').materialize = some v ↔ s.Reinsertable x := by
  have hf := materialize_returns_iff.mp ⟨v, hv⟩
  obtain ⟨l, hl⟩ := lineage_of_resolveClip hu
  obtain ⟨c, above, hc, rfl⟩ := hl.head
  have hedit : o.operation.editedClip = some x := by
    rcases ho with ho | ⟨_, _, _, ho⟩ <;> rw [ho] <;> rfl
  have hdetach : o.operation.clipWrite.detach = false := by
    rcases ho with ho | ⟨_, _, _, ho⟩ <;> rw [ho] <;> rfl
  have h₁ := rewrites_exec hedit hc
  have h := h₁.trans (rewrites_exec (o := o') (by rw [ho']; rfl) h₁.record)
  have hold := HoldsInsert.write ((hnew.exec hlt).clip h₁.record) (OpTag.ne_initial_of_lt hlt) x
    u.values.trackId ⟨u.values.name, u.values.source, u.startFrame, u.durationFrames,
      u.values.color⟩ u.values.orderHint
  rw [ho'] at h
  rw [h.materialize_iff hv (h.forest hc rfl hf)]
  refine h.reinserted_iff hf hl hu rfl ?_ rfl hold
  change ((c.detached || o.operation.clipWrite.detach) || false) = c.detached
  rw [hdetach, Bool.or_false, Bool.or_false]

omit hnew in
theorem undo_new_clip (hx : s.Unknown x) {r : TrackId} {data : ClipData} {p : UInt64}
    (ho : o.operation = .insertClip x r data p) (ho' : o'.operation = .deleteClip x) :
    ((s.exec o).exec o').materialize = some v := by
  have hf := materialize_returns_iff.mp ⟨v, hv⟩
  have hexec : s.exec o = s.setClip x (.fromInsert r data p o.tag) := by
    rw [exec, ho, apply_insertClip_of_not_mem hx.absent]
  have h₁ : Rewrites s (s.exec o) x (.fromInsert r data p o.tag) := by
    rw [hexec]
    refine ⟨?_, fun y hy => ?_, rfl, rfl, rfl⟩
    · rw [clips_setClip, if_pos rfl]
    · rw [clips_setClip, if_neg (Ne.symm hy)]
  have h := h₁.trans (rewrites_exec (o := o') (by rw [ho']; rfl) h₁.record)
  rw [ho'] at h
  set d := (ClipCrdt.fromInsert r data p o.tag).write
    (TimelineOperation.clipWrite (.deleteClip x)) o'.tag with hd
  have hdead : d.alive.value = false := by
    have : d.alive = ⟨false, o'.tag⟩ := LwwReg.set_of_lt _ hlt
    rw [this]
  have hf' : ((s.exec o).exec o').Forest := by
    refine forest_exec_of_not_split (forest_exec_of_not_split hf ?_) ?_
    · rw [ho]; exact id
    · rw [ho']; exact id
  exact (h.materialize_iff hv hf').mpr (h.shows_of_unknown hf hx hdead)

theorem undo_track_iff {t : TrackId} {r : TrackCrdt} (ht : s.tracks[t]? = some r)
    (ho : o.operation.editedTrack = some t)
    (ho' : o'.operation = .insertTrack t r.toTrackData r.orderHint.value) :
    ((s.exec o).exec o').materialize = some v ↔ s.LiveTrack t := by
  have htags := (tagsIn_iff.mpr hnew).tracks t r ht
  simp only [TrackCrdt.tags, List.forall_mem_cons] at htags
  obtain ⟨h1, h2, h3, h4, h5, h6, h7, -⟩ := htags
  have hedit : o'.operation.editedTrack = some t := by rw [ho']; rfl
  have hmem : t ∈ s.tracks := BTreeMap.mem_iff.mpr ⟨r, ht⟩
  set r' := (r.write o.operation.trackWrite o.tag).write o'.operation.trackWrite o'.tag with hr'
  have hwritten : r' = .fromInsert r.toTrackData r.orderHint.value o'.tag := by
    rw [hr', ho']
    exact TrackCrdt.ext (LwwReg.setOption_set h1 hlt _ _) (LwwReg.setOption_set h2 hlt _ _)
      (LwwReg.setOption_set h3 hlt _ _) (LwwReg.setOption_set h4 hlt _ _)
      (LwwReg.setOption_set h5 hlt _ _) (LwwReg.setOption_set h6 hlt _ _)
      (LwwReg.setOption_set h7 hlt _ _)
  have halive : r'.alive.value = true := by rw [hwritten]; rfl
  have hshow : trackView t r' = trackView t r := by rw [hwritten]; rfl
  constructor
  · intro hv'
    have htracks := (view_parts hv).2.1.symm.trans (view_parts hv').2.1
    have hmem' : t ∈ (s.exec o).tracks := by
      rw [exec_of_editedTrack ho hmem]
      exact mem_modifyTrack.mpr hmem
    have hrec : ((s.exec o).exec o').tracks[t]? = some r' := by
      rw [exec_of_editedTrack hedit hmem', exec_of_editedTrack ho hmem]
      simp only [tracks_modifyTrack, if_true, ht, Option.map_some, hr']
    have hshown := trackShown_eq_some.mpr ⟨r', hrec, halive, rfl⟩
    refine liveTrack_iff_trackShown.mpr ⟨trackView t r', ?_⟩
    have hin : trackView t r' ∈ ((s.exec o).exec o').trackViews := mem_trackViews.mpr hshown
    rw [← htracks] at hin
    exact mem_trackViews.mp hin
  · rintro ⟨r₀, hr₀, hlive⟩
    obtain rfl := Option.some.inj (ht.symm.trans hr₀)
    exact materialize_exec_track hv ht ho hedit (halive.trans hlive.symm) hshow

omit hnew in
theorem undo_new_track {t : TrackId} (ht : t ∉ s.tracks) {data : TrackData} {p : UInt64}
    (ho : o.operation = .insertTrack t data p) (ho' : o'.operation = .deleteTrack t) :
    ((s.exec o).exec o').materialize = some v := by
  have hf := materialize_returns_iff.mp ⟨v, hv⟩
  have hexec : s.exec o = s.setTrack t (.fromInsert data p o.tag) := by
    rw [exec, ho, apply_insertTrack_of_not_mem ht]
  have hmem : t ∈ (s.exec o).tracks := by
    rw [hexec]
    exact mem_setTrack.mpr (.inl rfl)
  rw [exec_of_editedTrack (by rw [ho']; rfl) hmem, hexec, ho']
  set s' := (s.setTrack t (.fromInsert data p o.tag)).modifyTrack t
    (·.write (TimelineOperation.trackWrite (.deleteTrack t)) o'.tag) with hs'
  have hdead : ((TrackCrdt.fromInsert data p o.tag).write
      (TimelineOperation.trackWrite (.deleteTrack t)) o'.tag).alive = ⟨false, o'.tag⟩ :=
    LwwReg.set_of_lt _ hlt
  have htracks : ∀ t', s'.trackShown t' = s.trackShown t' := by
    intro t'
    rw [trackShown, trackShown, hs', tracks_modifyTrack, tracks_setTrack]
    split_ifs with htt
    · subst htt
      rw [BTreeMap.not_mem_iff.mp ht, Option.map_some, Option.bind_some, hdead]
      rfl
    · rfl
  have hf' : s'.Forest := hf
  exact (materialize_eq_iff hv hf').mpr ⟨rfl, trackViews_congr htracks, rfl,
    shows_of_clips_eq hf (fun _ => rfl) (liveTrack_congr htracks)⟩

end

end Session

namespace TimelineCrdt

variable {c : TimelineCrdt} {v : Session.SessionView} {op : TimelineOperation}

/-- An edit that misses its target is not recorded: with nothing to undo the view stays. -/
theorem view_applyUndo_missing {inv : Option TimelineOperation} (hns : ¬op.IsSplit)
    (ht : ¬c.session.HasTargets op) (hinv : computeInverse op c.session = some inv)
    (hempty : c.history.undoStack = []) : (c.applyUndo op).bind view = c.view := by
  obtain ⟨err, ha⟩ := Session.apply_of_missing (t := (c.tagNext op).tag) hns ht
  have hfail : ¬c.session.Succeeds (c.tagNext op) := by
    intro hs
    have := hs.symm.trans (congrArg Prod.fst ha)
    cases this
  have happ : c.applyLocal op = some (c.stamp op inv) := by rw [applyLocal, hinv, Option.map_some]
  have hpop : (c.stamp op inv).2.history.popUndo = none := by
    rw [stamp_history, if_neg hfail, History.popUndo, hempty]
  rw [applyUndo, happ, Option.map_some, Option.bind_some, undo, hpop, view, stamp_session,
    Session.exec]
  exact congrArg Session.materialize (congrArg Prod.snd ha)

/-- Undone right away, the operation gives the view back where the inverse can, and only there if it
finds its targets. -/
def UndoneIff (c : TimelineCrdt) (v : Session.SessionView) (op : TimelineOperation) : Prop :=
  (c.BringsBack op → (c.applyUndo op).bind view = some v) ∧
    (c.session.HasTargets op → (c.applyUndo op).bind view = some v → c.BringsBack op)

section

variable (hb : Bounded c) (hf : c.session.Forest) (hv : c.view = some v)
  (hl : c.lamport.counter.toNat + 2 ≤ u64Max.toNat)

theorem undoneIff_of_missing (hv : c.view = some v) (hns : ¬op.IsSplit)
    (ht : ¬c.session.HasTargets op) (hinv : computeInverse op c.session = some none)
    (hempty : c.BringsBack op → c.history.undoStack = []) : c.UndoneIff v op :=
  ⟨fun h => by rw [view_applyUndo_missing hns ht hinv (hempty h), hv], fun h => absurd h ht⟩

include hb hv hl

theorem undoneIff_insertTrack (t : TrackId) (data : TrackData) (p : UInt64) :
    c.UndoneIff v (.insertTrack t data p) := by
  have ht : c.session.HasTargets (.insertTrack t data p) := fun _ h => absurd h List.not_mem_nil
  by_cases hx : t ∈ c.session.tracks
  · obtain ⟨r, hr⟩ := BTreeMap.mem_iff.mp hx
    obtain ⟨o₁, o₂, hview, ho₁, ho₂, hnewest, hlt⟩ := view_applyUndo hb hl ht
      (by rw [computeInverse, hr])
    have hiff := Session.undo_track_iff hv hnewest hlt hr (by rw [ho₁]; rfl) ho₂
    rw [UndoneIff, hview, hiff]
    exact ⟨fun h => h hx, fun _ h _ => h⟩
  · obtain ⟨o₁, o₂, hview, ho₁, ho₂, -, hlt⟩ := view_applyUndo hb hl ht
      (by rw [computeInverse, BTreeMap.not_mem_iff.mp hx])
    rw [UndoneIff, hview]
    exact ⟨fun _ => Session.undo_new_track hv hlt hx ho₁ ho₂, fun _ _ h => absurd h hx⟩

theorem undoneIff_deleteTrack (t : TrackId) : c.UndoneIff v (.deleteTrack t) := by
  by_cases hx : t ∈ c.session.tracks
  · have ht : c.session.HasTargets (.deleteTrack t) :=
      fun r hr => List.mem_singleton.mp hr ▸ hx
    obtain ⟨r, hr⟩ := BTreeMap.mem_iff.mp hx
    obtain ⟨o₁, o₂, hview, ho₁, ho₂, hnewest, hlt⟩ := view_applyUndo hb hl ht
      (by rw [computeInverse, hr]; rfl)
    have hiff := Session.undo_track_iff hv hnewest hlt hr (by rw [ho₁]; rfl) ho₂
    rw [UndoneIff, hview, hiff, BringsBack, if_pos hx]
    exact ⟨id, fun _ => id⟩
  · refine undoneIff_of_missing hv id (fun h => hx (h _ List.mem_cons_self)) ?_ fun h => ?_
    · rw [computeInverse, BTreeMap.not_mem_iff.mp hx]
      rfl
    · rwa [BringsBack, if_neg hx] at h

include hf

theorem undoneIff_insertClip {x : ClipId} (r : TrackId) (data : ClipData) (p : UInt64)
    (hnew : x ∈ c.session.clips ∨ c.session.Unknown x) :
    c.UndoneIff v (.insertClip x r data p) := by
  have ht : c.session.HasTargets (.insertClip x r data p) := fun _ h => absurd h List.not_mem_nil
  by_cases hx : x ∈ c.session.clips
  · obtain ⟨l, hlin⟩ := hf.lineage hx
    obtain ⟨u, hu⟩ := hlin.resolveClip_some
    obtain ⟨o₁, o₂, hview, ho₁, ho₂, hnewest, hlt⟩ := view_applyUndo hb hl ht
      (by rw [computeInverse, if_pos hx, hu]; rfl)
    have hiff := Session.undo_clip_iff hv hnewest hlt hu (.inr ⟨_, _, _, ho₁⟩) ho₂
    rw [UndoneIff, hview, hiff]
    exact ⟨fun h => h hx, fun _ h _ => h⟩
  · obtain ⟨o₁, o₂, hview, ho₁, ho₂, -, hlt⟩ := view_applyUndo hb hl ht
      (by rw [computeInverse, if_neg hx])
    rw [UndoneIff, hview]
    exact ⟨fun _ => Session.undo_new_clip hv hlt (hnew.resolve_left hx) ho₁ ho₂,
      fun _ _ h => absurd h hx⟩

theorem undoneIff_deleteClip (x : ClipId) : c.UndoneIff v (.deleteClip x) := by
  by_cases hx : x ∈ c.session.clips
  · have ht : c.session.HasTargets (.deleteClip x) :=
      fun r hr => List.mem_singleton.mp hr ▸ hx
    obtain ⟨l, hlin⟩ := hf.lineage hx
    obtain ⟨u, hu⟩ := hlin.resolveClip_some
    obtain ⟨o₁, o₂, hview, ho₁, ho₂, hnewest, hlt⟩ := view_applyUndo hb hl ht
      (by rw [computeInverse, hu]; rfl)
    have hiff := Session.undo_clip_iff hv hnewest hlt hu (.inl ho₁) ho₂
    rw [UndoneIff, hview, hiff, BringsBack, if_pos hx]
    exact ⟨id, fun _ => id⟩
  · refine undoneIff_of_missing hv id (fun h => hx (h _ List.mem_cons_self)) ?_ fun h => ?_
    · rw [computeInverse, Session.resolveClip, Session.resolveClipIn, BTreeMap.not_mem_iff.mp hx]
      rfl
    · rwa [BringsBack, if_neg hx] at h

end

/-- Undoing an insert or a delete right away gives the view back where the inverse can bring back
what was there, and of an edit that finds its targets only there. -/
theorem undo_lifecycle_iff (peer : PeerId) (calls : List Call)
    (hc : afterCalls peer calls = some c) (hv : c.view = some v) (hop : op.IsLifecycle)
    (hnew : ∀ x, op.introduced = some (.clip x) → x ∈ c.session.clips ∨ c.session.Unknown x)
    (hl : c.lamport.counter.toNat + 2 ≤ u64Max.toNat) :
    (c.BringsBack op → (c.applyUndo op).bind view = some v) ∧
      (c.session.HasTargets op → (c.applyUndo op).bind view = some v → c.BringsBack op) := by
  have hb := Bounded.afterCalls hc
  have hf := Session.materialize_returns_iff.mp ⟨v, hv⟩
  cases op with
  | insertClip x r data p => exact undoneIff_insertClip hb hf hv hl r data p (hnew x rfl)
  | deleteClip x => exact undoneIff_deleteClip hb hf hv hl x
  | insertTrack t data p => exact undoneIff_insertTrack hb hv hl t data p
  | deleteTrack t => exact undoneIff_deleteTrack hb hv hl t
  | _ => exact hop.elim

/-- A track and a clip of 1000 frames at half gain. -/
def quietCalls : List Call :=
  [.applyLocal (.insertTrack ⟨1⟩ (.new "t") 0),
    .applyLocal (.insertClip ⟨1⟩ ⟨1⟩ (.new "c" 0 1000) 0),
    .applyLocal (.updateClipMetadata ⟨1⟩ { gain := some ⟨0x3F000000⟩ })]

theorem quietCalls_undo_insert : ∃ c v, afterCalls ⟨1⟩ quietCalls = some c ∧ c.view = some v ∧
    (c.BringsBack (.insertClip ⟨2⟩ ⟨1⟩ (.new "d" 0 10) 0) →
      (c.applyUndo (.insertClip ⟨2⟩ ⟨1⟩ (.new "d" 0 10) 0)).bind view = some v) ∧
    (c.session.HasTargets (.insertClip ⟨2⟩ ⟨1⟩ (.new "d" 0 10) 0) →
      (c.applyUndo (.insertClip ⟨2⟩ ⟨1⟩ (.new "d" 0 10) 0)).bind view = some v →
        c.BringsBack (.insertClip ⟨2⟩ ⟨1⟩ (.new "d" 0 10) 0)) :=
  ⟨_, _, rfl, rfl, undo_lifecycle_iff ⟨1⟩ quietCalls rfl rfl trivial
    (by rintro _ ⟨⟩; exact .inr (by decide +kernel)) (by decide +kernel)⟩

/-- The insert that brings a deleted clip back carries no gain. -/
theorem quietCalls_undo_delete : ∃ c v, afterCalls ⟨1⟩ quietCalls = some c ∧ c.view = some v ∧
    c.session.HasTargets (.deleteClip ⟨1⟩) ∧ c.lamport.counter.toNat + 2 ≤ u64Max.toNat ∧
      (c.applyUndo (.deleteClip ⟨1⟩)).bind view ≠ some v := by
  refine ⟨_, _, rfl, rfl, by decide +kernel, by decide +kernel, fun h => ?_⟩
  exact absurd (congrArg (Option.map fun v => v.clips.map (·.values.gain)) h) (by decide +kernel)

end TimelineCrdt

end AvSync
