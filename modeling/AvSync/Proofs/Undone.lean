import AvSync.Proofs.Cuts
import AvSync.Proofs.Edits
import AvSync.Proofs.Stamps
import AvSync.Undone

/-!
# The session after an edit and its undo

The session then is the one before with the edit and its inverse applied, each under a tag greater
than all others (`applyUndo_eq`). For an edit of an existing clip that is one record rewritten
(`Rewrites`): the values of the clips below change field by field (`Rewrites.field_iff`).
-/

namespace AvSync

theorem OpTag.ne_initial_of_lt {t u : OpTag} (h : t < u) : u ≠ .initial := by
  rintro rfl
  exact absurd h (not_lt.mpr (OpTag.initial_le t))

namespace LwwReg

variable {α : Type} {r : LwwReg α} {t u : OpTag}

theorem set_set (ht : r.tag < t) (hu : t < u) (v w : α) : (r.set v t).set w u = ⟨w, u⟩ := by
  rw [set_of_lt v ht]
  exact set_of_lt w hu

theorem setOption_set (ht : r.tag < t) (hu : t < u) (v : Option α) (w : α) :
    (r.setOption v t).set w u = ⟨w, u⟩ := by
  rcases v with _ | v
  · exact set_of_lt w (ht.trans hu)
  · exact set_set ht hu v w

end LwwReg

namespace TimelineCrdt

variable {c : TimelineCrdt} {op inv : TimelineOperation}

theorem applyUndo_eq (hb : Bounded c) (hl : c.lamport.counter.toNat + 2 ≤ u64Max.toNat)
    (hinv : computeInverse op c.session = some (some inv))
    (hs : c.session.Succeeds (c.tagNext op)) : ∃ c₂ o₁ o₂, c.applyUndo op = some c₂ ∧
      c₂.session = (c.session.exec o₁).exec o₂ ∧ o₁.operation = op ∧ o₂.operation = inv ∧
        c.session.Newest o₁.tag ∧ o₁.tag < o₂.tag := by
  have hl1 : c.lamport.counter < u64Max := UInt64.lt_iff_toNat_lt.mpr (by omega)
  have hl2 : c.lamport.tick.1 < u64Max := by
    rw [UInt64.lt_iff_toNat_lt, LamportClock.tick, toNat_saturatingAdd, UInt64.toNat_one]
    rw [u64Max_toNat] at hl ⊢
    omega
  have hclock : (c.stamp op (some inv)).2.lamport.counter = c.lamport.tick.1 := by
    obtain ⟨_, _, _, heq⟩ := stamp_eq c op (some inv)
    rw [heq]
    rfl
  have hpop : (c.stamp op (some inv)).2.history.popUndo.map (·.1) = some ⟨op, inv⟩ := by
    rw [stamp_of_succeeds (some inv) hs]
    rfl
  have hsess := stamp_session (c := c) op (some inv)
  have happ : c.applyLocal op = some (c.stamp op (some inv)) := by
    rw [applyLocal, hinv, Option.map_some]
  generalize hc₁ : c.stamp op (some inv) = r at *
  obtain ⟨⟨entry, h₀⟩, hentry, rfl⟩ := Option.map_eq_some_iff.mp hpop
  refine ⟨r.2.undo.2, c.tagNext op, r.2.tagNext inv, by rw [applyUndo, happ, Option.map_some], ?_,
    rfl, rfl, hb.newest hl1 op, ?_⟩
  · rw [undo, hentry]
    change (({ r.2 with history := h₀ } : TimelineCrdt).stamp inv none).2.session = _
    rw [stamp_session, hsess]
    rfl
  · refine OpTag.lt_iff.mpr (.inl ?_)
    change c.lamport.tick.1 < r.2.lamport.tick.1
    rw [← hclock]
    exact next_lt (hclock ▸ hl2)

theorem view_applyUndo (hb : Bounded c) (hl : c.lamport.counter.toNat + 2 ≤ u64Max.toNat)
    (ht : c.session.HasTargets op) (hinv : computeInverse op c.session = some (some inv)) :
    ∃ o₁ o₂, (c.applyUndo op).bind view = ((c.session.exec o₁).exec o₂).materialize ∧
      o₁.operation = op ∧ o₂.operation = inv ∧ c.session.Newest o₁.tag ∧ o₁.tag < o₂.tag := by
  obtain ⟨c₂, o₁, o₂, happ, hsess, h⟩ := applyUndo_eq hb hl hinv (Session.ok_of_hasTargets ht)
  exact ⟨o₁, o₂, by rw [happ, Option.bind_some, view, hsess], h⟩

end TimelineCrdt

namespace Session

variable {s s' s'' : Session} {o o' : TaggedOperation} {x y : ClipId} {c d e : ClipCrdt}
  {above l : List ClipCrdt} {v : SessionView}

/-- After an edit under the newest tag, a greater tag is the newest. -/
theorem Newest.exec (h : s.Newest o.tag) {t : OpTag} (ht : o.tag < t) : (s.exec o).Newest t :=
  tagsIn_iff.mp (((tagsIn_iff.mpr h).mono fun _ hu => hu.trans ht).exec ht
    (lt_of_le_of_lt (OpTag.initial_le _) ht))

/-! ## Views -/

/-- A session has the view of another exactly when their parts agree. -/
theorem materialize_eq_iff (hv : s.materialize = some v) (hf : s'.Forest) :
    s'.materialize = some v ↔ s'.metadataView = s.metadataView ∧ s'.trackViews = s.trackViews ∧
      (s'.envelopes.envelopes.map fun _ reg => reg.value) =
        (s.envelopes.envelopes.map fun _ reg => reg.value) ∧ ∀ y, s.shows y = s'.shows y := by
  obtain ⟨hmeta, htracks, henv⟩ := view_parts hv
  constructor
  · intro hv'
    obtain ⟨hmeta', htracks', henv'⟩ := view_parts hv'
    refine ⟨hmeta'.symm.trans hmeta, htracks'.symm.trans htracks, henv'.symm.trans henv, ?_⟩
    intro y
    have key : ∀ {s : Session}, s.materialize = some v →
        ∀ w, s.shows y = some w ↔ w ∈ v.clips ∧ w.clipId = y := by
      intro s hv w
      rw [mem_clips_iff hv]
      constructor
      · intro h
        obtain rfl := shows_clipId h
        exact ⟨h, rfl⟩
      · rintro ⟨h, rfl⟩
        exact h
    exact Option.ext fun w => (key hv w).trans (key hv' w).symm
  · rintro ⟨h1, h2, h3, h4⟩
    obtain ⟨v', hv'⟩ := hf.materialize
    obtain ⟨hmeta', htracks', henv'⟩ := view_parts hv'
    rw [hv', view_ext hv hv' (hmeta.trans (h1.symm.trans hmeta'.symm))
      (htracks.trans (h2.symm.trans htracks'.symm)) h4 (henv.trans (h3.symm.trans henv'.symm))]

/-- What the view holds of a track, if it is live. -/
def trackShown (s : Session) (t : TrackId) : Option TrackView :=
  s.tracks[t]?.bind fun r => if r.alive.value then some (trackView t r) else none

theorem trackShown_eq_some {t : TrackId} {w : TrackView} : s.trackShown t = some w ↔
    ∃ r, s.tracks[t]? = some r ∧ r.alive.value = true ∧ trackView t r = w := by
  simp only [trackShown, Option.bind_eq_some_iff, Option.ite_none_right_eq_some,
    Option.some.injEq]

theorem liveTrack_iff_trackShown {t : TrackId} :
    s.LiveTrack t ↔ ∃ w, s.trackShown t = some w := by
  simp only [LiveTrack, trackShown_eq_some]
  constructor
  · rintro ⟨r, hr, halive⟩
    exact ⟨_, r, hr, halive, rfl⟩
  · rintro ⟨_, r, hr, halive, -⟩
    exact ⟨r, hr, halive⟩

theorem mem_trackViews {w : TrackView} :
    w ∈ s.trackViews ↔ s.trackShown w.trackId = some w := by
  rw [trackViews, List.mem_insertionSort, List.mem_map, trackShown_eq_some]
  constructor
  · rintro ⟨⟨t, r⟩, he, rfl⟩
    obtain ⟨he, halive⟩ := List.mem_filter.mp he
    exact ⟨r, Std.ExtTreeMap.mem_toList_iff_getElem?_eq_some.mp he, halive, rfl⟩
  · rintro ⟨r, hr, halive, hw⟩
    exact ⟨(w.trackId, r), List.mem_filter.mpr
      ⟨Std.ExtTreeMap.mem_toList_iff_getElem?_eq_some.mpr hr, halive⟩, hw⟩

theorem trackViews_congr (h : ∀ t, s'.trackShown t = s.trackShown t) :
    s'.trackViews = s.trackViews := by
  have hviews : ∀ s : Session, s.trackViews = ((s.tracks.filterMap fun t r =>
      if r.alive.value then some (trackView t r) else none).toList.map (·.2)).insertionSort
        fun a b => trackKey a ≤ trackKey b := by
    intro s
    rw [trackViews, Std.ExtTreeMap.toList_filterMap, List.map_filterMap,
      ← List.filterMap_eq_map, List.filterMap_filter]
    congr 2
    funext e
    rcases e.2.alive.value <;> simp
  have hmap : (s'.tracks.filterMap fun t r =>
      if r.alive.value then some (trackView t r) else none) =
        s.tracks.filterMap fun t r => if r.alive.value then some (trackView t r) else none := by
    ext1 t
    rw [Std.ExtTreeMap.getElem?_filterMap', Std.ExtTreeMap.getElem?_filterMap']
    exact h t
  rw [hviews, hviews, hmap]

theorem liveTrack_congr (h : ∀ t, s'.trackShown t = s.trackShown t) (t : TrackId) :
    s.LiveTrack t ↔ s'.LiveTrack t := by
  rw [liveTrack_iff_trackShown, liveTrack_iff_trackShown, h]

/-- With the clips and the live tracks kept, every clip shows the same. -/
theorem shows_of_clips_eq (hf : s.Forest) (hclips : ∀ y : ClipId, s'.clips[y]? = s.clips[y]?)
    (htracks : ∀ t, s.LiveTrack t ↔ s'.LiveTrack t) (y : ClipId) : s.shows y = s'.shows y := by
  by_cases hy : y ∈ s.clips
  · obtain ⟨l, hl⟩ := hf.lineage hy
    have hrel : ∀ {R : ClipCrdt → ClipCrdt → Prop}, (∀ e, R e e) → ∀ z : ClipId,
        Option.Rel R s.clips[z]? s'.clips[z]? := fun hR z => rel_of_eq hR (hclips z).symm
    exact shows_congr (hrel (fun _ => ⟨rfl, rfl⟩) y) (hl.valuesOf_congr fun z _ => hrel .refl z)
      (hl.rangeOf_congr
        (fun z _ => hrel (R := fun c d => c.parent = d.parent) (fun _ => rfl) z)
        (fun z _ => hrel .refl z) fun z _ _ => hrel .refl z) htracks
  · have hy' : y ∉ s'.clips := by
      rw [BTreeMap.not_mem_iff, hclips]
      exact BTreeMap.not_mem_iff.mp hy
    rw [shows_of_not_mem hy, shows_of_not_mem hy']

theorem visible_iff_shows : s.Visible x ↔ ∃ w, s.shows x = some w := by
  constructor
  · rintro ⟨r, hr, hvis⟩
    exact ⟨_, Option.map_eq_some_iff.mpr ⟨r, Option.filter_eq_some_iff.mpr
      ⟨Option.join_eq_some_iff.mpr hr, hvis⟩, rfl⟩⟩
  · rintro ⟨w, hw⟩
    obtain ⟨r, hr, -⟩ := Option.map_eq_some_iff.mp hw
    obtain ⟨hr, hvis⟩ := Option.filter_eq_some_iff.mp hr
    exact ⟨r, Option.join_eq_some_iff.mp hr, hvis⟩

/-! ## Below a clip -/

theorem Below.descends (h : s.Below x y l) : s.Descends y x := by
  induction h with
  | here => exact descends_refl s x
  | child hc hl _ ih => exact ih.of_link hc hl

theorem Below.lineage {m : List ClipCrdt} (h : s.Below x y l) (hx : s.Lineage x m) :
    s.Lineage y (l ++ m) := by
  induction h with
  | here => exact hx
  | child hc hl _ ih => exact .child hc hl ih

theorem exists_below (h : s.Descends y x) : ∃ l, s.Below x y l := by
  obtain ⟨n, hn⟩ := h
  induction n generalizing y with
  | zero =>
    obtain rfl := Option.some.inj hn
    exact ⟨[], .here⟩
  | succ n ih =>
    rw [ParentLinks.walk_succ, Option.bind_eq_some_iff] at hn
    obtain ⟨z, hz, hzx⟩ := hn
    obtain ⟨c, link, hc, hl, rfl⟩ := parentOf_eq_some.mp hz
    obtain ⟨l, hb⟩ := ih hzx
    exact ⟨c :: l, .child hc hl hb⟩

/-! ## One record rewritten -/

namespace Rewrites

variable (h : Rewrites s s' x d)

theorem trans (h : Rewrites s s' x d) (h' : Rewrites s' s'' x e) : Rewrites s s'' x e where
  record := h'.record
  others y hy := (h'.others y hy).trans (h.others y hy)
  tracks := h'.tracks.trans h.tracks
  metadata := h'.metadata.trans h.metadata
  envelopes := h'.envelopes.trans h.envelopes

include h

theorem below (hl : s.Lineage x (c :: above)) (hb : s.Below x y l) : s'.Below x y l := by
  induction hb with
  | here => exact .here
  | @child y c' link l hc hlink hb ih =>
    refine .child ((h.others y ?_).trans hc) hlink ih
    rintro rfl
    obtain rfl := Option.some.inj (hl.clips.symm.trans hc)
    exact hl.not_descends hlink hb.descends

theorem forest (hx : s.clips[x]? = some c) (hp : c.parent = d.parent) (hf : s.Forest) :
    s'.Forest := by
  refine forest_of_lineage fun y hy => ?_
  have hy' : y ∈ s.clips := by
    by_cases hyx : y = x
    · exact BTreeMap.mem_iff.mpr ⟨c, hyx ▸ hx⟩
    · rw [BTreeMap.mem_iff, ← h.others y hyx]
      exact BTreeMap.mem_iff.mp hy
  obtain ⟨l, hl⟩ := hf.lineage hy'
  obtain ⟨m, hm, -⟩ := hl.congr (R := fun c d => c.parent = d.parent) (fun _ _ h => h)
    fun z _ => h.rel_parent hx hp z
  exact ⟨m, hm⟩

/-- A clip that does not descend from the rewritten one keeps its values. -/
theorem valuesOf_of_not_descends (hl : s.Lineage y l) (hy : ¬s.Descends y x) :
    s.valuesOf y = s'.valuesOf y :=
  hl.valuesOf_congr fun z hz => rel_of_eq .refl (h.others z fun e => hy (e ▸ hz)).symm

/-- A clip that does not follow the rewritten one keeps its range. -/
theorem rangeOf_of_not_follows (hl : s.Lineage y l) (hx : s.clips[x]? = some c)
    (hp : c.parent = d.parent) (hy : ¬s.Follows y x) : s.rangeOf y = s'.rangeOf y := by
  have hne : ∀ {z}, s.Follows y z → z ≠ x := fun hz e => hy (e ▸ hz)
  exact hl.rangeOf_congr (fun z _ => h.rel_parent hx hp z)
    (fun z hz => rel_of_eq .refl (h.others z (hne hz)).symm)
    fun z hz _ => rel_of_eq .refl (h.others z (hne hz)).symm

/-- A field that is rewritten to the value the clip shows stays as it was at a clip below exactly
when the records on the way pass it on. -/
theorem field_iff (hl : s.Lineage x (c :: above)) (hp : d.parent = c.parent) (φ : Field)
    (hw : φ.Written d)
    (hval : Inheritance.settled φ.Written φ.value (c :: above) = some (φ.value d))
    (hb : s.Below x y l) : (s'.valuesOf y).map φ.get = (s.valuesOf y).map φ.get ↔
      Inheritance.donor φ.Written above ≠ none ∨ φ.Written c ∨ above = [] ∨
        (∀ z ∈ l.getLast?, ¬φ.Written z) ∨ Inheritance.settled φ.Written φ.value l =
          Inheritance.settled φ.Written φ.value (c :: above) := by
  rw [← (hb.lineage hl).valuesOf φ, ← ((h.below hl hb).lineage (h.lineage hl hp)).valuesOf φ, hval]
  exact Inheritance.settled_replace_iff hw hval

theorem field_eq (hl : s.Lineage x (c :: above)) (hp : d.parent = c.parent) (φ : Field)
    (hreg : φ.reg d = φ.reg c) (hb : s.Below x y l) :
    (s'.valuesOf y).map φ.get = (s.valuesOf y).map φ.get := by
  rw [← (hb.lineage hl).valuesOf φ, ← ((h.below hl hb).lineage (h.lineage hl hp)).valuesOf φ]
  refine Inheritance.settled_congr (List.rel_append ?_ ?_)
  · exact List.forall₂_same.mpr fun _ _ => ⟨rfl, Iff.rfl⟩
  · refine .cons ⟨?_, ?_⟩ (List.forall₂_same.mpr fun _ _ => ⟨rfl, Iff.rfl⟩)
    · rw [Field.value, Field.value, hreg]
    · rw [Field.Written, Field.Written, hreg]

theorem rangeOf_all (hx : s.clips[x]? = some c) (hspan : SameSpan c d) (hcuts : SameCuts c d)
    (hl : s.Lineage y l) : s.rangeOf y = s'.rangeOf y :=
  hl.rangeOf_congr (fun z _ => h.rel_parent hx hspan.parent z)
    (fun z _ => h.rel .refl hx hspan z) fun z _ _ => h.rel .refl hx hcuts z

theorem shows_of_not_mem (hx : s.clips[x]? = some c) (hy : y ∉ s.clips) : s'.shows y = none := by
  refine Session.shows_of_not_mem ?_
  have hyx : y ≠ x := by
    rintro rfl
    exact hy (BTreeMap.mem_iff.mpr ⟨c, hx⟩)
  rw [BTreeMap.not_mem_iff, h.others y hyx]
  exact BTreeMap.not_mem_iff.mp hy

/-- Fields other than the track, rewritten to the values the clip shows: every clip shows the same
exactly when the visible ones below pass them on. -/
theorem shows_iff (hf : s.Forest) (hl : s.Lineage x (c :: above)) (hspan : SameSpan c d)
    (hcuts : SameCuts c d) {Φ : Field → Prop} (htrack : ¬Φ .track)
    (hkeep : ∀ φ, ¬Φ φ → φ.reg d = φ.reg c) (hset : ∀ φ, Φ φ → φ.Written d ∧
      Inheritance.settled φ.Written φ.value (c :: above) = some (φ.value d)) :
    (∀ y, s.shows y = s'.shows y) ↔ ∀ φ, Φ φ → s.PassesOn x φ s.Visible := by
  have hrec : ∀ y : ClipId, Option.Rel (fun c d => c.alive.value = d.alive.value ∧
      c.splits = d.splits) s.clips[y]? s'.clips[y]? :=
    fun y => h.rel (R := fun c d => c.alive.value = d.alive.value ∧ c.splits = d.splits)
      (fun _ => ⟨rfl, rfl⟩) hl.clips ⟨hcuts.alive, hcuts.splits⟩ y
  constructor
  · intro heq φ hφ c' above' hl' y m hvis hb
    obtain ⟨rfl, rfl⟩ := List.cons.inj (hl.unique hl')
    obtain ⟨w, hw⟩ := visible_iff_shows.mp hvis
    have hw' := (heq y).symm.trans hw
    obtain ⟨_, a, _, _, _, ha, _, _, _, hwa⟩ := shows_eq_some.mp hw
    obtain ⟨_, a', _, _, _, ha', _, _, _, hwa'⟩ := shows_eq_some.mp hw'
    have haa : a = a' := congrArg ClipView.values (hwa.symm.trans hwa')
    obtain ⟨hwr, hval⟩ := hset φ hφ
    exact (h.field_iff hl hspan.parent.symm φ hwr hval hb).mp (by rw [ha, ha', haa])
  · intro hpass y
    by_cases hy : y ∈ s.clips
    swap
    · rw [Session.shows_of_not_mem hy, h.shows_of_not_mem hl.clips hy]
    obtain ⟨m, hm⟩ := hf.lineage hy
    have hrange := h.rangeOf_all hl.clips hspan hcuts hm
    by_cases hdesc : s.Descends y x
    swap
    · exact shows_congr (hrec y) (h.valuesOf_of_not_descends hm hdesc) hrange
        fun t => h.liveTrack.symm
    obtain ⟨k, hb⟩ := exists_below hdesc
    by_cases hvis : s.Visible y
    · refine shows_congr (hrec y) ?_ hrange fun t => h.liveTrack.symm
      obtain ⟨a, ha⟩ := hm.valuesOf_some
      obtain ⟨a', ha'⟩ := ((h.below hl hb).lineage (h.lineage hl hspan.parent.symm)).valuesOf_some
      have hfield : ∀ φ : Field, (s'.valuesOf y).map φ.get = (s.valuesOf y).map φ.get := by
        intro φ
        by_cases hφ : Φ φ
        · obtain ⟨hwr, hval⟩ := hset φ hφ
          exact (h.field_iff hl hspan.parent.symm φ hwr hval hb).mpr
            (hpass φ hφ c above hl y k hvis hb)
        · exact h.field_eq hl hspan.parent.symm φ (hkeep φ hφ) hb
      rw [ha, ha', Option.some.injEq]
      refine Field.ext_get fun φ => ?_
      have := hfield φ
      rw [ha, ha', Option.map_some, Option.map_some, Option.some.injEq] at this
      exact this.symm
    · -- a clip that shows nothing shows nothing: its track stays
      have hnone : ∀ w, s.shows y ≠ some w := fun w hw => hvis (visible_iff_shows.mpr ⟨w, hw⟩)
      rw [Option.eq_none_iff_forall_ne_some.mpr hnone]
      refine (Option.eq_none_iff_forall_ne_some.mpr fun w hw => ?_).symm
      obtain ⟨e', a', r, he', halive, ha', hr, htr, hpos, -⟩ := shows_eq_some.mp hw
      obtain ⟨e, he⟩ := BTreeMap.mem_iff.mp hy
      have hee := hrec y
      rw [he, he'] at hee
      obtain ⟨hal, hsp⟩ := hee
      obtain ⟨a, ha⟩ := hm.valuesOf_some
      have htrk := h.field_eq hl hspan.parent.symm .track (hkeep _ htrack) hb
      rw [ha, ha', Option.map_some, Option.map_some, Option.some.injEq] at htrk
      have htrk : a'.trackId = a.trackId := htrk
      refine hnone _ (shows_eq_some.mpr ⟨e, a, r, he, ?_, ha, hrange.trans hr, ?_, ?_, rfl⟩)
      · rwa [hal]
      · rwa [← htrk, ← h.liveTrack]
      · rwa [ClipCrdt.visibleLength, ClipCrdt.firstSplitOffset, hsp]

end Rewrites

/-! ## Ranges that derive from the rewritten one -/

section

variable {r q : UInt64 × UInt64}

theorem Rewrites.follows (h : Rewrites s s' x d) (hy : s.Follows y x) : s'.Follows y x := by
  induction hy with
  | refl x => exact .refl x
  | @step y x c link hc hl hdet _ ih =>
    by_cases hyx : y = x
    · exact hyx ▸ .refl y
    · exact .step ((h.others y hyx).trans hc) hl hdet (ih h)

/-- The ranges of the clips that follow a rewritten one derive from its new range. -/
theorem Rewrites.rangeOf_iff_derives (h : Rewrites s s' x d) (hf' : s'.Forest)
    (hx : s.clips[x]? = some c) (hs : c.splits = d.splits) (halive : d.alive.value = true)
    (hr : s'.rangeOf x = some r) (hy : s.Follows y x) :
    s'.rangeOf y = some q ↔ s.Derives x r y q := by
  have hsplits : Option.Rel (fun c d => c.splits = d.splits) s.clips[x]? s'.clips[x]? := by
    rw [hx, h.record]
    exact .some hs
  have hsplits' : Option.Rel (fun c d => c.splits = d.splits) s'.clips[x]? s.clips[x]? := by
    rw [hx, h.record]
    exact .some hs.symm
  constructor
  · intro hq
    obtain ⟨r', hr', hder, -⟩ := (h.follows hy).derives hf' hq
    obtain rfl := Option.some.inj (hr.symm.trans hr')
    exact hder.congr hsplits' fun z _ hz => (h.others z hz).symm
  · intro hder
    refine (hder.congr hsplits fun z _ hz => h.others z hz).rangeOf hf' hr fun _ e he => ?_
    exact Option.some.inj (h.record.symm.trans he) ▸ halive

theorem Forest.rangeOf_iff_derives (hf : s.Forest) (hx : s.clips[x]? = some c)
    (halive : c.alive.value = true) (hr : s.rangeOf x = some r) (hy : s.Follows y x) :
    s.rangeOf y = some q ↔ s.Derives x r y q :=
  Rewrites.rangeOf_iff_derives ⟨hx, fun _ _ => rfl, rfl, rfl, rfl⟩ hf hx rfl halive hr hy

end

end Session

end AvSync
