import AvSync.LocalRuns
import AvSync.Proofs.Cuts
import AvSync.Proofs.Splits
import AvSync.Proofs.Undone

/-!
# Undoing splits, moves and trims

The inverse of a trim or a move gives the clip back the range it showed, which is the visible part
of the range it had, or one of its own duration; the inverse of a split deletes the new piece and
leaves the split point. The clips that follow are then cut (`undo_trim_iff`, `undo_split_iff`) or
get other lengths (`undo_move_iff`).
-/

namespace AvSync

namespace Session

variable {s s' : Session} {o o' : TaggedOperation} {x y p n q' : ClipId} {c d : ClipCrdt}
  {above : List ClipCrdt} {v : SessionView} {f z : UInt64} {r q : UInt64 × UInt64}

/-! ## Places -/

theorem place_eq_some {g : ClipId × TrackId × UInt64 × UInt64} :
    (s.shows y).map ClipView.place = some g ↔ ∃ a e, s.valuesOf y = some a ∧
      s.LiveTrack a.trackId ∧ s.extentOf y = some e ∧ 0 < e.2 ∧ g = (y, a.trackId, e.1, e.2) := by
  simp only [Option.map_eq_some_iff, shows_iff_extent]
  constructor
  · rintro ⟨w, ⟨a, e, ha, ht, he, hpos, rfl⟩, rfl⟩
    exact ⟨a, e, ha, ht, he, hpos, rfl⟩
  · rintro ⟨a, e, ha, ht, he, hpos, rfl⟩
    exact ⟨_, ⟨a, e, ha, ht, he, hpos, rfl⟩, rfl⟩

theorem mem_places (hv : s.materialize = some v) {g : ClipId × TrackId × UInt64 × UInt64} :
    g ∈ v.clips.map ClipView.place ↔ (s.shows g.1).map ClipView.place = some g := by
  rw [List.mem_map, Option.map_eq_some_iff]
  constructor
  · rintro ⟨w, hw, rfl⟩
    exact ⟨w, (mem_clips_iff hv).mp hw, rfl⟩
  · rintro ⟨w, hw, rfl⟩
    exact ⟨w, (mem_clips_iff hv).mpr hw, rfl⟩

/-- Two views hold the same places exactly when each clip keeps its own. -/
theorem places_iff (hv : s.materialize = some v) (hf' : s'.Forest) :
    (∃ v', s'.materialize = some v' ∧
      ∀ g, g ∈ v'.clips.map ClipView.place ↔ g ∈ v.clips.map ClipView.place) ↔
    ∀ y, (s.shows y).map ClipView.place = (s'.shows y).map ClipView.place := by
  have hid : ∀ {s : Session} {y g}, (s.shows y).map ClipView.place = some g → g.1 = y := by
    intro s y g hg
    obtain ⟨a, e, -, -, -, -, rfl⟩ := place_eq_some.mp hg
    rfl
  constructor
  · rintro ⟨v', hv', h⟩ y
    ext g
    constructor <;> intro hg <;> obtain rfl := hid hg
    · exact (mem_places hv').mp ((h g).mpr ((mem_places hv).mpr hg))
    · exact (mem_places hv).mp ((h g).mp ((mem_places hv').mpr hg))
  · intro h
    obtain ⟨v', hv'⟩ := hf'.materialize
    exact ⟨v', hv', fun g => by rw [mem_places hv, mem_places hv', h]⟩

/-- With its values kept, a clip keeps its place exactly when it shows the same. -/
theorem place_iff_shows (hvals : s.valuesOf y = s'.valuesOf y) :
    (s.shows y).map ClipView.place = (s'.shows y).map ClipView.place ↔
      s.shows y = s'.shows y := by
  refine ⟨fun h => ?_, fun h => by rw [h]⟩
  ext w
  have key : ∀ {s s' : Session}, s.valuesOf y = s'.valuesOf y →
      (s.shows y).map ClipView.place = (s'.shows y).map ClipView.place →
        s.shows y = some w → s'.shows y = some w := by
    intro s s' hvals h hw
    rw [hw, Option.map_some, eq_comm, Option.map_eq_some_iff] at h
    obtain ⟨w', hw', hpl⟩ := h
    obtain ⟨a, e, ha, -, -, -, rfl⟩ := shows_iff_extent.mp hw
    obtain ⟨a', e', ha', -, -, -, rfl⟩ := shows_iff_extent.mp hw'
    obtain rfl := Option.some.inj (ha.symm.trans (hvals.trans ha'))
    simp only [ClipView.place, Prod.mk.injEq, true_and] at hpl
    rw [hw', hpl.1, hpl.2]
  exact ⟨key hvals h, key hvals.symm h.symm⟩

theorem shows_eq_some_iff_visibleAs {w : ClipView} :
    s.shows y = some w ↔ ∃ u, s.VisibleAs y u ∧ u.view = w := by
  rw [shows, Option.map_eq_some_iff]
  constructor
  · rintro ⟨u, hu, hw⟩
    obtain ⟨hu, hvis⟩ := Option.filter_eq_some_iff.mp hu
    exact ⟨u, ⟨Option.join_eq_some_iff.mp hu, hvis⟩, hw⟩
  · rintro ⟨u, ⟨hu, hvis⟩, hw⟩
    exact ⟨u, Option.filter_eq_some_iff.mpr ⟨Option.join_eq_some_iff.mpr hu, hvis⟩, hw⟩

theorem forall_shows_iff {m : ℕ} :
    (∀ w, s.shows y = some w → w.startFrame.toNat + w.durationFrames.toNat ≤ m) ↔
      ∀ u, s.VisibleAs y u → u.endFrame ≤ m := by
  constructor
  · exact fun h u hu => h u.view (shows_eq_some_iff_visibleAs.mpr ⟨u, hu, rfl⟩)
  · intro h w hw
    obtain ⟨u, hu, rfl⟩ := shows_eq_some_iff_visibleAs.mp hw
    exact h u hu

theorem Visible.parts (h : s.Visible x) : ∃ c above a r, s.Lineage x (c :: above) ∧
    c.alive.value = true ∧ s.valuesOf x = some a ∧ s.LiveTrack a.trackId ∧
      s.rangeOf x = some r ∧ 0 < c.visibleLength r ∧
        s.resolveClip x = some (some (s.resolved x c a (some (r.1, c.visibleLength r)))) := by
  obtain ⟨u, hu, hvis⟩ := h
  obtain ⟨l, hl⟩ := lineage_of_resolveClip hu
  obtain ⟨c, above, hc, rfl⟩ := hl.head
  obtain ⟨a, ha, hra⟩ := hl.resolveClip_eq
  obtain rfl := Option.some.inj (Option.some.inj (hra.symm.trans hu))
  obtain ⟨halive, ht, g, hg, hpos⟩ := resolved_visible.mp hvis
  obtain ⟨r, hr, rfl⟩ := Option.map_eq_some_iff.mp hg
  exact ⟨c, above, a, r, hl, halive, ha, ht, hr, hpos, by rw [hra, hr]; rfl⟩

/-! ## Trims -/

/-- A range that is cut, all else kept: every clip shows the same exactly when none that follows
ends after the cut. -/
theorem Rewrites.shows_cut_iff (h : Rewrites s s' x d) (hf : s.Forest)
    (hl : s.Lineage x (c :: above)) (hfields : SameFields c d) (hcuts : SameCuts c d)
    (hr : s'.rangeOf x = (s.rangeOf x).map (cut z)) : (∀ y, s.shows y = s'.shows y) ↔
      ∀ y, s.Follows y x → ∀ w, s.shows y = some w →
        w.startFrame.toNat + w.durationFrames.toNat ≤ z.toNat := by
  have hf' := h.forest hl.clips hfields.parent hf
  have htracks : ∀ t, s.LiveTrack t ↔ s'.LiveTrack t := fun _ => h.liveTrack.symm
  have key : ∀ y, (s.Follows y x → (s.shows y = s'.shows y ↔ ∀ w, s.shows y = some w →
      w.startFrame.toNat + w.durationFrames.toNat ≤ z.toNat)) ∧
        (¬s.Follows y x → s.shows y = s'.shows y) := by
    intro y
    by_cases hy : y ∈ s.clips
    · obtain ⟨l, hly⟩ := hf.lineage hy
      have hvals := hly.valuesOf_congr fun z _ => h.rel .refl hl.clips hfields z
      have hrec := h.rel .refl hl.clips hcuts y
      refine ⟨fun hfol => ?_, fun hfol => ?_⟩
      · exact shows_shorten_iff hvals htracks (extentOf_cut hrec (hfol.rangeOf_map
          (fun _ _ _ hle => childRange_cut hle) hf hf' (h.rel .refl hl.clips hcuts x)
          (fun z _ hz => h.others z hz) hr))
      · exact shows_of_extentOf_eq hvals htracks (extentOf_congr hrec
          (h.rangeOf_of_not_follows hly hl.clips hfields.parent hfol))
    · have hnone := Session.shows_of_not_mem hy
      rw [hnone, h.shows_of_not_mem hl.clips hy]
      simp
  constructor
  · exact fun hall y hy => ((key y).1 hy).mp (hall y)
  · intro hend y
    by_cases hy : s.Follows y x
    · exact ((key y).1 hy).mpr (hend y hy)
    · exact (key y).2 hy

/-- Cut at its visible end, a range holds the visible frames. -/
theorem cut_visibleLength (hr : r.1 ≤ r.2) :
    (saturatingAdd r.1 (c.visibleLength r)).toNat = r.1.toNat + (c.visibleLength r).toNat ∧
      cut (saturatingAdd r.1 (c.visibleLength r)) r =
        (r.1, saturatingAdd r.1 (c.visibleLength r)) := by
  have hlen := visibleLength_le c r
  have htail := toNat_le_u64Max r.2
  rw [UInt64.le_iff_toNat_le] at hr
  have hz : (saturatingAdd r.1 (c.visibleLength r)).toNat =
      r.1.toNat + (c.visibleLength r).toNat := by
    rw [toNat_saturatingAdd]
    omega
  refine ⟨hz, Prod.ext rfl (UInt64.toNat_inj.mp ?_)⟩
  simp only [cut, toNat_max, toNat_min, hz]
  omega

/-! ## Splits -/

/-- A clip that follows another does so through one of its pieces. -/
theorem Follows.piece (h : s.Follows y p) (hne : y ≠ p) : ∃ q c link, s.clips[q]? = some c ∧
    c.parent = some link ∧ link.clip = p ∧ c.detached = false ∧ s.Follows y q := by
  induction h with
  | refl p => exact absurd rfl hne
  | @step y p c link hc hl hdet h ih =>
    by_cases hlp : link.clip = p
    · exact ⟨y, c, link, hc, hl, hlp, hdet, .refl y⟩
    · obtain ⟨q, e, k, he, hk, hkp, hedet, hq⟩ := ih hlp
      exact ⟨q, e, k, he, hk, hkp, hedet, .step hc hl hdet hq⟩

/-- Nothing but the id itself descends from an id that no record links to. -/
theorem eq_of_descends_of_unlinked (h : ∀ (y : ClipId) (c : ClipCrdt) (link : ClipParent),
    s.clips[y]? = some c → c.parent = some link → link.clip ≠ n) (hy : s.Descends y n) :
    y = n := by
  obtain ⟨k, hk⟩ := hy
  induction k generalizing y with
  | zero => exact Option.some.inj hk
  | succ k ih =>
    rw [ParentLinks.walk_succ, Option.bind_eq_some_iff] at hk
    obtain ⟨z, hz, hzn⟩ := hk
    obtain ⟨c, link, hc, hl, rfl⟩ := parentOf_eq_some.mp hz
    exact absurd (ih hzn) (h y c link hc hl)

section

variable (h : Carved s s' p f {n} c d) (hp : s.clips[p]? = some c) (hn : s.Unknown n)
  (hf : s.Forest) (hr : s.rangeOf p = some r)

include h hp hn

theorem Carved.unlinked (hpn : p ≠ n) {e : ClipCrdt} {link : ClipParent}
    (hy : s'.clips[y]? = some e) (hl : e.parent = some link) : link.clip ≠ n := by
  by_cases hyn : y = n
  · obtain ⟨t, ht⟩ := h.piece n rfl
    rw [hyn, ht, Option.some.injEq] at hy
    obtain rfl : (⟨p, f⟩ : ClipParent) = link := Option.some.inj ((congrArg _ hy).trans hl)
    exact hpn
  · by_cases hyp : y = p
    · obtain ⟨m, hm⟩ := h.same
      obtain rfl := Option.some.inj (h.record.symm.trans (hyp ▸ hy))
      exact hn.unlinked p c link hp (by rw [hm] at hl; exact hl)
    · exact hn.unlinked y e link ((h.others y hyp hyn).symm.trans hy) hl

include hf hr

/-- A split cuts the ranges of what follows a piece that was split off before. -/
theorem Carved.rangeOf_piece {e : ClipCrdt} {link : ClipParent} (he : s.clips[q']? = some e)
    (hel : e.parent = some link) (hlp : link.clip = p) (hedet : e.detached = false)
    (hq : s.Follows y q') : s'.rangeOf y = (s.rangeOf y).map fun t =>
      if link.offset < f then cut (saturatingAdd r.1 f) t else t := by
  subst hlp
  have hS : ∀ m ∈ ({n} : Set ClipId), s.Unknown m := fun m hm => hm ▸ hn
  have hf' := h.forest hp hS hf
  have hmem : ∀ {z}, z ∈ s.clips → z ∉ ({n} : Set ClipId) := fun hz e => hn.absent (e ▸ hz)
  have hds : ∀ g, g ∈ d.splits ↔ g ∈ c.splits ∨ g = f := fun g => by
    rw [h.mem_splits]
    simp
  have hdalive : d.alive.value = c.alive.value := by
    obtain ⟨m, rfl⟩ := h.same
    rfl
  have hpmem : link.clip ∈ s.clips := BTreeMap.mem_iff.mpr ⟨c, hp⟩
  obtain ⟨lp, hlp⟩ := hf.lineage hpmem
  have hpr := h.rangeOf_eq hp hS hlp (hmem hpmem) fun _ => rfl
  have hqmem : q' ∈ s.clips := BTreeMap.mem_iff.mpr ⟨e, he⟩
  have hsame : ∀ z, s.Follows z q' → s'.clips[z]? = s.clips[z]? := fun z hz => by
    refine h.others z ?_ (hmem ?_)
    · rintro rfl
      obtain ⟨lq, hlq⟩ := hf.lineage hqmem
      obtain ⟨e', above, he', rfl⟩ := hlq.head
      obtain rfl := Option.some.inj (he.symm.trans he')
      exact hlq.not_descends hel hz.descends
    · rcases hz with _ | ⟨hz, -, -, -⟩
      · exact hqmem
      · exact BTreeMap.mem_iff.mpr ⟨_, hz⟩
  refine hq.rangeOf_map (fun p' g t ht => ?_) hf hf' (rel_of_eq .refl (hsame q' (.refl q')).symm)
    (fun z hz _ => hsame z hz) ?_
  · split_ifs
    · exact childRange_cut ht
    · rfl
  · rw [hf.rangeOf_attached he hel hedet, hf'.rangeOf_attached ((hsame q' (.refl q')).trans he)
      hel hedet, hp, h.record, Option.bind_some, Option.bind_some, hdalive, ← hpr, hr]
    rcases c.alive.value with _ | _
    · rfl
    · simp only [if_true, Option.map_some, childRange_of_splits hds (rangeOf_le hr)]

/-- A split cuts the extents of the clips that stem from its parent before it. -/
theorem Carved.extentOf_eq (hy : y ∈ s.clips) :
    (s.StemsBefore p f y →
      s'.extentOf y = (s.extentOf y).map (shorten (saturatingAdd r.1 f))) ∧
    (¬s.StemsBefore p f y → s.extentOf y = s'.extentOf y) := by
  have hS : ∀ m ∈ ({n} : Set ClipId), s.Unknown m := fun m hm => hm ▸ hn
  have hmem : ∀ {z}, z ∈ s.clips → z ∉ ({n} : Set ClipId) := fun hz e => hn.absent (e ▸ hz)
  by_cases hyp : y = p
  · -- the parent shows no frame from the split point on
    subst hyp
    refine ⟨fun _ => ?_, fun hns => absurd (.inl rfl) hns⟩
    have hds : ∀ g, g ∈ d.splits ↔ g ∈ c.splits ∨ g = f := fun g => by
      rw [h.mem_splits]
      simp
    have hdalive : d.alive.value = c.alive.value := by
      obtain ⟨m, rfl⟩ := h.same
      rfl
    obtain ⟨l, hl⟩ := hf.lineage hy
    have hpr := h.rangeOf_eq hp hS hl (hmem hy) fun _ => rfl
    simp only [extentOf, hp, h.record, Option.bind_some, hdalive, ← hpr, hr, Option.map_some]
    rw [visibleLength_of_splits hds (rangeOf_le hr)]
    split_ifs <;> rfl
  have hrec : Option.Rel SameCuts s.clips[y]? s'.clips[y]? :=
    rel_of_eq .refl (h.others y hyp (hmem hy)).symm
  constructor
  · rintro (rfl | ⟨q', e, link, he, hel, hlp, hedet, hlt, hq⟩)
    · exact absurd rfl hyp
    · have := h.rangeOf_piece hp hn hf hr he hel hlp hedet hq
      simp only [if_pos hlt] at this
      exact extentOf_cut hrec this
  · intro hns
    by_cases hfol : s.Follows y p
    · obtain ⟨q', e, link, he, hel, hlp, hedet, hq⟩ := hfol.piece hyp
      have := h.rangeOf_piece hp hn hf hr he hel hlp hedet hq
      have hnlt : ¬link.offset < f := fun hlt =>
        hns (.inr ⟨q', e, link, he, hel, hlp, hedet, hlt, hq⟩)
      simp only [if_neg hnlt, Option.map_id_fun', id_eq] at this
      exact extentOf_congr hrec this.symm
    · obtain ⟨l, hl⟩ := hf.lineage hy
      exact extentOf_congr hrec (h.rangeOf_eq hp hS hl (hmem hy) fun hfol' => absurd hfol' hfol)

end

theorem shows_end_le {w : ClipView} (hw : s.shows y = some w) :
    w.startFrame.toNat + w.durationFrames.toNat ≤ u64Max.toNat := by
  obtain ⟨c, a, r, -, -, -, hr, -, -, rfl⟩ := shows_eq_some.mp hw
  have hle := UInt64.le_iff_toNat_le.mp (rangeOf_le hr)
  have hlen := visibleLength_le c r
  have htail := toNat_le_u64Max r.2
  change r.1.toNat + (c.visibleLength r).toNat ≤ _
  rw [u64Max_toNat]
  omega

/-! ## Moves -/

section

variable {r' : UInt64 × UInt64} {a b b' : Inherited} {l : List ClipCrdt} {e : ClipCrdt}
  {u : ResolvedClip} (h : Rewrites s s' x d) (hf : s.Forest)
  (hl : s.Lineage x (c :: above)) (halive : c.alive.value = true) (ha : s.valuesOf x = some a)
  (ht : s.LiveTrack a.trackId) (hr : s.rangeOf x = some r) (hp : d.parent = c.parent)
  (hcuts : SameCuts c d) (hw : Field.track.Written d) (hval : Field.track.value d = a.trackId)
  (hr' : s'.rangeOf x = some r') (hstart : r.1 = r'.1)

theorem Lineage.resolved_parts (hy : s.Lineage y (e :: l)) (hres : s.resolveClip y = some (some u))
    (hq : s.rangeOf y = some q) :
    s.valuesOf y = some u.values ∧ u.durationFrames = e.visibleLength q := by
  obtain ⟨b, hb, hres'⟩ := hy.resolveClip_eq
  obtain rfl := Option.some.inj (Option.some.inj (hres'.symm.trans hres))
  exact ⟨hb, by rw [hq]; rfl⟩

theorem extentOf_of_dead (he : s.clips[y]? = some e) (hdead : ¬e.alive.value = true) :
    s.extentOf y = none := by
  refine Option.eq_none_iff_forall_ne_some.mpr fun g hg => ?_
  obtain ⟨e', -, he', hlive, -⟩ := extentOf_eq_some.mp hg
  obtain rfl := Option.some.inj (he.symm.trans he')
  exact hdead hlive

include h hl hp

theorem Rewrites.exists_values (hy : s.Descends y x) : ∃ l b b', s.Below x y l ∧
    s.valuesOf y = some b ∧ s'.valuesOf y = some b' := by
  obtain ⟨l, hb⟩ := exists_below hy
  obtain ⟨b, hb₁⟩ := (hb.lineage hl).valuesOf_some
  obtain ⟨b', hb₂⟩ := ((h.below hl hb).lineage (h.lineage hl hp)).valuesOf_some
  exact ⟨l, b, b', hb, hb₁, hb₂⟩

include ha hw hval

/-- Where a clip below keeps its track. -/
theorem Rewrites.track_iff (hb : s.Below x y l) (hb₁ : s.valuesOf y = some b)
    (hb₂ : s'.valuesOf y = some b') : b'.trackId = b.trackId ↔
      Inheritance.donor Field.track.Written above ≠ none ∨ Field.track.Written c ∨ above = [] ∨
        (∀ z ∈ l.getLast?, ¬Field.track.Written z) ∨
          Inheritance.settled Field.track.Written Field.track.value l =
            Inheritance.settled Field.track.Written Field.track.value (c :: above) := by
  have hset : Inheritance.settled Field.track.Written Field.track.value (c :: above) =
      some (Field.track.value d) := by
    rw [hl.valuesOf .track, ha, hval]
    rfl
  rw [← h.field_iff hl hp .track hw hset hb, hb₁, hb₂]
  exact Option.some_inj.symm

include ht

/-- A clip below that changes its track comes from the live track of the rewritten one. -/
theorem Rewrites.track_cases (hb : s.Below x y l) (hb₁ : s.valuesOf y = some b)
    (hb₂ : s'.valuesOf y = some b') :
    b'.trackId = b.trackId ∨ s.LiveTrack b.trackId ∧ ¬Field.track.Written c := by
  by_cases htr : b'.trackId = b.trackId
  · exact .inl htr
  have hno := mt (h.track_iff hl ha hp hw hval hb hb₁ hb₂).mpr htr
  push Not at hno
  obtain ⟨hdon, hwc, habove, -, -⟩ := hno
  have hold : Inheritance.settled Field.track.Written Field.track.value (l ++ c :: above) =
      Inheritance.settled Field.track.Written Field.track.value (c :: above) :=
    Inheritance.settled_append_of_not_written hdon hwc habove l
  rw [(hb.lineage hl).valuesOf .track, hl.valuesOf .track, hb₁, ha] at hold
  refine .inr ⟨?_, hwc⟩
  have hold : b.trackId = a.trackId := Option.some.inj hold
  rwa [hold]

omit ha ht hw hval
include hf halive hr hcuts hr' hstart

theorem Rewrites.extents (hder : s.Derives x r' y q) (he : s.clips[y]? = some e)
    (hlive : e.alive.value = true) : ∃ q₀, s.rangeOf y = some q₀ ∧
      s.extentOf y = some (q.1, e.visibleLength q₀) ∧
        s'.extentOf y = some (q.1, e.visibleLength q) := by
  have hf' := h.forest hl.clips hp.symm hf
  obtain ⟨q₀, hder₀, hq₀⟩ := hder.exists r hstart.symm
  have hrange := (hf.rangeOf_iff_derives hl.clips halive hr hder.follows).mpr hder₀
  have hrange' := (h.rangeOf_iff_derives hf' hl.clips hcuts.splits (hcuts.alive ▸ halive)
    hr' hder.follows).mpr hder
  have hrec := h.rel .refl hl.clips hcuts y
  rw [he] at hrec
  rcases he' : s'.clips[y]? with _ | e' <;> rw [he'] at hrec <;> cases hrec
  rename_i hee
  refine ⟨q₀, hrange, extentOf_eq_some.mpr ⟨e, q₀, he, hlive, hrange, ?_⟩,
    extentOf_eq_some.mpr ⟨e', q, he', hee.alive ▸ hlive, hrange', ?_⟩⟩
  · rw [hq₀]
  · rw [visibleLength_congr hee.splits]

/-- A clip that keeps its length keeps its extent. -/
theorem Rewrites.extentOf_kept (hy : s.Lineage y (e :: l)) (hres : s.resolveClip y = some (some u))
    (hkeep : ∀ q, s.Derives x r' y q → e.alive.value = true →
      e.visibleLength q = u.durationFrames) : s.extentOf y = s'.extentOf y := by
  have hf' := h.forest hl.clips hp.symm hf
  by_cases hlive : e.alive.value = true
  swap
  · have hrec := h.rel .refl hl.clips hcuts y
    rw [hy.clips] at hrec
    rcases he' : s'.clips[y]? with _ | e' <;> rw [he'] at hrec <;> cases hrec
    rename_i hee
    rw [extentOf_of_dead hy.clips hlive, extentOf_of_dead he' (hee.alive ▸ hlive)]
  by_cases hfol : s.Follows y x
  · rcases hq : s'.rangeOf y with _ | q
    · refine extentOf_congr (h.rel .refl hl.clips hcuts y) ?_
      rw [hq]
      refine Option.eq_none_iff_forall_ne_some.mpr fun q₀ hq₀ => ?_
      obtain ⟨q, hder, -⟩ :=
        ((hf.rangeOf_iff_derives hl.clips halive hr hfol).mp hq₀).exists r' hstart
      rw [(h.rangeOf_iff_derives hf' hl.clips hcuts.splits (hcuts.alive ▸ halive)
        hr' hfol).mpr hder] at hq
      cases hq
    · have hder := (h.rangeOf_iff_derives hf' hl.clips hcuts.splits (hcuts.alive ▸ halive)
        hr' hfol).mp hq
      obtain ⟨q₀, hq₀, hext₀, hext'⟩ :=
        h.extents hf hl halive hr hp hcuts hr' hstart hder hy.clips hlive
      rw [hext₀, hext', hkeep q hder hlive, (hy.resolved_parts hres hq₀).2]
  · exact extentOf_congr (h.rel .refl hl.clips hcuts y)
      (h.rangeOf_of_not_follows hy hl.clips hp.symm hfol)

include ha ht hw hval

/-- Where every clip keeps its place, what the rewritten clip hides of the clips that follow stays
hidden. -/
theorem Rewrites.hidden_kept (hvis : 0 < c.visibleLength r)
    (hlanded : Field.track.Written c ∨ r' = r ∨ r'.2 ≤ r'.1)
    (hall : ∀ y, (s.shows y).map ClipView.place = (s'.shows y).map ClipView.place)
    (hder : s.Derives x r' y q) (he : s.clips[y]? = some e) (hlive : e.alive.value = true)
    {q₀ : UInt64 × UInt64} (hq₀ : s.rangeOf y = some q₀) (hb₁ : s.valuesOf y = some b)
    (htr : s.LiveTrack b.trackId) (hhidden : ¬0 < e.visibleLength q₀) :
    ¬0 < e.visibleLength q := by
  intro hpos
  obtain ⟨q₁, hq₁, hext₀, hext'⟩ := h.extents hf hl halive hr hp hcuts hr' hstart hder he hlive
  obtain rfl := Option.some.inj (hq₀.symm.trans hq₁)
  obtain ⟨l, b₀, b', hb, hb₀, hb₂⟩ := h.exists_values hl hp hder.follows.descends
  obtain rfl := Option.some.inj (hb₁.symm.trans hb₀)
  have htrack : b'.trackId = b.trackId := by
    rcases h.track_cases hl ha ht hp hw hval hb hb₁ hb₂ with heq | ⟨-, hnw⟩
    · exact heq
    rcases hlanded with hwc | rfl | hempty
    · exact absurd hwc hnw
    · have hsame := hder.unique ((hf.rangeOf_iff_derives hl.clips halive hr hder.follows).mp hq₀)
      exact absurd (hsame ▸ hpos) hhidden
    · -- an empty range hides the rewritten clip itself
      obtain ⟨r₀, hr₀, hext₀, hext'⟩ :=
        h.extents hf hl halive hr hp hcuts hr' hstart .here hl.clips halive
      obtain rfl := Option.some.inj (hr.symm.trans hr₀)
      have hpl := place_eq_some.mpr ⟨_, _, ha, ht, hext₀, hvis, rfl⟩
      obtain ⟨-, g, -, -, hg, hgpos, -⟩ := place_eq_some.mp ((hall x).symm.trans hpl)
      obtain rfl := Option.some.inj (hext'.symm.trans hg)
      have hle := visibleLength_le c r'
      rw [UInt64.le_iff_toNat_le] at hempty
      have hgpos := UInt64.lt_iff_toNat_lt.mp hgpos
      rw [UInt64.toNat_zero] at hgpos
      change 0 < (c.visibleLength r').toNat at hgpos
      omega
  have hpl := place_eq_some.mpr
    ⟨b', _, hb₂, h.liveTrack.mpr (htrack ▸ htr), hext', hpos, rfl⟩
  obtain ⟨-, g, -, -, hg, hgpos, -⟩ := place_eq_some.mp ((hall y).trans hpl)
  obtain rfl := Option.some.inj (hext₀.symm.trans hg)
  exact hhidden hgpos

/-- Where every clip keeps its place, the clips that follow keep their lengths. -/
theorem Rewrites.length_kept (hvis : 0 < c.visibleLength r)
    (hlanded : Field.track.Written c ∨ r' = r ∨ r'.2 ≤ r'.1)
    (hall : ∀ y, (s.shows y).map ClipView.place = (s'.shows y).map ClipView.place)
    (hder : s.Derives x r' y q) (he : s.clips[y]? = some e) (hlive : e.alive.value = true)
    (hres : s.resolveClip y = some (some u)) (htr : s.LiveTrack u.values.trackId) :
    e.visibleLength q = u.durationFrames := by
  obtain ⟨q₀, hq₀, hext₀, hext'⟩ := h.extents hf hl halive hr hp hcuts hr' hstart hder he hlive
  obtain ⟨l, hly⟩ := lineage_of_resolveClip hres
  obtain ⟨e', m, he', rfl⟩ := hly.head
  obtain rfl := Option.some.inj (he.symm.trans he')
  obtain ⟨hvals, hdur⟩ := hly.resolved_parts hres hq₀
  rw [hdur]
  by_cases hpos : 0 < e.visibleLength q₀
  · have hpl := place_eq_some.mpr ⟨_, _, hvals, htr, hext₀, hpos, rfl⟩
    obtain ⟨b', g, -, -, hg, -, heq⟩ := place_eq_some.mp ((hall y).symm.trans hpl)
    obtain rfl := Option.some.inj (hext'.symm.trans hg)
    exact (congrArg (·.2.2.2) heq).symm
  · have hpos' := h.hidden_kept hf hl halive ha ht hr hp hcuts hw hval hr' hstart hvis hlanded hall
      hder he hlive hq₀ hvals htr hpos
    rw [not_not.mp (mt UInt64.pos_iff_ne_zero.mpr hpos),
      not_not.mp (mt UInt64.pos_iff_ne_zero.mpr hpos')]

omit halive hr hr' hstart hcuts hf

/-- Where tracks are passed on and a clip keeps its extent, it keeps its place. -/
theorem Rewrites.place_kept (hpass : s.PassesOn x .track s.Visible) (hb : s.Below x y l)
    (hb₁ : s.valuesOf y = some b) (hb₂ : s'.valuesOf y = some b')
    (hext : s.LiveTrack b.trackId → s.extentOf y = s'.extentOf y) :
    (s.shows y).map ClipView.place = (s'.shows y).map ClipView.place := by
  have htrack : ∀ {g}, s.LiveTrack b.trackId → s.extentOf y = some g → 0 < g.2 →
      b'.trackId = b.trackId := by
    intro g htr hg hpos
    have hv := visible_iff_shows.mpr
      ⟨_, shows_iff_extent.mpr ⟨b, g, hb₁, htr, hg, hpos, rfl⟩⟩
    exact (h.track_iff hl ha hp hw hval hb hb₁ hb₂).mpr (hpass c above hl y l hv hb)
  ext g
  rw [place_eq_some, place_eq_some]
  constructor
  · rintro ⟨b₁, g, hb₀, htr, hg, hpos, rfl⟩
    obtain rfl := Option.some.inj (hb₁.symm.trans hb₀)
    have hb' := htrack htr hg hpos
    exact ⟨b', g, hb₂, h.liveTrack.mpr (hb' ▸ htr), hext htr ▸ hg, hpos, by rw [hb']⟩
  · rintro ⟨b₁, g, hb₀, htr, hg, hpos, rfl⟩
    obtain rfl := Option.some.inj (hb₂.symm.trans hb₀)
    have htr' : s.LiveTrack b.trackId := by
      rcases h.track_cases hl ha ht hp hw hval hb hb₁ hb₂ with heq | ⟨htr', -⟩
      · exact heq ▸ h.liveTrack.mp htr
      · exact htr'
    rw [← hext htr'] at hg
    have hb' := htrack htr' hg hpos
    exact ⟨b, g, hb₁, htr', hg, hpos, by rw [hb']⟩

include hf halive hr hcuts hr' hstart

/-- A clip with another range and a track of its own: every clip keeps its place exactly when the
track is passed on and the lengths are kept. -/
theorem Rewrites.places_iff (hvis : 0 < c.visibleLength r)
    (hlanded : Field.track.Written c ∨ r' = r ∨ r'.2 ≤ r'.1) :
    (∀ y, (s.shows y).map ClipView.place = (s'.shows y).map ClipView.place) ↔
      s.PassesOn x .track s.Visible ∧ ∀ y e q u, s.Derives x r' y q → s.clips[y]? = some e →
        e.alive.value = true → s.resolveClip y = some (some u) →
          s.LiveTrack u.values.trackId → e.visibleLength q = u.durationFrames := by
  constructor
  · refine fun hall => ⟨fun c' above' hl' y l hvis hb => ?_, fun y e q u hder he hlive hres htr =>
      h.length_kept hf hl halive ha ht hr hp hcuts hw hval hr' hstart hvis hlanded hall hder he
        hlive hres htr⟩
    obtain ⟨rfl, rfl⟩ := List.cons.inj (hl.unique hl')
    obtain ⟨w, hw₁⟩ := visible_iff_shows.mp hvis
    have hpl : (s.shows y).map ClipView.place = some w.place := by rw [hw₁]; rfl
    obtain ⟨b, _, hb₁, -, -, -, hg⟩ := place_eq_some.mp hpl
    obtain ⟨b', _, hb₂, -, -, -, hg'⟩ := place_eq_some.mp ((hall y).symm.trans hpl)
    refine (h.track_iff hl ha hp hw hval hb hb₁ hb₂).mp ?_
    exact congrArg (·.2.1) (hg'.symm.trans hg)
  · rintro ⟨hpass, hkeep⟩ y
    by_cases hy : y ∈ s.clips
    swap
    · rw [Session.shows_of_not_mem hy, h.shows_of_not_mem hl.clips hy]
    obtain ⟨m, hm⟩ := hf.lineage hy
    by_cases hdesc : s.Descends y x
    · obtain ⟨l, b, b', hb, hb₁, hb₂⟩ := h.exists_values hl hp hdesc
      obtain ⟨e, m', he, rfl⟩ := hm.head
      obtain ⟨b₀, hb₀, hres⟩ := hm.resolveClip_eq
      obtain rfl := Option.some.inj (hb₁.symm.trans hb₀)
      refine h.place_kept hl ha ht hp hw hval hpass hb hb₁ hb₂ fun htr => ?_
      exact h.extentOf_kept hf hl halive hr hp hcuts hr' hstart hm hres fun q hder hlive =>
        hkeep y e q _ hder he hlive hres htr
    · rw [shows_of_extentOf_eq (h.valuesOf_of_not_descends hm hdesc) (fun _ => h.liveTrack.symm)
        (extentOf_congr (h.rel .refl hl.clips hcuts y)
          (h.rangeOf_of_not_follows hm hl.clips hp.symm fun hfol => hdesc hfol.descends))]

end

/-! ## Undoing -/

section

variable (hv : s.materialize = some v) (hnew : s.Newest o.tag) (hlt : o.tag < o'.tag)
  {u : ResolvedClip}

include hv hnew hlt

theorem undo_trim_iff (hx : s.Visible x) (hu : s.resolveClip x = some (some u))
    {start duration : UInt64} {edge : TrimEdge}
    (ho : o.operation = .trimClip x start duration edge)
    (ho' : o'.operation = .trimClip x u.startFrame u.durationFrames edge) :
    (∃ v', ((s.exec o).exec o').materialize = some v' ∧
      ∀ g, g ∈ v'.clips.map ClipView.place ↔ g ∈ v.clips.map ClipView.place) ↔ s.EndsLast x := by
  have hf := materialize_returns_iff.mp ⟨v, hv⟩
  obtain ⟨c, above, a, r, hl, halive, ha, ht, hr, hpos, hres⟩ := hx.parts
  obtain rfl := Option.some.inj (Option.some.inj (hres.symm.trans hu))
  have h₁ := rewrites_exec (o := o) (by rw [ho]; rfl) hl.clips
  have h := h₁.trans (rewrites_exec (o := o') (by rw [ho']; rfl) h₁.record)
  replace ho' : o'.operation = .trimClip x r.1 (c.visibleLength r) edge := ho'
  rw [ho, ho'] at h
  have htags := hnew.clip hl.clips
  simp only [ClipCrdt.tags, List.forall_mem_cons] at htags
  obtain ⟨-, -, hstart, hdur, -⟩ := htags
  set d := (c.write (TimelineOperation.clipWrite (.trimClip x start duration edge)) o.tag).write
    (TimelineOperation.clipWrite (.trimClip x r.1 (c.visibleLength r) edge)) o'.tag with hd
  have hds : d.startFrame = ⟨r.1, o'.tag⟩ := LwwReg.set_set hstart hlt _ _
  have hdd : d.durationFrames = ⟨c.visibleLength r, o'.tag⟩ := LwwReg.set_set hdur hlt _ _
  have hne := OpTag.ne_initial_of_lt hlt
  have hfields : SameFields c d :=
    ⟨rfl, fun φ => by cases φ <;> rfl, fun φ => by cases φ <;> rfl⟩
  have hl' := h.lineage hl rfl
  obtain ⟨hz, hcut⟩ := cut_visibleLength (c := c) (rangeOf_le hr)
  have hr' : ((s.exec o).exec o').rangeOf x =
      (s.rangeOf x).map (cut (saturatingAdd r.1 (c.visibleLength r))) := by
    rw [hl'.rangeOf_own (.inr (Bool.or_true _)) (by rw [hds]; exact hne)
      (.inl (by rw [hdd]; exact hne)), hr, Option.map_some, hcut, ownRange, hds, hdd]
  have hplace : ∀ y, (s.shows y).map ClipView.place =
      (((s.exec o).exec o').shows y).map ClipView.place ↔
        s.shows y = ((s.exec o).exec o').shows y := by
    intro y
    by_cases hy : y ∈ s.clips
    · obtain ⟨m, hm⟩ := hf.lineage hy
      exact place_iff_shows (hm.valuesOf_congr fun z _ => h.rel .refl hl.clips hfields z)
    · rw [Session.shows_of_not_mem hy, h.shows_of_not_mem hl.clips hy]
      exact iff_of_true rfl rfl
  rw [places_iff hv (h.forest hl.clips hfields.parent hf), forall_congr' hplace,
    h.shows_cut_iff hf hl hfields ⟨rfl, rfl⟩ hr', hz]
  constructor
  · intro hend w hw y q hy hq
    obtain rfl := Option.some.inj (Option.some.inj (hres.symm.trans hw))
    exact forall_shows_iff.mp (hend y hy) q hq
  · exact fun hend y hy => forall_shows_iff.mpr fun q hq => hend _ hres y q hy hq

theorem undo_split_iff (hp : s.Visible p) (hn : s.Unknown n)
    (ho : o.operation = .splitClip p f n) (ho' : o'.operation = .deleteClip n) :
    (∃ v', ((s.exec o).exec o').materialize = some v' ∧
      ∀ g, g ∈ v'.clips.map ClipView.place ↔ g ∈ v.clips.map ClipView.place) ↔
        s.ClearsSplit p f := by
  have hf := materialize_returns_iff.mp ⟨v, hv⟩
  obtain ⟨c, above, a, r, hl, halive, ha, ht, hr, hpos, hres⟩ := hp.parts
  have hpmem : p ∈ s.clips := hl.mem
  have hpn : p ≠ n := fun e => hn.absent (e ▸ hpmem)
  have h := (Carved.refl hl.clips f).exec hpmem hn.absent (Set.notMem_empty n) ho
  rw [insert_empty_eq] at h
  have hS : ∀ m ∈ ({n} : Set ClipId), s.Unknown m := fun m hm => hm ▸ hn
  have hf₁ := h.forest hl.clips hS hf
  obtain ⟨t, hrec⟩ := h.piece n rfl
  have h₂ := rewrites_exec (o := o') (by rw [ho']; rfl) hrec
  rw [ho'] at h₂
  set e := (childRecord ⟨p, f⟩ t).write (TimelineOperation.clipWrite (.deleteClip n)) o'.tag with he
  have hdead : e.alive.value = false := by
    have htag := (hnew.exec hlt).clip hrec _ List.mem_cons_self
    have : e.alive = ⟨false, o'.tag⟩ := LwwReg.set_of_lt _ htag
    rw [this]
  have hkey : ∀ y, (s.StemsBefore p f y → ((s.shows y).map ClipView.place =
      (((s.exec o).exec o').shows y).map ClipView.place ↔ ∀ w, s.shows y = some w →
        w.startFrame.toNat + w.durationFrames.toNat ≤ (saturatingAdd r.1 f).toNat)) ∧
      (¬s.StemsBefore p f y → s.shows y = ((s.exec o).exec o').shows y) := by
    intro y
    by_cases hy : y ∈ s.clips
    · have hyn : y ≠ n := fun e => hn.absent (e ▸ hy)
      obtain ⟨l, hly⟩ := hf.lineage hy
      obtain ⟨m, hm, -⟩ := hly.congr (R := fun c d => c.parent = d.parent) (fun _ _ h => h)
        fun z hz => h.rel (R := fun c d => c.parent = d.parent) hl.clips (fun _ => rfl)
          (fun _ => rfl) (Carved.not_mem_of_descends hS hyn hz)
      have hdesc : ¬(s.exec o).Descends y n := fun hd =>
        hyn (eq_of_descends_of_unlinked (fun _ _ _ => h.unlinked hl.clips hn hpn) hd)
      have hvals : s.valuesOf y = ((s.exec o).exec o').valuesOf y :=
        (h.valuesOf_eq hl.clips hS hly hyn).trans (h₂.valuesOf_of_not_descends hm hdesc)
      have htracks : ∀ t, s.LiveTrack t ↔ ((s.exec o).exec o').LiveTrack t :=
        fun t => h.liveTrack.symm.trans h₂.liveTrack.symm
      have hext : (s.exec o).extentOf y = ((s.exec o).exec o').extentOf y :=
        extentOf_congr (rel_of_eq .refl (h₂.others y hyn).symm)
          (h₂.rangeOf_of_not_follows hm hrec rfl fun hfol => hdesc hfol.descends)
      obtain ⟨hbefore, hafter⟩ := h.extentOf_eq hl.clips hn hf hr hy
      rw [hext] at hbefore hafter
      refine ⟨fun hstem => ?_, fun hstem => shows_of_extentOf_eq hvals htracks (hafter hstem)⟩
      exact (place_iff_shows hvals).trans (shows_shorten_iff hvals htracks (hbefore hstem))
    · have hnone : ((s.exec o).exec o').shows y = none := by
        by_cases hyn : y = n
        · refine Option.eq_none_iff_forall_ne_some.mpr fun w hw => ?_
          obtain ⟨e', -, -, he', hlive, -⟩ := shows_eq_some.mp hw
          obtain rfl := Option.some.inj (h₂.record.symm.trans (hyn ▸ he'))
          rw [hdead] at hlive
          cases hlive
        · refine shows_of_not_mem ?_
          rw [BTreeMap.not_mem_iff, h₂.others y hyn,
            h.others y (fun e => hy (e ▸ hpmem)) hyn, ← BTreeMap.not_mem_iff]
          exact hy
      rw [hnone, shows_of_not_mem hy]
      simp
  rw [places_iff hv (h₂.forest hrec rfl hf₁)]
  constructor
  · intro hall w hw y q hy hq
    obtain rfl := Option.some.inj (Option.some.inj (hres.symm.trans hw))
    refine (forall_shows_iff.mp (((hkey y).1 hy).mp (hall y)) q hq).trans ?_
    rw [toNat_saturatingAdd]
    exact min_le_left _ _
  · intro hend y
    by_cases hy : s.StemsBefore p f y
    · refine ((hkey y).1 hy).mpr fun w hw => ?_
      have h1 := shows_end_le hw
      have h2 := forall_shows_iff.mpr (hend _ hres y · hy) w hw
      rw [toNat_saturatingAdd]
      exact le_min h2 (u64Max_toNat ▸ h1)
    · rw [(hkey y).2 hy]

theorem undo_move_iff (hlinked : s.Linked) (hlanded : s.Landed) (hx : s.Visible x)
    (hu : s.resolveClip x = some (some u)) {track : TrackId} {start position : UInt64}
    (ho : o.operation = .moveClip x track start position)
    (ho' : o'.operation = .moveClip x u.values.trackId u.startFrame u.values.orderHint) :
    (∃ v', ((s.exec o).exec o').materialize = some v' ∧
      ∀ g, g ∈ v'.clips.map ClipView.place ↔ g ∈ v.clips.map ClipView.place) ↔
        s.PassesOn x .track s.Visible ∧ s.KeepsLengths x := by
  have hf := materialize_returns_iff.mp ⟨v, hv⟩
  obtain ⟨c, above, a, r, hl, halive, ha, ht, hr, hpos, hres⟩ := hx.parts
  obtain rfl := Option.some.inj (Option.some.inj (hres.symm.trans hu))
  have h₁ := rewrites_exec (o := o) (by rw [ho]; rfl) hl.clips
  have h := h₁.trans (rewrites_exec (o := o') (by rw [ho']; rfl) h₁.record)
  replace ho' : o'.operation = .moveClip x a.trackId r.1 a.orderHint := ho'
  rw [ho, ho'] at h
  have htags := hnew.clip hl.clips
  simp only [ClipCrdt.tags, List.forall_mem_cons] at htags
  obtain ⟨-, htrack, hstart, -⟩ := htags
  set d := (c.write (TimelineOperation.clipWrite (.moveClip x track start position)) o.tag).write
    (TimelineOperation.clipWrite (.moveClip x a.trackId r.1 a.orderHint)) o'.tag with hd
  have hds : d.startFrame = ⟨r.1, o'.tag⟩ := LwwReg.set_set hstart hlt _ _
  have hdt : d.track = ⟨a.trackId, o'.tag⟩ := LwwReg.set_set htrack hlt _ _
  have hne := OpTag.ne_initial_of_lt hlt
  have hl' := h.lineage hl rfl
  have hr' : ((s.exec o).exec o').rangeOf x =
      some (r.1, saturatingAdd r.1 c.durationFrames.value) := by
    rw [hl.rangeOf_detached hr hl' rfl (Bool.or_true _) (by rw [hds]; exact hne) rfl, ownRange, hds]
    rfl
  have hland : Field.track.Written c ∨ (r.1, saturatingAdd r.1 c.durationFrames.value) = r ∨
      saturatingAdd r.1 c.durationFrames.value ≤ r.1 := by
    by_cases hown : c.OwnGeometry
    · rw [hl.eq_ownRange hown hr]
      exact .inr (.inl rfl)
    · simp only [ClipCrdt.OwnGeometry, not_or] at hown
      have hclaim : c.originClaim ≠ none := by
        intro hnone
        exact hown.1 (by rw [hlinked x c hl.clips, hnone]; rfl)
      rcases hlanded x c hl.clips hclaim with hdet | hzero | hw
      · exact absurd hdet hown.2
      · refine .inr (.inr ?_)
        rw [hzero, UInt64.le_iff_toNat_le, toNat_saturatingAdd]
        exact min_le_left _ _
      · exact .inl hw
  rw [places_iff hv (h.forest hl.clips rfl hf),
    h.places_iff hf hl halive ha ht hr rfl ⟨rfl, rfl⟩
      (by rw [Field.Written, Field.reg, hdt]; exact hne) (by rw [Field.value, Field.reg, hdt]) hr'
      rfl hpos hland]
  refine and_congr_right fun _ => ?_
  constructor
  · intro hkeep c' w hc' hw
    obtain rfl := Option.some.inj (hl.clips.symm.trans hc')
    obtain rfl := Option.some.inj (Option.some.inj (hres.symm.trans hw))
    exact hkeep
  · exact fun hkeep => hkeep c _ hl.clips hres

end

end Session

namespace TimelineCrdt

variable {c : TimelineCrdt} {v : Session.SessionView} {op : TimelineOperation}

/-- Undoing a split, a move or a trim of a visible clip right away puts every visible clip back
where it was exactly when the inverse can. -/
theorem undo_shape_iff (peer : PeerId) (calls : List Call) (hc : afterCalls peer calls = some c)
    (hv : c.view = some v) (hop : c.session.Reshapes op)
    (hl : c.lamport.counter.toNat + 2 ≤ u64Max.toNat) :
    (∃ v', (c.applyUndo op).bind view = some v' ∧ ∀ g,
      g ∈ v'.clips.map Session.ClipView.place ↔ g ∈ v.clips.map Session.ClipView.place) ↔
        c.session.PutsBack op := by
  have hb := Bounded.afterCalls hc
  have targets : ∀ {x}, c.session.Visible x → op.requiredTargets = [.clip x] →
      c.session.HasTargets op := by
    intro x hx hreq r hr
    rw [hreq] at hr
    obtain ⟨_, _, _, _, hlin, -⟩ := hx.parts
    exact List.mem_singleton.mp hr ▸ hlin.mem
  rcases op with _ | ⟨x, track, start, position⟩ | _ | ⟨p, f, n⟩ | ⟨x, start, duration, edge⟩ |
    _ | _ | _ | _ | _ | _
  all_goals try exact hop.elim
  · obtain ⟨u, hu, -⟩ := id hop
    obtain ⟨o₁, o₂, hview, ho₁, ho₂, hnew, hlt⟩ := view_applyUndo hb hl (targets hop rfl)
      (by rw [computeInverse, hu]; rfl)
    rw [hview]
    exact Session.undo_move_iff hv hnew hlt
      (session_afterCalls (fun _ _ h => h.exec) Session.linked_new hc)
      (session_afterCalls (fun _ _ h => h.exec) Session.landed_new hc) hop hu ho₁ ho₂
  · obtain ⟨hp, hn⟩ := hop
    obtain ⟨o₁, o₂, hview, ho₁, ho₂, hnew, hlt⟩ := view_applyUndo hb hl (targets hp rfl)
      (by rw [computeInverse, if_neg hn.absent])
    rw [hview]
    exact Session.undo_split_iff hv hnew hlt hp hn ho₁ ho₂
  · obtain ⟨u, hu, -⟩ := id hop
    obtain ⟨o₁, o₂, hview, ho₁, ho₂, hnew, hlt⟩ := view_applyUndo hb hl (targets hop rfl)
      (by rw [computeInverse, hu]; rfl)
    rw [hview]
    exact Session.undo_trim_iff hv hnew hlt hop hu ho₁ ho₂

/-- A track and a clip of 1000 frames. -/
def clipCalls : List Call :=
  [.applyLocal (.insertTrack ⟨1⟩ (.new "t") 0),
    .applyLocal (.insertClip ⟨1⟩ ⟨1⟩ (.new "c" 0 1000) 0)]

theorem clipCalls_undo_trim : ∃ c v, afterCalls ⟨1⟩ clipCalls = some c ∧ c.view = some v ∧
    ((∃ v', (c.applyUndo (.trimClip ⟨1⟩ 100 300 .end)).bind view = some v' ∧ ∀ g,
      g ∈ v'.clips.map Session.ClipView.place ↔ g ∈ v.clips.map Session.ClipView.place) ↔
        c.session.PutsBack (.trimClip ⟨1⟩ 100 300 .end)) :=
  ⟨_, _, rfl, rfl, undo_shape_iff ⟨1⟩ clipCalls rfl rfl ⟨_, rfl, rfl⟩ (by decide +kernel)⟩

/-- A split that is undone leaves its split point behind: the clip stays cut. -/
theorem clipCalls_undo_split : ∃ c v, afterCalls ⟨1⟩ clipCalls = some c ∧ c.view = some v ∧
    c.session.Reshapes (.splitClip ⟨1⟩ 400 ⟨2⟩) ∧
      c.lamport.counter.toNat + 2 ≤ u64Max.toNat ∧
        ¬∃ v', (c.applyUndo (.splitClip ⟨1⟩ 400 ⟨2⟩)).bind view = some v' ∧ ∀ g,
          g ∈ v'.clips.map Session.ClipView.place ↔
            g ∈ v.clips.map Session.ClipView.place := by
  refine ⟨_, _, rfl, rfl, ⟨⟨_, rfl, rfl⟩, by decide +kernel⟩, by decide +kernel, ?_⟩
  · rintro ⟨v', hv', h⟩
    have hplaces := congrArg (Option.map fun v => v.clips.map Session.ClipView.place) hv'
    have hcut : v'.clips.map Session.ClipView.place = [(⟨1⟩, ⟨1⟩, 0, 400)] :=
      Option.some.inj (hplaces.symm.trans (by decide +kernel))
    have hold := (h (⟨1⟩, ⟨1⟩, 0, 1000)).mpr (by decide +kernel)
    rw [hcut] at hold
    exact absurd hold (by decide)

end TimelineCrdt

end AvSync
