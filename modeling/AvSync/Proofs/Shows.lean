import AvSync.Edits
import AvSync.Proofs.Lineage
import AvSync.Proofs.Ranges

/-!
# Clip by clip

A view holds, for each clip, what `shows` says the clip shows (`mem_clips_iff`), and two views with
the same metadata, tracks, envelopes and clips are equal, the order included
(`view_ext`). What a clip shows depends on its liveness, its values, its range, its first split
point and the liveness of its track (`shows_eq_some`). The values are those of the records
above it (`Lineage.valuesOf_congr`), and the range is that of the records it follows
(`Lineage.rangeOf_congr`).
-/

namespace AvSync

namespace Session

variable {s s' : Session} {v v' : SessionView} {x : ClipId} {c : ClipCrdt} {a : Inherited}

/-- The inherited fields of a clip, resolved. -/
def valuesOf (s : Session) (x : ClipId) : Option Inherited :=
  s.clips[x]?.bind fun c => s.inheritLoop s.fuel c (.own c)

/-- What a clip shows in the view, if it is visible. -/
def shows (s : Session) (x : ClipId) : Option ClipView :=
  ((s.resolveClip x).join.filter (·.visible)).map ResolvedClip.view

theorem resolveGeometry_eq (n : ℕ) (c : ClipCrdt) : s.resolveGeometry n c =
    (s.resolveFullRange n c).map fun range => range.map fun r => (r.1, c.visibleLength r) := rfl

theorem liveTrack_iff {t : TrackId} :
    (s.tracks[t]?.map (·.alive.value)).getD false = true ↔ s.LiveTrack t := by
  rcases h : s.tracks[t]? with _ | r <;> simp [LiveTrack, h]

theorem resolveClip_iff {r : ResolvedClip} : s.resolveClip x = some (some r) ↔
    ∃ c g, s.clips[x]? = some c ∧ s.valuesOf x = some r.values ∧
      s.resolveFullRange s.fuel c = some g ∧
      r = s.resolved x c r.values (g.map fun r => (r.1, c.visibleLength r)) := by
  rw [resolveClip_eq_some]
  constructor
  · rintro ⟨c, a, g, hc, ha, hg, rfl⟩
    rw [resolveGeometry_eq, Option.map_eq_some_iff] at hg
    obtain ⟨g, hg, rfl⟩ := hg
    exact ⟨c, g, hc, by rw [valuesOf, hc]; exact ha, hg, rfl⟩
  · rintro ⟨c, g, hc, ha, hg, hr⟩
    rw [valuesOf, hc] at ha
    exact ⟨c, r.values, _, hc, ha, by rw [resolveGeometry_eq, hg]; rfl, hr⟩

theorem shows_eq_some {w : ClipView} : s.shows x = some w ↔
    ∃ c a r, s.clips[x]? = some c ∧ c.alive.value = true ∧ s.valuesOf x = some a ∧
      s.rangeOf x = some r ∧ s.LiveTrack a.trackId ∧ 0 < c.visibleLength r ∧
        w = ⟨x, a, r.1, c.visibleLength r⟩ := by
  rw [shows, Option.map_eq_some_iff]
  constructor
  · rintro ⟨r, hr, rfl⟩
    obtain ⟨hr, hvis⟩ := Option.filter_eq_some_iff.mp hr
    obtain ⟨c, g, hc, ha, hg, he⟩ := resolveClip_iff.mp (Option.join_eq_some_iff.mp hr)
    rw [he] at hvis ⊢
    simp only [resolved, Bool.and_eq_true, Option.isSome_map, decide_eq_true_eq, liveTrack_iff]
      at hvis
    obtain ⟨⟨⟨halive, hsome⟩, ht⟩, hpos⟩ := hvis
    obtain ⟨p, rfl⟩ := Option.isSome_iff_exists.mp hsome
    exact ⟨c, r.values, p, hc, halive, ha, by rw [rangeOf, hc, Option.bind_some, hg]; rfl, ht, hpos,
      rfl⟩
  · rintro ⟨c, a, p, hc, halive, ha, hp, ht, hpos, rfl⟩
    rw [rangeOf, hc, Option.bind_some, Option.join_eq_some_iff] at hp
    refine ⟨s.resolved x c a (some (p.1, c.visibleLength p)), ?_, rfl⟩
    rw [Option.filter_eq_some_iff]
    refine ⟨Option.join_eq_some_iff.mpr (resolveClip_iff.mpr ⟨c, some p, hc, ha, hp, rfl⟩), ?_⟩
    simp only [resolved, Bool.and_eq_true, decide_eq_true_eq, liveTrack_iff]
    exact ⟨⟨⟨halive, rfl⟩, ht⟩, hpos⟩

theorem shows_of_not_mem (h : x ∉ s.clips) : s.shows x = none := by
  rw [shows, resolveClip, resolveClipIn, BTreeMap.not_mem_iff.mp h]
  rfl

theorem rel_of_eq {α : Type} {R : α → α → Prop} (hR : ∀ a, R a a) {o o' : Option α} (h : o = o') :
    Option.Rel R o o' := by
  rcases o with _ | a
  · exact h ▸ .none
  · exact h ▸ .some (hR a)

/-- Clips with the same liveness, split points, values, range and live tracks show the same. -/
theorem shows_congr (hrec : Option.Rel (fun c d => c.alive.value = d.alive.value ∧
      c.splits = d.splits) s.clips[x]? s'.clips[x]?)
    (hvals : s.valuesOf x = s'.valuesOf x) (hrange : s.rangeOf x = s'.rangeOf x)
    (htracks : ∀ t, s.LiveTrack t ↔ s'.LiveTrack t) : s.shows x = s'.shows x := by
  rcases hc : s.clips[x]? with _ | c <;> rcases hd : s'.clips[x]? with _ | d <;>
    rw [hc, hd] at hrec <;> cases hrec
  · rw [shows_of_not_mem (BTreeMap.not_mem_iff.mpr hc),
      shows_of_not_mem (BTreeMap.not_mem_iff.mpr hd)]
  · rename_i hcd
    have hlen : ∀ p, c.visibleLength p = d.visibleLength p := fun p => by
      simp only [ClipCrdt.visibleLength, ClipCrdt.firstSplitOffset, hcd.2]
    ext w
    simp only [shows_eq_some, hc, hd, Option.some.injEq, exists_eq_left', exists_and_left, hcd.1,
      hvals, hrange, htracks, hlen]

theorem shows_clipId {w : ClipView} (h : s.shows x = some w) : w.clipId = x := by
  obtain ⟨r, hr, rfl⟩ := Option.map_eq_some_iff.mp h
  exact resolveClip_clipId (Option.join_eq_some_iff.mp (Option.filter_eq_some_iff.mp hr).1)

/-! ## Views -/

theorem mem_clips_iff (h : s.materialize = some v) {w : ClipView} :
    w ∈ v.clips ↔ s.shows w.clipId = some w := by
  rw [mem_clips_of_materialize h, shows, Option.map_eq_some_iff]
  constructor
  · rintro ⟨r, hr, hvis, hw⟩
    exact ⟨r, Option.filter_eq_some_iff.mpr ⟨Option.join_eq_some_iff.mpr hr, hvis⟩, hw⟩
  · rintro ⟨r, hr, hw⟩
    obtain ⟨hr, hvis⟩ := Option.filter_eq_some_iff.mp hr
    exact ⟨r, Option.join_eq_some_iff.mp hr, hvis, hw⟩

theorem exists_mem_clips_iff (h : s.materialize = some v) :
    (∃ w ∈ v.clips, w.clipId = x) ↔ ∃ w, s.shows x = some w := by
  constructor
  · rintro ⟨w, hw, rfl⟩
    exact ⟨w, (mem_clips_iff h).mp hw⟩
  · rintro ⟨w, hw⟩
    have hid := shows_clipId hw
    exact ⟨w, (mem_clips_iff h).mpr (by rw [hid, hw]), hid⟩

/-- The order of the clips in a view of the given tracks. -/
def ClipLE (tracks : List TrackView) (a b : ClipView) : Prop :=
  clipKey (Std.ExtTreeMap.ofList (tracks.map fun t => (t.trackId, t.position))) a ≤
    clipKey (Std.ExtTreeMap.ofList (tracks.map fun t => (t.trackId, t.position))) b

instance (tracks : List TrackView) : DecidableRel (ClipLE tracks) :=
  fun a b => inferInstanceAs (Decidable (clipKey _ a ≤ clipKey _ b))

theorem clipId_eq_of_le {tracks : List TrackView} {a b : ClipView} (hab : ClipLE tracks a b)
    (hba : ClipLE tracks b a) : a.clipId = b.clipId := by
  have h := le_antisymm hab hba
  simp only [clipKey, EmbeddingLike.apply_eq_iff_eq, Prod.mk.injEq] at h
  exact h.2.2.2.2

theorem pairwise_clips_of_materialize (h : s.materialize = some v) :
    v.clips.Pairwise (ClipLE v.tracks) := by
  simp only [materialize, materializeIn, Option.bind_eq_bind, Option.bind_eq_some_iff,
    Option.pure_def, Option.some.injEq] at h
  obtain ⟨l, -, rfl⟩ := h
  have htot : Std.Total (ClipLE s.trackViews) := ⟨fun a b => le_total _ _⟩
  have htr : IsTrans ClipView (ClipLE s.trackViews) := ⟨fun a b c => le_trans⟩
  exact List.pairwise_insertionSort (ClipLE s.trackViews) _

/-- The clips of a view are determined by which they are. -/
theorem clips_ext {l m : List ClipView} {tracks : List TrackView}
    (hl : l.Pairwise (ClipLE tracks)) (hm : m.Pairwise (ClipLE tracks))
    (hlid : (l.map (·.clipId)).Nodup) (hmid : (m.map (·.clipId)).Nodup)
    (h : ∀ w, w ∈ l ↔ w ∈ m) : l = m := by
  refine List.Perm.eq_of_pairwise (fun a b ha hb hab hba => ?_) hl hm
    ((List.perm_ext_iff_of_nodup hlid.of_map hmid.of_map).mpr h)
  exact List.inj_on_of_nodup_map hlid ha ((h b).mpr hb) (clipId_eq_of_le hab hba)

theorem view_ext (h : s.materialize = some v) (h' : s'.materialize = some v')
    (hmeta : v.metadata = v'.metadata) (htracks : v.tracks = v'.tracks)
    (hclips : ∀ x, s.shows x = s'.shows x) (henv : v.envelopes = v'.envelopes) : v = v' := by
  refine SessionView.ext hmeta htracks ?_ henv
  refine clips_ext (pairwise_clips_of_materialize h)
    (htracks ▸ pairwise_clips_of_materialize h') (nodup_clips_of_materialize h)
    (nodup_clips_of_materialize h') fun w => ?_
  rw [mem_clips_iff h, mem_clips_iff h', hclips]

theorem view_parts (h : s.materialize = some v) : v.metadata = s.metadataView ∧
    v.tracks = s.trackViews ∧ v.envelopes = s.envelopes.envelopes.map fun _ reg => reg.value := by
  simp only [materialize, materializeIn, Option.bind_eq_bind, Option.bind_eq_some_iff,
    Option.pure_def, Option.some.injEq] at h
  obtain ⟨l, -, rfl⟩ := h
  exact ⟨rfl, rfl, rfl⟩

/-! ## What values and ranges depend on -/

/-- The link and the inherited fields of the records agree. -/
structure SameFields (c d : ClipCrdt) : Prop where
  parent : c.parent = d.parent
  value : ∀ φ : Field, φ.value c = φ.value d
  written : ∀ φ : Field, φ.Written c ↔ φ.Written d

theorem SameFields.refl (c : ClipCrdt) : SameFields c c := ⟨rfl, fun _ => rfl, fun _ => Iff.rfl⟩

theorem descends_refl (s : Session) (x : ClipId) : s.Descends x x := ⟨0, rfl⟩

theorem Descends.of_link {link : ClipParent} {y : ClipId} (hx : s.clips[x]? = some c)
    (hl : c.parent = some link) (h : s.Descends link.clip y) : s.Descends x y := by
  obtain ⟨n, hn⟩ := h
  refine ⟨n + 1, ?_⟩
  rw [ParentLinks.walk_succ, parentOf_eq_some.mpr ⟨c, link, hx, hl, rfl⟩, Option.bind_some, hn]

theorem Follows.descends {y : ClipId} (h : s.Follows y x) : s.Descends y x := by
  induction h with
  | refl x => exact descends_refl s x
  | step hy hl _ _ ih => exact ih.of_link hy hl

/-- The lineage of a clip in a session whose records above the clip agree, links included. -/
theorem Lineage.congr {R : ClipCrdt → ClipCrdt → Prop} (hR : ∀ c d, R c d → c.parent = d.parent)
    {l : List ClipCrdt} (h : s.Lineage x l)
    (hsame : ∀ y, s.Descends x y → Option.Rel R s.clips[y]? s'.clips[y]?) :
    ∃ m, s'.Lineage x m ∧ List.Forall₂ R l m := by
  induction h with
  | @top x c hx htop =>
    have hrel := hsame x (descends_refl s x)
    rw [hx] at hrel
    rcases hd : s'.clips[x]? with _ | d <;> rw [hd] at hrel <;> cases hrel
    rename_i hcd
    refine ⟨[d], .top hd fun link hl => ?_, .cons hcd .nil⟩
    have hl' := (hR c d hcd).trans hl
    have hrel := hsame link.clip (Descends.of_link hx hl' (descends_refl s _))
    rw [BTreeMap.not_mem_iff.mp (htop link hl')] at hrel
    rcases hp : s'.clips[link.clip]? with _ | p <;> rw [hp] at hrel <;> cases hrel
    exact BTreeMap.not_mem_iff.mpr hp
  | @child x c link l hx hl _ ih =>
    have hrel := hsame x (descends_refl s x)
    rw [hx] at hrel
    rcases hd : s'.clips[x]? with _ | d <;> rw [hd] at hrel <;> cases hrel
    rename_i hcd
    obtain ⟨m, hm, hlm⟩ := ih fun y hy => hsame y (hy.of_link hx hl)
    exact ⟨d :: m, .child hd ((hR c d hcd).symm.trans hl) hm, .cons hcd hlm⟩

theorem Lineage.valuesOf {l : List ClipCrdt} (h : s.Lineage x l) (φ : Field) :
    Inheritance.settled φ.Written φ.value l = (s.valuesOf x).map φ.get := by
  obtain ⟨c, m, hc, rfl⟩ := h.head
  obtain ⟨a, ha, -⟩ := h.inheritLoop (.own c) h.length_le
  rw [h.values ha, Session.valuesOf, hc, Option.bind_some, ha, Option.map_some]

theorem Lineage.valuesOf_some {l : List ClipCrdt} (h : s.Lineage x l) :
    ∃ a, s.valuesOf x = some a := by
  obtain ⟨c, m, hc, rfl⟩ := h.head
  obtain ⟨a, ha, -⟩ := h.inheritLoop (.own c) h.length_le
  exact ⟨a, by rw [Session.valuesOf, hc, Option.bind_some, ha]⟩

/-- Two clips whose lineages settle each field alike have the same values. -/
theorem Lineage.valuesOf_ext {y : ClipId} {l m : List ClipCrdt} (hl : s.Lineage x l)
    (hm : s'.Lineage y m) (h : ∀ φ : Field, Inheritance.settled φ.Written φ.value l =
      Inheritance.settled φ.Written φ.value m) : s.valuesOf x = s'.valuesOf y := by
  obtain ⟨a, ha⟩ := hl.valuesOf_some
  obtain ⟨b, hb⟩ := hm.valuesOf_some
  rw [ha, hb, Option.some.injEq]
  refine Field.ext_get fun φ => ?_
  have := h φ
  rw [hl.valuesOf, hm.valuesOf, ha, hb] at this
  exact Option.some.inj this

theorem Lineage.valuesOf_congr {l : List ClipCrdt} (h : s.Lineage x l)
    (hsame : ∀ y, s.Descends x y → Option.Rel SameFields s.clips[y]? s'.clips[y]?) :
    s.valuesOf x = s'.valuesOf x := by
  obtain ⟨m, hm, hlm⟩ := h.congr (fun _ _ hcd => hcd.parent) hsame
  refine h.valuesOf_ext hm fun φ => Inheritance.settled_congr (hlm.imp ?_)
  exact fun c d hcd => ⟨hcd.value φ, hcd.written φ⟩

theorem Lineage.rangeOf_eq {l : List ClipCrdt} (h : s.Lineage x (c :: l)) : s.rangeOf x =
    match c.parent with
    | none =>
      if c.startFrame.tag = .initial ∨ c.durationFrames.tag = .initial then none
      else some (ownRange c)
    | some link =>
      if c.detached then some (ownRange c)
      else s.clips[link.clip]?.bind fun p =>
        if p.alive.value then
          (s.rangeOf link.clip).map fun r => childRange p link.offset r.1 r.2
        else none := by
  have hlen := h.length_le
  rcases h with ⟨hx, htop⟩ | @⟨_, _, link, _, hx, hl, hp⟩
  · rcases hl : c.parent with _ | link
    · simp only [rangeOf, hx, Option.bind_some, fuel, Session.resolveFullRange, hl]
      split_ifs <;> rfl
    · have hnp := BTreeMap.not_mem_iff.mp (htop link hl)
      simp only [rangeOf, hx, Option.bind_some, fuel, Session.resolveFullRange, hl, hnp]
      split_ifs <;> rfl
  · obtain ⟨p, m, hpc, rfl⟩ := hp.head
    obtain ⟨g, hg⟩ := hp.resolveFullRange (Nat.le_of_succ_le_succ hlen)
    have hg' := resolveFullRange_mono (Nat.le_succ _) hg
    have hrange : s.rangeOf link.clip = g := by
      rw [rangeOf, hpc, Option.bind_some, fuel, hg', Option.join_some]
    simp only [hl, hpc, Option.bind_some, hrange]
    simp only [rangeOf, hx, Option.bind_some, fuel, Session.resolveFullRange, hl, hpc, hg,
      Option.map_some]
    split_ifs <;> rfl

theorem Lineage.resolveClip_eq {l : List ClipCrdt} (h : s.Lineage x (c :: l)) :
    ∃ a, s.valuesOf x = some a ∧ s.resolveClip x = some (some
      (s.resolved x c a ((s.rangeOf x).map fun r => (r.1, c.visibleLength r)))) := by
  obtain ⟨a, ha⟩ := h.valuesOf_some
  obtain ⟨g, hg⟩ := h.resolveFullRange h.length_le
  refine ⟨a, ha, resolveClip_iff.mpr ⟨c, g, h.clips, ha, hg, ?_⟩⟩
  rw [rangeOf, h.clips, Option.bind_some, hg, Option.join_some]
  rfl

theorem resolved_visible {g : Option (UInt64 × UInt64)} :
    (s.resolved x c a g).visible = true ↔ c.alive.value = true ∧ s.LiveTrack a.trackId ∧
      ∃ p, g = some p ∧ 0 < p.2 := by
  rcases g with _ | p <;>
    simp [resolved, liveTrack_iff, and_assoc]

/-- What a record says about the range of its own clip agrees. -/
structure SameSpan (c d : ClipCrdt) : Prop where
  parent : c.parent = d.parent
  detached : c.detached = d.detached
  range : c.OwnGeometry → ownRange c = ownRange d
  unwritten : c.parent = none → ((c.startFrame.tag = .initial ∨ c.durationFrames.tag = .initial) ↔
    (d.startFrame.tag = .initial ∨ d.durationFrames.tag = .initial))

/-- What a record says about the ranges of its pieces agrees. -/
structure SameCuts (c d : ClipCrdt) : Prop where
  alive : c.alive.value = d.alive.value
  splits : c.splits = d.splits

theorem SameSpan.refl (c : ClipCrdt) : SameSpan c c := ⟨rfl, rfl, fun _ => rfl, fun _ => Iff.rfl⟩

theorem SameCuts.refl (c : ClipCrdt) : SameCuts c c := ⟨rfl, rfl⟩

theorem SameCuts.childRange_eq {d : ClipCrdt} (h : SameCuts c d) (f a b : UInt64) :
    childRange c f a b = childRange d f a b := by
  simp only [childRange, ClipCrdt.nextSplitBoundaryAfter, h.splits]

/-- The range of a clip depends on its links, on the spans of the records it follows, and on the
cuts of those above it. -/
theorem Lineage.rangeOf_congr {l : List ClipCrdt} (h : s.Lineage x l)
    (hlinks : ∀ y, s.Descends x y →
      Option.Rel (fun c d => c.parent = d.parent) s.clips[y]? s'.clips[y]?)
    (hspan : ∀ y, s.Follows x y → Option.Rel SameSpan s.clips[y]? s'.clips[y]?)
    (hcuts : ∀ y, s.Follows x y → y ≠ x → Option.Rel SameCuts s.clips[y]? s'.clips[y]?) :
    s.rangeOf x = s'.rangeOf x := by
  induction h with
  | @top x c hc htop =>
    obtain ⟨m, hm, hlm⟩ := (Lineage.top hc htop).congr (fun _ _ h => h) hlinks
    obtain ⟨d, m, hd, rfl⟩ := hm.head
    have hrel := hspan x (.refl x)
    rw [hc, hd] at hrel
    obtain ⟨hcd⟩ := hrel
    rw [(Lineage.top hc htop).rangeOf_eq, hm.rangeOf_eq, ← hcd.parent, ← hcd.detached]
    rcases hp : c.parent with _ | link
    · simp only [hcd.unwritten hp, hcd.range (.inl hp)]
    · rcases hdet : c.detached with _ | _
      · have hrel := hlinks link.clip (Descends.of_link hc hp (descends_refl s _))
        have hnp := BTreeMap.not_mem_iff.mp (htop link hp)
        rw [hnp] at hrel
        rcases hp' : s'.clips[link.clip]? with _ | p <;> rw [hp'] at hrel <;> cases hrel
        simp only [hnp, Option.bind_none, hp']
        rfl
      · simp only [hcd.range (.inr hdet), if_true]
  | @child x c link l hc hp hl ih =>
    obtain ⟨m, hm, hlm⟩ := (Lineage.child hc hp hl).congr (fun _ _ h => h) hlinks
    obtain ⟨d, m, hd, rfl⟩ := hm.head
    have hrel := hspan x (.refl x)
    rw [hc, hd] at hrel
    obtain ⟨hcd⟩ := hrel
    rw [(Lineage.child hc hp hl).rangeOf_eq, hm.rangeOf_eq, ← hcd.parent, ← hcd.detached, hp]
    rcases hdet : c.detached with _ | _
    · have hne : ∀ y, s.Follows link.clip y → y ≠ x := by
        rintro y hy rfl
        exact (Lineage.child hc hp hl).not_descends hp hy.descends
      have ih := ih (fun y hy => hlinks y (hy.of_link hc hp))
        (fun y hy => hspan y (.step hc hp hdet hy))
        fun y hy _ => hcuts y (.step hc hp hdet hy) (hne y hy)
      have hrel := hcuts link.clip (.step hc hp hdet (.refl _)) (hne _ (.refl _))
      obtain ⟨p, hpc⟩ := BTreeMap.mem_iff.mp hl.mem
      rw [hpc] at hrel
      rcases hp' : s'.clips[link.clip]? with _ | q <;> rw [hp'] at hrel <;> cases hrel
      rename_i hpq
      simp only [hpc, hp', Option.bind_some, ← hpq.alive, ← ih, hpq.childRange_eq]
      rfl
    · simp only [hcd.range (.inr hdet), if_true]

end Session

end AvSync
