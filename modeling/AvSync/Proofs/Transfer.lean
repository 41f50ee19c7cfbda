import AvSync.Lib.Entrywise
import AvSync.Proofs.Delta

/-!
# When a delta leads to the other view

The view after a delta is compared with the view it was computed for, part by part: the metadata
always agree, and `Transfers` says when the tracks, the clips and the envelopes do.
-/

namespace AvSync

namespace Session

variable {s s' : Session} {v old new : SessionView} {base : OpTag}

/-! ## Envelopes have targets -/

/-- Each envelope belongs to an entity that is there. -/
def Targeted (s : Session) : Prop :=
  ∀ κ ∈ s.envelopes.envelopes, s.HasTarget (envelopeTarget κ)

theorem Targeted.exec {o : TaggedOperation} (h : s.Targeted) : (s.exec o).Targeted := by
  intro κ hκ
  have hkeep : κ ∈ s.envelopes.envelopes → (s.exec o).HasTarget (envelopeTarget κ) :=
    fun hκ => (h κ hκ).exec
  rw [envelopes_exec_eq] at hκ
  rcases hop : o.operation with _ | _ | _ | _ | _ | _ | _ | _ | _ | ⟨y, k, points⟩ | _ <;>
    rw [hop] at hκ
  case updateEnvelope =>
    rcases hm : s.missingEnvelopeTarget y with _ | err <;> simp only [hm] at hκ
    · rcases Std.ExtTreeMap.mem_insert.mp hκ with hy | hκ
      · obtain rfl : toLex (y, k) = κ := compare_eq_iff_eq.mp hy
        refine HasTarget.exec ?_
        cases y <;> simpa [missingEnvelopeTarget, envelopeTarget, HasTarget] using hm
      · exact hkeep hκ
    · exact hkeep hκ
  all_goals exact hkeep hκ

theorem targeted_replay (ops : List TaggedOperation) : (Session.new.replay ops).Targeted :=
  Machine.run_inv (I := Targeted) (fun _ _ _ h => h.exec) fun _ hκ =>
    absurd hκ Std.ExtTreeMap.not_mem_empty

/-! ## Views equal to themselves -/

/-- No value of the view is NaN: it is equal to itself. -/
structure SelfEq (v : SessionView) : Prop where
  tempo : v.metadata.tempoBpm.eq v.metadata.tempoBpm = true
  volumes : ∀ u ∈ v.tracks, u.volumeDb.eq u.volumeDb = true
  gains : ∀ c ∈ v.clips, c.values.gain.eq c.values.gain = true
  points : ∀ (κ : TargetId ×ₗ EnvelopeType) (points : List EnvelopePoint),
    v.envelopes[κ]? = some points → pointsEq points points = true

theorem SessionView.eq_iff {v w : SessionView} : v.eq w = true ↔ v.metadata.eq w.metadata = true ∧
    v.tracks.isEqv w.tracks TrackView.eq = true ∧ v.clips.isEqv w.clips ClipView.eq = true ∧
      (v.envelopes.toList.isEqv w.envelopes.toList fun a b =>
        decide (a.1 = b.1) && pointsEq a.2 b.2) = true := by
  simp only [SessionView.eq, Bool.and_eq_true, and_assoc]

theorem selfEq_of_eq (h : v.eq v = true) : SelfEq v := by
  obtain ⟨hmeta, htracks, hclips, henvelopes⟩ := SessionView.eq_iff.mp h
  have hself : ∀ {α : Type} {R : α → α → Bool} {l : List α}, l.isEqv l R = true →
      ∀ a ∈ l, R a a = true := by
    intro α R l h
    rw [isEqv_iff, List.forall₂_same] at h
    exact h
  refine ⟨?_, fun u hu => ?_, fun c hc => ?_, fun κ points hκ => ?_⟩
  · simp only [SessionMetadata.eq, Bool.and_eq_true] at hmeta
    exact hmeta.1.2
  · have := hself htracks u hu
    simp only [TrackView.eq, Bool.and_eq_true] at this
    exact this.1.1.1.2
  · have := hself hclips c hc
    simp only [ClipView.eq, Bool.and_eq_true] at this
    exact this.1.1.1.1.1.2
  · exact (BTreeMap.toList_isEqv_iff.mp henvelopes).2 κ points points hκ hκ

/-! ## The session after a delta -/

theorem computeDelta_eq (old new : SessionView) : computeDelta old new =
    deltaBody old new ++ new.envelopes.toList.flatMap (envelopeDelta old) := rfl

theorem view_envelopes (h : s.materialize = some v) (κ : TargetId ×ₗ EnvelopeType) :
    v.envelopes[κ]? = s.pointsOf κ := by
  rw [(view_parts h).2.2, Std.ExtTreeMap.getElem?_map, pointsOf]

theorem mem_of_pointsOf {κ : TargetId ×ₗ EnvelopeType} {points : List EnvelopePoint}
    (h : s.pointsOf κ = some points) : κ ∈ s.envelopes.envelopes := by
  obtain ⟨r, hr, -⟩ := Option.map_eq_some_iff.mp h
  exact BTreeMap.mem_iff.mpr ⟨r, hr⟩

theorem find?_toList {ν : Type} {m : BTreeMap (TargetId ×ₗ EnvelopeType) ν}
    (κ : TargetId ×ₗ EnvelopeType) :
    (m.toList.find? fun e => decide (e.1 = κ)) = m[κ]?.map fun x => (κ, x) := by
  have hnodup : (m.toList.map (·.1)).Nodup := by
    rw [Std.ExtTreeMap.map_fst_toList_eq_keys]
    exact m.keys_pairwise_lt.imp fun h => h.ne
  ext ⟨k, x⟩
  rw [find?_eq_some_iff_of_nodup hnodup, Std.ExtTreeMap.mem_toList_iff_getElem?_eq_some]
  constructor
  · rintro ⟨hx, rfl⟩
    rw [hx]
    rfl
  · intro h
    obtain ⟨y, hy, he⟩ := Option.map_eq_some_iff.mp h
    obtain ⟨rfl, rfl⟩ := Prod.mk.injEq .. ▸ he
    exact ⟨hy, rfl⟩

section

variable (hs : s.materialize = some old) (hwf : new.WellFormed)
  (hst : s.Stamped (tagged base 0 (computeDelta old new)))

include hst in
theorem stamped_body : s.Stamped (tagged base 0 (deltaBody old new)) := by
  rw [computeDelta_eq, tagged_append] at hst
  exact hst.append.1

include hst in
/-- The envelope updates come last, and change nothing but the envelopes. -/
theorem applyDelta_body : (∃ store, s.applyDelta (computeDelta old new) base =
      { s.replay (tagged base 0 (deltaBody old new)) with envelopes := store }) ∧
    ∀ κ, (s.applyDelta (computeDelta old new) base).pointsOf κ = match new.envelopes[κ]? with
      | none => s.pointsOf κ
      | some points => if old.envelopes[κ]?.any (pointsEq · points) then s.pointsOf κ
        else open scoped Classical in
          if (s.replay (tagged base 0 (deltaBody old new))).HasTarget (envelopeTarget κ) then
            some points
          else s.pointsOf κ := by
  have hkeep : (s.replay (tagged base 0 (deltaBody old new))).envelopes = s.envelopes := by
    have key : ∀ (l : List TaggedOperation) (s : Session),
        (∀ o ∈ l, ∀ y k points, o.operation ≠ .updateEnvelope y k points) →
          (s.replay l).envelopes = s.envelopes := by
      intro l
      induction l with
      | nil => exact fun _ _ => rfl
      | cons o l ih =>
        intro s h
        refine (ih (s.exec o) fun b hb => h b (List.mem_cons_of_mem o hb)).trans ?_
        rw [envelopes_exec_eq]
        have ho := h o List.mem_cons_self
        rcases hop : o.operation with _ | _ | _ | _ | _ | _ | _ | _ | _ | ⟨y, k, points⟩ | _
        case updateEnvelope => exact absurd hop (ho y k points)
        all_goals rfl
    refine key _ _ fun o ho y k points hop => ?_
    have hmem := mem_of_tagged ho
    rw [hop] at hmem
    rcases mem_deltaBody.mp hmem with ⟨u, -, h⟩ | ⟨u, -, -, h⟩ | h | ⟨c, -, h⟩ | ⟨c, -, -, h⟩
    · cases (mem_trackDelta h).1
    · cases h
    · cases mem_sessionDelta h
    · cases (mem_clipDelta h).1
    · cases h
  have hnodup : (new.envelopes.toList.map (·.1)).Nodup := by
    rw [Std.ExtTreeMap.map_fst_toList_eq_keys]
    exact new.envelopes.keys_pairwise_lt.imp fun h => h.ne
  rw [computeDelta_eq, tagged_append] at hst
  have happly : s.applyDelta (computeDelta old new) base =
      (s.replay (tagged base 0 (deltaBody old new))).replay (tagged base
        (0 + (deltaBody old new).length) (new.envelopes.toList.flatMap (envelopeDelta old))) := by
    rw [applyDelta_eq, computeDelta_eq, tagged_append]
    exact Machine.run_append ..
  rw [happly]
  refine ⟨(pointsOf_envelopes (κ := toLex (.clip ⟨0⟩, .volume)) hnodup hst.append.2).1,
    fun κ => ?_⟩
  rw [(pointsOf_envelopes (κ := κ) hnodup hst.append.2).2, find?_toList]
  have hpoints : (s.replay (tagged base 0 (deltaBody old new))).pointsOf κ = s.pointsOf κ := by
    rw [pointsOf, pointsOf, hkeep]
  rcases new.envelopes[κ]? with _ | points
  · exact hpoints
  · rw [Option.map_some, hpoints]

include hs hwf hst

theorem tracks_applyDelta (h : (s.applyDelta (computeDelta old new) base).materialize = some v) :
    v.tracks = new.tracks.map (·.settled old) := by
  obtain ⟨⟨store, hstore⟩, -⟩ := applyDelta_body hst
  rw [hstore] at h
  have hshown := fun t => trackShown_body hs hwf (stamped_body hst) t
  have hkey : ∀ u : TrackView, trackKey (u.settled old) = trackKey u := by
    intro u
    unfold TrackView.settled
    split <;> rfl
  rw [(view_parts h).2.1]
  refine List.Perm.eq_of_pairwise (fun _ _ _ _ hab hba => (lt_asymm hab hba).elim)
    pairwise_trackViews (List.pairwise_map.mpr (hwf.trackOrder.imp fun h => ?_)) ?_
  · rwa [hkey, hkey]
  have hids : ∀ u : TrackView, (u.settled old).trackId = u.trackId := by
    intro u
    unfold TrackView.settled
    split <;> rfl
  have hnodup : ((new.tracks.map (·.settled old)).map (·.trackId)).Nodup := by
    rw [List.map_map]
    simpa only [Function.comp_def, hids] using hwf.trackIds
  refine (List.perm_ext_iff_of_nodup nodup_trackViews.of_map hnodup.of_map).mpr fun u => ?_
  rw [mem_trackViews, List.mem_map]
  refine (Eq.congr_left (hshown u.trackId)).trans ?_
  rw [Option.map_eq_some_iff]
  constructor
  · rintro ⟨w, hw, rfl⟩
    exact ⟨w, (hwf.track_eq_some.mp hw).1, rfl⟩
  · rintro ⟨w, hw, rfl⟩
    exact ⟨w, hwf.track_eq_some.mpr ⟨hw, (hids w).symm⟩, rfl⟩

theorem tracks_eq_iff (hself : SelfEq new)
    (h : (s.applyDelta (computeDelta old new) base).materialize = some v) :
    v.tracks.isEqv new.tracks TrackView.eq = true ↔
      ∀ u ∈ new.tracks, ∀ w, old.track u.trackId = some w → w.kind = u.kind := by
  rw [tracks_applyDelta hs hwf hst h, isEqv_map_left]
  refine forall₂_congr fun u hu => ?_
  have hvolume := hself.volumes u hu
  rcases ho : old.track u.trackId with _ | w
  · simp only [TrackView.settled, ho, TrackView.eq, hvolume]
    simp
  · have hsettled : (if w.volumeDb.eq u.volumeDb then w.volumeDb else u.volumeDb).eq
        u.volumeDb = true := by
      split_ifs with hv
      · exact hv
      · exact hvolume
    simp only [TrackView.settled, ho, TrackView.eq, hsettled]
    simp

omit hwf in
theorem metadata_applyDelta (hself : SelfEq new)
    (h : (s.applyDelta (computeDelta old new) base).materialize = some v) :
    v.metadata.eq new.metadata = true := by
  obtain ⟨⟨store, hstore⟩, -⟩ := applyDelta_body hst
  rw [hstore] at h
  have hmeta : v.metadata = old.metadata.settled new.metadata :=
    (view_parts h).1.trans (metadata_body hs (stamped_body hst))
  have htempo : (if old.metadata.tempoBpm.eq new.metadata.tempoBpm then old.metadata.tempoBpm
      else new.metadata.tempoBpm).eq new.metadata.tempoBpm = true := by
    split_ifs with ht
    · exact ht
    · exact hself.tempo
  rw [hmeta, SessionMetadata.settled, SessionMetadata.eq, htempo]
  simp

variable (hflat : s.Flat)

include hflat

omit hs hwf in
theorem flat_applyDelta (hs : s.materialize = some old) :
    (s.applyDelta (computeDelta old new) base).Flat := by
  obtain ⟨⟨store, hstore⟩, -⟩ := applyDelta_body hst
  rw [hstore]
  exact flat_body hs hflat (stamped_body hst)

omit hwf in
theorem shows_applyDelta (x : ClipId) : (s.applyDelta (computeDelta old new) base).shows x =
    (s.replay (tagged base 0 (deltaBody old new))).shows x := by
  obtain ⟨⟨store, hstore⟩, -⟩ := applyDelta_body hst
  refine (shows_of_clips_eq (flat_body hs hflat (stamped_body hst)).forest (fun y => ?_)
    (fun t => ?_) x).symm
  · rw [hstore]
  · rw [hstore]
    rfl

/-- A clip that is in neither view surfaces if it is live and its track is to be seen. -/
theorem shows_body_hidden {x : ClipId} (hn : new.clip x = none) (ho : old.clip x = none) :
    (s.replay (tagged base 0 (deltaBody old new))).shows x = none ↔
      ∀ d, s.clips[x]? = some d → d.alive.value = true → 0 < d.lengthAt d.startFrame.value →
        new.track d.track.value = none := by
  have hbody := stamped_body hst
  have hsame : (s.replay (tagged base 0 (deltaBody old new))).clips[x]? = s.clips[x]? :=
    clips_body_untouched hs hwf hn ho
  rw [Option.eq_none_iff_forall_ne_some]
  constructor
  · intro h d hd halive hpos
    by_contra ht
    exact h _ (((flat_body hs hflat hbody).shows_eq_some (hsame.trans hd)).mpr
      ⟨halive, (liveTrack_body hs hwf hbody).mpr ht, hpos, rfl⟩)
  · intro h w hw
    obtain ⟨d, -, -, hd, -⟩ := Session.shows_eq_some.mp hw
    obtain ⟨halive, ht, hpos, -⟩ := ((flat_body hs hflat hbody).shows_eq_some hd).mp hw
    exact (liveTrack_body hs hwf hbody).mp ht (h d (hsame.symm.trans hd) halive hpos)

theorem shows_body_new {c : ClipView} (hc : c ∈ new.clips) :
    (s.replay (tagged base 0 (deltaBody old new))).shows c.clipId = some (c.settled s old) := by
  rcases ho : old.clip c.clipId with _ | w
  · exact shows_body_inserted hs hflat hwf (stamped_body hst) hc ho
  · exact shows_body_common hs hflat hwf (stamped_body hst) hc ho

/-- Nothing that is in neither view surfaces. -/
theorem shows_body_iff : (∀ x, new.clip x = none →
      (s.replay (tagged base 0 (deltaBody old new))).shows x = none) ↔
    ∀ x d, s.clips[x]? = some d → old.clip x = none → new.clip x = none →
      d.alive.value = true → 0 < d.lengthAt d.startFrame.value →
        new.track d.track.value = none := by
  constructor
  · exact fun h x d hd ho hn halive hpos =>
      (shows_body_hidden hs hwf hst hflat hn ho).mp (h x hn) d hd halive hpos
  · intro h x hn
    by_cases ho : old.clip x = none
    · exact (shows_body_hidden hs hwf hst hflat hn ho).mpr fun d hd => h x d hd ho hn
    · exact shows_body_gone hs hflat hwf (stamped_body hst) hn ho

omit hs hwf hst hflat in
theorem settled_clipId (c : ClipView) : (c.settled s old).clipId = c.clipId := by
  unfold ClipView.settled
  split <;> rfl

omit hs hwf hst hflat in
theorem clipKey_settled (order : BTreeMap TrackId UInt64) (c : ClipView) :
    clipKey order (c.settled s old) = clipKey order c := by
  unfold ClipView.settled
  split <;> rfl

/-- If nothing surfaces, the clips of the result are those of the other view. -/
theorem clips_applyDelta (h : (s.applyDelta (computeDelta old new) base).materialize = some v)
    (hhidden : ∀ x, new.clip x = none →
      (s.replay (tagged base 0 (deltaBody old new))).shows x = none) :
    v.clips = new.clips.map (·.settled s old) := by
  have htracks := tracks_applyDelta hs hwf hst h
  have hnodup : ((new.clips.map (·.settled s old)).map (·.clipId)).Nodup := by
    rw [List.map_map]
    simpa only [Function.comp_def, settled_clipId] using hwf.clipIds
  -- the tracks of the result are in the same places
  have hplaces : (v.tracks.map fun t => (t.trackId, t.position)) =
      new.tracks.map fun t => (t.trackId, t.position) := by
    rw [htracks, List.map_map]
    refine List.map_congr_left fun u _ => ?_
    dsimp only [Function.comp]
    unfold TrackView.settled
    split <;> rfl
  refine clips_ext (pairwise_clips_of_materialize h)
    (List.pairwise_map.mpr (hwf.clipOrder.imp fun {a b} hab => ?_))
    (nodup_clips_of_materialize h) hnodup fun w => ?_
  · rw [ClipLE, clipKey_settled, clipKey_settled, hplaces]
    exact hab.le
  · rw [mem_clips_iff h, shows_applyDelta hs hst hflat, List.mem_map]
    constructor
    · intro hw
      rcases hn : new.clip w.clipId with _ | c
      · rw [hhidden _ hn] at hw
        cases hw
      · obtain ⟨hc, hid⟩ := hwf.clip_eq_some.mp hn
        rw [← hid, shows_body_new hs hwf hst hflat hc] at hw
        exact ⟨c, hc, Option.some.inj hw⟩
    · rintro ⟨c, hc, rfl⟩
      rw [settled_clipId, shows_body_new hs hwf hst hflat hc]

omit hs hst hwf hflat in
theorem settled_eq_iff {c : ClipView} (hgain : c.values.gain.eq c.values.gain = true)
    (hmem : ∀ w, old.clip c.clipId = some w → c.clipId ∈ s.clips) :
    (c.settled s old).eq c = true ↔
      (old.clip c.clipId = none →
        F32.one.eq c.values.gain = true ∧ c.values.muted = false ∧ c.values.locked = false) ∧
      ∀ w d, old.clip c.clipId = some w → s.clips[c.clipId]? = some d →
        w.durationFrames = c.durationFrames → d.lengthAt c.startFrame = c.durationFrames := by
  rcases ho : old.clip c.clipId with _ | w
  · simp only [ClipView.settled, ho, ClipView.eq, decide_true, Bool.true_and, Bool.and_true,
      Bool.and_eq_true, decide_eq_true_eq, and_assoc, eq_comm (a := false)]
    exact ⟨fun h => ⟨fun _ => h, fun w d hw => absurd hw (by simp)⟩, fun h => h.1 trivial⟩
  · obtain ⟨d, hd⟩ := BTreeMap.mem_iff.mp (hmem w ho)
    have hsettled : (if w.values.gain.eq c.values.gain then w.values.gain
        else c.values.gain).eq c.values.gain = true := by
      split_ifs with hv
      · exact hv
      · exact hgain
    simp only [ClipView.settled, ho, hd, ClipView.eq, hsettled, Option.map_some,
      Option.getD_some]
    split_ifs with hl <;> simp [hl]

theorem clips_eq_iff (hself : SelfEq new)
    (h : (s.applyDelta (computeDelta old new) base).materialize = some v) :
    v.clips.isEqv new.clips ClipView.eq = true ↔
      (∀ c ∈ new.clips, old.clip c.clipId = none →
        F32.one.eq c.values.gain = true ∧ c.values.muted = false ∧ c.values.locked = false) ∧
      (∀ c ∈ new.clips, ∀ w d, old.clip c.clipId = some w → s.clips[c.clipId]? = some d →
        w.durationFrames = c.durationFrames → d.lengthAt c.startFrame = c.durationFrames) ∧
      ∀ x d, s.clips[x]? = some d → old.clip x = none → new.clip x = none →
        d.alive.value = true → 0 < d.lengthAt d.startFrame.value →
          new.track d.track.value = none := by
  have hmem : ∀ {x w}, old.clip x = some w → x ∈ s.clips := by
    intro x w hw
    rw [clip_eq hs] at hw
    obtain ⟨d, -, -, hd, -⟩ := Session.shows_eq_some.mp hw
    exact BTreeMap.mem_iff.mpr ⟨d, hd⟩
  rw [← shows_body_iff hs hwf hst hflat, ← and_assoc]
  -- the ids of the result are those of the other view exactly if nothing surfaces
  have hhidden : v.clips.isEqv new.clips ClipView.eq = true → ∀ x, new.clip x = none →
      (s.replay (tagged base 0 (deltaBody old new))).shows x = none := by
    intro heq x hn
    have hids : v.clips.map (·.clipId) = new.clips.map (·.clipId) := by
      refine (congrFun (congrFun List.forall₂_eq_eq_eq _) _).mp
        (List.forall₂_map_left_iff.mpr (List.forall₂_map_right_iff.mpr ?_))
      refine (isEqv_iff.mp heq).imp fun a b hab => ?_
      simp only [ClipView.eq, Bool.and_eq_true, decide_eq_true_eq, and_assoc] at hab
      exact hab.1
    rw [← shows_applyDelta hs hst hflat]
    refine Option.eq_none_iff_forall_ne_some.mpr fun w hw => ?_
    have hid := shows_clipId hw
    have hw' : w ∈ v.clips := (mem_clips_iff h).mpr (by rw [hid]; exact hw)
    have hx : x ∈ new.clips.map (·.clipId) := hids ▸ hid ▸ List.mem_map_of_mem hw'
    obtain ⟨c, hc, rfl⟩ := List.mem_map.mp hx
    rw [hwf.clip_eq_some.mpr ⟨hc, rfl⟩] at hn
    cases hn
  have hsettled : (∀ x, new.clip x = none →
      (s.replay (tagged base 0 (deltaBody old new))).shows x = none) →
      (v.clips.isEqv new.clips ClipView.eq = true ↔
        ∀ c ∈ new.clips, (c.settled s old).eq c = true) := by
    intro hhidden
    rw [clips_applyDelta hs hwf hst hflat h hhidden, isEqv_map_left]
  rw [← forall₂_and]
  constructor
  · intro heq
    refine ⟨fun c hc => ?_, hhidden heq⟩
    exact (settled_eq_iff (hself.gains c hc) fun _ => hmem).mp
      ((hsettled (hhidden heq)).mp heq c hc)
  · rintro ⟨hboth, hnone⟩
    exact (hsettled hnone).mpr fun c hc =>
      (settled_eq_iff (hself.gains c hc) fun _ => hmem).mpr (hboth c hc)

theorem mem_clips_body {x : ClipId} : x ∈ (s.replay (tagged base 0 (deltaBody old new))).clips ↔
    x ∈ s.clips ∨ ∃ c ∈ new.clips, c.clipId = x := by
  constructor
  · intro hx
    rcases hn : new.clip x with _ | c
    · refine Or.inl ?_
      rcases ho : old.clip x with _ | w
      · rwa [BTreeMap.mem_iff, clips_body_untouched hs hwf hn ho, ← BTreeMap.mem_iff] at hx
      · by_contra hx
        rw [clip_eq hs, shows_of_not_mem hx] at ho
        cases ho
    · exact Or.inr ⟨c, hwf.clip_eq_some.mp hn⟩
  · rintro (hx | ⟨c, hc, rfl⟩)
    · exact HasTarget.replay (r := .clip x) hx
    · by_contra hx
      have hshown := shows_body_new hs hwf hst hflat hc
      rw [shows_of_not_mem hx] at hshown
      cases hshown

omit hflat in
theorem mem_tracks_body {t : TrackId} :
    t ∈ (s.replay (tagged base 0 (deltaBody old new))).tracks ↔
      t ∈ s.tracks ∨ ∃ u ∈ new.tracks, u.trackId = t := by
  have hmem : ∀ {s : Session} {u : TrackView}, s.trackShown t = some u → t ∈ s.tracks := by
    intro s u hu
    obtain ⟨r, hr, -⟩ := trackShown_eq_some.mp hu
    exact BTreeMap.mem_iff.mpr ⟨r, hr⟩
  constructor
  · intro ht
    rcases hn : new.track t with _ | u
    · refine Or.inl ?_
      rcases ho : old.track t with _ | w
      · rwa [BTreeMap.mem_iff, tracks_body_untouched hs hwf hn ho, ← BTreeMap.mem_iff] at ht
      · exact hmem ((track_eq hs t).symm.trans ho)
    · exact Or.inr ⟨u, hwf.track_eq_some.mp hn⟩
  · rintro (ht | ⟨u, hu, rfl⟩)
    · exact HasTarget.replay (r := .track t) ht
    · refine hmem (u := u.settled old) ?_
      rw [trackShown_body hs hwf (stamped_body hst), hwf.track_eq_some.mpr ⟨hu, rfl⟩,
        Option.map_some]

/-- An envelope finds its target if that was there or comes with the tracks and clips. -/
theorem hasTarget_body {κ : TargetId ×ₗ EnvelopeType} :
    (s.replay (tagged base 0 (deltaBody old new))).HasTarget (envelopeTarget κ) ↔
      match (ofLex κ).1 with
      | .clip x => x ∈ s.clips ∨ ∃ c ∈ new.clips, c.clipId = x
      | .track t => t ∈ s.tracks ∨ ∃ u ∈ new.tracks, u.trackId = t := by
  rw [envelopeTarget]
  rcases (ofLex κ).1 with x | t
  · exact mem_clips_body hs hwf hst hflat
  · exact mem_tracks_body hs hwf hst

omit hwf hflat in
theorem envelopes_eq_iff (hself : SelfEq new) (htarget : s.Targeted)
    (h : (s.applyDelta (computeDelta old new) base).materialize = some v) :
    (v.envelopes.toList.isEqv new.envelopes.toList fun a b =>
        decide (a.1 = b.1) && pointsEq a.2 b.2) = true ↔
      (∀ κ ∈ old.envelopes, κ ∈ new.envelopes) ∧
        ∀ κ ∈ new.envelopes,
          (s.replay (tagged base 0 (deltaBody old new))).HasTarget (envelopeTarget κ) := by
  have hresult : ∀ κ, v.envelopes[κ]? = _ :=
    fun κ => (view_envelopes h κ).trans ((applyDelta_body hst).2 κ)
  have hold : ∀ κ, s.pointsOf κ = old.envelopes[κ]? := fun κ => (view_envelopes hs κ).symm
  simp only [hold] at hresult
  have hfound : ∀ κ ∈ old.envelopes,
      (s.replay (tagged base 0 (deltaBody old new))).HasTarget (envelopeTarget κ) := by
    intro κ hκ
    obtain ⟨points, hp⟩ := BTreeMap.mem_iff.mp hκ
    exact (htarget κ (mem_of_pointsOf ((hold κ).trans hp))).replay
  rw [BTreeMap.toList_isEqv_iff]
  constructor
  · rintro ⟨hkeys, -⟩
    refine ⟨fun κ hκ => ?_, fun κ hκ => ?_⟩
    · by_contra hnew
      have hkept := hresult κ
      rw [BTreeMap.not_mem_iff.mp hnew] at hkept
      rw [← hkeys κ, BTreeMap.mem_iff, hkept, ← BTreeMap.mem_iff] at hnew
      exact hnew hκ
    · by_contra hmiss
      have hnone : old.envelopes[κ]? = none :=
        BTreeMap.not_mem_iff.mp fun ho => hmiss (hfound κ ho)
      obtain ⟨points, hp⟩ := BTreeMap.mem_iff.mp hκ
      obtain ⟨points', hp'⟩ := BTreeMap.mem_iff.mp ((hkeys κ).mpr hκ)
      rw [hresult κ, hp, hnone] at hp'
      simp [hmiss] at hp'
  · rintro ⟨hkept, hknown⟩
    have hvalue : ∀ (κ : TargetId ×ₗ EnvelopeType) (points : List EnvelopePoint),
        new.envelopes[κ]? = some points → ∃ w, v.envelopes[κ]? = some w ∧
          pointsEq w points = true := by
      intro κ points hp
      have hκ := hknown κ (BTreeMap.mem_iff.mpr ⟨points, hp⟩)
      have hres := hresult κ
      rw [hp] at hres
      rcases hany : old.envelopes[κ]?.any (pointsEq · points)
      · refine ⟨points, hres.trans ?_, hself.points κ points hp⟩
        simp [hany, hκ]
      · obtain ⟨w, hw, heq⟩ := (Option.any_eq_true _ _).mp hany
        exact ⟨w, hres.trans (by simp only [hw, Option.any_some, heq, if_true]), heq⟩
    refine ⟨fun κ => ⟨fun hκ => ?_, fun hκ => ?_⟩, fun κ a b ha hb => ?_⟩
    · by_contra hn
      have hres := hresult κ
      rw [BTreeMap.not_mem_iff.mp hn] at hres
      obtain ⟨w, hw⟩ := BTreeMap.mem_iff.mp hκ
      exact hn (hkept κ (BTreeMap.mem_iff.mpr ⟨w, hres.symm.trans hw⟩))
    · obtain ⟨points, hp⟩ := BTreeMap.mem_iff.mp hκ
      obtain ⟨w, hw, -⟩ := hvalue κ points hp
      exact BTreeMap.mem_iff.mpr ⟨w, hw⟩
    · obtain ⟨w, hw, heq⟩ := hvalue κ b hb
      obtain rfl := Option.some.inj (hw.symm.trans ha)
      exact heq

/-- The view after the delta is the other view exactly where the delta leaves nothing behind. -/
theorem transfers_iff (hself : SelfEq new) (htarget : s.Targeted) :
    ∃ v, (s.applyDelta (computeDelta old new) base).materialize = some v ∧
      (v.eq new = true ↔ s.Transfers old new) := by
  obtain ⟨v, hv⟩ := (flat_applyDelta hst hflat hs).forest.materialize
  refine ⟨v, hv, ?_⟩
  rw [SessionView.eq_iff, tracks_eq_iff hs hwf hst hself hv,
    clips_eq_iff hs hwf hst hflat hself hv, envelopes_eq_iff hs hst hself htarget hv]
  simp only [hasTarget_body hs hwf hst hflat]
  constructor
  · rintro ⟨-, hkinds, ⟨hinserted, hlengths, hhidden⟩, hkept, hknown⟩
    exact ⟨⟨hkinds, hkept, hknown⟩, hinserted, hlengths, hhidden⟩
  · intro h
    exact ⟨metadata_applyDelta hs hst hself hv, h.kinds, ⟨h.inserted, h.lengths, h.hidden⟩,
      h.kept, h.known⟩

/-- The second delta has only to deal with what the first one cannot transfer. -/
theorem transfers_applyDelta_iff
    (h : (s.applyDelta (computeDelta old new) base).materialize = some v) :
    (s.applyDelta (computeDelta old new) base).Transfers v new ↔ s.Transferable old new := by
  have hflat' := flat_applyDelta hst hflat hs
  obtain ⟨⟨store, hstore⟩, hpoints⟩ := applyDelta_body hst
  have htrack : ∀ t, v.track t = (new.track t).map (·.settled old) := by
    intro t
    rw [track_eq h, hstore]
    exact trackShown_body hs hwf (stamped_body hst) t
  have hclip : ∀ c ∈ new.clips, v.clip c.clipId = some (c.settled s old) := by
    intro c hc
    rw [clip_eq h, shows_applyDelta hs hst hflat, shows_body_new hs hwf hst hflat hc]
  have hclips : ∀ x, x ∈ (s.applyDelta (computeDelta old new) base).clips ↔
      x ∈ s.clips ∨ ∃ c ∈ new.clips, c.clipId = x := by
    intro x
    rw [hstore]
    exact mem_clips_body hs hwf hst hflat
  have htracks : ∀ t, t ∈ (s.applyDelta (computeDelta old new) base).tracks ↔
      t ∈ s.tracks ∨ ∃ u ∈ new.tracks, u.trackId = t := by
    intro t
    rw [hstore]
    exact mem_tracks_body hs hwf hst
  have hresult : ∀ κ, v.envelopes[κ]? = _ := fun κ => (view_envelopes h κ).trans (hpoints κ)
  simp only [← view_envelopes hs] at hresult
  constructor
  · intro ht
    refine ⟨fun u hu w ho => ?_, fun κ hκ => ht.kept κ ?_, fun κ hκ => ?_⟩
    · have hk := ht.kinds u hu (u.settled old) (by
        rw [htrack, hwf.track_eq_some.mpr ⟨hu, rfl⟩, Option.map_some])
      simpa only [TrackView.settled, ho] using hk
    · -- an envelope of the first view is still there
      obtain ⟨points, hp⟩ := BTreeMap.mem_iff.mp hκ
      have hres := hresult κ
      rw [BTreeMap.mem_iff, hres, hp]
      rcases new.envelopes[κ]? with _ | points'
      · exact ⟨points, rfl⟩
      · dsimp only
        split_ifs
        exacts [⟨_, rfl⟩, ⟨_, rfl⟩, ⟨_, rfl⟩]
    · have hk := ht.known κ hκ
      revert hk
      rcases (ofLex κ).1 with x | t
      · simp only [hclips, or_assoc, or_self, imp_self]
      · simp only [htracks, or_assoc, or_self, imp_self]
  · intro ht
    refine ⟨⟨fun u hu w hw => ?_, fun κ hκ => ?_, fun κ hκ => ?_⟩, fun c hc ho => ?_,
      fun c hc w d hw hd hlen => ?_, fun x d hd ho hn halive hpos => ?_⟩
    · rw [htrack, hwf.track_eq_some.mpr ⟨hu, rfl⟩, Option.map_some] at hw
      obtain rfl := Option.some.inj hw
      rcases ho : old.track u.trackId with _ | w
      · simp only [TrackView.settled, ho]
      · simpa only [TrackView.settled, ho] using ht.kinds u hu w ho
    · by_contra hn
      have hres := hresult κ
      rw [BTreeMap.not_mem_iff.mp hn] at hres
      obtain ⟨points, hp⟩ := BTreeMap.mem_iff.mp hκ
      exact hn (ht.kept κ (BTreeMap.mem_iff.mpr ⟨points, hres.symm.trans hp⟩))
    · have hk := ht.known κ hκ
      revert hk
      rcases (ofLex κ).1 with x | t
      · exact Or.imp_left fun hx => (hclips x).mpr (Or.inl hx)
      · exact Or.imp_left fun hx => (htracks t).mpr (Or.inl hx)
    · rw [hclip c hc] at ho
      cases ho
    · have hw' := hclip c hc
      rw [hw, Option.some.injEq] at hw'
      have hshown := (hflat'.shows_eq_some hd).mp ((clip_eq h c.clipId).symm.trans hw)
      obtain ⟨-, -, -, hview⟩ := hshown
      have hstart : d.startFrame.value = c.startFrame := by
        have h1 : w.startFrame = d.startFrame.value := by rw [hview]
        rw [← h1, hw']
        unfold ClipView.settled
        split <;> rfl
      rw [← hlen, hview, hstart]
    · by_contra hlive
      have hlive' : (s.applyDelta (computeDelta old new) base).LiveTrack d.track.value := by
        rw [hstore]
        exact (liveTrack_body hs hwf (stamped_body hst)).mpr hlive
      have hshown := (hflat'.shows_eq_some hd).mpr ⟨halive, hlive', hpos, rfl⟩
      rw [← clip_eq h, ho] at hshown
      cases hshown

end

theorem Newest.stamped (hnew : s.Newest base) {delta : List TimelineOperation}
    (hroom : base.lamport.toNat + delta.length < 2 ^ 64) : s.Stamped (tagged base 0 delta) :=
  stamped_tagged hnew (by simpa using hroom)

theorem flat_replay {ops : List TaggedOperation}
    (hops : ∀ o ∈ ops, ¬o.operation.IsSplit ∧ o.tag ≠ .initial) : (Session.new.replay ops).Flat :=
  flat_new.replay hops

/-! ## A delta between views -/

/-- A track with two clips. -/
def mixOps : List TaggedOperation :=
  [.of 1 1 (.insertTrack ⟨1⟩ (.new "t") 0), .of 2 1 (.insertClip ⟨1⟩ ⟨1⟩ (.new "c" 0 1000) 0),
    .of 3 1 (.insertClip ⟨2⟩ ⟨1⟩ (.new "d" 1000 500) 0)]

/-- Another one with a renamed track, one clip moved and another that is not in the first. -/
def remixOps : List TaggedOperation :=
  [.of 1 2 (.insertTrack ⟨1⟩ (.new "u") 0), .of 2 2 (.insertClip ⟨1⟩ ⟨1⟩ (.new "c" 200 1000) 0),
    .of 3 2 (.insertClip ⟨3⟩ ⟨1⟩ (.new "e" 0 100) 0), .of 4 2 (.updateClipMetadata ⟨3⟩
      { muted := some true })]

def mixView : SessionView := (Session.new.replay mixOps).materialize.get (by decide +kernel)

def remixView : SessionView := (Session.new.replay remixOps).materialize.get (by decide +kernel)

theorem mixOps_plain : ∀ o ∈ mixOps, ¬o.operation.IsSplit ∧ o.tag ≠ .initial := by
  simp only [mixOps, List.forall_mem_cons]
  exact ⟨⟨id, by decide⟩, ⟨id, by decide⟩, ⟨id, by decide⟩, by simp⟩

theorem mixOps_eq : (Session.new.replay mixOps).materialize = some mixView :=
  (Option.some_get _).symm

theorem remixView_wellFormed : remixView.WellFormed :=
  materialize_wellFormed (Option.some_get _).symm

/-- In a session without splits, a delta to any well-formed view leads to that view exactly if
`Transfers` holds. -/
theorem materialize_applyDelta_eq_iff {ops : List TaggedOperation}
    (hops : ∀ o ∈ ops, ¬o.operation.IsSplit ∧ o.tag ≠ .initial)
    (hs : (Session.new.replay ops).materialize = some old)
    (hwf : new.WellFormed) (heq : new.eq new = true) (hnew : (Session.new.replay ops).Newest base)
    (hroom : base.lamport.toNat + (computeDelta old new).length < 2 ^ 64) :
    ∃ v, ((Session.new.replay ops).applyDelta (computeDelta old new) base).materialize = some v ∧
      (v.eq new = true ↔ (Session.new.replay ops).Transfers old new) :=
  transfers_iff hs hwf (hnew.stamped hroom) (flat_replay hops) (selfEq_of_eq heq)
    (targeted_replay ops)

/-- The flag of an inserted clip is lost. -/
theorem mixOps_transfer : ∃ v, ((Session.new.replay mixOps).applyDelta
      (computeDelta mixView remixView) ⟨4, ⟨1⟩⟩).materialize = some v ∧
    (v.eq remixView = true ↔ (Session.new.replay mixOps).Transfers mixView remixView) :=
  materialize_applyDelta_eq_iff mixOps_plain mixOps_eq remixView_wellFormed (by decide +kernel)
    (by decide +kernel) (by decide +kernel)

/-- A second delta, from the view the first one led to, leaves behind only what no delta can
transfer. -/
theorem materialize_applyDelta_twice_eq_iff {ops : List TaggedOperation} {base' : OpTag}
    (hops : ∀ o ∈ ops, ¬o.operation.IsSplit ∧ o.tag ≠ .initial)
    (hs : (Session.new.replay ops).materialize = some old)
    (hwf : new.WellFormed) (heq : new.eq new = true) (hnew : (Session.new.replay ops).Newest base)
    (hroom : base.lamport.toNat + (computeDelta old new).length < 2 ^ 64)
    (hv : ((Session.new.replay ops).applyDelta (computeDelta old new) base).materialize = some v)
    (hnew' : ((Session.new.replay ops).applyDelta (computeDelta old new) base).Newest base')
    (hroom' : base'.lamport.toNat + (computeDelta v new).length < 2 ^ 64) :
    ∃ w, (((Session.new.replay ops).applyDelta (computeDelta old new) base).applyDelta
        (computeDelta v new) base').materialize = some w ∧
      (w.eq new = true ↔ (Session.new.replay ops).Transferable old new) := by
  have hst := hnew.stamped hroom
  have hflat := flat_replay hops
  have htarget : ((Session.new.replay ops).applyDelta (computeDelta old new) base).Targeted := by
    rw [applyDelta_eq]
    exact Machine.run_inv (I := Targeted) (fun _ _ _ h => h.exec) (targeted_replay ops)
  obtain ⟨w, hw, hiff⟩ := transfers_iff hv hwf (hnew'.stamped hroom')
    (flat_applyDelta hst hflat hs) (selfEq_of_eq heq) htarget
  exact ⟨w, hw, hiff.trans (transfers_applyDelta_iff hs hwf hst hflat hv)⟩

/-- The second delta mutes the inserted clip. -/
theorem mixOps_transfer_twice : ∃ v w, ((Session.new.replay mixOps).applyDelta
      (computeDelta mixView remixView) ⟨4, ⟨1⟩⟩).materialize = some v ∧
    (((Session.new.replay mixOps).applyDelta (computeDelta mixView remixView) ⟨4, ⟨1⟩⟩).applyDelta
      (computeDelta v remixView) ⟨9, ⟨1⟩⟩).materialize = some w ∧
    (w.eq remixView = true ↔ (Session.new.replay mixOps).Transferable mixView remixView) := by
  have hv := (Option.some_get (x := ((Session.new.replay mixOps).applyDelta
    (computeDelta mixView remixView) ⟨4, ⟨1⟩⟩).materialize) (by decide +kernel)).symm
  have hnew : ((Session.new.replay mixOps).applyDelta (computeDelta mixView remixView)
      ⟨4, ⟨1⟩⟩).Newest ⟨9, ⟨1⟩⟩ := by decide +kernel
  obtain ⟨w, hw, hiff⟩ := materialize_applyDelta_twice_eq_iff mixOps_plain mixOps_eq
    remixView_wellFormed (by decide +kernel) (by decide +kernel) (by decide +kernel) hv hnew
    (by decide +kernel)
  exact ⟨_, w, hv, hw, hiff⟩

end Session

end AvSync
