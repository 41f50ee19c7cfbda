import AvSync.LocalRuns
import AvSync.Proofs.Undone

/-!
# Undoing field updates

An update and its inverse name the same fields, so undoing gives a register its value back. The
value a clip shows may have been inherited, though: written into the clip's register it is news
for the clips below (`undo_update_iff`).
-/

namespace AvSync

namespace LwwReg

variable {α : Type} {r : LwwReg α} {t u : OpTag}

/-- A newer write taken back by a newer one yet. -/
theorem setOption_map (ht : r.tag < t) (hu : t < u) (v : Option α) (w : α) :
    (r.setOption v t).setOption (v.map fun _ => w) u = v.elim r fun _ => ⟨w, u⟩ := by
  rcases v with _ | v
  · rfl
  · exact set_set ht hu v w

theorem setOption_map_cases (ht : r.tag < t) (hu : t < u) (v : Option α) (w : α) :
    (v.isSome → (r.setOption v t).setOption (v.map fun _ => w) u = ⟨w, u⟩) ∧
      (¬v.isSome → (r.setOption v t).setOption (v.map fun _ => w) u = r) := by
  rw [setOption_map ht hu]
  rcases v with _ | v
  · exact ⟨fun h => (Bool.false_ne_true h).elim, fun _ => rfl⟩
  · exact ⟨fun _ => rfl, fun h => absurd rfl h⟩

theorem setOption_map_value (ht : r.tag < t) (hu : t < u) (v : Option α) :
    ((r.setOption v t).setOption (v.map fun _ => r.value) u).value = r.value := by
  rw [setOption_map ht hu]
  rcases v with _ | v <;> rfl

end LwwReg

namespace Session

variable {s s' : Session} {o o' : TaggedOperation} {x : ClipId} {c d : ClipCrdt}
  {above : List ClipCrdt} {v : SessionView}

/-- The inverse of an update of a clip that shows `a`. -/
def inverseUpdate (u : ClipMetadataUpdate) (a : Inherited) : ClipMetadataUpdate where
  name := u.name.map fun _ => a.name
  source := u.source.map fun _ => a.source
  color := u.color.map fun _ => a.color
  gain := u.gain.map fun _ => a.gain
  muted := u.muted.map fun _ => a.muted
  locked := u.locked.map fun _ => a.locked

/-- The record after an update and its inverse: the fields set hold what the clip showed. -/
theorem updated_reg {t t' : OpTag} (hc : ∀ u ∈ c.tags, u < t) (ht : t < t')
    (u : ClipMetadataUpdate) (a : Inherited) (φ : Field) :
    (u.Sets φ → φ.reg ((c.write (TimelineOperation.clipWrite (.updateClipMetadata x u)) t).write
      (TimelineOperation.clipWrite (.updateClipMetadata x (inverseUpdate u a))) t') =
        ⟨φ.get a, t'⟩) ∧
    (¬u.Sets φ → φ.reg ((c.write (TimelineOperation.clipWrite (.updateClipMetadata x u)) t).write
      (TimelineOperation.clipWrite (.updateClipMetadata x (inverseUpdate u a))) t') = φ.reg c) := by
  simp only [ClipCrdt.tags, List.forall_mem_cons] at hc
  obtain ⟨-, -, -, -, h5, h6, h7, h8, h9, h10, -, -⟩ := hc
  rcases φ with _ | _ | _ | _ | _ | _ | _ | _
  · exact LwwReg.setOption_map_cases h5 ht u.name a.name
  · exact LwwReg.setOption_map_cases h6 ht u.source a.source
  · exact LwwReg.setOption_map_cases h7 ht u.color a.color
  · exact LwwReg.setOption_map_cases h8 ht u.gain a.gain
  · exact LwwReg.setOption_map_cases h9 ht u.muted a.muted
  · exact LwwReg.setOption_map_cases h10 ht u.locked a.locked
  · exact ⟨False.elim, fun _ => rfl⟩
  · exact ⟨False.elim, fun _ => rfl⟩

/-! ## Tracks -/

theorem exec_of_editedTrack {x : TrackId} (h : o.operation.editedTrack = some x)
    (hx : x ∈ s.tracks) :
    s.exec o = s.modifyTrack x (·.write o.operation.trackWrite o.tag) := by
  have hone : ∀ r ∈ [RequiredTarget.track x], s.HasTarget r := by
    intro r hr
    rw [List.mem_singleton.mp hr]
    exact hx
  have hs : s.Settled o.operation := by
    rcases hop : o.operation with _ | _ | _ | _ | _ | _ | _ | _ | _ | _ | _ <;>
      rw [hop] at h <;> cases h
    · exact hx
    all_goals exact hone
  rw [hs.exec_eq]
  rcases hop : o.operation with _ | _ | _ | _ | _ | _ | _ | _ | _ | _ | _ <;>
    rw [hop] at h <;> cases h <;> rfl

/-- Two edits of a track that together keep what it shows keep the view. -/
theorem materialize_exec_track {x : TrackId} {r : TrackCrdt} (hv : s.materialize = some v)
    (hx : s.tracks[x]? = some r) (h : o.operation.editedTrack = some x)
    (h' : o'.operation.editedTrack = some x)
    (halive : ((r.write o.operation.trackWrite o.tag).write o'.operation.trackWrite
      o'.tag).alive.value = r.alive.value)
    (hshow : trackView x ((r.write o.operation.trackWrite o.tag).write o'.operation.trackWrite
      o'.tag) = trackView x r) : ((s.exec o).exec o').materialize = some v := by
  have hf := materialize_returns_iff.mp ⟨v, hv⟩
  have hmem : x ∈ s.tracks := BTreeMap.mem_iff.mpr ⟨r, hx⟩
  rw [exec_of_editedTrack h' (by rw [exec_of_editedTrack h hmem]; exact mem_modifyTrack.mpr hmem),
    exec_of_editedTrack h hmem]
  set s' := (s.modifyTrack x (·.write o.operation.trackWrite o.tag)).modifyTrack x
    (·.write o'.operation.trackWrite o'.tag) with hs'
  have htracks : ∀ t, s'.trackShown t = s.trackShown t := by
    intro t
    rw [trackShown, trackShown, hs', tracks_modifyTrack, tracks_modifyTrack]
    split_ifs with ht
    · subst ht
      rw [hx, Option.map_some, Option.map_some, Option.bind_some, Option.bind_some, halive, hshow]
    · rfl
  have hf' : s'.Forest := hf
  refine (materialize_eq_iff hv hf').mpr ⟨rfl, trackViews_congr htracks, rfl, ?_⟩
  exact shows_of_clips_eq hf (fun _ => rfl) (liveTrack_congr htracks)

section

variable (hv : s.materialize = some v) (hnew : s.Newest o.tag) (hlt : o.tag < o'.tag)

include hv hnew hlt

theorem undo_updateTrack {x : TrackId} {u : TrackMetadataUpdate} {r : TrackCrdt}
    (hx : s.tracks[x]? = some r) (ho : o.operation = .updateTrackMetadata x u)
    (ho' : o'.operation = .updateTrackMetadata x {
      name := u.name.map fun _ => r.name.value
      volumeDb := u.volumeDb.map fun _ => r.volumeDb.value
      muted := u.muted.map fun _ => r.muted.value
      solo := u.solo.map fun _ => r.solo.value
      position := u.position.map fun _ => r.orderHint.value }) :
    ((s.exec o).exec o').materialize = some v := by
  have htags := (tagsIn_iff.mpr hnew).tracks x r hx
  simp only [TrackCrdt.tags, List.forall_mem_cons] at htags
  obtain ⟨-, h2, -, h4, h5, h6, h7, -⟩ := htags
  refine materialize_exec_track hv hx (by rw [ho]; rfl) (by rw [ho']; rfl) (by rw [ho, ho']; rfl) ?_
  rw [ho, ho']
  simp only [trackView, TrackCrdt.write, TimelineOperation.trackWrite,
    LwwReg.setOption_map_value h2 hlt, LwwReg.setOption_map_value h4 hlt,
    LwwReg.setOption_map_value h5 hlt, LwwReg.setOption_map_value h6 hlt,
    LwwReg.setOption_map_value h7 hlt]
  rfl

theorem undo_updateSession {u : SessionMetadataUpdate} (ho : o.operation = .updateSessionMetadata u)
    (ho' : o'.operation = computeSessionMetadataInverse u v.metadata) :
    ((s.exec o).exec o').materialize = some v := by
  have hf := materialize_returns_iff.mp ⟨v, hv⟩
  rw [(view_parts hv).1] at ho'
  have htags := (tagsIn_iff.mpr hnew).metadata
  simp only [sessionMetadataTags, List.forall_mem_cons] at htags
  obtain ⟨h1, h2, h3, h4, h5, -⟩ := htags
  refine (materialize_eq_iff hv ?_).mpr ⟨?_, ?_, ?_, ?_⟩
  all_goals rw [exec, exec, ho, ho', computeSessionMetadataInverse]
  · exact hf
  · simp only [apply, metadataView, SessionMetadataState.update,
      LwwReg.setOption_map_value h1 hlt, LwwReg.setOption_map_value h2 hlt,
      LwwReg.setOption_map_value h3 hlt, LwwReg.setOption_map_value h4 hlt,
      LwwReg.setOption_map_value h5 hlt]
  · rfl
  · rfl
  · exact shows_of_clips_eq hf (fun _ => rfl) fun _ => Iff.rfl

theorem undo_updateEnvelope_iff {y : TargetId} {k : EnvelopeType} {p : List EnvelopePoint}
    (ht : s.HasTargets (.updateEnvelope y k p)) (ho : o.operation = .updateEnvelope y k p)
    (ho' : o'.operation = .updateEnvelope y k ((s.envelopes.get y k).getD [])) :
    ((s.exec o).exec o').materialize = some v ↔ (s.envelopes.get y k).isSome := by
  have hf := materialize_returns_iff.mp ⟨v, hv⟩
  have hs : s.Settled o.operation := ho ▸ ht
  have hs' : (s.exec o).Settled o'.operation := by
    rw [ho']
    exact HasTargets.exec (by rcases y with y | y <;> exact ht)
  rw [hs'.exec_eq, hs.exec_eq, ho, ho']
  set s' := (s.setEnvelope y k p o.tag).setEnvelope y k ((s.envelopes.get y k).getD []) o'.tag
    with hs''
  have hf' : s'.Forest := hf
  have hold : ((s.envelopes.envelopes[toLex (y, k)]?.getD (.newInitial [])).set p o.tag).set
      ((s.envelopes.get y k).getD []) o'.tag = ⟨(s.envelopes.get y k).getD [], o'.tag⟩ := by
    refine LwwReg.set_of_lt _ ?_
    have hreg : (s.envelopes.envelopes[toLex (y, k)]?.getD (.newInitial [])).tag < o.tag := by
      rcases hk : s.envelopes.envelopes[toLex (y, k)]? with _ | reg
      · exact lt_of_le_of_ne (OpTag.initial_le _) hnew.ne_initial.symm
      · exact (tagsIn_iff.mpr hnew).envelopes _ reg hk
    rw [LwwReg.set_of_lt _ hreg]
    exact hlt
  have hvals : ∀ κ, (s'.envelopes.envelopes.map fun _ reg => reg.value)[κ]? =
      if toLex (y, k) = κ then some ((s.envelopes.get y k).getD [])
      else (s.envelopes.envelopes.map fun _ reg => reg.value)[κ]? := by
    intro κ
    simp only [hs'', setEnvelope, EnvelopeStore.set, Std.ExtTreeMap.getElem?_map,
      BTreeMap.getElem?_insert_if, if_true, Option.getD_some, hold]
    split_ifs <;> rfl
  have hget : s.envelopes.get y k =
      (s.envelopes.envelopes.map fun _ reg => reg.value)[toLex (y, k)]? := by
    rw [EnvelopeStore.get, Std.ExtTreeMap.getElem?_map]
  change s'.materialize = some v ↔ _
  rw [materialize_eq_iff hv hf']
  constructor
  · intro h
    have := hvals (toLex (y, k))
    rw [if_pos rfl, h.2.2.1, ← hget] at this
    rw [this]
    rfl
  · intro h
    refine ⟨rfl, rfl, ?_, shows_of_clips_eq hf (fun _ => rfl) fun _ => Iff.rfl⟩
    obtain ⟨pts, hpts⟩ := Option.isSome_iff_exists.mp h
    ext1 κ
    rw [hvals]
    split_ifs with hκ
    · rw [← hκ, ← hget, hpts, Option.getD_some]
    · rfl

/-- After an update of a clip and its inverse the view is back exactly when the fields set pass on
what the clip shows. -/
theorem undo_updateClip_iff {u : ClipMetadataUpdate} {r : ResolvedClip}
    (hr : s.resolveClip x = some (some r)) (ho : o.operation = .updateClipMetadata x u)
    (ho' : o'.operation = .updateClipMetadata x (inverseUpdate u r.values)) :
    ((s.exec o).exec o').materialize = some v ↔ ∀ φ, u.Sets φ → s.PassesOn x φ s.Visible := by
  have hf := materialize_returns_iff.mp ⟨v, hv⟩
  obtain ⟨l, hl⟩ := lineage_of_resolveClip hr
  obtain ⟨c, above, hc, rfl⟩ := hl.head
  obtain ⟨a, ha, hra⟩ := hl.resolveClip_eq
  have hvals : r.values = a := by
    obtain rfl := Option.some.inj (Option.some.inj (hra.symm.trans hr))
    rfl
  have h₁ := rewrites_exec (o := o) (by rw [ho]; rfl) hc
  have h := h₁.trans (rewrites_exec (o := o') (by rw [ho']; rfl) h₁.record)
  rw [ho, ho', hvals] at h
  have hreg := updated_reg (x := x) (hnew.clip hc) hlt u a
  set d := (c.write (TimelineOperation.clipWrite (.updateClipMetadata x u)) o.tag).write
    (TimelineOperation.clipWrite (.updateClipMetadata x (inverseUpdate u a))) o'.tag with hd
  have hspan : SameSpan c d := by
    refine ⟨rfl, ?_, fun _ => rfl, fun _ => Iff.rfl⟩
    simp only [hd, ClipCrdt.write, TimelineOperation.clipWrite, Bool.or_false]
  have hne := OpTag.ne_initial_of_lt hlt
  have hset : ∀ φ, u.Sets φ → φ.Written d ∧
      Inheritance.settled φ.Written φ.value (c :: above) = some (φ.value d) := fun φ hφ => by
    have hφd := (hreg φ).1 hφ
    refine ⟨by rw [Field.Written, hφd]; exact hne, ?_⟩
    rw [hl.valuesOf φ, ha, Option.map_some, Field.value, hφd]
  rw [materialize_eq_iff hv (h.forest hc hspan.parent hf), ← h.shows_iff hf hl hspan ⟨rfl, rfl⟩ id
    (fun φ hφ => (hreg φ).2 hφ) hset]
  refine ⟨fun hview => hview.2.2.2, fun hshow => ⟨?_, ?_, ?_, hshow⟩⟩
  · rw [metadataView, metadataView, h.metadata]
  · rw [trackViews, trackViews, h.tracks]
  · rw [h.envelopes]

end

end Session

namespace TimelineCrdt

variable {c : TimelineCrdt} {v : Session.SessionView} {op : TimelineOperation}

/-- Undoing a field update right away gives the view back exactly when the inverse can take back
what the update wrote. -/
theorem undo_update_iff (peer : PeerId) (calls : List Call) (hc : afterCalls peer calls = some c)
    (hv : c.view = some v) (hop : op.IsUpdate) (ht : c.session.HasTargets op)
    (hl : c.lamport.counter.toNat + 2 ≤ u64Max.toNat) :
    (c.applyUndo op).bind view = some v ↔ c.session.TakesBack op := by
  have hb := Bounded.afterCalls hc
  have hf := Session.materialize_returns_iff.mp ⟨v, hv⟩
  rcases op with _ | _ | _ | _ | _ | ⟨x, u⟩ | _ | ⟨x, u⟩ | _ | ⟨y, k, p⟩ | u
  all_goals try exact hop.elim
  · obtain ⟨l, hlin⟩ := hf.lineage (ht (.clip x) List.mem_cons_self)
    obtain ⟨r, hr⟩ := hlin.resolveClip_some
    have hinv : computeInverse (.updateClipMetadata x u) c.session =
        some (some (.updateClipMetadata x (Session.inverseUpdate u r.values))) := by
      rw [computeInverse, hr]
      rfl
    obtain ⟨o₁, o₂, hview, ho₁, ho₂, hnew, hlt⟩ := view_applyUndo hb hl ht hinv
    rw [hview]
    exact Session.undo_updateClip_iff hv hnew hlt hr ho₁ ho₂
  · obtain ⟨r, hr⟩ := BTreeMap.mem_iff.mp (ht (.track x) List.mem_cons_self)
    obtain ⟨o₁, o₂, hview, ho₁, ho₂, hnew, hlt⟩ := view_applyUndo hb hl ht
      (by rw [computeInverse, hr]; rfl)
    rw [hview]
    exact iff_of_true (Session.undo_updateTrack hv hnew hlt hr ho₁ ho₂) trivial
  · obtain ⟨o₁, o₂, hview, ho₁, ho₂, hnew, hlt⟩ := view_applyUndo hb hl ht rfl
    rw [hview]
    exact Session.undo_updateEnvelope_iff hv hnew hlt ht ho₁ ho₂
  · have hinv : computeInverse (.updateSessionMetadata u) c.session =
        some (some (computeSessionMetadataInverse u v.metadata)) := by
      rw [computeInverse, show c.session.materialize = some v from hv]
      rfl
    obtain ⟨o₁, o₂, hview, ho₁, ho₂, hnew, hlt⟩ := view_applyUndo hb hl ht hinv
    rw [hview]
    exact iff_of_true (Session.undo_updateSession hv hnew hlt ho₁ ho₂) trivial

/-- A track and a clip of 1000 frames, split at 400. -/
def splitCalls : List Call :=
  [.applyLocal (.insertTrack ⟨1⟩ (.new "t") 0),
    .applyLocal (.insertClip ⟨1⟩ ⟨1⟩ (.new "c" 0 1000) 0), .applyLocal (.splitClip ⟨1⟩ 400 ⟨2⟩)]

theorem splitCalls_undo_rename : ∃ c v, afterCalls ⟨1⟩ splitCalls = some c ∧ c.view = some v ∧
    ((c.applyUndo (.updateClipMetadata ⟨2⟩ { name := some "d" })).bind view = some v ↔
      c.session.TakesBack (.updateClipMetadata ⟨2⟩ { name := some "d" })) :=
  ⟨_, _, rfl, rfl, undo_update_iff ⟨1⟩ splitCalls rfl rfl trivial (by decide +kernel)
    (by decide +kernel)⟩

/-- The first envelope of a clip leaves an empty envelope behind. -/
theorem splitCalls_undo_envelope : ∃ c v, afterCalls ⟨1⟩ splitCalls = some c ∧ c.view = some v ∧
    c.session.HasTargets (.updateEnvelope (.clip ⟨1⟩) .volume []) ∧
      c.lamport.counter.toNat + 2 ≤ u64Max.toNat ∧
        (c.applyUndo (.updateEnvelope (.clip ⟨1⟩) .volume [])).bind view ≠ some v := by
  refine ⟨_, _, rfl, rfl, by decide +kernel, by decide +kernel, fun h => ?_⟩
  exact absurd (congrArg (Option.map (·.envelopes.size)) h) (by decide +kernel)

end TimelineCrdt

end AvSync
