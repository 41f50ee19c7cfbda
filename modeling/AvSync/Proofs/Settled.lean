import AvSync.Proofs.Apply

/-!
# Targets and settled writes

An operation whose targets are there applies, and one that fails creates nothing; entities stay.
A settled write commutes with whatever another operation does (`Settled.exec_comm`), so a replay
may leave it to the end (`Settled.replay_last`).
-/

namespace AvSync

namespace Session

variable {s : Session} {op : TimelineOperation} {t : OpTag}

/-! ## Targets -/

theorem succeeds_clipReply {x : ClipId} : s.clipReply x = .ok () ↔ x ∈ s.clips := by
  unfold clipReply
  split_ifs with h <;> simp [h]

theorem succeeds_trackReply {x : TrackId} : s.trackReply x = .ok () ↔ x ∈ s.tracks := by
  unfold trackReply
  split_ifs with h <;> simp [h]

theorem ok_of_hasTargets (h : s.HasTargets op) : (s.apply op t).1 = .ok () := by
  rcases op with ⟨x, r, d, p⟩ | _ | _ | ⟨c, f, n⟩ | _ | _ | ⟨x, d, p⟩ | _ | _ | ⟨x | x, _, _⟩ | _
  · by_cases hx : x ∈ s.clips
    · rw [apply_insertClip_of_mem hx]
    · rw [apply_insertClip_of_not_mem hx]
  · simp only [apply, applyToClip_eq, succeeds_clipReply]
    exact h _ List.mem_cons_self
  · simp only [apply, applyToClip_eq, succeeds_clipReply]
    exact h _ List.mem_cons_self
  · have hc : c ∈ s.clips := h _ List.mem_cons_self
    have hstep := applySplit_step s c f n t
    simp only [apply]
    generalize s.applySplit c f n t = r at hstep ⊢
    rcases hstep with _ | _ | ⟨-, -, hc'⟩ | _ | _ | _
    · rfl
    · rfl
    · exact absurd hc hc'
    · rfl
    · exact succeeds_clipReply.mpr hc
    · exact succeeds_clipReply.mpr hc
  · simp only [apply, applyToClip_eq, succeeds_clipReply]
    exact h _ List.mem_cons_self
  · simp only [apply, applyToClip_eq, succeeds_clipReply]
    exact h _ List.mem_cons_self
  · by_cases hx : x ∈ s.tracks
    · rw [apply_insertTrack_of_mem hx]
    · rw [apply_insertTrack_of_not_mem hx]
  · simp only [apply, applyToTrack_eq, succeeds_trackReply]
    exact h _ List.mem_cons_self
  · simp only [apply, applyToTrack_eq, succeeds_trackReply]
    exact h _ List.mem_cons_self
  · have hx : x ∈ s.clips := h (.clip x) List.mem_cons_self
    simp only [apply, missingEnvelopeTarget, hx, if_true]
  · have hx : x ∈ s.tracks := h (.track x) List.mem_cons_self
    simp only [apply, missingEnvelopeTarget, hx, if_true]
  · rfl

/-- An operation other than a split that misses a target fails and changes nothing. -/
theorem apply_of_missing (hns : ¬op.IsSplit) (h : ¬s.HasTargets op) :
    ∃ err, s.apply op t = (.error err, s) := by
  have hclip : ∀ x, (s.HasTargets op ↔ x ∈ s.clips) → s.apply op t = s.applyToClip x op t →
      ∃ err, s.apply op t = (.error err, s) := by
    intro x hx ha
    have hx := mt hx.mpr h
    exact ⟨_, by rw [ha, applyToClip_eq, modifyClip_of_not_mem hx, clipReply, if_neg hx]⟩
  have htrack : ∀ x, (s.HasTargets op ↔ x ∈ s.tracks) → s.apply op t = s.applyToTrack x op t →
      ∃ err, s.apply op t = (.error err, s) := by
    intro x hx ha
    have hx := mt hx.mpr h
    exact ⟨_, by rw [ha, applyToTrack_eq, modifyTrack_of_not_mem hx, trackReply, if_neg hx]⟩
  have hone : ∀ r, (∀ r' ∈ [r], s.HasTarget r') ↔ s.HasTarget r := by simp
  rcases op with _ | x | x | _ | x | x | _ | x | x | ⟨x | x, _, _⟩ | _
  case splitClip => exact absurd trivial hns
  case insertClip | insertTrack | updateSessionMetadata =>
    exact absurd (fun r hr => absurd hr List.not_mem_nil) h
  case moveClip | deleteClip | trimClip | updateClipMetadata => exact hclip x (hone (.clip x)) rfl
  case updateTrackMetadata | deleteTrack => exact htrack x (hone (.track x)) rfl
  case updateEnvelope.clip =>
    have hx : x ∉ s.clips := mt (hone (.clip x)).mpr h
    exact ⟨unknownClip x, by simp only [apply, missingEnvelopeTarget, hx, if_false]⟩
  case updateEnvelope.track =>
    have hx : x ∉ s.tracks := mt (hone (.track x)).mpr h
    exact ⟨unknownTrack x, by simp only [apply, missingEnvelopeTarget, hx, if_false]⟩

/-- What applying an operation leaves behind: what was there, and what it creates. -/
theorem hasTarget_apply {r : RequiredTarget} :
    (s.apply op t).2.HasTarget r ↔ s.HasTarget r ∨ s.Creates op r := by
  rcases op with ⟨x, _, _, _⟩ | _ | _ | ⟨c, f, n⟩ | _ | _ | ⟨x, _, _⟩ | _ | _ | ⟨x, _, _⟩ | _ <;>
    rcases r with y | y <;> simp only [HasTarget, Creates, or_false]
  · by_cases hx : x ∈ s.clips
    · rw [apply_insertClip_of_mem hx, mem_modifyClip]
      exact ⟨Or.inl, fun h => h.elim id fun e => e ▸ hx⟩
    · rw [apply_insertClip_of_not_mem hx, mem_setClip, or_comm]
  · by_cases hx : x ∈ s.clips
    · rw [apply_insertClip_of_mem hx, modifyClip_tracks]
    · rw [apply_insertClip_of_not_mem hx, setClip_tracks]
  · simp only [apply, applyToClip_eq, mem_modifyClip]
  · simp only [apply, applyToClip_eq, modifyClip_tracks]
  · simp only [apply, applyToClip_eq, mem_modifyClip]
  · simp only [apply, applyToClip_eq, modifyClip_tracks]
  · have hstep := applySplit_step s c f n t
    simp only [apply]
    generalize s.applySplit c f n t = r at hstep ⊢
    rcases hstep with h | ⟨-, hn, -, -⟩ | ⟨-, -, hc⟩ | ⟨-, -, hc⟩ | ⟨-, hn, -⟩ | ⟨-, hn, -, -⟩
    · subst h
      exact ⟨Or.inl, fun h => h.elim id fun h => h.1 ▸ h.2⟩
    · have hn := BTreeMap.mem_iff.mpr ⟨_, hn⟩
      exact ⟨Or.inl, fun h => h.elim id fun h => h.1 ▸ hn⟩
    · exact ⟨Or.inl, fun h => h.elim id fun h => absurd h.2 hc⟩
    · simp only [mem_setClip, mem_modifyClip, hc, and_true, or_comm]
    · have hn := BTreeMap.mem_iff.mpr ⟨_, hn⟩
      simp only [mem_modifyClip]
      exact ⟨Or.inl, fun h => h.elim id fun h => h.1 ▸ hn⟩
    · have hn := BTreeMap.mem_iff.mpr ⟨_, hn⟩
      simp only [mem_modifyClip]
      exact ⟨Or.inl, fun h => h.elim id fun h => h.1 ▸ hn⟩
  · have hstep := applySplit_step s c f n t
    simp only [apply]
    generalize s.applySplit c f n t = r at hstep ⊢
    rcases hstep with _ | _ | _ | _ | _ | _ <;>
      simp only [setClip_tracks, modifyClip_tracks]
  · simp only [apply, applyToClip_eq, mem_modifyClip]
  · simp only [apply, applyToClip_eq, modifyClip_tracks]
  · simp only [apply, applyToClip_eq, mem_modifyClip]
  · simp only [apply, applyToClip_eq, modifyClip_tracks]
  · by_cases hx : x ∈ s.tracks
    · rw [apply_insertTrack_of_mem hx]
      rfl
    · rw [apply_insertTrack_of_not_mem hx]
      rfl
  · by_cases hx : x ∈ s.tracks
    · rw [apply_insertTrack_of_mem hx, mem_modifyTrack]
      exact ⟨Or.inl, fun h => h.elim id fun e => e ▸ hx⟩
    · rw [apply_insertTrack_of_not_mem hx, mem_setTrack, or_comm]
  · simp only [apply, applyToTrack_eq]
    rfl
  · simp only [apply, applyToTrack_eq, mem_modifyTrack]
  · simp only [apply, applyToTrack_eq]
    rfl
  · simp only [apply, applyToTrack_eq, mem_modifyTrack]
  · simp only [apply]
    rcases s.missingEnvelopeTarget x <;> rfl
  · simp only [apply]
    rcases s.missingEnvelopeTarget x <;> rfl
  · rfl
  · rfl

theorem Creates.hasTargets {r : RequiredTarget} (h : s.Creates op r) : s.HasTargets op := by
  rcases op with _ | _ | _ | _ | _ | _ | _ | _ | _ | _ | _ <;> rcases r with y | y <;>
    simp only [Creates] at h <;>
    simp [HasTargets, TimelineOperation.requiredTargets, HasTarget, h]

variable {o b : TaggedOperation} {r : RequiredTarget}

theorem succeeds_of_hasTargets (h : s.HasTargets o.operation) : s.Succeeds o :=
  ok_of_hasTargets h

theorem hasTarget_exec : (s.exec o).HasTarget r ↔ s.HasTarget r ∨ s.Creates o.operation r :=
  hasTarget_apply

/-- An operation that fails misses a target. -/
theorem misses_of_fails (h : ¬s.Succeeds o) : s.Misses o.operation := by
  refine ⟨fun ht => h (succeeds_of_hasTargets ht), fun c f hop => h ?_⟩
  rw [Succeeds, hop]
  exact congrArg Prod.fst (if_pos rfl : s.applySplit c f c o.tag = _)

theorem HasTarget.exec (h : s.HasTarget r) : (s.exec o).HasTarget r := hasTarget_exec.mpr (.inl h)

theorem HasTarget.replay {l : List TaggedOperation} (h : s.HasTarget r) :
    (s.replay l).HasTarget r :=
  Machine.run_inv (I := fun s : Session => s.HasTarget r) (fun _ _ _ h => HasTarget.exec h) h

theorem HasTargets.exec (h : s.HasTargets op) : (s.exec o).HasTargets op :=
  fun r hr => (h r hr).exec

theorem hasTarget_exec_of_fails (h : ¬s.Succeeds o) : (s.exec o).HasTarget r ↔ s.HasTarget r := by
  rw [hasTarget_exec]
  exact ⟨fun hr => hr.elim id fun hc => absurd (succeeds_of_hasTargets hc.hasTargets) h, Or.inl⟩

theorem hasTargets_exec_of_fails (h : ¬s.Succeeds o) :
    (s.exec o).HasTargets op ↔ s.HasTargets op :=
  forall₂_congr fun _ _ => hasTarget_exec_of_fails h

theorem misses_exec_of_fails (h : ¬s.Succeeds o) : (s.exec o).Misses op ↔ s.Misses op :=
  and_congr_left' (not_congr (hasTargets_exec_of_fails h))

/-! ## Record by record -/

/-- What an operation that is not a split does to the record of its clip. -/
def clipStep (o : TaggedOperation) (v : Option ClipCrdt) : Option ClipCrdt :=
  match o.operation with
  | .insertClip _ r d p =>
    some (v.elim (.fromInsert r d p o.tag) (·.write o.operation.clipWrite o.tag))
  | _ => v.map (·.write o.operation.clipWrite o.tag)

/-- What an operation does to the record of its track. -/
def trackStep (o : TaggedOperation) (v : Option TrackCrdt) : Option TrackCrdt :=
  match o.operation with
  | .insertTrack _ d p =>
    some (v.elim (.fromInsert d p o.tag) (·.write o.operation.trackWrite o.tag))
  | _ => v.map (·.write o.operation.trackWrite o.tag)

theorem clipStep_some (o : TaggedOperation) (c : ClipCrdt) :
    clipStep o (some c) = some (c.write o.operation.clipWrite o.tag) := by
  unfold clipStep
  split <;> rfl

theorem trackStep_some (o : TaggedOperation) (r : TrackCrdt) :
    trackStep o (some r) = some (r.write o.operation.trackWrite o.tag) := by
  unfold trackStep
  split <;> rfl

theorem modifyClip_apply {x : ClipId} (h : ¬op.IsSplit) :
    s.modifyClip x (·.apply op t) = s.modifyClip x (·.write op.clipWrite t) :=
  congrArg _ (funext fun c => ClipCrdt.apply_eq_write h c t)

theorem modifyTrack_apply {x : TrackId} :
    s.modifyTrack x (·.apply op t) = s.modifyTrack x (·.write op.trackWrite t) :=
  congrArg _ (funext fun r => TrackCrdt.apply_eq_write r op t)

theorem clips_exec (h : ¬o.operation.IsSplit) (y : ClipId) :
    (s.exec o).clips[y]? =
      if o.operation.editedClip = some y then clipStep o s.clips[y]? else s.clips[y]? := by
  rcases hop : o.operation with ⟨x, r, d, p⟩ | x | x | _ | x | x | ⟨x, d, p⟩ | x | x | ⟨x, _, _⟩ | _
  case insertClip =>
    simp only [TimelineOperation.editedClip, Option.some.injEq, clipStep, hop, exec]
    by_cases hx : x ∈ s.clips
    · rw [apply_insertClip_of_mem hx, modifyClip_apply id, clips_modifyClip]
      obtain ⟨c, hc⟩ := BTreeMap.mem_iff.mp hx
      split_ifs with hxy
      · rw [← hxy, hc]
        rfl
      · rfl
    · rw [apply_insertClip_of_not_mem hx, clips_setClip]
      split_ifs with hxy
      · rw [← hxy, BTreeMap.not_mem_iff.mp hx]
        rfl
      · rfl
  case moveClip | deleteClip | trimClip | updateClipMetadata =>
    simp only [TimelineOperation.editedClip, Option.some.injEq, clipStep, hop, exec, apply,
      applyToClip_eq]
    rw [modifyClip_apply id, clips_modifyClip]
  case splitClip => exact absurd (by rw [hop]; trivial) h
  case insertTrack =>
    simp only [TimelineOperation.editedClip, exec, hop, reduceCtorEq, if_false]
    by_cases hx : x ∈ s.tracks
    · rw [apply_insertTrack_of_mem hx]
      rfl
    · rw [apply_insertTrack_of_not_mem hx]
      rfl
  case updateTrackMetadata | deleteTrack =>
    simp only [TimelineOperation.editedClip, exec, hop, apply, applyToTrack_eq]
    rfl
  case updateEnvelope =>
    simp only [TimelineOperation.editedClip, exec, hop, apply]
    rcases s.missingEnvelopeTarget x <;> rfl
  case updateSessionMetadata =>
    simp only [TimelineOperation.editedClip, exec, hop, apply]
    rfl

/-- What an operation that is not a split leaves of a record: the record as it was or as it is
written, or the one an insert creates. -/
theorem clip_exec_of_not_split (h : ¬o.operation.IsSplit) {y : ClipId} {d : ClipCrdt}
    (hy : (s.exec o).clips[y]? = some d) :
    (∃ e, s.clips[y]? = some e ∧ (d = e ∨
      o.operation.editedClip = some y ∧ d = e.write o.operation.clipWrite o.tag)) ∨
    s.clips[y]? = none ∧ ∃ r a p, o.operation = .insertClip y r a p ∧
      d = .fromInsert r a p o.tag := by
  rw [clips_exec h] at hy
  split_ifs at hy with hx
  · rcases hv : s.clips[y]? with _ | e
    · rw [hv] at hy
      unfold clipStep at hy
      split at hy
      · rename_i r a p hop
        rw [hop, TimelineOperation.editedClip, Option.some.injEq] at hx
        exact .inr ⟨rfl, r, a, p, hx ▸ hop, (Option.some.inj hy).symm⟩
      · cases hy
    · rw [hv, clipStep_some] at hy
      exact .inl ⟨e, rfl, .inr ⟨hx, (Option.some.inj hy).symm⟩⟩
  · exact .inl ⟨d, hy, .inl rfl⟩

theorem tracks_exec (s : Session) (o : TaggedOperation) (y : TrackId) :
    (s.exec o).tracks[y]? =
      if o.operation.editedTrack = some y then trackStep o s.tracks[y]? else s.tracks[y]? := by
  rcases hop : o.operation with ⟨x, r, d, p⟩ | x | x | ⟨c, f, n⟩ | x | x | ⟨x, d, p⟩ | x | x |
    ⟨x, _, _⟩ | _
  case insertClip =>
    simp only [TimelineOperation.editedTrack, exec, hop, reduceCtorEq, if_false]
    by_cases hx : x ∈ s.clips
    · rw [apply_insertClip_of_mem hx, modifyClip_tracks]
    · rw [apply_insertClip_of_not_mem hx, setClip_tracks]
  case moveClip | deleteClip | trimClip | updateClipMetadata =>
    simp only [TimelineOperation.editedTrack, exec, hop, apply, applyToClip_eq]
    rfl
  case splitClip =>
    simp only [TimelineOperation.editedTrack, exec, hop, apply, reduceCtorEq, if_false]
    have hstep := applySplit_step s c f n o.tag
    generalize s.applySplit c f n o.tag = r at hstep ⊢
    rcases hstep with _ | _ | _ | _ | _ | _ <;>
      simp only [setClip_tracks, modifyClip_tracks]
  case insertTrack =>
    simp only [TimelineOperation.editedTrack, Option.some.injEq, trackStep, hop, exec]
    by_cases hx : x ∈ s.tracks
    · rw [apply_insertTrack_of_mem hx, modifyTrack_apply, tracks_modifyTrack]
      obtain ⟨c, hc⟩ := BTreeMap.mem_iff.mp hx
      split_ifs with hxy
      · rw [← hxy, hc]
        rfl
      · rfl
    · rw [apply_insertTrack_of_not_mem hx, tracks_setTrack]
      split_ifs with hxy
      · rw [← hxy, BTreeMap.not_mem_iff.mp hx]
        rfl
      · rfl
  case updateTrackMetadata | deleteTrack =>
    simp only [TimelineOperation.editedTrack, Option.some.injEq, trackStep, hop, exec, apply,
      applyToTrack_eq]
    rw [modifyTrack_apply, tracks_modifyTrack]
  case updateEnvelope =>
    simp only [TimelineOperation.editedTrack, exec, hop, apply]
    rcases s.missingEnvelopeTarget x <;> rfl
  case updateSessionMetadata =>
    simp only [TimelineOperation.editedTrack, exec, hop, apply]
    rfl

/-! ## Settled writes -/

/-- The register write of a settled operation. -/
def writeOp (s : Session) (op : TimelineOperation) (u : OpTag) : Session :=
  match op with
  | .insertClip x .. | .moveClip x .. | .deleteClip x | .trimClip x .. |
    .updateClipMetadata x _ => s.modifyClip x (·.write op.clipWrite u)
  | .insertTrack x .. | .updateTrackMetadata x _ | .deleteTrack x =>
    s.modifyTrack x (·.write op.trackWrite u)
  | .updateEnvelope y k p => s.setEnvelope y k p u
  | .updateSessionMetadata v => s.updateMetadata v u
  | .splitClip .. => s

theorem Settled.hasTargets (h : s.Settled op) : s.HasTargets op := by
  rcases op with _ | _ | _ | _ | _ | _ | _ | _ | _ | _ | _
  case insertClip => exact fun _ hr => absurd hr List.not_mem_nil
  case insertTrack => exact fun _ hr => absurd hr List.not_mem_nil
  case splitClip => exact h.elim
  all_goals exact h

theorem Settled.apply_eq {u : OpTag} (h : s.Settled op) :
    s.apply op u = (.ok (), s.writeOp op u) := by
  have hok : (s.apply op u).1 = .ok () := ok_of_hasTargets h.hasTargets
  refine Prod.ext hok ?_
  rcases op with _ | _ | _ | _ | _ | _ | _ | _ | _ | ⟨y, _, _⟩ | _
  · rw [apply_insertClip_of_mem h]
    exact modifyClip_apply id
  · simp only [apply, applyToClip_eq]
    exact modifyClip_apply id
  · simp only [apply, applyToClip_eq]
    exact modifyClip_apply id
  · exact h.elim
  · simp only [apply, applyToClip_eq]
    exact modifyClip_apply id
  · simp only [apply, applyToClip_eq]
    exact modifyClip_apply id
  · rw [apply_insertTrack_of_mem h]
    exact modifyTrack_apply
  · simp only [apply, applyToTrack_eq]
    exact modifyTrack_apply
  · simp only [apply, applyToTrack_eq]
    exact modifyTrack_apply
  · have : s.missingEnvelopeTarget y = none := by
      rcases y with x | x
      · exact if_pos (h (.clip x) List.mem_cons_self)
      · exact if_pos (h (.track x) List.mem_cons_self)
    simp only [apply, this]
    rfl
  · rfl

/-- A settled write commutes with every operation of another tag. -/
theorem Settled.apply_writeOp {u : OpTag} (h : s.Settled op) (hu : u ≠ t)
    (op' : TimelineOperation) :
    (s.writeOp op u).apply op' t = (s.apply op' t).map id (·.writeOp op u) := by
  rcases op with _ | _ | _ | _ | _ | _ | _ | _ | _ | ⟨y, _, _⟩ | _
  case insertClip => exact apply_modifyClip h hu op'
  case moveClip => exact apply_modifyClip (h _ List.mem_cons_self) hu op'
  case deleteClip => exact apply_modifyClip (h _ List.mem_cons_self) hu op'
  case splitClip => exact h.elim
  case trimClip => exact apply_modifyClip (h _ List.mem_cons_self) hu op'
  case updateClipMetadata => exact apply_modifyClip (h _ List.mem_cons_self) hu op'
  case insertTrack => exact apply_modifyTrack h hu op'
  case updateTrackMetadata => exact apply_modifyTrack (h _ List.mem_cons_self) hu op'
  case deleteTrack => exact apply_modifyTrack (h _ List.mem_cons_self) hu op'
  case updateEnvelope => exact apply_setEnvelope hu op'
  case updateSessionMetadata => exact apply_updateMetadata hu op'

theorem Settled.exec (h : s.Settled op) : (s.exec b).Settled op := by
  rcases op with x | _ | _ | _ | _ | _ | x | _ | _ | _ | _
  case insertClip => exact HasTarget.exec (r := .clip x) h
  case insertTrack => exact HasTarget.exec (r := .track x) h
  case splitClip => exact h.elim
  all_goals exact HasTargets.exec h

theorem Settled.replay {l : List TaggedOperation} (h : s.Settled op) : (s.replay l).Settled op :=
  Machine.run_inv (I := fun s : Session => s.Settled op) (fun _ _ _ h => Settled.exec h) h

theorem Settled.exec_eq (h : s.Settled o.operation) : s.exec o = s.writeOp o.operation o.tag := by
  rw [Session.exec, h.apply_eq]

/-- What an attempt can do: a settled write, a new record, a split, or nothing. -/
inductive ExecStep (s : Session) (o : TaggedOperation) : Session → Prop
  | settled : s.Settled o.operation → ExecStep s o (s.writeOp o.operation o.tag)
  | insertClip {x r d p} : o.operation = .insertClip x r d p → x ∉ s.clips →
      ExecStep s o (s.setClip x (.fromInsert r d p o.tag))
  | insertTrack {x d p} : o.operation = .insertTrack x d p → x ∉ s.tracks →
      ExecStep s o (s.setTrack x (.fromInsert d p o.tag))
  | split {c f n} : o.operation = .splitClip c f n → ExecStep s o (s.applySplit c f n o.tag).2
  | missing : ¬o.operation.IsSplit → ¬s.Succeeds o → ExecStep s o s

theorem exec_step (s : Session) (o : TaggedOperation) : ExecStep s o (s.exec o) := by
  by_cases h : s.Settled o.operation
  · exact h.exec_eq ▸ .settled h
  by_cases ht : s.HasTargets o.operation
  · rcases hop : o.operation with x | _ | _ | ⟨c, f, n⟩ | _ | _ | x | _ | _ | _ | _
    case insertClip r d p =>
      have hx : x ∉ s.clips := by rwa [hop] at h
      have he : s.exec o = s.setClip x (.fromInsert r d p o.tag) := by
        rw [Session.exec, hop, apply_insertClip_of_not_mem hx]
      exact he ▸ .insertClip hop hx
    case splitClip =>
      have he : s.exec o = (s.applySplit c f n o.tag).2 := by
        rw [Session.exec, hop]
        rfl
      exact he ▸ .split hop
    case insertTrack d p =>
      have hx : x ∉ s.tracks := by rwa [hop] at h
      have he : s.exec o = s.setTrack x (.fromInsert d p o.tag) := by
        rw [Session.exec, hop, apply_insertTrack_of_not_mem hx]
      exact he ▸ .insertTrack hop hx
    all_goals
      rw [hop] at h ht
      exact absurd ht h
  · by_cases hs : o.operation.IsSplit
    · obtain ⟨c, f, n, hop⟩ := TimelineOperation.isSplit_iff.mp hs
      have he : s.exec o = (s.applySplit c f n o.tag).2 := by
        rw [Session.exec, hop]
        rfl
      exact he ▸ .split hop
    · obtain ⟨err, ha⟩ := apply_of_missing (t := o.tag) hs ht
      have he : s.exec o = s := by rw [Session.exec, ha]
      exact he.symm ▸ .missing hs (by rw [Succeeds, ha]; simp)

theorem Settled.exec_comm (h : s.Settled o.operation) (ht : o.tag ≠ b.tag) :
    (s.exec o).exec b = (s.exec b).exec o := by
  rw [h.exec_eq, (h.exec (b := b)).exec_eq, Session.exec, h.apply_writeOp ht]
  rfl

theorem Settled.succeeds_exec (h : s.Settled o.operation) (ht : o.tag ≠ b.tag) :
    (s.exec o).Succeeds b ↔ s.Succeeds b := by
  rw [h.exec_eq, Succeeds, h.apply_writeOp ht]
  rfl

/-- A replay may leave a settled write to the end. -/
theorem Settled.replay_last :
    ∀ {l : List TaggedOperation} {s : Session}, s.Settled o.operation →
      (∀ b ∈ l, o.tag ≠ b.tag) → (s.exec o).replay l = (s.replay l).exec o
  | [], _, _, _ => rfl
  | b :: l, s, h, ht => by
    have hb := ht b List.mem_cons_self
    calc ((s.exec o).exec b).replay l = ((s.exec b).exec o).replay l := by rw [h.exec_comm hb]
      _ = ((s.exec b).replay l).exec o :=
        replay_last h.exec fun b' hb' => ht b' (List.mem_cons_of_mem b hb')

/-- Leaving out a settled write, the operations after it apply as before. -/
theorem Settled.applies_iff :
    ∀ {l : List TaggedOperation} {s : Session}, s.Settled o.operation →
      (∀ b ∈ l, o.tag ≠ b.tag) → ((s.exec o).Applies l ↔ s.Applies l)
  | [], _, _, _ => Iff.rfl
  | b :: l, s, h, ht => by
    have hb := ht b List.mem_cons_self
    refine and_congr (h.succeeds_exec hb) ?_
    change ((s.exec o).exec b).Applies l ↔ (s.exec b).Applies l
    rw [h.exec_comm hb]
    exact applies_iff h.exec fun b' hb' => ht b' (List.mem_cons_of_mem b hb')

end Session

end AvSync
