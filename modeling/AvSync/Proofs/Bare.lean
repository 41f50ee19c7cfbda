import AvSync.Proofs.Alike
import AvSync.Proofs.Fresh

/-!
# What splits do not decide

A bare session leaves out the liveness of its clips, their links and claims, and the split points.
To a bare session a split adds the child, if the child is not there and the parent is, and nothing
else; so the attempts of a delivery commute on it (`bare_confluent`), and two deliveries end in
one bare session (`replay_bare_eq`).
-/

namespace AvSync

namespace ClipCrdt

/-- The record without its liveness, its link and claim, and its split points. -/
def bare (c : ClipCrdt) : ClipCrdt :=
  { c with parent := none, alive := .newInitial true, splits := ∅, originClaim := none }

theorem bare_recordSplit (c : ClipCrdt) (f : UInt64) (n : ClipId) :
    (c.recordSplit f n).bare = c.bare := by
  rw [recordSplit_eq]
  rfl

theorem bare_dropSplit (c : ClipCrdt) (f : UInt64) (n : ClipId) :
    (c.dropSplit f n).bare = c.bare := by
  unfold dropSplit
  split_ifs <;> rfl

/-- Records that agree on what splits decide, and bare, look alike. -/
theorem shown_eq_of_bare {c d : ClipCrdt} (h : c.bare = d.bare) (hp : c.parent = d.parent)
    (ha : c.alive.value = d.alive.value) (hs : c.splits = d.splits) : c.shown = d.shown := by
  rcases c with ⟨⟩
  rcases d with ⟨⟩
  simp only [bare, ClipCrdt.mk.injEq, true_and, and_true] at h
  simp only at hp ha hs
  obtain ⟨h1, h2, h3, h4, h5, h6, h7, h8, h9, h10, hd⟩ := h
  simp only [shown, h1, h2, h3, h4, h5, h6, h7, h8, h9, h10, hd, hp, ha, hs]

end ClipCrdt

namespace Session

variable {s : Session} {o b : TaggedOperation} {ops : List TaggedOperation} {x y : ClipId}

/-- The session with bare clips. -/
def bare (s : Session) : Session := { s with clips := s.clips.map fun _ c => c.bare }

theorem clips_bare (s : Session) (y : ClipId) : s.bare.clips[y]? = s.clips[y]?.map (·.bare) :=
  Std.ExtTreeMap.getElem?_map

@[simp] theorem mem_bare : y ∈ s.bare.clips ↔ y ∈ s.clips := Std.ExtTreeMap.mem_map

@[simp] theorem hasTarget_bare {r : RequiredTarget} : s.bare.HasTarget r ↔ s.HasTarget r := by
  rcases r with y | y
  · exact mem_bare
  · exact Iff.rfl

theorem hasTargets_bare {op : TimelineOperation} : s.bare.HasTargets op ↔ s.HasTargets op :=
  forall₂_congr fun _ _ => hasTarget_bare

/-! ## One attempt -/

theorem metadata_exec_eq (s : Session) (o : TaggedOperation) :
    (s.exec o).metadata = match o.operation with
      | .updateSessionMetadata u => s.metadata.update u o.tag
      | _ => s.metadata := by
  unfold exec
  rcases o.operation with ⟨x, _, _, _⟩ | _ | _ | ⟨c, f, n⟩ | _ | _ | ⟨x, _, _⟩ | _ | _ |
    ⟨y, _, _⟩ | _
  case insertClip =>
    simp only [apply]
    split <;> rfl
  case splitClip =>
    have hstep := applySplit_step s c f n o.tag
    simp only [apply]
    generalize s.applySplit c f n o.tag = r at hstep ⊢
    rcases hstep with _ | _ | _ | _ | _ | _ <;> rfl
  case insertTrack =>
    simp only [apply]
    split <;> rfl
  case updateEnvelope =>
    simp only [apply]
    split <;> rfl
  case moveClip | deleteClip | trimClip | updateClipMetadata =>
    simp only [apply, applyToClip_eq]
    rfl
  case updateTrackMetadata | deleteTrack =>
    simp only [apply, applyToTrack_eq]
    rfl
  case updateSessionMetadata => rfl

theorem envelopes_exec_eq (s : Session) (o : TaggedOperation) :
    (s.exec o).envelopes = match o.operation with
      | .updateEnvelope y k points =>
        (s.missingEnvelopeTarget y).elim (s.envelopes.set y k points o.tag) fun _ => s.envelopes
      | _ => s.envelopes := by
  unfold exec
  rcases o.operation with ⟨x, _, _, _⟩ | _ | _ | ⟨c, f, n⟩ | _ | _ | ⟨x, _, _⟩ | _ | _ |
    ⟨y, _, _⟩ | _
  case insertClip =>
    simp only [apply]
    split <;> rfl
  case splitClip =>
    have hstep := applySplit_step s c f n o.tag
    simp only [apply]
    generalize s.applySplit c f n o.tag = r at hstep ⊢
    rcases hstep with _ | _ | _ | _ | _ | _ <;> rfl
  case insertTrack =>
    simp only [apply]
    split <;> rfl
  case updateEnvelope =>
    simp only [apply]
    rcases s.missingEnvelopeTarget y <;> rfl
  case moveClip | deleteClip | trimClip | updateClipMetadata =>
    simp only [apply, applyToClip_eq]
    rfl
  case updateTrackMetadata | deleteTrack =>
    simp only [apply, applyToTrack_eq]
    rfl
  case updateSessionMetadata => rfl

theorem missingEnvelopeTarget_bare (y : TargetId) :
    s.bare.missingEnvelopeTarget y = s.missingEnvelopeTarget y := by
  rcases y with y | y
  · simp only [missingEnvelopeTarget, mem_bare]
  · rfl

/-- A change that a bare record does not show. -/
theorem bare_modifyClip {φ : ClipCrdt → ClipCrdt} (h : ∀ c, (φ c).bare = c.bare) (y : ClipId) :
    (s.modifyClip x φ).clips[y]?.map (·.bare) = s.clips[y]?.map (·.bare) := by
  rw [clips_modifyClip]
  split_ifs
  · rw [Option.map_map]
    exact congrArg (Option.map · s.clips[y]?) (funext h)
  · rfl

/-- To bare clips a split adds its child, if the child is not there and the parent is. -/
theorem bare_exec_split {c f n} (hop : o.operation = .splitClip c f n) (y : ClipId) :
    (s.exec o).clips[y]?.map (·.bare) =
      if n = y ∧ n ∉ s.clips ∧ c ∈ s.clips then some (.fromSplit .initial)
      else s.clips[y]?.map (·.bare) := by
  have hrec : ∀ d : ClipCrdt, (d.recordSplit f n).bare = d.bare :=
    fun d => d.bare_recordSplit f n
  have hrev : ∀ d : ClipCrdt, (d.revive o.tag).bare = d.bare := fun _ => rfl
  have hlink : ∀ d : ClipCrdt, (d.link ⟨c, f⟩).bare = d.bare := fun _ => rfl
  simp only [exec, hop, apply]
  have hstep := applySplit_step s c f n o.tag
  generalize s.applySplit c f n o.tag = r at hstep ⊢
  rcases hstep with h | ⟨-, hn, -, -⟩ | ⟨-, -, hc⟩ | ⟨-, hn, hc⟩ | ⟨-, hn, -⟩ | ⟨-, hn, -, -⟩
  · rw [if_neg fun hy => hy.2.1 (h ▸ hy.2.2)]
  · rw [if_neg fun hy => hy.2.1 (BTreeMap.mem_iff.mpr ⟨_, hn⟩)]
  · rw [if_neg fun hy => hc hy.2.2]
  · simp only [hn, hc, not_false_eq_true, and_true, clips_setClip]
    split_ifs with hy
    · rfl
    · exact bare_modifyClip hrec y
  · rw [if_neg fun hy => hy.2.1 (BTreeMap.mem_iff.mpr ⟨_, hn⟩), bare_modifyClip hrec,
      bare_modifyClip hrev]
  · rw [if_neg fun hy => hy.2.1 (BTreeMap.mem_iff.mpr ⟨_, hn⟩), bare_modifyClip hrec,
      bare_modifyClip hrev, bare_modifyClip hlink, bare_modifyClip fun d => d.bare_dropSplit _ n]

theorem bare_clipStep (v : Option ClipCrdt) :
    (clipStep o (v.map (·.bare))).map (·.bare) = (clipStep o v).map (·.bare) := by
  unfold clipStep
  rcases v with _ | c <;> split <;> rfl

/-- What an attempt does to the bare session depends on the bare session only. -/
theorem exec_bare (s : Session) (o : TaggedOperation) :
    (s.bare.exec o).bare = (s.exec o).bare := by
  refine Session.ext ?_ ?_ ?_ ?_
  · exact (metadata_exec_eq s.bare o).trans (metadata_exec_eq s o).symm
  · refine Std.ExtTreeMap.ext_getElem? fun z => ?_
    exact (tracks_exec s.bare o z).trans (tracks_exec s o z).symm
  · ext1 y
    rw [clips_bare, clips_bare]
    by_cases hsplit : o.operation.IsSplit
    · obtain ⟨c, f, n, hop⟩ := TimelineOperation.isSplit_iff.mp hsplit
      rw [bare_exec_split hop, bare_exec_split hop, clips_bare]
      simp only [mem_bare, Option.map_map]
      rfl
    · rw [clips_exec hsplit, clips_exec hsplit, clips_bare]
      split_ifs
      · exact bare_clipStep _
      · rw [Option.map_map]
        rfl
  · refine (envelopes_exec_eq s.bare o).trans (Eq.trans ?_ (envelopes_exec_eq s o).symm)
    simp only [missingEnvelopeTarget_bare]
    rfl

/-! ## Attempts commute -/

/-- The operation finds what it needs, or it is a split that leaves a bare session as it is. -/
def Ready (s : Session) : TimelineOperation → Prop
  | .splitClip c _ n => c = n ∨ c ∈ s.clips ∨ n ∈ s.clips
  | op => s.HasTargets op

theorem mem_exec : y ∈ (s.exec o).clips ↔ y ∈ s.clips ∨ s.Creates o.operation (.clip y) :=
  hasTarget_exec (r := .clip y)

theorem Ready.split_or_hasTargets {op : TimelineOperation} (h : s.Ready op) :
    op.IsSplit ∨ s.HasTargets op := by
  rcases op with _ | _ | _ | _ | _ | _ | _ | _ | _ | _ | _
  case splitClip => exact Or.inl trivial
  all_goals exact Or.inr h

theorem ready_bare {op : TimelineOperation} : s.bare.Ready op ↔ s.Ready op := by
  rcases op with _ | _ | _ | ⟨c, f, n⟩ | _ | _ | _ | _ | _ | _ | _
  case splitClip => simp only [Ready, mem_bare]
  all_goals exact hasTargets_bare

theorem Ready.exec {op : TimelineOperation} (h : s.Ready op) : (s.exec b).Ready op := by
  rcases op with _ | _ | _ | ⟨c, f, n⟩ | _ | _ | _ | _ | _ | _ | _
  case splitClip =>
    rcases h with h | h | h
    · exact Or.inl h
    · exact Or.inr (Or.inl (mem_exec.mpr (Or.inl h)))
    · exact Or.inr (Or.inr (mem_exec.mpr (Or.inl h)))
  all_goals exact HasTargets.exec h

theorem ready_of_succeeds (h : s.Succeeds o) : s.Ready o.operation := by
  by_cases hsplit : o.operation.IsSplit
  · obtain ⟨c, f, n, hop⟩ := TimelineOperation.isSplit_iff.mp hsplit
    rw [hop]
    by_contra hr
    simp only [Ready, not_or] at hr
    rw [Succeeds, hop] at h
    simp only [apply, applySplit_of_missing hr.1 hr.2.2 hr.2.1] at h
    cases h
  · have ht : s.HasTargets o.operation := by
      by_contra ht
      obtain ⟨err, ha⟩ := apply_of_missing (t := o.tag) hsplit ht
      rw [Succeeds, ha] at h
      cases h
    rcases hop : o.operation with _ | _ | _ | _ | _ | _ | _ | _ | _ | _ | _
    case splitClip => exact absurd (by rw [hop]; trivial) hsplit
    all_goals
      rw [hop] at ht
      exact ht

/-- An attempt that fails does not show on a bare session. -/
theorem bare_exec_of_fails (h : ¬s.Succeeds o) : (s.exec o).bare = s.bare := by
  have hmiss := (misses_of_fails h).1
  by_cases hsplit : o.operation.IsSplit
  · obtain ⟨c, f, n, hop⟩ := TimelineOperation.isSplit_iff.mp hsplit
    have hc : c ∉ s.clips := fun hc => hmiss fun r hr => by
      rw [hop] at hr
      exact List.mem_singleton.mp hr ▸ hc
    refine Session.ext ?_ ?_ ?_ ?_
    · exact (metadata_exec_eq s o).trans (by rw [hop]; rfl)
    · refine Std.ExtTreeMap.ext_getElem? fun z => (tracks_exec s o z).trans ?_
      rw [hop]
      rfl
    · ext1 y
      rw [clips_bare, clips_bare, bare_exec_split hop, if_neg fun hy => hc hy.2.2]
    · exact (envelopes_exec_eq s o).trans (by rw [hop]; rfl)
  · obtain ⟨err, ha⟩ := apply_of_missing (t := o.tag) hsplit hmiss
    rw [exec, ha]

section

variable {c c' n n' : ClipId} {f f' : UInt64}

theorem bare_insert_split {r : TrackId} {d : ClipData} {p : UInt64}
    (hop : o.operation = .insertClip x r d p) (hx : x ∉ s.clips)
    (hop' : b.operation = .splitClip c f n) (hb : s.Ready b.operation) (hnx : n ≠ x) (y : ClipId) :
    ((s.exec o).exec b).clips[y]?.map (·.bare) = ((s.exec b).exec o).clips[y]?.map (·.bare) := by
  have hcx : c = x → n ∈ s.clips := by
    rintro rfl
    rw [hop'] at hb
    rcases hb with h | h | h
    · exact absurd h.symm hnx
    · exact absurd h hx
    · exact h
  have hnot : ¬o.operation.IsSplit := by
    rw [hop]
    exact id
  have hmem : ∀ z, z ∈ (s.exec o).clips ↔ z ∈ s.clips ∨ x = z := fun z => by
    rw [mem_exec, hop]
    rfl
  have hout : ∀ v : Option ClipCrdt, (clipStep o v).map (·.bare) =
      (clipStep o (v.map (·.bare))).map (·.bare) := fun v => (bare_clipStep v).symm
  rw [bare_exec_split hop', clips_exec hnot, clips_exec hnot]
  simp only [hop, TimelineOperation.editedClip, Option.some.injEq, hmem]
  by_cases hxy : x = y
  · have hny : n ≠ y := fun e => hnx (e.trans hxy.symm)
    simp only [hxy, if_true, hny, false_and, if_false]
    rw [hout, hout (s.exec b).clips[y]?, bare_exec_split hop', if_neg fun h => hny h.1]
  · simp only [hxy, if_false]
    rw [bare_exec_split hop']
    by_cases hn : n ∈ s.clips
    · simp only [hn, true_or, not_true, false_and, and_false, if_false]
    · have hcx' : x ≠ c := fun e => hn (hcx e.symm)
      simp only [hn, hcx', hnx.symm, or_false]

theorem bare_split_split (hop : o.operation = .splitClip c f n) (ho : s.Ready o.operation)
    (hop' : b.operation = .splitClip c' f' n') (hb : s.Ready b.operation) (y : ClipId) :
    ((s.exec o).exec b).clips[y]?.map (·.bare) = ((s.exec b).exec o).clips[y]?.map (·.bare) := by
  have hmem : ∀ z, z ∈ (s.exec o).clips ↔ z ∈ s.clips ∨ n = z ∧ c ∈ s.clips := fun z => by
    rw [mem_exec, hop]
    rfl
  have hmem' : ∀ z, z ∈ (s.exec b).clips ↔ z ∈ s.clips ∨ n' = z ∧ c' ∈ s.clips := fun z => by
    rw [mem_exec, hop']
    rfl
  rw [hop] at ho
  rw [hop'] at hb
  simp only [Ready] at ho hb
  rw [bare_exec_split hop', bare_exec_split hop, bare_exec_split hop, bare_exec_split hop']
  simp only [hmem, hmem']
  grind

end

/-- Operations that create, none of which inserts a child, leave the same bare clips in either
order. -/
theorem Creator.bare_comm (co : Creator s o) (cb : Creator s b) (ht : o.tag ≠ b.tag)
    (ho : s.Ready o.operation) (hb : s.Ready b.operation)
    (hob : ∀ {c f n r d p}, o.operation = .splitClip c f n → b.operation ≠ .insertClip n r d p)
    (hbo : ∀ {c f n r d p}, b.operation = .splitClip c f n → o.operation ≠ .insertClip n r d p)
    (y : ClipId) :
    ((s.exec o).exec b).clips[y]?.map (·.bare) = ((s.exec b).exec o).clips[y]?.map (·.bare) := by
  have htrack : ∀ {s : Session} {o : TaggedOperation} {x d p}, o.operation = .insertTrack x d p →
      (s.exec o).clips = s.clips := fun h => clips_exec_insertTrack h
  rcases co with @⟨x, r, d, p, hop, hx⟩ | @⟨x, d, p, hop, -⟩ | @⟨c, f, n, hop⟩ <;>
    rcases cb with @⟨x', r', d', p', hop', hx'⟩ | @⟨x', d', p', hop', -⟩ | @⟨c', f', n', hop'⟩
  · rw [insert_insert ht hop hx hop']
  · rw [htrack hop', clips_exec_insert hop, clips_exec_insert hop, htrack hop']
  · exact bare_insert_split hop hx hop' hb (fun e => hbo hop' (e ▸ hop)) y
  · rw [htrack hop, clips_exec_insert hop', clips_exec_insert hop', htrack hop]
  · rw [htrack hop, htrack hop', htrack hop, htrack hop']
  · rw [bare_exec_split hop', htrack hop, htrack hop, bare_exec_split hop']
  · exact (bare_insert_split hop' hx' hop ho (fun e => hob hop (e ▸ hop')) y).symm
  · rw [bare_exec_split hop, htrack hop', htrack hop', bare_exec_split hop]
  · exact bare_split_split hop ho hop' hb y

/-- Attempts on bare sessions. -/
def bareMachine : Machine Session TaggedOperation :=
  ⟨fun s o => (s.exec o).bare, fun s o => s.Ready o.operation⟩

/-- Attempts that are ready commute on bare sessions, where no child is inserted. -/
theorem bare_confluent (T : TagsDistinct ops)
    (hins : ∀ o ∈ ops, ∀ o' ∈ ops, ∀ {c f n r d p}, o.operation = .splitClip c f n →
      o'.operation ≠ .insertClip n r d p) :
    bareMachine.Confluent (· ∈ ops) fun _ => True where
  inv_step _ _ _ := trivial
  enabled_step _ _ _ _ ho _ := ready_bare.mpr ho.exec
  step_comm {s o b} _ ho hb hne hro hrb := by
    have ht := T o ho b hb hne
    change ((s.exec o).bare.exec b).bare = ((s.exec b).bare.exec o).bare
    rw [exec_bare, exec_bare]
    rcases settled_or_creator hro.split_or_hasTargets with hset | co
    · rw [hset.exec_comm ht]
    rcases settled_or_creator hrb.split_or_hasTargets with hset | cb
    · rw [hset.exec_comm ht.symm]
    refine Session.ext ?_ (co.tracks_comm cb ht) ?_ ?_
    · exact (cb.metadata _).trans ((co.metadata s).trans
        ((co.metadata _).trans (cb.metadata s)).symm)
    · ext1 y
      rw [clips_bare, clips_bare]
      exact co.bare_comm cb ht hro hrb (hins o ho b hb) (hins b hb o ho) y
    · exact (cb.envelopes _).trans ((co.envelopes s).trans
        ((co.envelopes _).trans (cb.envelopes s)).symm)

/-- The bare session after attempts is that of the attempts that apply. -/
theorem bare_replay : ∀ (l : List TaggedOperation) (s : Session),
    (s.replay l).bare = bareMachine.run s.bare (s.applied l) ∧
      bareMachine.Valid s.bare (s.applied l)
  | [], _ => ⟨rfl, trivial⟩
  | o :: l, s => by
    obtain ⟨hrun, hvalid⟩ := bare_replay l (s.exec o)
    by_cases hs : s.Succeeds o
    · simp only [applied, hs, if_true, Machine.run_cons, Machine.valid_cons]
      have hstep : bareMachine.step s.bare o = (s.exec o).bare := exec_bare s o
      rw [hstep]
      exact ⟨hrun, ready_bare.mpr (ready_of_succeeds hs), hvalid⟩
    · simp only [applied, hs, if_false]
      rw [← bare_exec_of_fails hs]
      exact ⟨hrun, hvalid⟩

end Session

end AvSync
