import AvSync.Proofs.CompactedRuns
import AvSync.Proofs.Shapes
import AvSync.Proofs.Undone

/-!
# Edits replayed over their inverses

Operations a session has absorbed settle its slots and leave its shape alone (`absorbed_replay`).
Of inverses and then forwards, what is left of a slot is what the forwards set, or what the inverses
set besides (`Retraced.replay`). Where only fields of clips differ, and the geometry of dead ones,
the view is the same exactly if the values of visible clips are (`Retold.materialize_iff`,
`Retold.shows_eq_iff`).
-/

namespace AvSync

namespace Session

open Overwrite

variable {s s' : Session} {o : TaggedOperation} {op : TimelineOperation} {x y : ClipId}
  {m : List HistoryEntry}

/-! ## Operations that have been absorbed -/

/-- Absorbed operations, each newer than the session it finds, leave the shape alone, and every
slot at the last value they set in it. -/
theorem absorbed_replay :
    ∀ {l : List TaggedOperation} {s : Session}, machine.Along (fun s o => s.Newest o.tag) s l →
      (∀ o ∈ l, s.Absorbs o.operation) → SameShape s (s.replay l) ∧ ∀ σ : Slot,
        (σ.reg (s.replay l)).value = settle (σ.reg s).value (l.map fun o => σ.writes o.operation) ∧
          ((σ.reg (s.replay l)).tag = .initial ↔
            (σ.reg s).tag = .initial ∧ ∀ o ∈ l, σ.writes o.operation = none)
  | [], s, _, _ => ⟨.refl s, fun σ => ⟨rfl, by simp⟩⟩
  | o :: l, s, hn, ha => by
    obtain ⟨hnew, hn⟩ := Machine.along_cons.mp hn
    obtain ⟨ho, ha⟩ := List.forall_mem_cons.mp ha
    obtain ⟨hshape, hslots⟩ := absorbed_replay hn fun a hl => (ha a hl).exec ho.toTakes
    refine ⟨ho.sameShape.trans hshape, fun σ => ?_⟩
    obtain ⟨hval, htag⟩ := hslots σ
    have hreg : σ.reg (machine.step s o) =
        (σ.writes o.operation).elim (σ.reg s) fun v => ⟨v, o.tag⟩ := Slot.reg_exec hnew ho.toTakes σ
    rw [hreg] at hval htag
    rw [List.forall_mem_cons]
    rcases hw : σ.writes o.operation with _ | v <;> rw [hw] at hval htag
    · refine ⟨hval.trans ?_, htag.trans ?_⟩
      · rw [List.map_cons, hw]
        rfl
      · simp
    · refine ⟨hval.trans ?_, iff_of_false (fun h => hnew.ne_initial (htag.mp h).1) ?_⟩
      · rw [List.map_cons, hw]
        rfl
      · exact fun h => Option.some_ne_none v h.2.1

/-! ## What entries have left behind -/

/-- The entries, the latest first, have been applied to the session. It has absorbed them and their
inverses. Every slot is at the last value they have set in it. An inverse writes what a forward
writes, or sets a track to what it is, or writes to a clip that its forward has deleted. -/
structure Retraced (s : Session) (m : List HistoryEntry) : Prop where
  absorbs : ∀ e ∈ m, s.Absorbs e.forward ∧ s.Absorbs e.inverse
  settled : ∀ σ : Slot, ∃ a, (σ.reg s).value = settle a (m.reverse.map fun e => σ.writes e.forward)
  written : ∀ σ : Slot, (∃ e ∈ m, (σ.writes e.forward).isSome) → (σ.reg s).tag ≠ .initial
  inverse : ∀ e ∈ m, ∀ (σ : Slot) (v : σ.Value), σ.writes e.inverse = some v →
    (∃ e' ∈ m, (σ.writes e'.forward).isSome) ∨ (v = (σ.reg s).value ∧ ∃ t ρ, σ = .track t ρ) ∨
      ∃ x ρ, e.forward = .deleteClip x ∧ σ = .clip x ρ
  dead : ∀ e ∈ m, ∀ x, e.forward = .deleteClip x →
    ∃ c, s.clips[x]? = some c ∧ c.alive.value = false

theorem retraced_nil (s : Session) : s.Retraced [] where
  absorbs _ h := absurd h List.not_mem_nil
  settled _ := ⟨_, rfl⟩
  written _ h := absurd h.choose_spec.1 List.not_mem_nil
  inverse _ h := absurd h List.not_mem_nil
  dead _ h := absurd h List.not_mem_nil

theorem isSome_writes_of_editedClip (h : op.editedClip = some x) {σ : Slot} :
    (σ.writes op).isSome ↔ ∃ ρ, σ = .clip x ρ ∧ (ρ.get op.clipWrite).isSome := by
  have hclip : ∀ ρ, (Slot.clip x ρ).writes op = ρ.get op.clipWrite := by
    intro ρ
    rcases op with _ | _ | _ | _ | _ | _ | _ | _ | _ | _ | _ <;> cases h <;> exact if_pos rfl
  constructor
  · intro hσ
    rcases σ with ⟨y, ρ⟩ | ⟨t, ρ⟩ | κ | ρ
    · obtain rfl : x = y := by
        by_contra hne
        rcases op with _ | _ | _ | _ | _ | _ | _ | _ | _ | _ | _ <;> cases h <;>
          simp [Slot.writes, TimelineOperation.editedClip, hne] at hσ
      exact ⟨ρ, rfl, hclip ρ ▸ hσ⟩
    all_goals
      rcases op with _ | _ | _ | _ | _ | _ | _ | _ | _ | _ | _ <;> cases h <;>
        simp [Slot.writes, TimelineOperation.editedTrack] at hσ
  · rintro ⟨ρ, rfl, hρ⟩
    rwa [hclip]

theorem isSome_writes_of_editedTrack {t : TrackId} (h : op.editedTrack = some t) {σ : Slot} :
    (σ.writes op).isSome ↔ ∃ ρ, σ = .track t ρ ∧ (ρ.get op.trackWrite).isSome := by
  have htrack : ∀ ρ, (Slot.track t ρ).writes op = ρ.get op.trackWrite := fun ρ => if_pos h
  constructor
  · intro hσ
    rcases σ with ⟨y, ρ⟩ | ⟨u, ρ⟩ | κ | ρ
    case track =>
      obtain rfl : t = u := by
        by_contra hne
        simp [Slot.writes, h, hne] at hσ
      exact ⟨ρ, rfl, htrack ρ ▸ hσ⟩
    all_goals
      rcases op with _ | _ | _ | _ | _ | _ | _ | _ | _ | _ | _ <;> cases h <;>
        simp [Slot.writes, TimelineOperation.editedClip] at hσ
  · rintro ⟨ρ, rfl, hρ⟩
    rwa [htrack]

/-- What the inverse of an operation writes. -/
theorem writes_inverse {i : TimelineOperation} (hi : computeInverse op s = some (some i))
    {σ : Slot} {v : σ.Value} (hv : σ.writes i = some v) :
    (σ.writes op).isSome ∨ (v = (σ.reg s).value ∧ ∃ t ρ, σ = .track t ρ) ∨
      ∃ x ρ, op = .deleteClip x ∧ σ = .clip x ρ := by
  have hsome : (σ.writes i).isSome := Option.isSome_iff_exists.mpr ⟨v, hv⟩
  have hinsert : ∀ (ρ : ClipReg) {x r d p},
      (ρ.get (TimelineOperation.clipWrite (.insertClip x r d p))).isSome := by
    intro ρ x r d p
    obtain ⟨v, hv, -⟩ := ρ.reg_fromInsert (t := .initial) x r d p
    exact Option.isSome_iff_exists.mpr ⟨v, hv⟩
  rcases hop : op with x | x | x | ⟨p, f, n⟩ | x | ⟨x, u⟩ | t | ⟨t, u⟩ | t | ⟨y, k⟩ | u <;>
    simp only [hop, computeInverse] at hi
  case insertClip =>
    have hedit : i.editedClip = some x := by
      split_ifs at hi
      · obtain ⟨prev, -, hp⟩ := Option.map_eq_some_iff.mp hi
        obtain ⟨r, -, rfl⟩ := Option.map_eq_some_iff.mp hp
        rfl
      · cases hi
        rfl
    obtain ⟨ρ, rfl, -⟩ := (isSome_writes_of_editedClip hedit).mp hsome
    exact .inl ((isSome_writes_of_editedClip rfl).mpr ⟨ρ, rfl, hinsert ρ⟩)
  case deleteClip =>
    obtain ⟨prev, -, hp⟩ := Option.map_eq_some_iff.mp hi
    obtain ⟨r, -, rfl⟩ := Option.map_eq_some_iff.mp hp
    obtain ⟨ρ, rfl, -⟩ := (isSome_writes_of_editedClip rfl).mp hsome
    exact .inr (.inr ⟨x, ρ, rfl, rfl⟩)
  case moveClip | trimClip =>
    obtain ⟨prev, -, hp⟩ := Option.map_eq_some_iff.mp hi
    obtain ⟨r, -, rfl⟩ := Option.map_eq_some_iff.mp hp
    obtain ⟨ρ, rfl, hρ⟩ := (isSome_writes_of_editedClip rfl).mp hsome
    refine .inl ((isSome_writes_of_editedClip rfl).mpr ⟨ρ, rfl, ?_⟩)
    rcases ρ with _ | _ | _ | φ
    case field => cases φ <;> exact hρ
    all_goals exact hρ
  case updateClipMetadata =>
    obtain ⟨prev, -, hp⟩ := Option.map_eq_some_iff.mp hi
    obtain ⟨r, -, rfl⟩ := Option.map_eq_some_iff.mp hp
    obtain ⟨ρ, rfl, hρ⟩ := (isSome_writes_of_editedClip rfl).mp hsome
    refine .inl ((isSome_writes_of_editedClip rfl).mpr ⟨ρ, rfl, ?_⟩)
    rcases ρ with _ | _ | _ | φ
    case field =>
      cases φ
      case orderHint | track => cases hρ
      all_goals simpa [ClipReg.get, TimelineOperation.clipWrite] using hρ
    all_goals exact hρ
  case splitClip =>
    split_ifs at hi
    · cases hi
    cases hi
    obtain ⟨ρ, rfl, hρ⟩ := (isSome_writes_of_editedClip rfl).mp hsome
    refine .inl ?_
    rcases ρ with _ | _ | _ | φ
    case field => cases φ <;> cases hρ
    case alive => exact Option.isSome_iff_exists.mpr ⟨true, if_pos rfl⟩
    all_goals cases hρ
  case insertTrack =>
    have hedit : i.editedTrack = some t := by
      rcases hx : s.tracks[t]? with _ | prev <;> simp only [hx] at hi <;> cases hi <;> rfl
    obtain ⟨ρ, rfl, -⟩ := (isSome_writes_of_editedTrack hedit).mp hsome
    refine .inl ((isSome_writes_of_editedTrack rfl).mpr ⟨ρ, rfl, ?_⟩)
    cases ρ <;> rfl
  case updateTrackMetadata =>
    obtain ⟨prev, -, rfl⟩ := Option.map_eq_some_iff.mp (Option.some.inj hi)
    obtain ⟨ρ, rfl, hρ⟩ := (isSome_writes_of_editedTrack rfl).mp hsome
    refine .inl ((isSome_writes_of_editedTrack rfl).mpr ⟨ρ, rfl, ?_⟩)
    cases ρ
    case alive | kind => cases hρ
    all_goals simpa [TrackReg.get, TimelineOperation.trackWrite] using hρ
  case deleteTrack =>
    obtain ⟨prev, hprev, rfl⟩ := Option.map_eq_some_iff.mp (Option.some.inj hi)
    obtain ⟨ρ, rfl, -⟩ := (isSome_writes_of_editedTrack rfl).mp hsome
    have hval : ρ.get (TimelineOperation.trackWrite (.insertTrack t prev.toTrackData
        prev.orderHint.value)) = some v := (if_pos rfl).symm.trans hv
    rcases ρ with _ | _ | _ | _ | _ | _ | _
    case alive => exact .inl (Option.isSome_iff_exists.mpr ⟨false, if_pos rfl⟩)
    all_goals
      refine .inr (.inl ⟨?_, t, _, rfl⟩)
      rw [Slot.reg, hprev, Option.getD_some]
      exact (Option.some.inj hval).symm
  case updateEnvelope =>
    cases hi
    refine .inl ?_
    rcases σ with _ | _ | κ | _
    case envelope =>
      simp only [Slot.writes] at hv ⊢
      split_ifs at hv ⊢
      rfl
    all_goals simp [Slot.writes, TimelineOperation.editedTrack, TimelineOperation.editedClip] at hv
  case updateSessionMetadata =>
    obtain ⟨view, -, hview⟩ := Option.map_eq_some_iff.mp hi
    cases hview
    refine .inl ?_
    rcases σ with _ | _ | _ | ρ
    case metadata => cases ρ <;> simpa [Slot.writes, computeSessionMetadataInverse,
      MetadataReg.get] using hsome
    all_goals simp [Slot.writes, computeSessionMetadataInverse, TimelineOperation.editedTrack,
      TimelineOperation.editedClip] at hv

/-- The inverse of an operation is absorbed as soon as the operation is. -/
theorem absorbs_inverse {i : TimelineOperation} (ht : s.Takes o.operation)
    (hi : computeInverse o.operation s = some (some i)) : (s.exec o).Absorbs i := by
  obtain ⟨hsplit, hintro⟩ := TimelineCrdt.computeInverse_introduced hi
  have hself := ht.absorbs
  refine ⟨⟨TimelineCrdt.computeInverse_targets hi ht.targets, fun hop => ?_⟩,
    fun r hr => (hintro r hr).exec, ?_, fun hop => ?_, ?_⟩
  · exact absurd (by rw [hop]; trivial) hsplit
  · intro x c hedit hdet hc
    rcases hop : o.operation with y | y | y | _ | y | _ | _ | _ | _ | _ | _ <;>
      simp only [hop, computeInverse] at hi
    case moveClip | trimClip =>
      obtain ⟨prev, -, hp⟩ := Option.map_eq_some_iff.mp hi
      obtain ⟨r, -, rfl⟩ := Option.map_eq_some_iff.mp hp
      exact hself.detached (x := x) (by rw [hop]; exact hedit) (by rw [hop]; rfl) hc
    case insertClip =>
      split_ifs at hi
      · obtain ⟨prev, -, hp⟩ := Option.map_eq_some_iff.mp hi
        obtain ⟨r, -, rfl⟩ := Option.map_eq_some_iff.mp hp
        cases hdet
      · cases hi
        cases hdet
    case deleteClip | updateClipMetadata =>
      obtain ⟨prev, -, hp⟩ := Option.map_eq_some_iff.mp hi
      obtain ⟨r, -, rfl⟩ := Option.map_eq_some_iff.mp hp
      cases hdet
    case splitClip =>
      split_ifs at hi
      · cases hi
      · cases hi
        cases hdet
    case insertTrack t _ _ =>
      rcases hx : s.tracks[t]? with _ | prev <;> simp only [hx] at hi <;> cases hi <;> cases hdet
    case updateTrackMetadata | deleteTrack =>
      obtain ⟨prev, -, rfl⟩ := Option.map_eq_some_iff.mp (Option.some.inj hi)
      cases hdet
    case updateEnvelope =>
      cases hi
      cases hdet
    case updateSessionMetadata =>
      obtain ⟨view, -, hview⟩ := Option.map_eq_some_iff.mp hi
      cases hview
      cases hdet
  · exact absurd (by rw [hop]; trivial) hsplit
  · intro y k points hop
    subst hop
    have hmem : ((Slot.envelope (toLex (y, k))).writes (.updateEnvelope y k points)).isSome := by
      simp [Slot.writes]
    obtain ⟨v, hv⟩ := Option.isSome_iff_exists.mp hmem
    rcases writes_inverse hi hv with h | ⟨-, t, ρ, h⟩ | ⟨x, ρ, -, h⟩
    · rcases hop : o.operation with _ | _ | _ | _ | _ | _ | _ | _ | _ | ⟨y', k', points'⟩ | _ <;>
        rw [hop] at h <;> simp only [Slot.writes] at h
      case updateEnvelope =>
        split_ifs at h with hκ
        · exact hκ ▸ hself.envelope hop
        · cases h
      all_goals cases h
    · cases h
    · cases h

/-- An operation brings a clip to life only if it introduces it. -/
theorem writes_alive {b : Bool} (h : (Slot.clip x .alive).writes op = some b) :
    b = false ∨ op.introduced = some (.clip x) := by
  by_cases hsplit : op.IsSplit
  · obtain ⟨p, f, n, rfl⟩ := TimelineOperation.isSplit_iff.mp hsplit
    by_cases hn : n = x
    · exact .inr (congrArg (some ∘ RequiredTarget.clip) hn)
    · cases (if_neg hn).symm.trans h
  · have hw : (if op.editedClip = some x then ClipReg.alive.get op.clipWrite else none) =
        some b := by
      rcases op with _ | _ | _ | _ | _ | _ | _ | _ | _ | _ | _
      case splitClip => exact absurd trivial hsplit
      all_goals exact h
    by_cases hy : op.editedClip = some x
    · have hb := (if_pos hy).symm.trans hw
      rcases op with _ | _ | _ | _ | _ | _ | _ | _ | _ | _ | _ <;> cases hb
      · exact .inr (congrArg (Option.map RequiredTarget.clip) hy)
      · exact .inl rfl
    · cases (if_neg hy).symm.trans hw

variable {i : TimelineOperation}

theorem Retraced.cons (h : s.Retraced m) (hnew : s.Newest o.tag) (ht : s.Takes o.operation)
    (hfresh : ∀ r, o.operation.introduced = some r → ¬s.HasTarget r)
    (hi : computeInverse o.operation s = some (some i)) :
    (s.exec o).Retraced (⟨o.operation, i⟩ :: m) := by
  have hreg : ∀ σ : Slot, σ.reg (s.exec o) =
      (σ.writes o.operation).elim (σ.reg s) fun v => ⟨v, o.tag⟩ := Slot.reg_exec hnew ht
  constructor
  · refine List.forall_mem_cons.mpr ⟨⟨ht.absorbs, absorbs_inverse ht hi⟩, fun e he => ?_⟩
    exact ⟨(h.absorbs e he).1.exec ht, (h.absorbs e he).2.exec ht⟩
  · intro σ
    obtain ⟨a, ha⟩ := h.settled σ
    refine ⟨a, ?_⟩
    rw [List.reverse_cons, List.map_append, settle_append, ← ha, hreg, List.map_singleton]
    rcases σ.writes o.operation with _ | v <;> rfl
  · rintro σ ⟨e, he, hv⟩
    rw [hreg]
    rcases hw : σ.writes o.operation with _ | v
    · rcases List.mem_cons.mp he with rfl | he
      · rw [hw] at hv
        cases hv
      · exact h.written σ ⟨e, he, hv⟩
    · exact hnew.ne_initial
  · have htrack : ∀ (σ : Slot) (v : σ.Value), v = (σ.reg s).value → (∃ t ρ, σ = .track t ρ) →
        (∃ e ∈ (⟨o.operation, i⟩ :: m : List HistoryEntry), (σ.writes e.forward).isSome) ∨
          (v = (σ.reg (s.exec o)).value ∧ ∃ t ρ, σ = .track t ρ) := by
      intro σ v hv hσ
      rcases hw : σ.writes o.operation with _ | w
      · exact .inr ⟨by rw [hreg, hw]; exact hv, hσ⟩
      · exact .inl ⟨_, List.mem_cons_self, by rw [hw]; rfl⟩
    refine List.forall_mem_cons.mpr ⟨fun σ v hv => ?_, fun e he σ v hv => ?_⟩
    · rcases writes_inverse hi hv with hw | ⟨hv, hσ⟩ | hdel
      · exact .inl ⟨_, List.mem_cons_self, hw⟩
      · exact (htrack σ v hv hσ).imp_right .inl
      · exact .inr (.inr hdel)
    · rcases h.inverse e he σ v hv with ⟨e', he', hw⟩ | ⟨hv, hσ⟩ | hdel
      · exact .inl ⟨e', List.mem_cons_of_mem _ he', hw⟩
      · exact (htrack σ v hv hσ).imp_right .inl
      · exact .inr (.inr hdel)
  · have halive : ∀ {x d}, (s.exec o).clips[x]? = some d →
        d.alive.value = ((Slot.clip x .alive).reg (s.exec o)).value := by
      intro x d hd
      rw [Slot.reg, hd]
      rfl
    refine List.forall_mem_cons.mpr ⟨fun x hop => ?_, fun e he x hop => ?_⟩
    · have hop : o.operation = .deleteClip x := hop
      obtain ⟨c, hc⟩ := BTreeMap.mem_iff.mp
        (ht.targets (.clip x) (by rw [hop]; exact List.mem_cons_self))
      obtain ⟨d, hd, -⟩ := ht.grows hc
      refine ⟨d, hd, ?_⟩
      have hw : (Slot.clip x .alive).writes o.operation = some false := by
        rw [hop]
        exact if_pos rfl
      rw [halive hd, hreg, hw]
      rfl
    · obtain ⟨c, hc, hdead⟩ := h.dead e he x hop
      obtain ⟨d, hd, -⟩ := ht.grows hc
      refine ⟨d, hd, ?_⟩
      rw [halive hd, hreg]
      rcases hw : (Slot.clip x .alive).writes o.operation with _ | b
      · rw [Option.elim_none, Slot.reg, hc]
        exact hdead
      · rcases writes_alive hw with rfl | hintro
        · rfl
        · exact absurd (BTreeMap.mem_iff.mpr ⟨c, hc⟩) (hfresh _ hintro)

/-- The inverses, the last edit's first, and then the edits again, each newer than all before. The
shape stays. A slot that an edit sets keeps its value, and any other is left to the inverses. -/
theorem Retraced.replay (h : s.Retraced m) {l : List TaggedOperation}
    (hops : l.map (·.operation) = m.map (·.inverse) ++ m.reverse.map (·.forward))
    (hn : machine.Along (fun s o => s.Newest o.tag) s l) :
    SameShape s (s.replay l) ∧ ∀ σ : Slot,
      ((σ.reg (s.replay l)).value =
        if ∃ e ∈ m, (σ.writes e.forward).isSome then (σ.reg s).value
        else settle (σ.reg s).value (m.map fun e => σ.writes e.inverse)) ∧
      ((σ.reg (s.replay l)).tag = .initial ↔
        (σ.reg s).tag = .initial ∧ ∀ e ∈ m, σ.writes e.inverse = none) := by
  have hmem : ∀ o ∈ l, ∃ e ∈ m, o.operation = e.inverse ∨ o.operation = e.forward := by
    intro o ho
    have := hops ▸ List.mem_map_of_mem (f := fun o : TaggedOperation => o.operation) ho
    rcases List.mem_append.mp this with ho | ho
    · obtain ⟨e, he, heq⟩ := List.mem_map.mp ho
      exact ⟨e, he, .inl heq.symm⟩
    · obtain ⟨e, he, heq⟩ := List.mem_map.mp ho
      exact ⟨e, List.mem_reverse.mp he, .inr heq.symm⟩
  obtain ⟨hshape, hslots⟩ := absorbed_replay hn fun o ho => by
    obtain ⟨e, he, hop | hop⟩ := hmem o ho
    · exact hop ▸ (h.absorbs e he).2
    · exact hop ▸ (h.absorbs e he).1
  refine ⟨hshape, fun σ => ?_⟩
  have hwrites : (l.map fun o => σ.writes o.operation) =
      (m.map fun e => σ.writes e.inverse) ++ m.reverse.map fun e => σ.writes e.forward := by
    have := congrArg (List.map σ.writes) hops
    simpa only [List.map_append, List.map_map, Function.comp_def] using this
  have hnone : (∀ o ∈ l, σ.writes o.operation = none) ↔
      (∀ e ∈ m, σ.writes e.inverse = none) ∧ ∀ e ∈ m, σ.writes e.forward = none := by
    have := congrArg (fun w => ∀ v ∈ w, v = none) hwrites
    simpa only [List.forall_mem_append, List.forall_mem_map, List.mem_reverse,
      eq_iff_iff] using this
  by_cases hset : ∃ e ∈ m, (σ.writes e.forward).isSome
  · obtain ⟨a, ha⟩ := h.settled σ
    obtain ⟨e, he, hv⟩ := id hset
    rw [if_pos hset, (hslots σ).1, (hslots σ).2, hwrites, settle_append, ha]
    refine ⟨settle_eq_of_isSome ⟨_, List.mem_map_of_mem (List.mem_reverse.mpr he), hv⟩ _ a, ?_⟩
    exact iff_of_false (fun ht => h.written σ hset ht.1) fun ht => h.written σ hset ht.1
  · have hforward : ∀ e ∈ m, σ.writes e.forward = none := fun e he =>
      Option.not_isSome_iff_eq_none.mp fun hv => hset ⟨e, he, hv⟩
    rw [if_neg hset, (hslots σ).1, (hslots σ).2, hnone, hwrites, settle_append,
      and_iff_left hforward]
    refine ⟨settle_eq_self fun w hw v hv => ?_, Iff.rfl⟩
    obtain ⟨e, he, rfl⟩ := List.mem_map.mp hw
    rw [hforward e (List.mem_reverse.mp he)] at hv
    cases hv

/-! ## Sessions with one view -/

/-- Only the fields of clips differ, and the geometry of clips that are not alive. -/
structure Retold (s s' : Session) : Prop where
  shape : SameShape s s'
  track : ∀ t ρ, ((Slot.track t ρ).reg s').value = ((Slot.track t ρ).reg s).value
  envelope : ∀ κ, ((Slot.envelope κ).reg s').value = ((Slot.envelope κ).reg s).value
  metadata : ∀ ρ, ((Slot.metadata ρ).reg s').value = ((Slot.metadata ρ).reg s).value
  alive : ∀ x : ClipId, ((Slot.clip x .alive).reg s').value = ((Slot.clip x .alive).reg s).value
  span : ∀ (x : ClipId) ρ, ρ = .startFrame ∨ ρ = .durationFrames →
    ((Slot.clip x .alive).reg s).value = true →
      ((Slot.clip x ρ).reg s').value = ((Slot.clip x ρ).reg s).value ∧
        (((Slot.clip x ρ).reg s').tag = .initial ↔ ((Slot.clip x ρ).reg s).tag = .initial)

namespace Retold

variable {c d : ClipCrdt} {l : List ClipCrdt} (h : Retold s s')

include h

theorem symm : Retold s' s where
  shape := h.shape.symm
  track t ρ := (h.track t ρ).symm
  envelope κ := (h.envelope κ).symm
  metadata ρ := (h.metadata ρ).symm
  alive x := (h.alive x).symm
  span x ρ hρ halive :=
    have hspan := h.span x ρ hρ ((h.alive x).symm.trans halive)
    ⟨hspan.1.symm, hspan.2.symm⟩

theorem trans {s'' : Session} (h' : Retold s' s'') : Retold s s'' where
  shape := h.shape.trans h'.shape
  track t ρ := (h'.track t ρ).trans (h.track t ρ)
  envelope κ := (h'.envelope κ).trans (h.envelope κ)
  metadata ρ := (h'.metadata ρ).trans (h.metadata ρ)
  alive x := (h'.alive x).trans (h.alive x)
  span x ρ hρ halive :=
    have hspan := h.span x ρ hρ halive
    have hspan' := h'.span x ρ hρ ((h.alive x).trans halive)
    ⟨hspan'.1.trans hspan.1, hspan'.2.trans hspan.2⟩

theorem clip (hc : s.clips[x]? = some c) :
    ∃ d, s'.clips[x]? = some d ∧ d.frame = c.frame ∧ d.alive.value = c.alive.value := by
  have hframe := h.shape.clips x
  rw [hc, Option.map_some] at hframe
  obtain ⟨d, hd, he⟩ := Option.map_eq_some_iff.mp hframe
  have halive := h.alive x
  rw [Slot.reg, Slot.reg, hc, hd] at halive
  exact ⟨d, hd, he, halive⟩

theorem rel (x : ClipId) :
    Option.Rel (fun c d => d.frame = c.frame) s.clips[x]? s'.clips[x]? := by
  have hframe := h.shape.clips x
  rcases hc : s.clips[x]? with _ | c <;> rcases hd : s'.clips[x]? with _ | d <;>
    rw [hc, hd] at hframe
  · exact .none
  · cases hframe
  · cases hframe
  · exact .some (Option.some.inj hframe)

theorem lineage (hl : s.Lineage x l) :
    ∃ m, s'.Lineage x m ∧ List.Forall₂ (fun c d => d.frame = c.frame) l m :=
  hl.congr (fun _ _ hcd => (congrArg ClipFrame.parent hcd).symm) fun y _ => h.rel y

theorem forest (hf : s.Forest) : s'.Forest := by
  refine forest_of_lineage fun y hy => ?_
  obtain ⟨l, hl⟩ := hf.lineage (h.shape.mem_clips.mp hy)
  obtain ⟨m, hm, -⟩ := h.lineage hl
  exact ⟨m, hm⟩

theorem geometry (hc : s.clips[x]? = some c) (hd : s'.clips[x]? = some d)
    (halive : c.alive.value = true) : ownRange d = ownRange c ∧
      ((d.startFrame.tag = .initial ∨ d.durationFrames.tag = .initial) ↔
        (c.startFrame.tag = .initial ∨ c.durationFrames.tag = .initial)) := by
  have hspan := fun ρ hρ => h.span x ρ hρ (by rw [Slot.reg, hc]; exact halive)
  obtain ⟨hs, hst⟩ := hspan .startFrame (.inl rfl)
  obtain ⟨ht, htt⟩ := hspan .durationFrames (.inr rfl)
  rw [Slot.reg, Slot.reg, hc, hd] at hs hst ht htt
  have hs : d.startFrame.value = c.startFrame.value := hs
  have ht : d.durationFrames.value = c.durationFrames.value := ht
  exact ⟨by rw [ownRange, ownRange, hs, ht], or_congr hst htt⟩

/-- A clip that is alive keeps its range. A piece of a dead one has none. -/
theorem rangeOf (hl : s.Lineage x (c :: l)) (halive : c.alive.value = true) :
    s'.rangeOf x = s.rangeOf x := by
  generalize hm : c :: l = m at hl
  induction hl generalizing c l with
  | @top x c hc htop =>
    obtain ⟨rfl, rfl⟩ := List.cons.inj hm
    obtain ⟨n, hlin, -⟩ := h.lineage (.top hc htop)
    obtain ⟨d, n, hd, rfl⟩ := hlin.head
    obtain ⟨d', hd', hframe, -⟩ := h.clip hc
    obtain rfl := Option.some.inj (hd.symm.trans hd')
    obtain ⟨hown, htags⟩ := h.geometry hc hd halive
    have hparent : d.parent = c.parent := congrArg ClipFrame.parent hframe
    have hdet : d.detached = c.detached := congrArg ClipFrame.detached hframe
    rw [(Lineage.top hc htop).rangeOf_eq, hlin.rangeOf_eq, hparent, hdet, hown]
    simp only [htags]
    rcases hlink : c.parent with _ | link
    · rfl
    · have hno : link.clip ∉ s'.clips := mt h.shape.mem_clips.mp (htop link hlink)
      simp only [BTreeMap.not_mem_iff.mp hno, BTreeMap.not_mem_iff.mp (htop link hlink)]
      rfl
  | @child x c link l hc hlink hp ih =>
    obtain ⟨rfl, rfl⟩ := List.cons.inj hm
    obtain ⟨n, hlin, -⟩ := h.lineage (.child hc hlink hp)
    obtain ⟨d, n, hd, rfl⟩ := hlin.head
    obtain ⟨d', hd', hframe, -⟩ := h.clip hc
    obtain rfl := Option.some.inj (hd.symm.trans hd')
    obtain ⟨hown, -⟩ := h.geometry hc hd halive
    have hparent : d.parent = c.parent := congrArg ClipFrame.parent hframe
    have hdet : d.detached = c.detached := congrArg ClipFrame.detached hframe
    obtain ⟨p, k, hpc, rfl⟩ := hp.head
    obtain ⟨q, hqc, hpq, hpalive⟩ := h.clip hpc
    have hcuts : SameCuts p q := ⟨hpalive.symm, (congrArg ClipFrame.splits hpq).symm⟩
    rw [(Lineage.child hc hlink hp).rangeOf_eq, hlin.rangeOf_eq, hparent, hdet, hown, hlink]
    simp only [hpc, hqc, Option.bind_some, hpalive]
    split_ifs with hdetached hpa
    · rfl
    · rw [ih hpa rfl]
      simp only [hcuts.childRange_eq]
    · rfl

theorem trackShown (t : TrackId) : s'.trackShown t = s.trackShown t := by
  have htrack := h.track t
  have hmem := h.shape.tracks t
  rcases hr : s.tracks[t]? with _ | r <;> rcases hr' : s'.tracks[t]? with _ | r'
  · rw [Session.trackShown, Session.trackShown, hr, hr']
  · exact absurd (hmem.mp (BTreeMap.mem_iff.mpr ⟨r', hr'⟩)) (BTreeMap.not_mem_iff.mpr hr)
  · exact absurd (hmem.mpr (BTreeMap.mem_iff.mpr ⟨r, hr⟩)) (BTreeMap.not_mem_iff.mpr hr')
  · simp only [Slot.reg, hr, hr', Option.getD_some] at htrack
    have halive : r'.alive.value = r.alive.value := htrack .alive
    have hview : trackView t r' = trackView t r := by
      simp only [trackView, TrackView.mk.injEq, true_and]
      exact ⟨htrack .name, htrack .kind, htrack .volumeDb, htrack .muted, htrack .solo,
        htrack .orderHint⟩
    rw [Session.trackShown, Session.trackShown, hr, hr', Option.bind_some, Option.bind_some, halive,
      hview]

/-- A clip with the same values shows the same. -/
theorem shows_eq (hf : s.Forest) (hvals : s.valuesOf y = s'.valuesOf y) :
    s.shows y = s'.shows y := by
  by_cases hy : y ∈ s.clips
  swap
  · rw [shows_of_not_mem hy, shows_of_not_mem (mt h.shape.mem_clips.mp hy)]
  obtain ⟨l, hl⟩ := hf.lineage hy
  obtain ⟨c, l, hc, rfl⟩ := hl.head
  obtain ⟨d, hd, hframe, halive⟩ := h.clip hc
  have hdead : ∀ {s : Session} {c : ClipCrdt}, s.clips[y]? = some c → c.alive.value = false →
      s.shows y = none := by
    intro s c hc hdead
    refine Option.eq_none_iff_forall_ne_some.mpr fun w hw => ?_
    obtain ⟨e, a, r, he, ha, -⟩ := shows_eq_some.mp hw
    obtain rfl := Option.some.inj (hc.symm.trans he)
    exact Bool.false_ne_true (hdead.symm.trans ha)
  rcases ha : c.alive.value with _ | _
  · rw [hdead hc ha, hdead hd (halive.trans ha)]
  · refine shows_congr ?_ hvals (h.rangeOf hl ha).symm (liveTrack_congr h.trackShown)
    rw [hc, hd]
    exact .some ⟨halive.symm, (congrArg ClipFrame.splits hframe).symm⟩

/-- A clip shows the same exactly if it has the same values, should it be visible. -/
theorem shows_eq_iff (hf : s.Forest) : s.shows y = s'.shows y ↔
    ∀ u w, s.resolveClip y = some (some u) → s'.resolveClip y = some (some w) →
      u.visible = true ∨ w.visible = true → u.values = w.values := by
  by_cases hy : y ∈ s.clips
  swap
  · refine iff_of_true ?_ fun u w hu => ?_
    · rw [shows_of_not_mem hy, shows_of_not_mem (mt h.shape.mem_clips.mp hy)]
    · obtain ⟨c, g, hc, -⟩ := resolveClip_iff.mp hu
      exact absurd (BTreeMap.mem_iff.mpr ⟨c, hc⟩) hy
  obtain ⟨l, hl⟩ := hf.lineage hy
  obtain ⟨u, hu⟩ := hl.resolveClip_some
  obtain ⟨m, hm, -⟩ := h.lineage hl
  obtain ⟨w, hw⟩ := hm.resolveClip_some
  have hshow : ∀ {s : Session} {u : ResolvedClip}, s.resolveClip y = some (some u) →
      s.shows y = if u.visible = true then some u.view else none := by
    intro s u hu
    rw [shows, hu, Option.join_some, Option.filter_some]
    split_ifs <;> rfl
  constructor
  · intro heq u' w' hu' hw' hvis
    rw [hshow hu', hshow hw'] at heq
    split_ifs at heq with hu hw hw
    · exact congrArg ClipView.values (Option.some.inj heq)
    · exact absurd hvis (not_or.mpr ⟨hu, hw⟩)
  · intro hvals
    by_cases hvis : u.visible = true ∨ w.visible = true
    · obtain ⟨-, -, -, hval, -⟩ := resolveClip_iff.mp hu
      obtain ⟨-, -, -, hval', -⟩ := resolveClip_iff.mp hw
      exact h.shows_eq hf (by rw [hval, hval', hvals u w hu hw hvis])
    · obtain ⟨hu', hw'⟩ := not_or.mp hvis
      rw [hshow hu, hshow hw, if_neg hu', if_neg hw']

/-- The view is the same exactly if all clips show the same. -/
theorem materialize_iff (hf : s.Forest) :
    s'.materialize = s.materialize ↔ ∀ y, s.shows y = s'.shows y := by
  obtain ⟨v, hv⟩ := hf.materialize
  rw [hv, materialize_eq_iff hv (h.forest hf)]
  refine ⟨fun hview => hview.2.2.2, fun hshow => ⟨?_, trackViews_congr h.trackShown, ?_, hshow⟩⟩
  · simp only [metadataView, SessionMetadata.mk.injEq, Prod.mk.injEq]
    exact ⟨h.metadata .name, h.metadata .sampleRate, h.metadata .tempoBpm,
      h.metadata .tsNumerator, h.metadata .tsDenominator⟩
  · ext1 κ
    have hreg := h.envelope κ
    have hmem := h.shape.envelopes κ
    rw [Std.ExtTreeMap.getElem?_map, Std.ExtTreeMap.getElem?_map]
    rcases hr : s.envelopes.envelopes[κ]? with _ | r <;>
      rcases hr' : s'.envelopes.envelopes[κ]? with _ | r'
    · rfl
    · exact absurd (hmem.mp (BTreeMap.mem_iff.mpr ⟨r', hr'⟩)) (BTreeMap.not_mem_iff.mpr hr)
    · exact absurd (hmem.mpr (BTreeMap.mem_iff.mpr ⟨r, hr⟩)) (BTreeMap.not_mem_iff.mpr hr')
    · rw [Slot.reg, Slot.reg, hr, hr'] at hreg
      exact congrArg some hreg

end Retold

end Session

end AvSync
