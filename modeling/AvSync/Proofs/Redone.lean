import AvSync.Proofs.Retraced

/-!
# Undo and redo

Every edit of a run leaves its traces in the session (`EditRun.call`). The last edits undone and
done again are their inverses and then they themselves, issued under new stamps
(`exists_issues_undoTimes`, `exists_issues_redoTimes`). What they leave over are values that the
inverses of deletes set (`Retraced.field`). The view is as it was exactly if no visible clip shows
another value for it (`redoTimes_undoTimes_iff`).
-/

namespace AvSync

namespace Session

open Overwrite

variable {s s' : Session} {op : TimelineOperation} {x : ClipId} {m : List HistoryEntry}

/-- What an operation sets in a field it writes to the slot of the field. -/
theorem writes_field (φ : Field) : (Slot.clip x (.field φ)).writes op = op.sets x φ := by
  have hsome : ∀ {y : ClipId} {a b : Option φ.Value}, a = b →
      (if some y = some x then a else none) = if y = x then b else none := by
    rintro y a b rfl
    by_cases hy : y = x
    · rw [if_pos (congrArg some hy), if_pos hy]
    · rw [if_neg (fun h => hy (Option.some.inj h)), if_neg hy]
  have hnone : ∀ {p : Prop} [Decidable p] {a : Option φ.Value}, a = none →
      (if p then a else none) = none := by
    rintro p _ a rfl
    exact ite_self none
  rcases op with y | y | y | ⟨p, f, n⟩ | y | ⟨y, u⟩ | _ | _ | _ | _ | _
  case insertClip | moveClip | updateClipMetadata => exact hsome (by cases φ <;> rfl)
  case deleteClip | splitClip | trimClip => exact hnone (by cases φ <;> rfl)
  all_goals rfl

/-! ## What is left over -/

section

variable (h : s.Retraced m) {l : List TaggedOperation}
  (hops : l.map (·.operation) = m.map (·.inverse) ++ m.reverse.map (·.forward))
  (hn : machine.Along (fun s o => s.Newest o.tag) s l)

include h

/-- In a field that no edit sets, only the inverses of deletes leave something. -/
theorem Retraced.leftover_eq (x : ClipId) (φ : Field) : leftover m x φ =
    if ∃ e ∈ m, ((Slot.clip x (.field φ)).writes e.forward).isSome then none
    else ((m.map fun e => (Slot.clip x (.field φ)).writes e.inverse).filterMap id).getLast? := by
  simp only [leftover, writes_field]
  split_ifs with hset
  · rfl
  · rw [List.filterMap_map]
    refine congrArg List.getLast? (List.filterMap_congr fun e he => ?_)
    rw [Function.comp_apply, id_eq]
    split_ifs with hdel
    · rfl
    · rcases hw : e.inverse.sets x φ with _ | v
      · rfl
      rcases h.inverse e he (.clip x (.field φ)) v ((writes_field φ).trans hw) with
        hs | ⟨-, t, ρ, heq⟩ | ⟨y, ρ, hop, heq⟩
      · simp only [writes_field] at hs
        exact absurd hs hset
      · cases heq
      · obtain ⟨rfl, -⟩ := Slot.clip.inj heq
        exact absurd hop hdel

include hops hn

/-- A field of a clip holds what is left over, and what it held if nothing is. -/
theorem Retraced.field (x : ClipId) (φ : Field) :
    ((Slot.clip x (.field φ)).reg (s.replay l)).value =
      (leftover m x φ).getD ((Slot.clip x (.field φ)).reg s).value ∧
    (((Slot.clip x (.field φ)).reg (s.replay l)).tag = .initial ↔
      ((Slot.clip x (.field φ)).reg s).tag = .initial ∧ leftover m x φ = none) := by
  obtain ⟨hvalue, htag⟩ := (h.replay hops hn).2 (.clip x (.field φ))
  rw [hvalue, htag, h.leftover_eq]
  split_ifs with hset
  · refine ⟨rfl, iff_of_false (fun ht => h.written _ hset ht.1) fun ht => h.written _ hset ht.1⟩
  · refine ⟨settle_eq_getD _ _, and_congr_right fun _ => ?_⟩
    rw [List.getLast?_eq_none_iff, List.filterMap_eq_nil_iff, List.forall_mem_map]
    rfl

/-- A slot of a clip that no edit deletes keeps its value. -/
theorem Retraced.keeps {σ : Slot}
    (hdel : ∀ e ∈ m, ∀ x ρ, e.forward = .deleteClip x → σ ≠ .clip x ρ) :
    (σ.reg (s.replay l)).value = (σ.reg s).value ∧
      ((∀ t ρ, σ ≠ .track t ρ) →
        ((σ.reg (s.replay l)).tag = .initial ↔ (σ.reg s).tag = .initial)) := by
  obtain ⟨hvalue, htag⟩ := (h.replay hops hn).2 σ
  rw [hvalue, htag]
  by_cases hset : ∃ e ∈ m, (σ.writes e.forward).isSome
  · rw [if_pos hset]
    exact ⟨rfl, fun _ => iff_of_false (fun ht => h.written σ hset ht.1) (h.written σ hset)⟩
  · have hinv : ∀ e ∈ m, ∀ v, σ.writes e.inverse = some v →
        v = (σ.reg s).value ∧ ∃ t ρ, σ = .track t ρ := by
      intro e he v hv
      rcases h.inverse e he σ v hv with hw | hv | ⟨x, ρ, hop, hσ⟩
      · exact absurd hw hset
      · exact hv
      · exact absurd hσ (hdel e he x ρ hop)
    rw [if_neg hset]
    refine ⟨settle_eq_self fun w hw v hv => ?_, fun htrack => and_iff_left fun e he => ?_⟩
    · obtain ⟨e, he, rfl⟩ := List.mem_map.mp hw
      exact (hinv e he v hv).1
    · refine Option.eq_none_iff_forall_ne_some.mpr fun v hv => ?_
      obtain ⟨-, t, ρ, hσ⟩ := hinv e he v hv
      exact htrack t ρ hσ

/-- Replayed over their inverses, edits change no more than fields, and the geometry of clips that
are not alive. -/
theorem Retraced.retold : Retold s (s.replay l) := by
  have hkept : ∀ x ρ, (∀ e ∈ m, e.forward ≠ .deleteClip x) →
      ((Slot.clip x ρ).reg (s.replay l)).value = ((Slot.clip x ρ).reg s).value ∧
        (((Slot.clip x ρ).reg (s.replay l)).tag = .initial ↔
          ((Slot.clip x ρ).reg s).tag = .initial) := by
    intro x ρ hx
    have hσ : ∀ e ∈ m, ∀ y ρ', e.forward = .deleteClip y → Slot.clip x ρ ≠ .clip y ρ' := by
      rintro e he y ρ' hop heq
      obtain ⟨rfl, -⟩ := Slot.clip.inj heq
      exact hx e he hop
    exact ⟨(h.keeps hops hn hσ).1, (h.keeps hops hn hσ).2 fun t ρ' heq => by cases heq⟩
  constructor
  · exact (h.replay hops hn).1
  · exact fun t ρ => (h.keeps hops hn fun _ _ _ _ _ heq => by cases heq).1
  · exact fun κ => (h.keeps hops hn fun _ _ _ _ _ heq => by cases heq).1
  · exact fun ρ => (h.keeps hops hn fun _ _ _ _ _ heq => by cases heq).1
  · intro x
    by_cases hx : ∃ e ∈ m, e.forward = .deleteClip x
    · obtain ⟨e, he, hop⟩ := hx
      rw [((h.replay hops hn).2 _).1, if_pos]
      refine ⟨e, he, ?_⟩
      rw [hop]
      exact Option.isSome_iff_exists.mpr ⟨false, if_pos rfl⟩
    · exact (hkept x .alive fun e he hop => hx ⟨e, he, hop⟩).1
  · intro x ρ _ halive
    refine hkept x ρ fun e he hop => ?_
    obtain ⟨c, hc, hdead⟩ := h.dead e he x hop
    rw [Slot.reg, hc] at halive
    exact Bool.false_ne_true (hdead.symm.trans halive)

end

/-! ## Fields overwritten -/

section

variable {c : ClipCrdt} (f : (φ : Field) → Option φ.Value)
  (g : ClipId → (φ : Field) → Option φ.Value)
  (t : OpTag)

theorem reg_overwrite (φ : Field) :
    φ.reg (c.overwrite f t) = (f φ).elim (φ.reg c) fun v => ⟨v, t⟩ := by
  cases φ <;> rfl

theorem clips_overwrite (s : Session) (x : ClipId) :
    (s.overwrite g t).clips[x]? = s.clips[x]?.map fun c => c.overwrite (g x) t := by
  rw [overwrite, Std.ExtTreeMap.getElem?_map]

theorem retold_overwrite (s : Session) : Retold s (s.overwrite g t) := by
  have hclip : ∀ x (ρ : ClipReg), (∀ φ, ρ ≠ .field φ) →
      (Slot.clip x ρ).reg (s.overwrite g t) = (Slot.clip x ρ).reg s := by
    intro x ρ hρ
    rw [Slot.reg, Slot.reg, clips_overwrite]
    rcases s.clips[x]? with _ | c
    · rfl
    · rcases ρ with _ | _ | _ | φ
      · rfl
      · rfl
      · rfl
      · exact absurd rfl (hρ φ)
  constructor
  · refine ⟨fun x => ?_, fun _ => Iff.rfl, fun _ => Iff.rfl⟩
    rw [clips_overwrite]
    rcases s.clips[x]? <;> rfl
  · exact fun _ _ => rfl
  · exact fun _ => rfl
  · exact fun _ => rfl
  · exact fun x => congrArg LwwReg.value (hclip x .alive fun φ h => by cases h)
  · intro x ρ hρ _
    have hne : ∀ φ, ρ ≠ .field φ := by
      rintro φ rfl
      rcases hρ with h | h <;> cases h
    rw [hclip x ρ hne]
    exact ⟨rfl, Iff.rfl⟩

end

/-- Replayed over their inverses, edits leave the values of every clip as what is left over makes
them. -/
theorem Retraced.valuesOf_replay (h : s.Retraced m) {l : List TaggedOperation}
    (hops : l.map (·.operation) = m.map (·.inverse) ++ m.reverse.map (·.forward))
    (hn : machine.Along (fun s o => s.Newest o.tag) s l) (hf : s.Forest) {t : OpTag}
    (ht : t ≠ .initial) (y : ClipId) :
    (s.overwrite (leftover m) t).valuesOf y = (s.replay l).valuesOf y := by
  have hshape := (retold_overwrite (leftover m) t s).symm.trans (h.retold hops hn)
  have hsame : ∀ z : ClipId, Option.Rel SameFields (s.overwrite (leftover m) t).clips[z]?
      (s.replay l).clips[z]? := by
    intro z
    have hrel := hshape.rel z
    have hfield := h.field hops hn z
    rw [clips_overwrite] at hrel ⊢
    rcases hc : s.clips[z]? with _ | c <;> rcases hd : (s.replay l).clips[z]? with _ | d <;>
      rw [hc, hd] at hrel <;> cases hrel
    · exact .none
    rename_i hframe
    refine .some ⟨(congrArg ClipFrame.parent hframe).symm, fun φ => ?_, fun φ => ?_⟩ <;>
      obtain ⟨hvalue, htag⟩ := hfield φ <;>
        simp only [Slot.reg, hc, hd, Option.getD_some] at hvalue htag
    · refine Eq.trans ?_ hvalue.symm
      rw [Field.value, reg_overwrite]
      rcases leftover m z φ <;> rfl
    · refine Iff.trans ?_ (not_congr htag).symm
      rw [Field.Written, reg_overwrite]
      rcases leftover m z φ with _ | v
      · exact not_congr (and_iff_left rfl).symm
      · exact iff_of_true ht fun h => Option.some_ne_none v h.2
  by_cases hy : y ∈ s.clips
  · obtain ⟨k, hl⟩ := hf.lineage hy
    obtain ⟨k', hl', -⟩ := (retold_overwrite (leftover m) t s).lineage hl
    exact hl'.valuesOf_congr fun z _ => hsame z
  · have hrel := hsame y
    have hnone : (s.overwrite (leftover m) t).clips[y]? = none := by
      rw [clips_overwrite, BTreeMap.not_mem_iff.mp hy]
      rfl
    rw [hnone] at hrel
    rw [valuesOf, valuesOf, hnone]
    rcases hd : (s.replay l).clips[y]? with _ | d
    · rfl
    · rw [hd] at hrel
      cases hrel

/-- The view is the same exactly if what is left over changes no value of a visible clip. -/
theorem Retraced.materialize_iff (h : s.Retraced m) {l : List TaggedOperation}
    (hops : l.map (·.operation) = m.map (·.inverse) ++ m.reverse.map (·.forward))
    (hn : machine.Along (fun s o => s.Newest o.tag) s l) (hf : s.Forest) {t : OpTag}
    (ht : t ≠ .initial) : (s.replay l).materialize = s.materialize ↔
      ∀ (y : ClipId) (u w : ResolvedClip), s.resolveClip y = some (some u) →
        (s.overwrite (leftover m) t).resolveClip y = some (some w) →
          u.visible = true ∨ w.visible = true → u.values = w.values := by
  have hretold := h.retold hops hn
  have hover := retold_overwrite (leftover m) t s
  rw [hretold.materialize_iff hf]
  refine forall_congr' fun y => ?_
  rw [← hover.shows_eq_iff hf, (hover.symm.trans hretold).shows_eq (hover.forest hf)
    (h.valuesOf_replay hops hn hf ht y)]

end Session

namespace TimelineCrdt

variable {peer : PeerId} {c c' c'' : TimelineCrdt} {op : TimelineOperation}
  {l l' : List TaggedOperation} {m rest : List HistoryEntry} {e : HistoryEntry}

/-! ## Undo and redo -/

/-- From `c` to `c'` the operations `l` have been issued, each under the newest tag. -/
structure Issues (c c' : TimelineCrdt) (l : List TaggedOperation) : Prop where
  session : c'.session = c.session.replay l
  newest : Session.machine.Along (fun s o => s.Newest o.tag) c.session l
  bounded : Bounded c'
  counter : c'.lamport.counter.toNat = c.lamport.counter.toNat + l.length

namespace Issues

theorem refl (hb : Bounded c) : Issues c c [] := ⟨rfl, trivial, hb, rfl⟩

theorem trans (h : Issues c c' l) (h' : Issues c' c'' l') : Issues c c'' (l ++ l') where
  session := by rw [h'.session, h.session, Session.replay_append]
  newest := by
    refine Machine.along_append.mpr ⟨h.newest, ?_⟩
    have hnewest := h'.newest
    rwa [h.session] at hnewest
  bounded := h'.bounded
  counter := by rw [h'.counter, h.counter, List.length_append, Nat.add_assoc]

theorem stamp (hb : Bounded c) (hl : c.lamport.counter.toNat < u64Max.toNat)
    (op : TimelineOperation) (h₀ h₁ : History) :
    Issues c { ({ c with history := h₀ }.stamp op none).2 with history := h₁ } [c.tagNext op] := by
  obtain ⟨s, p, h, he⟩ := stamp_eq { c with history := h₀ } op none
  refine ⟨stamp_session op none, ⟨hb.newest (UInt64.lt_iff_toNat_lt.mpr hl) op, trivial⟩,
    ((hb.withHistory h₀).stamp op none).withHistory h₁, ?_⟩
  rw [he]
  change (saturatingAdd c.lamport.counter 1).toNat = c.lamport.counter.toNat + 1
  rw [toNat_saturatingAdd, UInt64.toNat_one]
  rw [u64Max_toNat] at hl
  omega

end Issues

theorem undo_issues (hb : Bounded c) (hl : c.lamport.counter.toNat < u64Max.toNat)
    (h : c.history.undoStack = e :: rest) : Issues c c.undo.2 [c.tagNext e.inverse] ∧
      c.undo.2.history.undoStack = rest ∧
        c.undo.2.history.redoStack = e :: c.history.redoStack := by
  have hpop : c.history.popUndo = some (e, { c.history with undoStack := rest }) := by
    rw [History.popUndo, h]
  rw [undo, hpop]
  refine ⟨.stamp hb hl _ _ _, ?_, ?_⟩ <;> simp only [History.pushRedo, stamp_history] <;>
    split_ifs <;> rfl

theorem redo_issues (hb : Bounded c) (hl : c.lamport.counter.toNat < u64Max.toNat)
    (h : c.history.redoStack = e :: rest) : Issues c c.redo.2 [c.tagNext e.forward] ∧
      c.redo.2.history.redoStack = rest := by
  have hpop : c.history.popRedo = some (e, { c.history with redoStack := rest }) := by
    rw [History.popRedo, h]
  rw [redo, hpop]
  refine ⟨.stamp hb hl _ _ _, ?_⟩
  simp only [History.pushUndo, stamp_history]
  split_ifs <;> rfl

/-- Undos issue the inverses of the entries on top of the stack. -/
theorem exists_issues_undoTimes :
    ∀ {m : List HistoryEntry} {c : TimelineCrdt}, Bounded c →
      c.lamport.counter.toNat + m.length ≤ u64Max.toNat → c.history.undoStack = m ++ rest →
        ∃ l, Issues c (undoTimes m.length c) l ∧ l.map (·.operation) = m.map (·.inverse) ∧
          (undoTimes m.length c).history.redoStack = m.reverse ++ c.history.redoStack
  | [], c, hb, _, _ => ⟨[], .refl hb, rfl, rfl⟩
  | e :: m, c, hb, hl, h => by
    rw [List.length_cons] at hl
    obtain ⟨hi, hundo, hredo⟩ := undo_issues hb (by omega) h
    have hl' : c.undo.2.lamport.counter.toNat + m.length ≤ u64Max.toNat := by
      rw [hi.counter, List.length_singleton]
      omega
    obtain ⟨l, hl, hops, hstack⟩ := exists_issues_undoTimes hi.bounded hl' hundo
    refine ⟨_, hi.trans hl, congrArg (e.inverse :: ·) hops, ?_⟩
    rw [List.reverse_cons, List.append_assoc, List.singleton_append, ← hredo]
    exact hstack

/-- Redos issue the entries that were undone last. -/
theorem exists_issues_redoTimes :
    ∀ {m : List HistoryEntry} {c : TimelineCrdt}, Bounded c →
      c.lamport.counter.toNat + m.length ≤ u64Max.toNat → c.history.redoStack = m ++ rest →
        ∃ l, Issues c (redoTimes m.length c) l ∧ l.map (·.operation) = m.map (·.forward)
  | [], c, hb, _, _ => ⟨[], .refl hb, rfl⟩
  | e :: m, c, hb, hl, h => by
    rw [List.length_cons] at hl
    obtain ⟨hi, hredo⟩ := redo_issues hb (by omega) h
    have hl' : c.redo.2.lamport.counter.toNat + m.length ≤ u64Max.toNat := by
      rw [hi.counter, List.length_singleton]
      omega
    obtain ⟨l, hl, hops⟩ := exists_issues_redoTimes hi.bounded hl' hredo
    exact ⟨_, hi.trans hl, congrArg (e.forward :: ·) hops⟩

/-! ## Runs of edits -/

/-- A run of edits, as many as the stack holds. -/
structure EditRun (peer : PeerId) (c : TimelineCrdt) : Prop extends LocalRun peer c where
  bounded : Bounded c
  counter : c.lamport.counter.toNat = c.history.undoStack.length
  capacity : c.history.capacity = 256
  retraced : ∀ m, m <+: c.history.undoStack → c.session.Retraced m

/-- An edit that brings in what is not there, and finds its targets, has an inverse. -/
theorem exists_inverse {s : Session} {inv : Option TimelineOperation} (hf : s.Forest)
    (ht : s.HasTargets op) (hfresh : ∀ r, op.introduced = some r → ¬s.HasTarget r)
    (hi : computeInverse op s = some inv) : ∃ i, inv = some i := by
  have hclip : ∀ {x : ClipId} {f : Session.ResolvedClip → TimelineOperation}, x ∈ s.clips →
      (s.resolveClip x).map (fun prev => prev.map f) = some inv → ∃ i, inv = some i := by
    intro x f hx hi
    obtain ⟨l, hl⟩ := hf.lineage hx
    obtain ⟨r, hr⟩ := hl.resolveClip_some
    rw [hr] at hi
    exact ⟨_, (Option.some.inj hi).symm⟩
  rcases op with x | x | x | ⟨p, f, n⟩ | x | x | t | t | t | _ | _ <;>
    simp only [computeInverse] at hi
  case insertClip =>
    have hx : x ∉ s.clips := hfresh (.clip x) rfl
    rw [if_neg hx] at hi
    exact ⟨_, (Option.some.inj hi).symm⟩
  case moveClip | deleteClip | trimClip | updateClipMetadata =>
    exact hclip (ht (.clip x) List.mem_cons_self) hi
  case splitClip =>
    have hn : n ∉ s.clips := hfresh (.clip n) rfl
    rw [if_neg hn] at hi
    exact ⟨_, (Option.some.inj hi).symm⟩
  case insertTrack =>
    rcases hx : s.tracks[t]? with _ | prev <;> simp only [hx] at hi <;>
      exact ⟨_, (Option.some.inj hi).symm⟩
  case updateTrackMetadata | deleteTrack =>
    obtain ⟨r, hr⟩ := BTreeMap.mem_iff.mp (ht (.track t) List.mem_cons_self)
    rw [hr] at hi
    exact ⟨_, (Option.some.inj hi).symm⟩
  case updateEnvelope => exact ⟨_, (Option.some.inj hi).symm⟩
  case updateSessionMetadata =>
    obtain ⟨v, -, hv⟩ := Option.map_eq_some_iff.mp hi
    exact ⟨_, hv.symm⟩

namespace EditRun

theorem new (peer : PeerId) : EditRun peer (.new peer) where
  toLocalRun := .new peer
  bounded := .new peer
  counter := rfl
  capacity := rfl
  retraced _ hm := List.prefix_nil.mp hm ▸ Session.retraced_nil _

theorem call (h : EditRun peer c) {k : Call} (hk : c.EditCall k)
    (hlen : c.history.undoStack.length < 256) (hc : c.call k = some c') :
    EditRun peer c' ∧ c'.history.undoStack.length = c.history.undoStack.length + 1 := by
  rcases k with op | _ | _ | _ | _ <;> try exact hk.elim
  obtain ⟨hadmits, ht⟩ := hk
  have hl : c.lamport.counter < u64Max := by
    rw [UInt64.lt_iff_toNat_lt, h.counter, u64Max_toNat]
    omega
  have hfresh : ∀ r, op.introduced = some r → ¬c.session.HasTarget r := by
    intro r hr htarget
    rw [Admits, hr] at hadmits
    exact h.not_unused htarget hadmits
  have htakes : c.session.Takes op := by
    refine ⟨ht, fun {p f n} hop => ⟨?_, fun d hd => ?_⟩⟩
    · rintro rfl
      exact hfresh (.clip p) (by rw [hop]; rfl) (ht _ (by rw [hop]; exact List.mem_cons_self))
    · exact absurd (BTreeMap.mem_iff.mpr ⟨d, hd⟩) (hfresh (.clip n) (by rw [hop]; rfl))
  have hrun : LocalRun peer c' :=
    h.toLocalRun.call (show c.UserCall (.applyLocal op) from hadmits) (fun _ => hl) hc
  obtain ⟨⟨t, c₁⟩, h1, rfl⟩ := Option.map_eq_some_iff.mp hc
  obtain ⟨inv, hi, h2⟩ := Option.map_eq_some_iff.mp h1
  obtain rfl : (c.stamp op inv).2 = c₁ := congrArg Prod.snd h2
  obtain ⟨i, rfl⟩ := exists_inverse h.forest ht hfresh hi
  have hok : c.session.Succeeds (c.tagNext op) := Session.succeeds_of_hasTargets ht
  have hhist : (c.stamp op (some i)).2.history =
      ⟨⟨op, i⟩ :: c.history.undoStack, [], c.history.capacity⟩ := by
    rw [stamp_history, if_pos hok, Option.elim_some, History.record, h.capacity,
      if_neg (not_le.mpr hlen)]
  have hsess : (c.stamp op (some i)).2.session = c.session.exec (c.tagNext op) :=
    stamp_session op (some i)
  refine ⟨⟨hrun, h.bounded.stamp op (some i), ?_, ?_, ?_⟩, ?_⟩
  · have hclock : (c.stamp op (some i)).2.lamport = c.lamport.tick.2 := by
      obtain ⟨s, p, h₀, he⟩ := stamp_eq c op (some i)
      rw [he]
    rw [hhist, hclock, List.length_cons, ← h.counter]
    change (saturatingAdd c.lamport.counter 1).toNat = _
    rw [UInt64.lt_iff_toNat_lt, u64Max_toNat] at hl
    rw [toNat_saturatingAdd, UInt64.toNat_one]
    omega
  · rw [hhist]
    exact h.capacity
  · intro m hm
    rw [hhist] at hm
    rw [hsess]
    rcases List.prefix_cons_iff.mp hm with rfl | ⟨m, rfl, hm'⟩
    · exact Session.retraced_nil _
    · exact (h.retraced m hm').cons (h.bounded.newest hl op) htakes hfresh hi
  · rw [hhist]
    rfl

theorem run :
    ∀ {calls : List Call} {c c' : TimelineCrdt}, EditRun peer c →
      c.history.undoStack.length + calls.length ≤ 256 →
        engine.Along (fun c k => ∀ c₀, c = some c₀ → c₀.EditCall k) (some c) calls →
          engine.run (some c) calls = some c' →
            EditRun peer c' ∧ c'.history.undoStack.length ≤ 256
  | [], c, c', h, hlen, _, hc => Option.some.inj hc ▸ ⟨h, hlen⟩
  | k :: calls, c, c', h, hlen, hedits, hc => by
    rw [List.length_cons] at hlen
    obtain ⟨hk, hedits⟩ := Machine.along_cons.mp hedits
    rw [Machine.run_cons] at hc
    rcases hcall : c.call k with _ | c₁
    · rw [show engine.step (some c) k = none from hcall, Machine.run_fixed fun _ => rfl] at hc
      cases hc
    · rw [show engine.step (some c) k = some c₁ from hcall] at hc hedits
      obtain ⟨h₁, hlen₁⟩ := h.call (hk c rfl) (by omega) hcall
      exact run h₁ (by omega) hedits hc

end EditRun

/-- After a run of at most as many edits as the history holds, the last of them undone and done
again give the view back exactly where they retrace. -/
theorem redoTimes_undoTimes_iff (peer : PeerId) (calls : List Call) (hlen : calls.length ≤ 256)
    (hedits : engine.Along (fun c k => ∀ c₀, c = some c₀ → c₀.EditCall k) (some (new peer)) calls)
    {c : TimelineCrdt} (hc : afterCalls peer calls = some c) (k : ℕ)
    (hk : k ≤ c.history.undoStack.length) :
    ((c.undoTimes k).redoTimes k).view = c.view ↔ c.Retraces k := by
  obtain ⟨h, hstack⟩ := EditRun.run (.new peer) (by simpa [new, History.new] using hlen) hedits hc
  have hlen : (c.history.undoStack.take k).length = k := by rw [List.length_take, min_eq_left hk]
  have hcount := h.counter
  have hmax := u64Max_toNat
  obtain ⟨l, hl, hops, hredo⟩ := exists_issues_undoTimes h.bounded
    (m := c.history.undoStack.take k) (by omega) (List.take_append_drop k _).symm
  rw [hlen] at hl hredo
  have hrev : (c.history.undoStack.take k).reverse.length = k := by rw [List.length_reverse, hlen]
  have hl' := congrArg List.length hops
  rw [List.length_map, List.length_map, hlen] at hl'
  obtain ⟨l', hl₂, hops'⟩ := exists_issues_redoTimes hl.bounded
    (m := (c.history.undoStack.take k).reverse) (by rw [hl.counter, hrev]; omega) hredo
  rw [hrev] at hl₂
  have hall := hl.trans hl₂
  have htag : (⟨c.lamport.tick.1, c.localPeerId⟩ : OpTag) ≠ .initial :=
    Session.Newest.ne_initial (t := (c.tagNext (.deleteClip ⟨0⟩)).tag)
      (h.bounded.newest (UInt64.lt_iff_toNat_lt.mpr (by omega)) (.deleteClip ⟨0⟩))
  rw [view, view, hall.session]
  exact (h.retraced _ (List.take_prefix k _)).materialize_iff
    (by rw [List.map_append, hops, hops']) hall.newest h.forest htag

/-- A clip of half the gain is split, its second half trimmed and its first half deleted. -/
def halvedCalls : List Call :=
  [.applyLocal (.insertTrack ⟨1⟩ (.new "t") 0),
    .applyLocal (.insertClip ⟨1⟩ ⟨1⟩ (.new "c" 0 1000) 0),
    .applyLocal (.updateClipMetadata ⟨1⟩ { gain := some ⟨0x3F000000⟩ }),
    .applyLocal (.splitClip ⟨1⟩ 400 ⟨2⟩), .applyLocal (.trimClip ⟨2⟩ 400 300 .end),
    .applyLocal (.deleteClip ⟨1⟩)]

theorem halvedCalls_edits : engine.Along (fun c k => ∀ c₀, c = some c₀ → c₀.EditCall k)
    (some (new ⟨1⟩)) halvedCalls := by
  refine ⟨?_, ?_, ?_, ?_, ?_, ?_, trivial⟩
  all_goals
    rintro c ⟨⟩
    decide +kernel

theorem halvedCalls_redo : ∃ c, afterCalls ⟨1⟩ halvedCalls = some c ∧
    (((c.undoTimes 1).redoTimes 1).view = c.view ↔ c.Retraces 1) :=
  ⟨_, rfl, redoTimes_undoTimes_iff ⟨1⟩ halvedCalls (by decide) halvedCalls_edits rfl 1
    (by decide +kernel)⟩

/-- Undone and done again, the delete has given the second half the gain of the inverse. -/
theorem halvedCalls_redo_gain : halvedCalls.length ≤ 256 ∧
    engine.Along (fun c k => ∀ c₀, c = some c₀ → c₀.EditCall k) (some (new ⟨1⟩)) halvedCalls ∧
      ∃ c, afterCalls ⟨1⟩ halvedCalls = some c ∧ 1 ≤ c.history.undoStack.length ∧
        ((c.undoTimes 1).redoTimes 1).view ≠ c.view := by
  refine ⟨by decide, halvedCalls_edits, _, rfl, by decide +kernel, fun h => ?_⟩
  exact absurd (congrArg (Option.map fun v => v.clips.map (·.values.gain)) h) (by decide +kernel)

end TimelineCrdt

end AvSync
