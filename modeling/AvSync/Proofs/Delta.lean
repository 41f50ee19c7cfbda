import AvSync.Delta
import AvSync.Proofs.Bare
import AvSync.Proofs.Slots
import AvSync.Proofs.Splits
import AvSync.Proofs.Undone

/-!
# What a delta transfers

The operations of a delta are newer than the session and find their targets, so each slot ends up
with what the last of them writes there (`Slot.reg_replay`). The tracks, the metadata and the
envelopes of the result are read off slot by slot, and so are the clips of a session without splits.
-/

namespace AvSync

namespace Session

variable {s s' : Session} {v v' old new : SessionView}

/-! ## Views are well formed -/

theorem nodup_trackViews : (s.trackViews.map (·.trackId)).Nodup := by
  have hperm := (List.perm_insertionSort (fun a b => trackKey a ≤ trackKey b)
    ((s.tracks.toList.filter (·.2.alive.value)).map fun e => trackView e.1 e.2)).map (·.trackId)
  refine hperm.nodup_iff.mpr ?_
  rw [List.map_map]
  have hkeys : (s.tracks.toList.map (·.1)).Nodup := by
    rw [Std.ExtTreeMap.map_fst_toList_eq_keys]
    exact s.tracks.keys_pairwise_lt.imp fun h => h.ne
  exact (List.filter_sublist.map _).nodup hkeys

theorem pairwise_trackViews : s.trackViews.Pairwise fun a b => trackKey a < trackKey b := by
  have htot : Std.Total fun a b : TrackView => trackKey a ≤ trackKey b :=
    ⟨fun a b => le_total _ _⟩
  have htr : IsTrans TrackView fun a b => trackKey a ≤ trackKey b := ⟨fun a b c => le_trans⟩
  have hsorted : s.trackViews.Pairwise fun a b => trackKey a ≤ trackKey b :=
    List.pairwise_insertionSort _ _
  refine (hsorted.and (List.pairwise_map.mp nodup_trackViews)).imp fun ⟨hle, hne⟩ =>
    lt_of_le_of_ne hle fun heq => hne ?_
  simp only [trackKey, EmbeddingLike.apply_eq_iff_eq, Prod.mk.injEq] at heq
  exact heq.2

theorem start_add_visibleLength_lt (c : ClipCrdt) (r : UInt64 × UInt64) :
    r.1.toNat + (c.visibleLength r).toNat < 2 ^ 64 := by
  have h1 := visibleLength_le c r
  have h2 := r.1.toNat_lt
  have h3 := r.2.toNat_lt
  omega

/-- Whatever a session has been through, its view is well formed. -/
theorem materialize_wellFormed (h : s.materialize = some v) : v.WellFormed := by
  obtain ⟨-, htracks, -⟩ := view_parts h
  refine ⟨htracks ▸ nodup_trackViews, htracks ▸ pairwise_trackViews,
    nodup_clips_of_materialize h, ?_, fun c hc => ?_, fun c hc => ?_⟩
  · refine ((pairwise_clips_of_materialize h).and
      (List.pairwise_map.mp (nodup_clips_of_materialize h))).imp fun ⟨hle, hne⟩ => ?_
    refine lt_of_le_of_ne hle fun heq => hne ?_
    simp only [clipKey, EmbeddingLike.apply_eq_iff_eq, Prod.mk.injEq] at heq
    exact heq.2.2.2.2
  · obtain ⟨d, a, r, -, -, -, -, hlive, -, heq⟩ := shows_eq_some.mp ((mem_clips_iff h).mp hc)
    obtain ⟨t, hr, halive⟩ := hlive
    refine ⟨trackView a.trackId t, ?_, by rw [heq]; rfl⟩
    rw [htracks, mem_trackViews, trackShown_eq_some]
    exact ⟨t, hr, halive, rfl⟩
  · obtain ⟨d, a, r, -, -, -, -, -, hpos, heq⟩ := shows_eq_some.mp ((mem_clips_iff h).mp hc)
    rw [heq]
    exact ⟨hpos, start_add_visibleLength_lt d r⟩

end Session

/-! ## Runs of fresh writes -/

namespace Slot

variable {s : Session} {l m : List TimelineOperation} {op : TimelineOperation}

/-- The value that the last of some operations sets in the slot. -/
def lastWrite (σ : Slot) (l : List TimelineOperation) : Option σ.Value :=
  l.reverse.findSome? σ.writes

theorem lastWrite_append (σ : Slot) :
    σ.lastWrite (l ++ m) = (σ.lastWrite m).or (σ.lastWrite l) := by
  rw [lastWrite, List.reverse_append, List.findSome?_append, lastWrite, lastWrite]

theorem lastWrite_cons (σ : Slot) :
    σ.lastWrite (op :: l) = (σ.lastWrite l).or (σ.writes op) := by
  rw [← List.singleton_append, lastWrite_append]
  simp [lastWrite]

theorem lastWrite_singleton (σ : Slot) : σ.lastWrite [op] = σ.writes op := by
  simp [lastWrite]

theorem lastWrite_eq_none {σ : Slot} : σ.lastWrite l = none ↔ ∀ op ∈ l, σ.writes op = none := by
  simp [lastWrite]

/-- Of lists that write the slot for one entry at most, the one for that entry counts. -/
theorem lastWrite_flatMap {α ι : Type} {σ : Slot} {f : α → List TimelineOperation} {i : α → ι}
    {a : α} (hoff : ∀ b, i b ≠ i a → σ.lastWrite (f b) = none) :
    ∀ {l : List α}, (l.map i).Nodup → a ∈ l → σ.lastWrite (l.flatMap f) = σ.lastWrite (f a)
  | _ :: l, hl, ha => by
    rw [List.map_cons, List.nodup_cons] at hl
    rw [List.flatMap_cons, lastWrite_append]
    rcases List.mem_cons.mp ha with rfl | ha
    · have hrest : σ.lastWrite (l.flatMap f) = none := by
        refine lastWrite_eq_none.mpr fun op hop => ?_
        obtain ⟨b, hb, hop⟩ := List.mem_flatMap.mp hop
        refine lastWrite_eq_none.mp (hoff b fun h => hl.1 ?_) op hop
        exact h ▸ List.mem_map_of_mem hb
      rw [hrest, Option.none_or]
    · rw [hoff _ fun h => hl.1 (h ▸ List.mem_map_of_mem ha), Option.or_none,
        lastWrite_flatMap hoff hl.2 ha]

end Slot

namespace Session

variable {s : Session} {l : List TaggedOperation}

/-- The tags are newer than the session, one after the other. -/
structure Stamped (s : Session) (l : List TaggedOperation) : Prop where
  newest : ∀ o ∈ l, s.Newest o.tag
  increasing : l.Pairwise fun a b => a.tag < b.tag

theorem Stamped.tail {o : TaggedOperation} (h : s.Stamped (o :: l)) : (s.exec o).Stamped l where
  newest _ hb := (h.newest o List.mem_cons_self).exec (List.rel_of_pairwise_cons h.increasing hb)
  increasing := h.increasing.of_cons

theorem Stamped.append : ∀ {l m : List TaggedOperation} {s : Session}, s.Stamped (l ++ m) →
    s.Stamped l ∧ (s.replay l).Stamped m
  | [], _, _, h => ⟨⟨fun _ ho => absurd ho List.not_mem_nil, .nil⟩, h⟩
  | o :: l, m, s, h => by
    obtain ⟨-, hm⟩ := append (l := l) h.tail
    refine ⟨⟨fun b hb => h.newest b ?_, h.increasing.sublist ?_⟩, hm⟩
    · exact (List.mem_append_left m hb : b ∈ o :: l ++ m)
    · exact List.sublist_append_left (o :: l) m

/-- The operations find their targets, and split nothing. -/
def Finds (s : Session) (l : List TaggedOperation) : Prop :=
  ∀ o ∈ l, s.HasTargets o.operation ∧ ¬o.operation.IsSplit

theorem Finds.tail {o : TaggedOperation} (h : s.Finds (o :: l)) : (s.exec o).Finds l :=
  fun b hb => ⟨(h b (List.mem_cons_of_mem o hb)).1.exec, (h b (List.mem_cons_of_mem o hb)).2⟩

theorem takes_of_finds {o : TaggedOperation} (h : s.Finds (o :: l)) : s.Takes o.operation where
  targets := (h o List.mem_cons_self).1
  split hop := absurd (by rw [hop]; trivial) (h o List.mem_cons_self).2

end Session

/-- A slot holds what was written there last. -/
theorem Slot.reg_replay (σ : Slot) : ∀ {l : List TaggedOperation} {s : Session},
    s.Stamped l → s.Finds l →
      (σ.lastWrite (l.map (·.operation)) = none ∧ σ.reg (s.replay l) = σ.reg s) ∨
      ∃ v, σ.lastWrite (l.map (·.operation)) = some v ∧
        ∃ o ∈ l, σ.reg (s.replay l) = ⟨v, o.tag⟩
  | [], _, _, _ => Or.inl ⟨rfl, rfl⟩
  | o :: l, s, h, hf => by
    have hexec := Slot.reg_exec (h.newest o List.mem_cons_self) (Session.takes_of_finds hf) σ
    rw [List.map_cons, lastWrite_cons]
    rcases reg_replay σ h.tail hf.tail with ⟨hnone, hreg⟩ | ⟨v, hv, b, hb, hreg⟩
    · rw [hnone, Option.none_or]
      rcases hw : σ.writes o.operation with _ | v
      · exact Or.inl ⟨rfl, hreg.trans (by rw [hexec, hw]; rfl)⟩
      · exact Or.inr ⟨v, rfl, o, List.mem_cons_self, hreg.trans (by rw [hexec, hw]; rfl)⟩
    · exact Or.inr ⟨v, by rw [hv, Option.some_or], b, List.mem_cons_of_mem o hb, hreg⟩

/-- The values of the slots afterwards. -/
theorem Slot.value_replay (σ : Slot) {l : List TaggedOperation} {s : Session} (h : s.Stamped l)
    (hf : s.Finds l) : (σ.reg (s.replay l)).value =
      (σ.lastWrite (l.map (·.operation))).getD (σ.reg s).value := by
  rcases σ.reg_replay h hf with ⟨hnone, hreg⟩ | ⟨v, hv, o, -, hreg⟩
  · rw [hnone, hreg, Option.getD_none]
  · rw [hv, hreg, Option.getD_some]

namespace Session

variable {s s' : Session} {v old new : SessionView} {base : OpTag} {ops : List TimelineOperation}

/-- The operations of a delta with their tags. -/
def tagged (base : OpTag) : ℕ → List TimelineOperation → List TaggedOperation
  | _, [] => []
  | n, op :: l =>
    let lamport := saturatingAdd base.lamport (UInt64.ofNat n)
    ⟨⟨lamport, base.peer⟩, op, lamport, .new, base.peer⟩ :: tagged base (n + 1) l

theorem map_operation_tagged : ∀ (n : ℕ) (ops : List TimelineOperation),
    (tagged base n ops).map (·.operation) = ops
  | _, [] => rfl
  | n, _ :: l => congrArg _ (map_operation_tagged (n + 1) l)

theorem mem_of_tagged {n : ℕ} {o : TaggedOperation} (h : o ∈ tagged base n ops) :
    o.operation ∈ ops := by
  have hmem := List.mem_map_of_mem (f := (·.operation)) h
  rwa [map_operation_tagged] at hmem

theorem exists_mem_tagged {op : TimelineOperation} (h : op ∈ ops) (n : ℕ) :
    ∃ o ∈ tagged base n ops, o.operation = op := by
  have hops : (tagged base n ops).map (·.operation) = ops := map_operation_tagged n ops
  rw [← hops] at h
  exact List.mem_map.mp h

theorem tagged_append : ∀ (n : ℕ) (l m : List TimelineOperation),
    tagged base n (l ++ m) = tagged base n l ++ tagged base (n + l.length) m
  | _, [], _ => rfl
  | n, op :: l, m => by
    rw [List.length_cons, Nat.add_comm l.length, ← Nat.add_assoc]
    exact congrArg _ (tagged_append (n + 1) l m)

theorem applyDelta_eq (s : Session) (ops : List TimelineOperation) (base : OpTag) :
    s.applyDelta ops base = s.replay (tagged base 0 ops) := by
  have key : ∀ (ops : List TimelineOperation) (n : ℕ) (s : Session),
      (ops.zipIdx n).foldl (fun s e =>
        (s.apply e.1 ⟨saturatingAdd base.lamport (UInt64.ofNat e.2), base.peer⟩).2) s =
        s.replay (tagged base n ops) := by
    intro ops
    induction ops with
    | nil => exact fun _ _ => rfl
    | cons op l ih => exact fun n s => ih (n + 1) _
  exact key ops 0 s

/-- The tags of a delta go up from the base tag. -/
theorem stamped_tagged (hnew : s.Newest base) :
    ∀ {n : ℕ} {ops : List TimelineOperation}, base.lamport.toNat + n + ops.length < 2 ^ 64 →
      s.Stamped (tagged base n ops) := by
  have hlamport : ∀ {n : ℕ}, base.lamport.toNat + n < 2 ^ 64 →
      (saturatingAdd base.lamport (UInt64.ofNat n)).toNat = base.lamport.toNat + n := by
    intro n hn
    rw [toNat_saturatingAdd, UInt64.toNat_ofNat', Nat.mod_eq_of_lt (by omega)]
    omega
  -- each tag is the base tag with a larger counter
  have hmem : ∀ {ops : List TimelineOperation} {n : ℕ},
      base.lamport.toNat + n + ops.length < 2 ^ 64 → ∀ o ∈ tagged base n ops,
        base.lamport.toNat + n ≤ o.tag.lamport.toNat ∧ o.tag.peer = base.peer := by
    intro ops
    induction ops with
    | nil => exact fun _ o ho => absurd ho List.not_mem_nil
    | cons op l ih =>
      intro n hn o ho
      rw [List.length_cons] at hn
      rcases List.mem_cons.mp ho with rfl | ho
      · exact ⟨(hlamport (by omega)).ge, rfl⟩
      · obtain ⟨h1, h2⟩ := ih (n := n + 1) (by omega) o ho
        exact ⟨by omega, h2⟩
  intro n ops hn
  refine ⟨fun o ho u hu => (hnew u hu).trans_le ?_, ?_⟩
  · obtain ⟨h1, h2⟩ := hmem hn o ho
    rcases (Nat.lt_or_eq_of_le (show base.lamport.toNat ≤ o.tag.lamport.toNat by omega)) with h | h
    · exact (OpTag.lt_iff.mpr (Or.inl (UInt64.lt_iff_toNat_lt.mpr h))).le
    · refine le_of_eq ?_
      rw [OpTag.mk.injEq]
      exact ⟨UInt64.toNat_inj.mp h, h2.symm⟩
  · induction ops generalizing n with
    | nil => exact .nil
    | cons op l ih =>
      rw [List.length_cons] at hn
      refine .cons (fun o ho => OpTag.lt_iff.mpr (Or.inl (UInt64.lt_iff_toNat_lt.mpr ?_)))
        (ih (by omega))
      obtain ⟨h1, -⟩ := hmem (n := n + 1) (by omega) o ho
      change (saturatingAdd base.lamport (UInt64.ofNat n)).toNat < _
      rw [hlamport (by omega)]
      omega

/-! ## The operations of a delta -/

theorem find?_eq_some_iff_of_nodup {α ι : Type} [DecidableEq ι] {id : α → ι} {l : List α}
    (hl : (l.map id).Nodup) {i : ι} {a : α} :
    (l.find? fun b => decide (id b = i)) = some a ↔ a ∈ l ∧ id a = i := by
  constructor
  · exact fun h => ⟨List.mem_of_find?_eq_some h, by simpa using List.find?_some h⟩
  · rintro ⟨ha, hi⟩
    rcases hf : l.find? fun b => decide (id b = i) with _ | b
    · exact absurd hi (by simpa using List.find?_eq_none.mp hf a ha)
    · have hb : id b = i := by simpa using List.find?_some hf
      rw [List.inj_on_of_nodup_map hl ha (List.mem_of_find?_eq_some hf) (hi.trans hb.symm)]

theorem SessionView.WellFormed.track_eq_some (h : v.WellFormed) {t : TrackId} {u : TrackView} :
    v.track t = some u ↔ u ∈ v.tracks ∧ u.trackId = t :=
  find?_eq_some_iff_of_nodup h.trackIds

theorem SessionView.WellFormed.clip_eq_some (h : v.WellFormed) {x : ClipId} {c : ClipView} :
    v.clip x = some c ↔ c ∈ v.clips ∧ c.clipId = x :=
  find?_eq_some_iff_of_nodup h.clipIds

theorem track_eq (h : s.materialize = some v) (t : TrackId) : v.track t = s.trackShown t := by
  ext u
  rw [(materialize_wellFormed h).track_eq_some, (view_parts h).2.1, mem_trackViews]
  constructor
  · rintro ⟨hu, rfl⟩
    exact hu
  · intro hu
    have hid : u.trackId = t := by
      obtain ⟨r, -, -, rfl⟩ := trackShown_eq_some.mp hu
      rfl
    exact ⟨hid.symm ▸ hu, hid⟩

theorem clip_eq (h : s.materialize = some v) (x : ClipId) : v.clip x = s.shows x := by
  ext c
  rw [(materialize_wellFormed h).clip_eq_some, mem_clips_iff h]
  constructor
  · rintro ⟨hc, rfl⟩
    exact hc
  · exact fun hc => ⟨(shows_clipId hc).symm ▸ hc, shows_clipId hc⟩

/-- The operations of a delta up to the envelopes. -/
def deltaBody (old new : SessionView) : List TimelineOperation :=
  new.tracks.flatMap (trackDelta old) ++
  (old.tracks.filter fun t => (new.track t.trackId).isNone).map (.deleteTrack ·.trackId) ++
  sessionDelta old.metadata new.metadata ++
  new.clips.flatMap (clipDelta old) ++
  (old.clips.filter fun c => (new.clip c.clipId).isNone).map (.deleteClip ·.clipId)

theorem mem_deltaBody {op : TimelineOperation} : op ∈ deltaBody old new ↔
    (∃ u ∈ new.tracks, op ∈ trackDelta old u) ∨
    (∃ u ∈ old.tracks, new.track u.trackId = none ∧ .deleteTrack u.trackId = op) ∨
    op ∈ sessionDelta old.metadata new.metadata ∨
    (∃ c ∈ new.clips, op ∈ clipDelta old c) ∨
    ∃ c ∈ old.clips, new.clip c.clipId = none ∧ .deleteClip c.clipId = op := by
  simp only [deltaBody, List.mem_append, List.mem_flatMap, List.mem_map, List.mem_filter,
    Option.isNone_iff_eq_none, or_assoc, and_assoc]

theorem mem_trackDelta {op : TimelineOperation} {u : TrackView} (h : op ∈ trackDelta old u) :
    op.editedTrack = some u.trackId ∧ op.editedClip = none ∧ ¬op.IsSplit ∧
      (op.requiredTargets = [] ∨
        op.requiredTargets = [.track u.trackId] ∧ ∃ w, old.track u.trackId = some w) := by
  unfold trackDelta at h
  rcases hu : old.track u.trackId with _ | w <;> rw [hu] at h
  · obtain rfl := List.mem_singleton.mp h
    exact ⟨rfl, rfl, id, Or.inl rfl⟩
  · dsimp only at h
    split_ifs at h
    · exact absurd h List.not_mem_nil
    · obtain rfl := List.mem_singleton.mp h
      exact ⟨rfl, rfl, id, Or.inr ⟨rfl, w, rfl⟩⟩

theorem mem_sessionDelta {op : TimelineOperation} {m m' : SessionMetadata}
    (h : op ∈ sessionDelta m m') : op = .updateSessionMetadata (sessionUpdates m m') := by
  unfold sessionDelta at h
  dsimp only at h
  split_ifs at h
  · exact absurd h List.not_mem_nil
  · exact List.mem_singleton.mp h

theorem mem_clipDelta {op : TimelineOperation} {c : ClipView} (h : op ∈ clipDelta old c) :
    op.editedClip = some c.clipId ∧ op.editedTrack = none ∧ ¬op.IsSplit ∧
      (op.requiredTargets = [] ∨
        op.requiredTargets = [.clip c.clipId] ∧ ∃ w, old.clip c.clipId = some w) := by
  unfold clipDelta at h
  rcases hc : old.clip c.clipId with _ | w <;> rw [hc] at h
  · obtain rfl := List.mem_singleton.mp h
    exact ⟨rfl, rfl, id, Or.inl rfl⟩
  · simp only [List.mem_append, List.mem_ite_nil_right, List.mem_ite_nil_left,
      List.mem_singleton] at h
    rcases h with (⟨-, rfl⟩ | ⟨-, rfl⟩) | ⟨-, rfl⟩ <;>
      exact ⟨rfl, rfl, id, Or.inr ⟨rfl, w, rfl⟩⟩

/-- All but the envelope updates find their targets. -/
theorem finds_deltaBody (hs : s.materialize = some old) (n : ℕ) :
    s.Finds (tagged base n (deltaBody old new)) := by
  have htrack : ∀ {t w}, old.track t = some w → t ∈ s.tracks := by
    intro t w h
    rw [track_eq hs] at h
    obtain ⟨r, hr, -⟩ := trackShown_eq_some.mp h
    exact BTreeMap.mem_iff.mpr ⟨r, hr⟩
  have hclip : ∀ {x w}, old.clip x = some w → x ∈ s.clips := by
    intro x w h
    rw [clip_eq hs] at h
    by_contra hx
    rw [shows_of_not_mem hx] at h
    cases h
  intro o ho
  have hop := mem_of_tagged ho
  rw [HasTargets]
  rcases mem_deltaBody.mp hop with ⟨u, -, h⟩ | ⟨u, hu, -, h⟩ | h | ⟨c, -, h⟩ | ⟨c, hc, -, h⟩
  · obtain ⟨-, -, hns, h | ⟨h, w, hw⟩⟩ := mem_trackDelta h
    · exact ⟨fun r hr => absurd hr (by rw [h]; exact List.not_mem_nil), hns⟩
    · refine ⟨fun r hr => ?_, hns⟩
      obtain rfl := List.mem_singleton.mp (h ▸ hr)
      exact htrack hw
  · rw [← h]
    refine ⟨fun r hr => ?_, id⟩
    obtain rfl := List.mem_singleton.mp hr
    exact htrack ((materialize_wellFormed hs).track_eq_some.mpr ⟨hu, rfl⟩)
  · rw [mem_sessionDelta h]
    exact ⟨fun r hr => absurd hr List.not_mem_nil, id⟩
  · obtain ⟨-, -, hns, h | ⟨h, w, hw⟩⟩ := mem_clipDelta h
    · exact ⟨fun r hr => absurd hr (by rw [h]; exact List.not_mem_nil), hns⟩
    · refine ⟨fun r hr => ?_, hns⟩
      obtain rfl := List.mem_singleton.mp (h ▸ hr)
      exact hclip hw
  · rw [← h]
    refine ⟨fun r hr => ?_, id⟩
    obtain rfl := List.mem_singleton.mp hr
    exact hclip ((materialize_wellFormed hs).clip_eq_some.mpr ⟨hc, rfl⟩)

/-! ## Tracks -/

/-- What becomes of a track: a track that was there keeps its kind, and a volume that is equal. -/
def TrackView.settled (old : SessionView) (u : TrackView) : TrackView :=
  match old.track u.trackId with
  | none => u
  | some w => { u with
      kind := w.kind
      volumeDb := if w.volumeDb.eq u.volumeDb then w.volumeDb else u.volumeDb }

theorem lastWrite_track_eq_none {t : TrackId} {ρ : TrackReg}
    (h : ∀ op ∈ ops, op.editedTrack ≠ some t) : (Slot.track t ρ).lastWrite ops = none :=
  Slot.lastWrite_eq_none.mpr fun op hop => if_neg (h op hop)

/-- Only the operations on tracks write tracks. -/
theorem lastWrite_track_body (t : TrackId) (ρ : TrackReg) :
    (Slot.track t ρ).lastWrite (deltaBody old new) =
      ((Slot.track t ρ).lastWrite ((old.tracks.filter fun u =>
          (new.track u.trackId).isNone).map (.deleteTrack ·.trackId))).or
        ((Slot.track t ρ).lastWrite (new.tracks.flatMap (trackDelta old))) := by
  rw [deltaBody, Slot.lastWrite_append, Slot.lastWrite_append, Slot.lastWrite_append,
    Slot.lastWrite_append, lastWrite_track_eq_none, Option.none_or, lastWrite_track_eq_none,
    Option.none_or, lastWrite_track_eq_none, Option.none_or]
  · intro op hop
    rw [mem_sessionDelta hop]
    exact Option.some_ne_none t |>.symm
  · intro op hop
    obtain ⟨c, -, hop⟩ := List.mem_flatMap.mp hop
    rw [(mem_clipDelta hop).2.1]
    exact Option.some_ne_none t |>.symm
  · intro op hop
    obtain ⟨c, -, rfl⟩ := List.mem_map.mp hop
    exact Option.some_ne_none t |>.symm

theorem lastWrite_track_new (hwf : new.WellFormed) {u : TrackView} (hu : u ∈ new.tracks)
    (ρ : TrackReg) : (Slot.track u.trackId ρ).lastWrite (deltaBody old new) =
      (Slot.track u.trackId ρ).lastWrite (trackDelta old u) := by
  rw [lastWrite_track_body, lastWrite_track_eq_none, Option.none_or,
    Slot.lastWrite_flatMap (i := (·.trackId)) (a := u) _ hwf.trackIds hu]
  · intro w hw
    refine lastWrite_track_eq_none fun op hop => ?_
    rw [(mem_trackDelta hop).1]
    exact fun h => hw (Option.some.inj h)
  · intro op hop h
    obtain ⟨w, hw, rfl⟩ := List.mem_map.mp hop
    have hnone : new.track w.trackId = none := by simpa using (List.mem_filter.mp hw).2
    rw [Option.some.inj (h : some w.trackId = some u.trackId)] at hnone
    rw [hwf.track_eq_some.mpr ⟨hu, rfl⟩] at hnone
    cases hnone

theorem editedTrack_ne_of_new {t : TrackId} (hwf : new.WellFormed) (ht : new.track t = none) :
    ∀ op ∈ new.tracks.flatMap (trackDelta old), op.editedTrack ≠ some t := by
  intro op hop h
  obtain ⟨u, hu, hop⟩ := List.mem_flatMap.mp hop
  rw [(mem_trackDelta hop).1] at h
  rw [hwf.track_eq_some.mpr ⟨hu, Option.some.inj h⟩] at ht
  cases ht

theorem lastWrite_track_gone (hwf : new.WellFormed) {u : TrackView} (hu : u ∈ old.tracks)
    (ht : new.track u.trackId = none) :
    (Slot.track u.trackId .alive).lastWrite (deltaBody old new) = some false := by
  have hmem : TimelineOperation.deleteTrack u.trackId ∈ (old.tracks.filter fun u =>
      (new.track u.trackId).isNone).map (.deleteTrack ·.trackId) :=
    List.mem_map.mpr ⟨u, List.mem_filter.mpr ⟨hu, by simpa using ht⟩, rfl⟩
  rw [lastWrite_track_body, lastWrite_track_eq_none (editedTrack_ne_of_new hwf ht), Option.or_none]
  rcases hw : (Slot.track u.trackId .alive).lastWrite ((old.tracks.filter fun u =>
      (new.track u.trackId).isNone).map (.deleteTrack ·.trackId)) with _ | b
  · have := Slot.lastWrite_eq_none.mp hw _ hmem
    simp [Slot.writes, TimelineOperation.editedTrack, TrackReg.get,
      TimelineOperation.trackWrite] at this
  · obtain ⟨op, hop, hb⟩ := List.exists_of_findSome?_eq_some hw
    obtain ⟨w, -, rfl⟩ := List.mem_map.mp (List.mem_reverse.mp hop)
    simp only [Slot.writes, TimelineOperation.editedTrack, TrackReg.get,
      TimelineOperation.trackWrite, Option.some.injEq] at hb
    split_ifs at hb with he
    exact hw.trans hb.symm

theorem trackShown_eq_of_mem {t : TrackId} (ht : t ∈ s.tracks) : s.trackShown t =
    if ((Slot.track t .alive).reg s).value then
      some ⟨t, ((Slot.track t .name).reg s).value, ((Slot.track t .kind).reg s).value,
        ((Slot.track t .volumeDb).reg s).value, ((Slot.track t .muted).reg s).value,
        ((Slot.track t .solo).reg s).value, ((Slot.track t .orderHint).reg s).value⟩
    else none := by
  obtain ⟨r, hr⟩ := BTreeMap.mem_iff.mp ht
  simp only [trackShown, hr, Option.bind_some, Slot.reg, Option.getD_some]
  rfl

theorem tracks_replay_of_silent {t : TrackId} : ∀ {l : List TaggedOperation} {s : Session},
    (∀ o ∈ l, o.operation.editedTrack ≠ some t) → (s.replay l).tracks[t]? = s.tracks[t]?
  | [], _, _ => rfl
  | o :: l, s, h => by
    have hl := tracks_replay_of_silent (l := l) (s := s.exec o) fun b hb =>
      h b (List.mem_cons_of_mem o hb)
    exact hl.trans ((tracks_exec s o t).trans (if_neg (h o List.mem_cons_self)))

theorem hasTarget_replay_of_mem {r : RequiredTarget} {o : TaggedOperation}
    (hr : ∀ s, Creates s o.operation r) :
    ∀ {l : List TaggedOperation} {s : Session}, o ∈ l → (s.replay l).HasTarget r
  | b :: l, s, h => by
    rcases List.mem_cons.mp h with rfl | h
    · exact (hasTarget_exec.mpr (.inr (hr s))).replay
    · exact hasTarget_replay_of_mem hr (l := l) (s := s.exec b) h

theorem lastWrite_trackDelta {u w : TrackView} (ho : old.track u.trackId = some w)
    (ρ : TrackReg) : (Slot.track u.trackId ρ).lastWrite (trackDelta old u) =
      ρ.get (TimelineOperation.trackWrite (.updateTrackMetadata u.trackId (trackUpdates w u))) := by
  simp only [trackDelta, ho]
  split_ifs with he
  · rw [he]
    cases ρ <;> rfl
  · rw [Slot.lastWrite_singleton]
    exact if_pos rfl

theorem getD_changed {α : Type} {same : Bool} {a b : α} :
    (changed same b).getD a = if same then a else b := by
  cases same <;> rfl

/-- A track that is in neither view is left as it is. -/
theorem tracks_body_untouched (hs : s.materialize = some old) (hwf : new.WellFormed) {t : TrackId}
    (hn : new.track t = none) (ho : old.track t = none) :
    (s.replay (tagged base 0 (deltaBody old new))).tracks[t]? = s.tracks[t]? := by
  refine tracks_replay_of_silent fun o ho' h => ?_
  have hop := mem_of_tagged ho'
  rcases mem_deltaBody.mp hop with ⟨u, hu, hop⟩ | ⟨u, hu, -, hop⟩ | hop | ⟨c, -, hop⟩ |
    ⟨c, -, -, hop⟩
  · exact editedTrack_ne_of_new hwf hn _ (List.mem_flatMap.mpr ⟨u, hu, hop⟩) h
  · rw [← hop] at h
    rw [(materialize_wellFormed hs).track_eq_some.mpr ⟨hu, Option.some.inj h⟩] at ho
    cases ho
  · rw [mem_sessionDelta hop] at h
    cases h
  · rw [(mem_clipDelta hop).2.1] at h
    cases h
  · rw [← hop] at h
    cases h

theorem trackShown_body (hs : s.materialize = some old) (hwf : new.WellFormed)
    (hst : s.Stamped (tagged base 0 (deltaBody old new))) (t : TrackId) :
    (s.replay (tagged base 0 (deltaBody old new))).trackShown t =
      (new.track t).map (·.settled old) := by
  have hvalue : ∀ ρ, ((Slot.track t ρ).reg (s.replay (tagged base 0 (deltaBody old new)))).value =
      ((Slot.track t ρ).lastWrite (deltaBody old new)).getD ((Slot.track t ρ).reg s).value := by
    intro ρ
    rw [Slot.value_replay _ hst (finds_deltaBody hs 0), map_operation_tagged]
  have hkept : t ∈ s.tracks → t ∈ (s.replay (tagged base 0 (deltaBody old new))).tracks :=
    fun ht => HasTarget.replay (r := .track t) ht
  rcases hn : new.track t with _ | u
  · rw [Option.map_none]
    rcases ho : old.track t with _ | w
    · rw [trackShown, tracks_body_untouched hs hwf hn ho]
      exact (track_eq hs t).symm.trans ho
    · obtain ⟨hw, rfl⟩ := (materialize_wellFormed hs).track_eq_some.mp ho
      have hmem : w.trackId ∈ s.tracks := by
        rw [track_eq hs] at ho
        obtain ⟨r, hr, -⟩ := trackShown_eq_some.mp ho
        exact BTreeMap.mem_iff.mpr ⟨r, hr⟩
      rw [trackShown_eq_of_mem (hkept hmem), hvalue, lastWrite_track_gone hwf hw hn]
      rfl
  · obtain ⟨hu, rfl⟩ := hwf.track_eq_some.mp hn
    rw [Option.map_some]
    simp only [lastWrite_track_new hwf hu] at hvalue
    rcases ho : old.track u.trackId with _ | w
    · have hins : TimelineOperation.insertTrack u.trackId
          ⟨u.name, u.kind, u.volumeDb, u.muted, u.solo⟩ u.position ∈ deltaBody old new := by
        refine mem_deltaBody.mpr (Or.inl ⟨u, hu, ?_⟩)
        rw [trackDelta, ho]
        exact List.mem_cons_self
      obtain ⟨o, ho', hop⟩ := exists_mem_tagged hins 0
      have hmem : u.trackId ∈ (s.replay (tagged base 0 (deltaBody old new))).tracks :=
        hasTarget_replay_of_mem (r := .track u.trackId) (fun _ => by rw [hop]; rfl) ho'
      rw [trackShown_eq_of_mem hmem]
      simp only [hvalue, trackDelta, ho, TrackView.settled, Slot.lastWrite_singleton,
        Slot.writes, TimelineOperation.editedTrack, if_true,
        TrackReg.get, TimelineOperation.trackWrite, Option.getD_some]
    · have hshown := (track_eq hs u.trackId).symm.trans ho
      have hmem : u.trackId ∈ s.tracks := by
        obtain ⟨r, hr, -⟩ := trackShown_eq_some.mp hshown
        exact BTreeMap.mem_iff.mpr ⟨r, hr⟩
      rw [trackShown_eq_of_mem hmem, Option.ite_none_right_eq_some, Option.some.injEq] at hshown
      obtain ⟨halive, hw⟩ := hshown
      rw [trackShown_eq_of_mem (hkept hmem)]
      simp only [hvalue, lastWrite_trackDelta ho, TrackReg.get, TimelineOperation.trackWrite,
        trackUpdates, halive, Option.getD_none, if_true, TrackView.settled, ho, ← hw,
        getD_changed]
      simp

/-! ## Metadata -/

/-- What becomes of the metadata: an equal tempo is kept. -/
def SessionMetadata.settled (old new : SessionMetadata) : SessionMetadata :=
  { new with tempoBpm := if old.tempoBpm.eq new.tempoBpm then old.tempoBpm else new.tempoBpm }

theorem lastWrite_metadata_body (ρ : MetadataReg) :
    (Slot.metadata ρ).lastWrite (deltaBody old new) =
      ρ.get (sessionUpdates old.metadata new.metadata) := by
  have hsilent : ∀ {l : List TimelineOperation}, (∀ op ∈ l, op.editedTrack ≠ none ∨
      op.editedClip ≠ none) → (Slot.metadata ρ).lastWrite l = none := by
    intro l h
    refine Slot.lastWrite_eq_none.mpr fun op hop => ?_
    rcases op with _ | _ | _ | _ | _ | _ | _ | _ | _ | _ | _
    case updateSessionMetadata => exact absurd (h _ hop) (by simp [TimelineOperation.editedTrack,
      TimelineOperation.editedClip])
    all_goals rfl
  rw [deltaBody, Slot.lastWrite_append, Slot.lastWrite_append, Slot.lastWrite_append,
    Slot.lastWrite_append, hsilent, Option.none_or, hsilent, Option.none_or,
    hsilent (l := new.tracks.flatMap _), hsilent (l := List.map _ _), Option.or_none,
    Option.or_none, sessionDelta]
  · split_ifs with he
    · rw [he]
      cases ρ <;> rfl
    · rw [Slot.lastWrite_singleton]
      rfl
  · intro op hop
    obtain ⟨u, -, rfl⟩ := List.mem_map.mp hop
    exact Or.inl (Option.some_ne_none _)
  · intro op hop
    obtain ⟨u, -, hop⟩ := List.mem_flatMap.mp hop
    rw [(mem_trackDelta hop).1]
    exact Or.inl (Option.some_ne_none _)
  · intro op hop
    obtain ⟨c, -, hop⟩ := List.mem_flatMap.mp hop
    rw [(mem_clipDelta hop).1]
    exact Or.inr (Option.some_ne_none _)
  · intro op hop
    obtain ⟨c, -, rfl⟩ := List.mem_map.mp hop
    exact Or.inr (Option.some_ne_none _)

theorem metadata_body (hs : s.materialize = some old)
    (hst : s.Stamped (tagged base 0 (deltaBody old new))) :
    (s.replay (tagged base 0 (deltaBody old new))).metadataView =
      old.metadata.settled new.metadata := by
  have hvalue : ∀ ρ : MetadataReg,
      (ρ.reg (s.replay (tagged base 0 (deltaBody old new))).metadata).value =
        (ρ.get (sessionUpdates old.metadata new.metadata)).getD (ρ.reg s.metadata).value := by
    intro ρ
    have h := Slot.value_replay (.metadata ρ) hst (finds_deltaBody hs 0)
    rwa [map_operation_tagged, lastWrite_metadata_body] at h
  have hold := (view_parts hs).1
  have keep : ∀ {α : Type} [DecidableEq α] {a b : α}, (if decide (a = b) then a else b) = b := by
    intro α _ a b
    by_cases h : a = b <;> simp [h]
  have h1 := hvalue .name
  have h2 := hvalue .sampleRate
  have h3 := hvalue .tempoBpm
  have h4 := hvalue .tsNumerator
  have h5 := hvalue .tsDenominator
  simp only [MetadataReg.get, MetadataReg.reg, sessionUpdates, getD_changed, hold, metadataView,
    keep] at h1 h2 h3 h4 h5
  have hsig : ((if decide ((s.metadata.tsNumerator.value, s.metadata.tsDenominator.value) =
        new.metadata.timeSignature) then s.metadata.tsNumerator.value
      else new.metadata.timeSignature.1),
      (if decide ((s.metadata.tsNumerator.value, s.metadata.tsDenominator.value) =
        new.metadata.timeSignature) then s.metadata.tsDenominator.value
      else new.metadata.timeSignature.2)) = new.metadata.timeSignature := by
    by_cases h : (s.metadata.tsNumerator.value, s.metadata.tsDenominator.value) =
        new.metadata.timeSignature
    · simp [← h]
    · simp [h]
  rw [metadataView, h1, h2, h3, h4, h5, hsig, SessionMetadata.settled, hold]
  rfl

/-! ## Sessions without splits -/

/-- No clip is a piece or has been cut, and each has geometry. -/
def Flat (s : Session) : Prop :=
  ∀ (x : ClipId) (c : ClipCrdt), s.clips[x]? = some c → c.parent = none ∧ c.splits = ∅ ∧
    c.startFrame.tag ≠ .initial ∧ c.durationFrames.tag ≠ .initial

theorem Flat.exec {o : TaggedOperation} (h : s.Flat) (ho : ¬o.operation.IsSplit)
    (ht : o.tag ≠ .initial) : (s.exec o).Flat := by
  have hset : ∀ {r : LwwReg UInt64} (v : Option UInt64), r.tag ≠ .initial →
      (r.setOption v o.tag).tag ≠ .initial := by
    intro r v hr heq
    have hle := LwwReg.tag_le_setOption r v o.tag
    rw [heq] at hle
    exact hr (le_antisymm hle (OpTag.initial_le _))
  intro x d hd
  rcases clip_exec_of_not_split ho hd with ⟨e, he, rfl | ⟨-, rfl⟩⟩ | ⟨-, r, a, p, -, rfl⟩
  · exact h x d he
  · obtain ⟨h1, h2, h3, h4⟩ := h x e he
    exact ⟨h1, h2, hset _ h3, hset _ h4⟩
  · exact ⟨rfl, rfl, ht, ht⟩

theorem Flat.replay : ∀ {l : List TaggedOperation} {s : Session}, s.Flat →
    (∀ o ∈ l, ¬o.operation.IsSplit ∧ o.tag ≠ .initial) → (s.replay l).Flat
  | [], _, h, _ => h
  | o :: l, _, h, hl => replay (l := l)
      (h.exec (hl o List.mem_cons_self).1 (hl o List.mem_cons_self).2)
      fun b hb => hl b (List.mem_cons_of_mem o hb)

theorem flat_new : Session.new.Flat := by
  intro x c h
  simp [Session.new] at h

theorem Flat.forest (h : s.Flat) : s.Forest := by
  refine forest_of_lineage fun x hx => ?_
  obtain ⟨c, hc⟩ := BTreeMap.mem_iff.mp hx
  exact ⟨[c], .top hc fun link hl => by
    rw [(h x c hc).1] at hl
    cases hl⟩

/-- What a clip shows is in its own record. -/
theorem Flat.shows_eq_some (h : s.Flat) {x : ClipId} {c : ClipCrdt} (hx : s.clips[x]? = some c)
    {w : ClipView} : s.shows x = some w ↔ c.alive.value = true ∧ s.LiveTrack c.track.value ∧
      0 < c.lengthAt c.startFrame.value ∧
        w = ⟨x, .own c, c.startFrame.value, c.lengthAt c.startFrame.value⟩ := by
  obtain ⟨hp, -, hstart, hduration⟩ := h x c hx
  have hvalues : s.valuesOf x = some (.own c) := by
    simp only [valuesOf, hx, Option.bind_some, fuel, inheritLoop, hp]
  have hrange := rangeOf_root hx hp hstart hduration
  rw [Session.shows_eq_some]
  constructor
  · rintro ⟨d, a, r, hd, halive, ha, hr, ht, hpos, rfl⟩
    obtain rfl := Option.some.inj (hx.symm.trans hd)
    obtain rfl := Option.some.inj (hvalues.symm.trans ha)
    obtain rfl := Option.some.inj (hrange.symm.trans hr)
    exact ⟨halive, ht, hpos, rfl⟩
  · rintro ⟨halive, ht, hpos, rfl⟩
    exact ⟨c, _, _, hx, halive, hvalues, hrange, ht, hpos, rfl⟩

theorem toNat_lengthAt {c : ClipCrdt} (h : c.splits = ∅) (start : UInt64) :
    (c.lengthAt start).toNat = min c.durationFrames.value.toNat (2 ^ 64 - 1 - start.toNat) := by
  have hfirst : c.firstSplitOffset = none := by
    rw [ClipCrdt.firstSplitOffset, h]
    exact BTreeMap.firstKey_eq_none.mpr fun k => by simp
  rw [ClipCrdt.lengthAt, ClipCrdt.visibleLength, hfirst, Option.getD_none, min_self,
    toNat_saturatingSub, toNat_saturatingAdd]
  dsimp only
  omega

/-! ## Clips -/

theorem writes_clip {x : ClipId} {ρ : ClipReg} {op : TimelineOperation} (h : ¬op.IsSplit) :
    (Slot.clip x ρ).writes op = if op.editedClip = some x then ρ.get op.clipWrite else none := by
  rcases op with _ | _ | _ | _ | _ | _ | _ | _ | _ | _ | _
  case splitClip => exact absurd trivial h
  all_goals rfl

theorem lastWrite_clip_eq_none {x : ClipId} {ρ : ClipReg}
    (h : ∀ op ∈ ops, ¬op.IsSplit ∧ op.editedClip ≠ some x) :
    (Slot.clip x ρ).lastWrite ops = none :=
  Slot.lastWrite_eq_none.mpr fun op hop => (writes_clip (h op hop).1).trans (if_neg (h op hop).2)

/-- Only the operations on clips write clips. -/
theorem lastWrite_clip_body (x : ClipId) (ρ : ClipReg) :
    (Slot.clip x ρ).lastWrite (deltaBody old new) =
      ((Slot.clip x ρ).lastWrite ((old.clips.filter fun c =>
          (new.clip c.clipId).isNone).map (.deleteClip ·.clipId))).or
        ((Slot.clip x ρ).lastWrite (new.clips.flatMap (clipDelta old))) := by
  rw [deltaBody, Slot.lastWrite_append, Slot.lastWrite_append (l := _ ++ _ ++ _)]
  refine congrArg _ (Eq.trans (congrArg _ (lastWrite_clip_eq_none fun op hop => ?_))
    Option.or_none)
  rcases List.mem_append.mp hop with hop | hop
  · rcases List.mem_append.mp hop with hop | hop
    · obtain ⟨u, -, hop⟩ := List.mem_flatMap.mp hop
      obtain ⟨-, he, hns, -⟩ := mem_trackDelta hop
      exact ⟨hns, he ▸ (Option.some_ne_none x).symm⟩
    · obtain ⟨u, -, rfl⟩ := List.mem_map.mp hop
      exact ⟨id, (Option.some_ne_none x).symm⟩
  · rw [mem_sessionDelta hop]
    exact ⟨id, (Option.some_ne_none x).symm⟩

theorem lastWrite_clip_new (hwf : new.WellFormed) {c : ClipView} (hc : c ∈ new.clips)
    (ρ : ClipReg) : (Slot.clip c.clipId ρ).lastWrite (deltaBody old new) =
      (Slot.clip c.clipId ρ).lastWrite (clipDelta old c) := by
  rw [lastWrite_clip_body, lastWrite_clip_eq_none, Option.none_or,
    Slot.lastWrite_flatMap (i := (·.clipId)) (a := c) _ hwf.clipIds hc]
  · intro w hw
    refine lastWrite_clip_eq_none fun op hop => ?_
    obtain ⟨he, -, hns, -⟩ := mem_clipDelta hop
    exact ⟨hns, he ▸ fun h => hw (Option.some.inj h)⟩
  · intro op hop
    obtain ⟨w, hw, rfl⟩ := List.mem_map.mp hop
    refine ⟨id, fun h => ?_⟩
    have hnone : new.clip w.clipId = none := by simpa using (List.mem_filter.mp hw).2
    rw [Option.some.inj (h : some w.clipId = some c.clipId)] at hnone
    rw [hwf.clip_eq_some.mpr ⟨hc, rfl⟩] at hnone
    cases hnone

theorem editedClip_ne_of_new {x : ClipId} (hwf : new.WellFormed) (hx : new.clip x = none) :
    ∀ op ∈ new.clips.flatMap (clipDelta old), ¬op.IsSplit ∧ op.editedClip ≠ some x := by
  intro op hop
  obtain ⟨c, hc, hop⟩ := List.mem_flatMap.mp hop
  obtain ⟨he, -, hns, -⟩ := mem_clipDelta hop
  refine ⟨hns, fun h => ?_⟩
  rw [he] at h
  rw [hwf.clip_eq_some.mpr ⟨hc, Option.some.inj h⟩] at hx
  cases hx

theorem lastWrite_clip_gone (hwf : new.WellFormed) {c : ClipView} (hc : c ∈ old.clips)
    (hx : new.clip c.clipId = none) :
    (Slot.clip c.clipId .alive).lastWrite (deltaBody old new) = some false := by
  have hmem : TimelineOperation.deleteClip c.clipId ∈ (old.clips.filter fun c =>
      (new.clip c.clipId).isNone).map (.deleteClip ·.clipId) :=
    List.mem_map.mpr ⟨c, List.mem_filter.mpr ⟨hc, by simpa using hx⟩, rfl⟩
  rw [lastWrite_clip_body, lastWrite_clip_eq_none (editedClip_ne_of_new hwf hx), Option.or_none]
  rcases hw : (Slot.clip c.clipId .alive).lastWrite ((old.clips.filter fun c =>
      (new.clip c.clipId).isNone).map (.deleteClip ·.clipId)) with _ | b
  · have h := Slot.lastWrite_eq_none.mp hw _ hmem
    rw [writes_clip id] at h
    exact absurd h (by simp [TimelineOperation.editedClip, ClipReg.get,
      TimelineOperation.clipWrite])
  · obtain ⟨op, hop, hb⟩ := List.exists_of_findSome?_eq_some hw
    obtain ⟨w, -, rfl⟩ := List.mem_map.mp (List.mem_reverse.mp hop)
    rw [writes_clip id] at hb
    split_ifs at hb
    exact hw.trans hb.symm

/-- The record of a clip that no operation edits. -/
theorem clips_replay_of_silent {x : ClipId} : ∀ {l : List TaggedOperation} {s : Session},
    (∀ o ∈ l, ¬o.operation.IsSplit ∧ o.operation.editedClip ≠ some x) →
      (s.replay l).clips[x]? = s.clips[x]?
  | [], _, _ => rfl
  | o :: l, s, h => by
    have hl := clips_replay_of_silent (l := l) (s := s.exec o) fun b hb =>
      h b (List.mem_cons_of_mem o hb)
    obtain ⟨hns, he⟩ := h o List.mem_cons_self
    exact hl.trans ((clips_exec hns x).trans (if_neg he))

theorem lastWrite_clipDelta {c w : ClipView} (ho : old.clip c.clipId = some w) (ρ : ClipReg) :
    (Slot.clip c.clipId ρ).lastWrite (clipDelta old c) =
      (ρ.get (TimelineOperation.clipWrite (.updateClipMetadata c.clipId (clipUpdates w c)))).or
        ((if w.durationFrames ≠ c.durationFrames then ρ.get (TimelineOperation.clipWrite
            (.trimClip c.clipId c.startFrame c.durationFrames .end)) else none).or
          (if w.values.trackId ≠ c.values.trackId ∨ w.startFrame ≠ c.startFrame ∨
              w.values.orderHint ≠ c.values.orderHint then ρ.get (TimelineOperation.clipWrite
            (.moveClip c.clipId c.values.trackId c.startFrame c.values.orderHint)) else none)) := by
  have hif : ∀ {P : Prop} [Decidable P] {op : TimelineOperation}, ¬op.IsSplit →
      op.editedClip = some c.clipId → (Slot.clip c.clipId ρ).lastWrite (if P then [op] else []) =
        if P then ρ.get op.clipWrite else none := by
    intro P _ op hns he
    split_ifs
    · rw [Slot.lastWrite_singleton, writes_clip hns, if_pos he]
    · rfl
  simp only [clipDelta, ho]
  rw [Slot.lastWrite_append, Slot.lastWrite_append, hif id rfl, hif id rfl]
  congr 1
  split_ifs with he
  · rw [he]
    rcases ρ with _ | _ | _ | φ
    · rfl
    · rfl
    · rfl
    · cases φ <;> rfl
  · rw [Slot.lastWrite_singleton, writes_clip id]
    exact if_pos rfl

/-- What becomes of a clip: an inserted one has the default gain and flags, and one that was there
keeps a gain that is equal, and the length of its record if the two views agree on its length. -/
def ClipView.settled (s : Session) (old : SessionView) (c : ClipView) : ClipView :=
  match old.clip c.clipId with
  | none => { c with values := { c.values with gain := F32.one, muted := false, locked := false } }
  | some w => { c with
      values := { c.values with
        gain := if w.values.gain.eq c.values.gain then w.values.gain else c.values.gain }
      durationFrames := if w.durationFrames = c.durationFrames then
        (s.clips[c.clipId]?.map (·.lengthAt c.startFrame)).getD 0 else c.durationFrames }

section

variable (hs : s.materialize = some old) (hflat : s.Flat) (hwf : new.WellFormed)
  (hst : s.Stamped (tagged base 0 (deltaBody old new)))

include hs hwf hst

theorem liveTrack_body {t : TrackId} :
    (s.replay (tagged base 0 (deltaBody old new))).LiveTrack t ↔ new.track t ≠ none := by
  rw [liveTrack_iff_trackShown, trackShown_body hs hwf hst]
  rcases new.track t with _ | u <;> simp

omit hwf in
theorem clip_value_body {x : ClipId} {d : ClipCrdt}
    (hd : (s.replay (tagged base 0 (deltaBody old new))).clips[x]? = some d) (ρ : ClipReg) :
    (ρ.reg d).value =
      ((Slot.clip x ρ).lastWrite (deltaBody old new)).getD ((Slot.clip x ρ).reg s).value := by
  have h := Slot.value_replay (.clip x ρ) hst (finds_deltaBody hs 0)
  rw [map_operation_tagged] at h
  rw [← h, Slot.reg, hd, Option.getD_some]

include hflat

omit hwf in
theorem flat_body : (s.replay (tagged base 0 (deltaBody old new))).Flat :=
  hflat.replay fun o ho => ⟨(finds_deltaBody hs 0 o ho).2, (hst.newest o ho).ne_initial⟩

theorem shows_body_inserted {c : ClipView} (hc : c ∈ new.clips) (ho : old.clip c.clipId = none) :
    (s.replay (tagged base 0 (deltaBody old new))).shows c.clipId = some (c.settled s old) := by
  have hins : TimelineOperation.insertClip c.clipId c.values.trackId ⟨c.values.name,
      c.values.source, c.startFrame, c.durationFrames, c.values.color⟩ c.values.orderHint ∈
        deltaBody old new := by
    refine mem_deltaBody.mpr (Or.inr (Or.inr (Or.inr (Or.inl ⟨c, hc, ?_⟩))))
    rw [clipDelta, ho]
    exact List.mem_cons_self
  obtain ⟨o, ho', hop⟩ := exists_mem_tagged hins 0
  have hmem : c.clipId ∈ (s.replay (tagged base 0 (deltaBody old new))).clips :=
    hasTarget_replay_of_mem (r := .clip c.clipId) (fun _ => by rw [hop]; rfl) ho'
  obtain ⟨d, hd⟩ := BTreeMap.mem_iff.mp hmem
  have hvalue : ∀ ρ : ClipReg, (ρ.reg d).value =
      (ρ.get (TimelineOperation.clipWrite (.insertClip c.clipId c.values.trackId
        ⟨c.values.name, c.values.source, c.startFrame, c.durationFrames, c.values.color⟩
          c.values.orderHint))).getD ((Slot.clip c.clipId ρ).reg s).value := by
    intro ρ
    rw [clip_value_body hs hst hd, lastWrite_clip_new hwf hc, clipDelta, ho]
    dsimp only
    rw [Slot.lastWrite_singleton, writes_clip id]
    exact congrArg (Option.getD · _) (if_pos rfl)
  have hflat' := flat_body hs hflat hst
  have hstart : d.startFrame.value = c.startFrame := hvalue .startFrame
  have hduration : d.durationFrames.value = c.durationFrames := hvalue .durationFrames
  have htrack : d.track.value = c.values.trackId := hvalue (.field .track)
  obtain ⟨hpos, hlt⟩ := hwf.frames c hc
  have hlen : d.lengthAt c.startFrame = c.durationFrames := by
    rw [← UInt64.toNat_inj, toNat_lengthAt (hflat' _ d hd).2.1, hduration]
    omega
  refine (hflat'.shows_eq_some hd).mpr ⟨hvalue .alive, ?_, ?_, ?_⟩
  · rw [htrack, liveTrack_body hs hwf hst]
    obtain ⟨u, hu, hid⟩ := hwf.placed c hc
    rw [hwf.track_eq_some.mpr ⟨hu, hid⟩]
    exact Option.some_ne_none u
  · rw [hstart, hlen]
    exact hpos
  · have hown : Inherited.own d =
        { c.values with gain := F32.one, muted := false, locked := false } := by
      rw [Inherited.own]
      congr 1
      · exact hvalue (.field .name)
      · exact hvalue (.field .source)
      · exact hvalue (.field .color)
      · exact hvalue (.field .gain)
      · exact hvalue (.field .muted)
      · exact hvalue (.field .locked)
      · exact hvalue (.field .orderHint)
    rw [hown, hstart, hlen, ClipView.settled, ho]

theorem shows_body_common {c w : ClipView} (hc : c ∈ new.clips)
    (ho : old.clip c.clipId = some w) :
    (s.replay (tagged base 0 (deltaBody old new))).shows c.clipId = some (c.settled s old) := by
  have hshown : s.shows c.clipId = some w := (clip_eq hs c.clipId).symm.trans ho
  obtain ⟨e, he⟩ : ∃ e, s.clips[c.clipId]? = some e := by
    obtain ⟨e, -, -, he, -⟩ := Session.shows_eq_some.mp hshown
    exact ⟨e, he⟩
  obtain ⟨halive, -, hwpos, hw⟩ := (hflat.shows_eq_some he).mp hshown
  obtain ⟨d, hd⟩ : ∃ d, (s.replay (tagged base 0 (deltaBody old new))).clips[c.clipId]? =
      some d := BTreeMap.mem_iff.mp (HasTarget.replay (r := .clip c.clipId)
        (BTreeMap.mem_iff.mpr ⟨e, he⟩))
  have hvalue : ∀ ρ : ClipReg, (ρ.reg d).value =
      ((ρ.get (TimelineOperation.clipWrite (.updateClipMetadata c.clipId (clipUpdates w c)))).or
        ((if w.durationFrames ≠ c.durationFrames then ρ.get (TimelineOperation.clipWrite
            (.trimClip c.clipId c.startFrame c.durationFrames .end)) else none).or
          (if w.values.trackId ≠ c.values.trackId ∨ w.startFrame ≠ c.startFrame ∨
              w.values.orderHint ≠ c.values.orderHint then ρ.get (TimelineOperation.clipWrite
            (.moveClip c.clipId c.values.trackId c.startFrame c.values.orderHint)) else
              none))).getD (ρ.reg e).value := by
    intro ρ
    rw [clip_value_body hs hst hd, lastWrite_clip_new hwf hc, lastWrite_clipDelta ho, Slot.reg, he,
      Option.getD_some]
  have hstartW : w.startFrame = e.startFrame.value := by rw [hw]
  have htrackW : w.values.trackId = e.track.value := by rw [hw]; rfl
  have hhintW : w.values.orderHint = e.orderHint.value := by rw [hw]; rfl
  have hflat' := flat_body hs hflat hst
  have hstart : d.startFrame.value = c.startFrame := by
    refine (hvalue .startFrame).trans ?_
    simp only [ClipReg.get, TimelineOperation.clipWrite, Option.none_or, ClipReg.reg]
    split_ifs with h1 h2 h2
    · rfl
    · rfl
    · rfl
    · simp only [not_or, not_not] at h2
      exact hstartW.symm.trans h2.2.1
  have htrack : d.track.value = c.values.trackId := by
    refine (hvalue (.field .track)).trans ?_
    simp only [ClipReg.get, TimelineOperation.clipWrite, Option.none_or, ite_self, ClipReg.reg]
    split_ifs with h2
    · rfl
    · simp only [not_or, not_not] at h2
      exact htrackW.symm.trans h2.1
  have hhint : d.orderHint.value = c.values.orderHint := by
    refine (hvalue (.field .orderHint)).trans ?_
    simp only [ClipReg.get, TimelineOperation.clipWrite, Option.none_or, ite_self, ClipReg.reg]
    split_ifs with h2
    · rfl
    · simp only [not_or, not_not] at h2
      exact hhintW.symm.trans h2.2.2
  have hduration : d.durationFrames.value =
      if w.durationFrames = c.durationFrames then e.durationFrames.value
      else c.durationFrames := by
    refine (hvalue .durationFrames).trans ?_
    simp only [ClipReg.get, TimelineOperation.clipWrite, Option.none_or, ite_self, Option.or_none,
      ClipReg.reg, ne_eq, ite_not]
    split_ifs <;> rfl
  obtain ⟨hpos, hlt⟩ := hwf.frames c hc
  -- the length shown is that of the record, unless the clip is trimmed
  have hlen : d.lengthAt c.startFrame =
      if w.durationFrames = c.durationFrames then e.lengthAt c.startFrame
      else c.durationFrames := by
    rw [← UInt64.toNat_inj, toNat_lengthAt (hflat' _ d hd).2.1, hduration]
    split_ifs
    · rw [toNat_lengthAt (hflat _ e he).2.1]
    · omega
  have hlenpos : 0 < d.lengthAt c.startFrame := by
    rw [hlen]
    split_ifs with h
    · have h1 := UInt64.lt_iff_toNat_lt.mp hwpos
      have h2 := UInt64.lt_iff_toNat_lt.mp hpos
      rw [toNat_lengthAt (hflat _ e he).2.1] at h1
      rw [UInt64.lt_iff_toNat_lt, toNat_lengthAt (hflat _ e he).2.1]
      simp only [UInt64.toNat_zero] at h1 h2 ⊢
      omega
    · exact hpos
  have halive' : d.alive.value = true := by
    refine (hvalue .alive).trans ?_
    simp only [ClipReg.get, TimelineOperation.clipWrite, ite_self, Option.or_none]
    exact halive
  refine (hflat'.shows_eq_some hd).mpr ⟨halive', ?_, hstart ▸ hlenpos, ?_⟩
  · rw [htrack, liveTrack_body hs hwf hst]
    obtain ⟨u, hu, hid⟩ := hwf.placed c hc
    rw [hwf.track_eq_some.mpr ⟨hu, hid⟩]
    exact Option.some_ne_none u
  · have hkeep : ∀ {α : Type} [DecidableEq α] {a b : α},
        (changed (decide (a = b)) b).getD a = b := by
      intro α _ a b
      rw [getD_changed]
      by_cases h : a = b <;> simp [h]
    have hown : Inherited.own d = { c.values with
        gain := if w.values.gain.eq c.values.gain then w.values.gain else c.values.gain } := by
      have hvalues : w.values = Inherited.own e := by rw [hw]
      simp only [clipUpdates, hvalues, ClipReg.get, TimelineOperation.clipWrite] at hvalue
      rw [Inherited.own, htrack, hhint, hvalues]
      congr 1
      · refine (hvalue (.field .name)).trans ?_
        simp only [ite_self, Option.or_none]
        exact hkeep
      · refine (hvalue (.field .source)).trans ?_
        simp only [ite_self, Option.or_none]
        exact hkeep
      · refine (hvalue (.field .color)).trans ?_
        simp only [ite_self, Option.or_none]
        exact hkeep
      · refine (hvalue (.field .gain)).trans ?_
        simp only [ite_self, Option.or_none]
        exact getD_changed
      · refine (hvalue (.field .muted)).trans ?_
        simp only [ite_self, Option.or_none]
        exact hkeep
      · refine (hvalue (.field .locked)).trans ?_
        simp only [ite_self, Option.or_none]
        exact hkeep
    rw [hown, hstart, hlen, ClipView.settled, ho, he]
    rfl

theorem shows_body_gone {x : ClipId} (hn : new.clip x = none) (ho : old.clip x ≠ none) :
    (s.replay (tagged base 0 (deltaBody old new))).shows x = none := by
  obtain ⟨w, hw⟩ := Option.ne_none_iff_exists'.mp ho
  obtain ⟨hmem, rfl⟩ := (materialize_wellFormed hs).clip_eq_some.mp hw
  rcases hd : (s.replay (tagged base 0 (deltaBody old new))).clips[w.clipId]? with _ | d
  · exact shows_of_not_mem (BTreeMap.not_mem_iff.mpr hd)
  · refine Option.eq_none_iff_forall_ne_some.mpr fun v hv => ?_
    have halive := ((flat_body hs hflat hst).shows_eq_some hd).mp hv |>.1
    have hdead : d.alive.value = false := by
      refine (clip_value_body hs hst hd .alive).trans ?_
      rw [lastWrite_clip_gone hwf hmem hn]
      rfl
    rw [hdead] at halive
    cases halive

omit hflat hst in
theorem clips_body_untouched {x : ClipId} (hn : new.clip x = none) (ho : old.clip x = none) :
    (s.replay (tagged base 0 (deltaBody old new))).clips[x]? = s.clips[x]? := by
  refine clips_replay_of_silent fun o ho' => ⟨(finds_deltaBody hs 0 o ho').2, fun h => ?_⟩
  have hop := mem_of_tagged ho'
  rcases mem_deltaBody.mp hop with ⟨u, -, hop⟩ | ⟨u, -, -, hop⟩ | hop | ⟨c, hc, hop⟩ |
    ⟨c, hc, -, hop⟩
  · rw [(mem_trackDelta hop).2.1] at h
    cases h
  · rw [← hop] at h
    cases h
  · rw [mem_sessionDelta hop] at h
    cases h
  · exact (editedClip_ne_of_new hwf hn _ (List.mem_flatMap.mpr ⟨c, hc, hop⟩)).2 h
  · rw [← hop] at h
    rw [(materialize_wellFormed hs).clip_eq_some.mpr ⟨hc, Option.some.inj h⟩] at ho
    cases ho

end

/-! ## Envelopes -/

/-- The entity an envelope belongs to. -/
def envelopeTarget (κ : TargetId ×ₗ EnvelopeType) : RequiredTarget :=
  match (ofLex κ).1 with
  | .clip x => .clip x
  | .track t => .track t

/-- The points of an envelope. -/
def pointsOf (s : Session) (κ : TargetId ×ₗ EnvelopeType) : Option (List EnvelopePoint) :=
  s.envelopes.envelopes[κ]?.map (·.value)

theorem exec_updateEnvelope {o : TaggedOperation} {y : TargetId} {k : EnvelopeType}
    {points : List EnvelopePoint} (hop : o.operation = .updateEnvelope y k points) :
    ∃ store, s.exec o = { s with envelopes := store } := by
  rw [exec, hop, apply]
  rcases s.missingEnvelopeTarget y with _ | err
  · exact ⟨_, rfl⟩
  · exact ⟨_, rfl⟩

theorem pointsOf_updateEnvelope {o : TaggedOperation} {y : TargetId} {k : EnvelopeType}
    {points : List EnvelopePoint} (hop : o.operation = .updateEnvelope y k points)
    (hnew : s.Newest o.tag) (κ : TargetId ×ₗ EnvelopeType) :
    (s.HasTarget (envelopeTarget κ) → toLex (y, k) = κ →
      (s.exec o).pointsOf κ = some points) ∧
    (¬(s.HasTarget (envelopeTarget κ) ∧ toLex (y, k) = κ) →
      (s.exec o).pointsOf κ = s.pointsOf κ) := by
  have hlt := Slot.tag_lt hnew (.envelope κ)
  have hmissing : s.missingEnvelopeTarget y = none ↔
      s.HasTarget (envelopeTarget (toLex (y, k))) := by
    cases y <;> simp [missingEnvelopeTarget, envelopeTarget, HasTarget]
  constructor
  · rintro ht rfl
    rw [pointsOf, exec, hop, apply, hmissing.mpr ht]
    simp only [EnvelopeStore.set, BTreeMap.getElem?_insert_if, if_true, Option.map_some,
      Option.some.injEq]
    exact congrArg LwwReg.value (LwwReg.set_of_lt points hlt)
  · intro hne
    rw [pointsOf, pointsOf, exec, hop, apply]
    rcases hm : s.missingEnvelopeTarget y with _ | err
    · have hκ : toLex (y, k) ≠ κ := by
        rintro rfl
        exact hne ⟨hmissing.mp hm, rfl⟩
      simp only [EnvelopeStore.set, BTreeMap.getElem?_insert_if, if_neg hκ]
    · rfl

theorem envelopeDelta_cases (old : SessionView)
    (e : (TargetId ×ₗ EnvelopeType) × List EnvelopePoint) :
    envelopeDelta old e = [] ∧ old.envelopes[e.1]?.any (pointsEq · e.2) = true ∨
      envelopeDelta old e = [.updateEnvelope (ofLex e.1).1 (ofLex e.1).2 e.2] ∧
        old.envelopes[e.1]?.any (pointsEq · e.2) = false := by
  unfold envelopeDelta
  split_ifs with h
  · exact Or.inl ⟨rfl, h⟩
  · exact Or.inr ⟨rfl, by simpa using h⟩

/-- An envelope takes the points of the other view unless they are equal, if its target is there. -/
theorem pointsOf_envelopes {κ : TargetId ×ₗ EnvelopeType} :
    ∀ {es : List ((TargetId ×ₗ EnvelopeType) × List EnvelopePoint)} {n : ℕ} {s : Session},
      (es.map (·.1)).Nodup → s.Stamped (tagged base n (es.flatMap (envelopeDelta old))) →
      (∃ store, s.replay (tagged base n (es.flatMap (envelopeDelta old))) =
        { s with envelopes := store }) ∧
      (s.replay (tagged base n (es.flatMap (envelopeDelta old)))).pointsOf κ =
        match es.find? fun e => decide (e.1 = κ) with
        | none => s.pointsOf κ
        | some e => if old.envelopes[κ]?.any (pointsEq · e.2) then s.pointsOf κ
          else open scoped Classical in
            if s.HasTarget (envelopeTarget κ) then some e.2 else s.pointsOf κ
  | [], _, s, _, _ => ⟨⟨s.envelopes, rfl⟩, rfl⟩
  | e :: es, n, s, hnd, hst => by
    rw [List.map_cons, List.nodup_cons] at hnd
    rw [List.flatMap_cons] at hst ⊢
    have hrest : e.1 = κ → (es.find? fun e => decide (e.1 = κ)) = none := by
      intro he
      refine List.find?_eq_none.mpr fun f hf hfκ => hnd.1 ?_
      rw [he, ← (by simpa using hfκ : f.1 = κ)]
      exact List.mem_map_of_mem hf
    rcases envelopeDelta_cases old e with ⟨hnil, hsame⟩ | ⟨hcons, hdiff⟩
    · rw [hnil, List.nil_append] at hst ⊢
      obtain ⟨hframe, hpoints⟩ := pointsOf_envelopes (κ := κ) hnd.2 hst
      refine ⟨hframe, ?_⟩
      by_cases he : e.1 = κ
      · rw [List.find?_cons_of_pos (by simpa using he), hpoints, hrest he]
        dsimp only
        rw [if_pos (he ▸ hsame)]
      · rw [List.find?_cons_of_neg (by simpa using he), hpoints]
    · rw [hcons, List.singleton_append] at hst ⊢
      set o : TaggedOperation := ⟨⟨saturatingAdd base.lamport (UInt64.ofNat n), base.peer⟩,
        .updateEnvelope (ofLex e.1).1 (ofLex e.1).2 e.2,
        saturatingAdd base.lamport (UInt64.ofNat n), .new, base.peer⟩ with ho
      have hop : o.operation = .updateEnvelope (ofLex e.1).1 (ofLex e.1).2 e.2 := rfl
      obtain ⟨store, hexec⟩ := exec_updateEnvelope (s := s) hop
      have hset := pointsOf_updateEnvelope hop (hst.newest o List.mem_cons_self) κ
      have htail : (s.exec o).Stamped (tagged base (n + 1) (es.flatMap (envelopeDelta old))) :=
        hst.tail
      obtain ⟨⟨store', hframe⟩, hpoints⟩ := pointsOf_envelopes (κ := κ) hnd.2 htail
      have htarget : (s.exec o).HasTarget (envelopeTarget κ) ↔ s.HasTarget (envelopeTarget κ) := by
        rw [hexec]
        rcases envelopeTarget κ with _ | _ <;> rfl
      refine ⟨⟨store', ?_⟩, ?_⟩
      · exact hframe.trans (by rw [hexec])
      · by_cases he : e.1 = κ
        · rw [List.find?_cons_of_pos (by simpa using he)]
          rw [hrest he] at hpoints
          refine hpoints.trans ?_
          dsimp only
          rw [← he, hdiff, if_neg Bool.false_ne_true]
          split_ifs with ht
          · exact he ▸ hset.1 (he ▸ ht) he
          · exact he ▸ hset.2 fun h => ht (he ▸ h.1)
        · rw [List.find?_cons_of_neg (by simpa using he)]
          refine hpoints.trans ?_
          have hkeep : (s.exec o).pointsOf κ = s.pointsOf κ := hset.2 fun h => he h.2
          rw [hkeep]
          simp only [htarget]

end Session

end AvSync
