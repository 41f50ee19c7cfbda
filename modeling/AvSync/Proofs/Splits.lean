import AvSync.Proofs.Edits
import AvSync.Proofs.LocalRuns

/-!
# New pieces

A split into an id the session does not know records the split point at its parent, adds the new
record, and changes nothing else (`Carved`). Every clip known before keeps its values, and its range
unless it follows the parent. A new piece shows the frames of the parent's range from its offset
on, so several new pieces at one offset are all visible (`competing_splits_iff`).
-/

namespace AvSync

namespace Session

variable {s s' : Session} {o : TaggedOperation} {x y p n : ClipId} {c d : ClipCrdt}
  {above : List ClipCrdt} {f : UInt64} {S : Set ClipId} {r : UInt64 × UInt64}

/-! ## Unknown ids -/

theorem parentOf_replay {ops : List TaggedOperation} (h : (new.replay ops).parentOf y = some x) :
    ∃ o ∈ ops, .clip x ∈ o.operation.requiredTargets := by
  revert h
  refine Machine.run_inv (M := machine) (I := fun s : Session => s.parentOf y = some x →
    ∃ o ∈ ops, .clip x ∈ o.operation.requiredTargets) (fun s o ho ih h => ?_) fun h => ?_
  · change (s.exec o).parentOf y = some x at h
    by_cases hsplit : o.operation.IsSplit
    · obtain ⟨c, f, n, hop⟩ := TimelineOperation.isSplit_iff.mp hsplit
      rcases parentOf_exec_split (s := s) hop with ⟨-, he⟩ | ⟨-, hn, he⟩
      · exact ih (he ▸ h)
      · by_cases hy : y = n
        · rw [hy, hn] at h
          refine ⟨o, ho, ?_⟩
          rw [hop, ← Option.some.inj h]
          exact List.mem_singleton_self _
        · exact ih ((he y hy).trans h)
    · exact ih (parentOf_exec_of_not_split hsplit ▸ h)
  · simp [parentOf, new] at h

/-- An id that no operation introduces or requires is unknown. -/
theorem unknown_replay {ops : List TaggedOperation}
    (h : ∀ o ∈ ops, o.operation.introduced ≠ some (.clip n) ∧
      .clip n ∉ o.operation.requiredTargets) : (new.replay ops).Unknown n where
  absent hn := by
    obtain ⟨o, ho, hi, -⟩ := introduced_of_replay (r := .clip n) hn
    exact (h o ho).1 hi
  unlinked y c link hc hl := by
    rintro rfl
    obtain ⟨o, ho, hr⟩ := parentOf_replay (parentOf_eq_some.mpr ⟨c, link, hc, hl, rfl⟩)
    exact (h o ho).2 hr

/-- Nothing but the id itself descends from an unknown id. -/
theorem Unknown.eq_of_descends (h : s.Unknown n) (hy : s.Descends y n) : y = n := by
  obtain ⟨k, hk⟩ := hy
  induction k generalizing y with
  | zero => exact Option.some.inj hk
  | succ k ih =>
    rw [ParentLinks.walk_succ, Option.bind_eq_some_iff] at hk
    obtain ⟨z, hz, hzn⟩ := hk
    obtain ⟨c, link, hc, hl, rfl⟩ := parentOf_eq_some.mp hz
    exact absurd (ih hzn) (h.unlinked y c link hc hl)

/-! ## Carving pieces off -/

/-- `s'` is `s` with the pieces `S` split off `p` at `f`. -/
structure Carved (s s' : Session) (p : ClipId) (f : UInt64) (S : Set ClipId) (c d : ClipCrdt) :
    Prop where
  record : s'.clips[p]? = some d
  same : ∃ m, d = { c with splits := m }
  absent : ∀ n ∈ S, n ∉ s.clips
  mem_splits : ∀ g, g ∈ d.splits ↔ g ∈ c.splits ∨ g = f ∧ S.Nonempty
  piece : ∀ n ∈ S, ∃ t, s'.clips[n]? = some (childRecord ⟨p, f⟩ t)
  others : ∀ y, y ≠ p → y ∉ S → s'.clips[y]? = s.clips[y]?
  tracks : s'.tracks = s.tracks
  metadata : s'.metadata = s.metadata
  envelopes : s'.envelopes = s.envelopes

theorem Carved.refl (hp : s.clips[p]? = some c) (f : UInt64) : Carved s s p f ∅ c c where
  record := hp
  same := ⟨c.splits, rfl⟩
  absent n hn := absurd hn (Set.notMem_empty n)
  mem_splits g := by simp
  piece n hn := absurd hn (Set.notMem_empty n)
  others y _ _ := rfl
  tracks := rfl
  metadata := rfl
  envelopes := rfl

theorem mem_splits_recordSplit {g : UInt64} :
    g ∈ (c.recordSplit f n).splits ↔ g ∈ c.splits ∨ g = f := by
  rw [BTreeMap.mem_iff, ClipCrdt.splits_recordSplit, BTreeMap.mem_iff]
  split_ifs with h
  · simp [h]
  · simp [Ne.symm h]

theorem Carved.exec (h : Carved s s' p f S c d) (hp : p ∈ s.clips) (hn : n ∉ s.clips)
    (hS : n ∉ S) (ho : o.operation = .splitClip p f n) :
    Carved s (s'.exec o) p f (insert n S) c (d.recordSplit f n) := by
  have hpn : p ≠ n := fun e => hn (e ▸ hp)
  have hn' : n ∉ s'.clips := by
    rw [BTreeMap.not_mem_iff, h.others n hpn.symm hS]
    exact BTreeMap.not_mem_iff.mp hn
  have hexec : s'.exec o =
      (s'.modifyClip p (·.recordSplit f n)).setClip n (childRecord ⟨p, f⟩ o.tag) := by
    rw [Session.exec, ho, Session.apply,
      applySplit_of_create hpn hn' (BTreeMap.mem_iff.mpr ⟨d, h.record⟩)]
  have hclips : ∀ y : ClipId, (s'.exec o).clips[y]? =
      if n = y then some (childRecord ⟨p, f⟩ o.tag)
      else if p = y then some (d.recordSplit f n) else s'.clips[y]? := by
    intro y
    rw [hexec, clips_setClip, clips_modifyClip]
    split_ifs with h1 h2
    · rfl
    · rw [← h2, h.record, Option.map_some]
    · rfl
  constructor
  · rw [hclips, if_neg hpn.symm, if_pos rfl]
  · obtain ⟨m, rfl⟩ := h.same
    exact ⟨_, ClipCrdt.recordSplit_eq _ f n⟩
  · rintro m (rfl | hm)
    · exact hn
    · exact h.absent m hm
  · intro g
    rw [mem_splits_recordSplit, h.mem_splits, or_assoc]
    refine or_congr_right ⟨fun hg => ⟨hg.elim And.left id, Set.insert_nonempty n S⟩, ?_⟩
    exact fun hg => .inr hg.1
  · rintro m (rfl | hm)
    · exact ⟨o.tag, by rw [hclips, if_pos rfl]⟩
    · obtain ⟨t, ht⟩ := h.piece m hm
      have hnm : n ≠ m := fun e => hS (e ▸ hm)
      have hpm : p ≠ m := fun e => h.absent m hm (e ▸ hp)
      exact ⟨t, by rw [hclips, if_neg hnm, if_neg hpm, ht]⟩
  · intro y hyp hyS
    rw [hclips, if_neg (fun e : n = y => hyS (e ▸ Set.mem_insert n S)), if_neg (Ne.symm hyp)]
    exact h.others y hyp fun hy => hyS (Set.mem_insert_of_mem n hy)
  · rw [hexec]
    exact h.tracks
  · rw [hexec]
    exact h.metadata
  · rw [hexec]
    exact h.envelopes

theorem Carved.replay (hp : p ∈ s.clips) {l : List TaggedOperation} {ids : List ClipId}
    (h : Carved s s' p f S c d) (hl : l.map (·.operation) = ids.map (.splitClip p f))
    (hids : ids.Nodup) (hnew : ∀ n ∈ ids, n ∉ s.clips ∧ n ∉ S) :
    ∃ d', Carved s (s'.replay l) p f (S ∪ {n | n ∈ ids}) c d' := by
  induction ids generalizing l S s' d with
  | nil =>
    obtain rfl := List.map_eq_nil_iff.mp hl
    exact ⟨d, by simpa using h⟩
  | cons n ids ih =>
    obtain ⟨o, l, rfl, ho, hl⟩ := List.map_eq_cons_iff.mp hl
    rw [List.nodup_cons] at hids
    obtain ⟨hn, hnS⟩ := hnew n List.mem_cons_self
    have hrest : ∀ m ∈ ids, m ∉ s.clips ∧ m ∉ insert n S := fun m hm => by
      obtain ⟨hm1, hm2⟩ := hnew m (List.mem_cons_of_mem n hm)
      refine ⟨hm1, ?_⟩
      rintro (rfl | h)
      · exact hids.1 hm
      · exact hm2 h
    obtain ⟨d', hd'⟩ := ih (h.exec hp hn hnS ho) hl hids.2 hrest
    have hset : insert n S ∪ {m | m ∈ ids} = S ∪ {m | m ∈ n :: ids} := by
      ext m
      simp only [Set.mem_union, Set.mem_insert_iff, Set.mem_ofPred_eq, List.mem_cons]
      tauto
    exact ⟨d', hset ▸ hd'⟩

namespace Carved

variable (h : Carved s s' p f S c d) (hp : s.clips[p]? = some c) (hS : ∀ n ∈ S, s.Unknown n)

include h

theorem liveTrack {t : TrackId} : s'.LiveTrack t ↔ s.LiveTrack t := by
  rw [LiveTrack, h.tracks, LiveTrack]

include hp in
theorem rel {R : ClipCrdt → ClipCrdt → Prop} (hR : ∀ e, R e e)
    (hcd : ∀ m, R c { c with splits := m }) (hy : y ∉ S) :
    Option.Rel R s.clips[y]? s'.clips[y]? := by
  by_cases hyp : y = p
  · obtain ⟨m, rfl⟩ := h.same
    rw [hyp, hp, h.record]
    exact .some (hcd m)
  · exact rel_of_eq hR (h.others y hyp hy).symm

include hS in
omit h in
theorem not_mem_of_descends (hy : y ∉ S) (hxy : s.Descends y x) : x ∉ S :=
  fun hx => hy ((hS x hx).eq_of_descends hxy ▸ hx)

include hp hS in
theorem valuesOf_eq {l : List ClipCrdt} (hl : s.Lineage y l) (hy : y ∉ S) :
    s.valuesOf y = s'.valuesOf y :=
  hl.valuesOf_congr fun _ hz => h.rel hp .refl
    (fun _ => ⟨rfl, fun φ => by cases φ <;> rfl, fun φ => by cases φ <;> rfl⟩)
    (not_mem_of_descends hS hy hz)

include hp hS in
/-- The clips known before keep their ranges, unless they follow the parent. -/
theorem rangeOf_eq {l : List ClipCrdt} (hl : s.Lineage y l) (hy : y ∉ S)
    (hfol : s.Follows y p → y = p) : s.rangeOf y = s'.rangeOf y := by
  refine hl.rangeOf_congr
    (fun z hz => h.rel (R := fun c d => c.parent = d.parent) hp (fun _ => rfl) (fun _ => rfl)
      (not_mem_of_descends hS hy hz))
    (fun z hz => h.rel hp .refl (fun _ => ⟨rfl, rfl, fun _ => rfl, fun _ => Iff.rfl⟩)
      (not_mem_of_descends hS hy hz.descends))
    fun z hz hzy => rel_of_eq .refl (h.others z ?_ (not_mem_of_descends hS hy hz.descends)).symm
  rintro rfl
  exact hzy (hfol hz).symm

include hp hS in
theorem piece_lineage (hl : s.Lineage p (c :: above)) (hn : n ∈ S) : ∃ t above',
    s'.Lineage p (d :: above') ∧ s'.Lineage n (childRecord ⟨p, f⟩ t :: d :: above') := by
  have hpS : p ∉ S := fun hp' => h.absent p hp' (BTreeMap.mem_iff.mpr ⟨c, hp⟩)
  obtain ⟨m, hm, -⟩ := hl.congr (R := fun c d => c.parent = d.parent) (fun _ _ h => h)
    fun y hy => h.rel (R := fun c d => c.parent = d.parent) hp (fun _ => rfl) (fun _ => rfl)
      (not_mem_of_descends hS hpS hy)
  obtain ⟨d', above', hd, rfl⟩ := hm.head
  obtain rfl := Option.some.inj (h.record.symm.trans hd)
  obtain ⟨t, ht⟩ := h.piece n hn
  have hlink : (childRecord ⟨p, f⟩ t).parent = some ⟨p, f⟩ := rfl
  exact ⟨t, above', hm, .child ht hlink hm⟩

include hp hS in
theorem forest (hf : s.Forest) : s'.Forest := by
  have hmem : p ∈ s.clips := BTreeMap.mem_iff.mpr ⟨c, hp⟩
  refine forest_of_lineage fun y hy => ?_
  by_cases hyS : y ∈ S
  · obtain ⟨l, hl⟩ := hf.lineage hmem
    obtain ⟨c', above, hc, rfl⟩ := hl.head
    obtain rfl := Option.some.inj (hp.symm.trans hc)
    obtain ⟨t, above', -, hln⟩ := h.piece_lineage hp hS hl hyS
    exact ⟨_, hln⟩
  · have hy' : y ∈ s.clips := by
      by_cases hyp : y = p
      · exact hyp ▸ hmem
      · rw [BTreeMap.mem_iff, ← h.others y hyp hyS]
        exact BTreeMap.mem_iff.mp hy
    obtain ⟨l, hl⟩ := hf.lineage hy'
    obtain ⟨m, hm, -⟩ := hl.congr (R := fun c d => c.parent = d.parent) (fun _ _ h => h)
      fun z hz => h.rel (R := fun c d => c.parent = d.parent) hp (fun _ => rfl) (fun _ => rfl)
        (not_mem_of_descends hS hyS hz)
    exact ⟨m, hm⟩

end Carved

theorem Lineage.valuesOf_childRecord {k : Claim} {t : OpTag}
    (hp : s.Lineage p (d :: above)) (hn : s.Lineage n (childRecord k t :: d :: above)) :
    s.valuesOf n = s.valuesOf p := by
  refine hn.valuesOf_ext hp fun φ => Inheritance.settled_cons_of_not_written fun hw => hw ?_
  cases φ <;> rfl

theorem visibleLength_le (c : ClipCrdt) (r : UInt64 × UInt64) :
    (c.visibleLength r).toNat ≤ r.2.toNat - r.1.toNat := by
  rw [← toNat_saturatingSub]
  exact UInt64.le_iff_toNat_le.mp (min_le_right _ _)

theorem pos_of_mem_visible {z : ℕ} (hr : r.1 ≤ r.2) (hz : r.1.toNat ≤ z) (hz' : z < r.2.toNat)
    (hsplits : ∀ g ∈ c.splits, z < r.1.toNat + g.toNat) : 0 < c.visibleLength r := by
  obtain ⟨h1, h2⟩ := (mem_visible hr).mpr ⟨hz, hz', hsplits⟩
  rw [UInt64.lt_iff_toNat_lt, UInt64.toNat_zero, ClipCrdt.visibleLength]
  omega

namespace Carved

variable (h : Carved s s' p f S c d) (hp : s.clips[p]? = some c) (hS : ∀ n ∈ S, s.Unknown n)
  (hf : s.Forest) {w : ClipView} (hw : s.shows p = some w)

include h hp hS hf hw

/-- Split off inside the visible part of its parent, a new piece is visible. -/
theorem shows_piece (hfw : f < w.durationFrames) (hn : n ∈ S) :
    ∃ u, s'.shows n = some u ∧ u.startFrame.toNat = w.startFrame.toNat + f.toNat := by
  obtain ⟨c', a, r, hc', halive, ha, hr, htrack, -, rfl⟩ := shows_eq_some.mp hw
  obtain rfl := Option.some.inj (hp.symm.trans hc')
  obtain ⟨l, hl⟩ := hf.lineage (BTreeMap.mem_iff.mpr ⟨c, hp⟩)
  obtain ⟨_, above, hd, rfl⟩ := hl.head
  obtain rfl := Option.some.inj (hp.symm.trans hd)
  have hpS : p ∉ S := fun hp' => h.absent p hp' (BTreeMap.mem_iff.mpr ⟨c, hp⟩)
  obtain ⟨t, above', hlp, hln⟩ := h.piece_lineage hp hS hl hn
  have hvals : s'.valuesOf n = some a := by
    rw [hlp.valuesOf_childRecord hln, ← h.valuesOf_eq hp hS hl hpS, ha]
  have hrange : s'.rangeOf n = some (childRange d f r.1 r.2) := by
    have hdalive : d.alive.value = true := by
      obtain ⟨m, rfl⟩ := h.same
      exact halive
    have hpr := h.rangeOf_eq hp hS hl hpS fun _ => rfl
    rw [hln.rangeOf_eq]
    change (s'.clips[p]?.bind fun e => if e.alive.value then
      (s'.rangeOf p).map fun r => childRange e f r.1 r.2 else none) = _
    rw [h.record, Option.bind_some, hdalive, if_pos rfl, ← hpr, hr, Option.map_some]
  have hlt : r.1.toNat + f.toNat < r.2.toNat := by
    have := UInt64.lt_iff_toNat_lt.mp hfw
    have := visibleLength_le c r
    dsimp only at *
    omega
  have hstart : (childRange d f r.1 r.2).1.toNat = r.1.toNat + f.toNat := by
    have := toNat_le_u64Max r.2
    rw [childRange, toNat_saturatingAdd]
    omega
  obtain ⟨-, hz⟩ : r.1.toNat + f.toNat ∈ rangeFrames (childRange d f r.1 r.2) :=
    (mem_childRange (rangeOf_le hr)).mpr ⟨le_rfl, hlt, fun g _ hg =>
      Nat.add_lt_add_left (UInt64.lt_iff_toNat_lt.mp hg) _⟩
  have hpos : 0 < (childRecord ⟨p, f⟩ t).visibleLength (childRange d f r.1 r.2) :=
    pos_of_mem_visible childRange_le hstart.le hz fun g hg =>
      absurd hg (BTreeMap.not_mem_iff.mpr rfl)
  exact ⟨_, shows_eq_some.mpr ⟨_, a, _, hln.clips, rfl, hvals, hrange,
    h.liveTrack.mpr htrack, hpos, rfl⟩, hstart⟩

/-- The parent shows nothing from the split point on. -/
theorem shows_parent (hS' : S.Nonempty) {u : ClipView} (hu : s'.shows p = some u) :
    u.startFrame = w.startFrame ∧ u.durationFrames ≤ f := by
  obtain ⟨c', a, r, hc', -, -, hr, -, -, rfl⟩ := shows_eq_some.mp hw
  obtain ⟨d', a', r', hd', -, -, hr', -, -, rfl⟩ := shows_eq_some.mp hu
  obtain rfl := Option.some.inj (h.record.symm.trans hd')
  obtain ⟨l, hl⟩ := hf.lineage (BTreeMap.mem_iff.mpr ⟨c, hp⟩)
  have hpS : p ∉ S := fun hp' => h.absent p hp' (BTreeMap.mem_iff.mpr ⟨c, hp⟩)
  rw [← h.rangeOf_eq hp hS hl hpS fun _ => rfl, hr, Option.some.injEq] at hr'
  subst hr'
  refine ⟨rfl, (min_le_left _ _).trans ?_⟩
  have hmem := (h.mem_splits f).mpr (.inr ⟨rfl, hS'⟩)
  rcases hfst : d.firstSplitOffset with _ | g
  · exact absurd hmem (BTreeMap.firstKey_eq_none.mp hfst f)
  · exact (BTreeMap.firstKey_eq_some.mp hfst).2 f hmem

theorem disjoint (hfw : f < w.durationFrames) (hn : n ∈ S) {u u' : ClipView}
    (hu : s'.shows p = some u) (hu' : s'.shows n = some u') : Disjoint u.frames u'.frames := by
  obtain ⟨hstart, hdur⟩ := h.shows_parent hp hS hf hw ⟨n, hn⟩ hu
  obtain ⟨u'', hu'', hstart'⟩ := h.shows_piece hp hS hf hw hfw hn
  obtain rfl := Option.some.inj (hu'.symm.trans hu'')
  have hdur := UInt64.le_iff_toNat_le.mp hdur
  rw [Set.disjoint_left]
  intro z hz hz'
  have h1 := hz.2
  have h2 := hz'.1
  rw [hstart] at h1
  rw [hstart'] at h2
  omega

end Carved

/-- Several new pieces at one offset inside the visible part of a clip: the smallest is the only one
visible exactly when it is the only one. -/
theorem competing_splits_iff (ops l : List TaggedOperation) {ids : List ClipId} {v : SessionView}
    {w : ClipView} (hv : (new.replay ops).materialize = some v) (hw : w ∈ v.clips)
    (hfw : f < w.durationFrames) (hl : l.map (·.operation) = ids.map (.splitClip w.clipId f))
    (hne : ids ≠ []) (hids : ids.Nodup) (hnew : ∀ n ∈ ids, (new.replay ops).Unknown n) :
    (∃ v', (new.replay (ops ++ l)).materialize = some v' ∧
      (∀ n ∈ ids, (∃ u ∈ v'.clips, u.clipId = n) ↔ ∀ m ∈ ids, n ≤ m) ∧
      ∀ u ∈ v'.clips, ∀ u' ∈ v'.clips, u.clipId ∈ w.clipId :: ids → u'.clipId ∈ w.clipId :: ids →
        u ≠ u' → Disjoint u.frames u'.frames) ↔ ids.length = 1 := by
  have happ : new.replay (ops ++ l) = (new.replay ops).replay l := Machine.run_append ..
  rw [happ]
  generalize new.replay ops = s at *
  have hf := materialize_returns_iff.mp ⟨v, hv⟩
  have hw := (mem_clips_iff hv).mp hw
  obtain ⟨c, -, -, hp, -⟩ := shows_eq_some.mp hw
  have hmem : w.clipId ∈ s.clips := BTreeMap.mem_iff.mpr ⟨c, hp⟩
  obtain ⟨d, hd⟩ := (Carved.refl hp f).replay hmem hl hids fun n hn =>
    ⟨(hnew n hn).absent, Set.notMem_empty n⟩
  rw [Set.empty_union] at hd
  generalize s.replay l = s' at *
  have hS : ∀ n ∈ {n | n ∈ ids}, s.Unknown n := hnew
  obtain ⟨v', hv'⟩ := (hd.forest hp hS hf).materialize
  have hshown : ∀ n ∈ ids, ∃ u ∈ v'.clips, u.clipId = n := fun n hn => by
    obtain ⟨u, hu, -⟩ := hd.shows_piece hp hS hf hw hfw hn
    exact (exists_mem_clips_iff hv').mpr ⟨u, hu⟩
  constructor
  · rintro ⟨v'', hv'', hleast, -⟩
    obtain rfl := Option.some.inj (hv'.symm.trans hv'')
    -- every new piece is visible, so each is the smallest
    have hall : ∀ n ∈ ids, ∀ m ∈ ids, n ≤ m := fun n hn => (hleast n hn).mp (hshown n hn)
    obtain ⟨n, hn⟩ := List.exists_mem_of_ne_nil ids hne
    have hrep : ids = List.replicate ids.length n :=
      List.eq_replicate_of_mem fun m hm => le_antisymm (hall m hm n hn) (hall n hn m hm)
    rw [hrep, List.nodup_replicate] at hids
    exact le_antisymm hids (List.length_pos_iff.mpr hne)
  · intro hone
    obtain ⟨n, rfl⟩ := List.length_eq_one_iff.mp hone
    refine ⟨v', hv', fun m hm => iff_of_true (hshown m hm) fun k hk => ?_, ?_⟩
    · rw [List.mem_singleton.mp hm, List.mem_singleton.mp hk]
    · intro u hu u' hu' hid hid' huu'
      rw [mem_clips_iff hv'] at hu hu'
      rw [List.mem_cons, List.mem_singleton] at hid hid'
      rcases hid with hid | hid <;> rcases hid' with hid' | hid' <;> rw [hid] at hu <;>
        rw [hid'] at hu'
      · exact absurd (Option.some.inj (hu.symm.trans hu')) huu'
      · exact hd.disjoint hp hS hf hw hfw (List.mem_singleton_self n) hu hu'
      · exact (hd.disjoint hp hS hf hw hfw (List.mem_singleton_self n) hu' hu).symm
      · exact absurd (Option.some.inj (hu.symm.trans hu')) huu'

theorem splitOps_one_new_piece : ∃ v w, (new.replay splitOps).materialize = some v ∧ w ∈ v.clips ∧
    ((∃ v', (new.replay (splitOps ++ [.of 4 1 (.splitClip w.clipId 100 ⟨5⟩)])).materialize =
        some v' ∧
      (∀ n ∈ [(⟨5⟩ : ClipId)], (∃ u ∈ v'.clips, u.clipId = n) ↔ ∀ m ∈ [(⟨5⟩ : ClipId)], n ≤ m) ∧
      ∀ u ∈ v'.clips, ∀ u' ∈ v'.clips, u.clipId ∈ [w.clipId, ⟨5⟩] → u'.clipId ∈ [w.clipId, ⟨5⟩] →
        u ≠ u' → Disjoint u.frames u'.frames) ↔ [(⟨5⟩ : ClipId)].length = 1) := by
  refine ⟨_, _, rfl, List.mem_cons_self, ?_⟩
  refine competing_splits_iff splitOps [.of 4 1 (.splitClip _ 100 ⟨5⟩)] rfl List.mem_cons_self
    ?_ rfl (List.cons_ne_nil _ _) (List.nodup_singleton _) fun n hn => ?_
  · decide +kernel
  · rw [List.mem_singleton.mp hn]
    exact unknown_replay (by decide)

/-- Two new pieces at one offset are both visible, over the same frames. -/
theorem splitOps_two_new_pieces : (new.replay splitOps).Unknown ⟨5⟩ ∧
    (new.replay splitOps).Unknown ⟨6⟩ ∧
    (∃ v w, (new.replay splitOps).materialize = some v ∧ w ∈ v.clips ∧ w.clipId = ⟨1⟩ ∧
      100 < w.durationFrames) ∧
    ∃ v', (new.replay (splitOps ++ [.of 4 1 (.splitClip ⟨1⟩ 100 ⟨5⟩),
        .of 4 2 (.splitClip ⟨1⟩ 100 ⟨6⟩)])).materialize = some v' ∧
      v'.clips.map (fun u => (u.clipId, u.startFrame, u.durationFrames)) =
        [(⟨1⟩, 0, 100), (⟨5⟩, 100, 300), (⟨6⟩, 100, 300), (⟨2⟩, 400, 600)] := by
  refine ⟨unknown_replay (by decide), unknown_replay (by decide), ?_, _, rfl, ?_⟩
  · exact ⟨_, _, rfl, List.mem_cons_self, rfl, by decide +kernel⟩
  · decide +kernel

end Session

end AvSync
