import AvSync.Compaction
import AvSync.Proofs.Settled

/-!
# Where register tags come from

Every register of a session carries the tag of an operation that was attempted on it, or the
initial tag (`TagsIn.replay`).
-/

namespace AvSync

namespace LwwReg

variable {α : Type} {r : LwwReg α} {P : OpTag → Prop} {t : OpTag}

theorem setOption_tag_in (hr : P r.tag) (ht : P t) (v : Option α) : P (r.setOption v t).tag := by
  rcases tag_setOption r v t with h | h
  · rwa [h]
  · rwa [h]

end LwwReg

namespace Session

open TimelineCrdt

variable {P : OpTag → Prop} {s : Session} {o : TaggedOperation}

/-- Every register carries a tag of `P`. -/
structure TagsIn (P : OpTag → Prop) (s : Session) : Prop where
  clips : ∀ (x : ClipId) (c : ClipCrdt), s.clips[x]? = some c → ∀ u ∈ c.tags, P u
  tracks : ∀ (x : TrackId) (r : TrackCrdt), s.tracks[x]? = some r → ∀ u ∈ r.tags, P u
  envelopes : ∀ (k : TargetId ×ₗ EnvelopeType) (r : LwwReg (List EnvelopePoint)),
    s.envelopes.envelopes[k]? = some r → P r.tag
  metadata : ∀ u ∈ s.sessionMetadataTags, P u

theorem tagsIn_iff : TagsIn P s ↔ ∀ u ∈ registerTags s, P u := by
  simp only [registerTags, EnvelopeStore.tags, List.mem_append, List.mem_flatMap, List.mem_map,
    Prod.exists, Std.ExtTreeMap.mem_toList_iff_getElem?_eq_some]
  constructor
  · rintro h u (((⟨x, c, hx, hu⟩ | ⟨x, r, hx, hu⟩) | ⟨k, r, hk, rfl⟩) | hu)
    · exact h.clips x c hx u hu
    · exact h.tracks x r hx u hu
    · exact h.envelopes k r hk
    · exact h.metadata u hu
  · intro h
    exact ⟨fun x c hx u hu => h u (.inl (.inl (.inl ⟨x, c, hx, hu⟩))),
      fun x r hx u hu => h u (.inl (.inl (.inr ⟨x, r, hx, hu⟩))),
      fun k r hk => h r.tag (.inl (.inr ⟨k, r, hk, rfl⟩)), fun u hu => h u (.inr hu)⟩

theorem write_tags_in {c : ClipCrdt} {w : ClipWrite} {t : OpTag} (hc : ∀ u ∈ c.tags, P u)
    (ht : P t) : ∀ u ∈ (c.write w t).tags, P u := by
  simp only [ClipCrdt.tags, List.forall_mem_cons, List.not_mem_nil, false_implies, implies_true,
    and_true, ClipCrdt.write] at hc ⊢
  obtain ⟨h1, h2, h3, h4, h5, h6, h7, h8, h9, h10, h11⟩ := hc
  exact ⟨LwwReg.setOption_tag_in h1 ht _, LwwReg.setOption_tag_in h2 ht _,
    LwwReg.setOption_tag_in h3 ht _, LwwReg.setOption_tag_in h4 ht _,
    LwwReg.setOption_tag_in h5 ht _, LwwReg.setOption_tag_in h6 ht _,
    LwwReg.setOption_tag_in h7 ht _, LwwReg.setOption_tag_in h8 ht _,
    LwwReg.setOption_tag_in h9 ht _, LwwReg.setOption_tag_in h10 ht _,
    LwwReg.setOption_tag_in h11 ht _⟩

theorem track_write_tags_in {r : TrackCrdt} {w : TrackWrite} {t : OpTag} (hr : ∀ u ∈ r.tags, P u)
    (ht : P t) : ∀ u ∈ (r.write w t).tags, P u := by
  simp only [TrackCrdt.tags, List.forall_mem_cons, List.not_mem_nil, false_implies, implies_true,
    and_true, TrackCrdt.write] at hr ⊢
  obtain ⟨h1, h2, h3, h4, h5, h6, h7⟩ := hr
  exact ⟨LwwReg.setOption_tag_in h1 ht _, LwwReg.setOption_tag_in h2 ht _,
    LwwReg.setOption_tag_in h3 ht _, LwwReg.setOption_tag_in h4 ht _,
    LwwReg.setOption_tag_in h5 ht _, LwwReg.setOption_tag_in h6 ht _,
    LwwReg.setOption_tag_in h7 ht _⟩

theorem revive_tags_in {c : ClipCrdt} {t : OpTag} (hc : ∀ u ∈ c.tags, P u) (ht : P t) :
    ∀ u ∈ (c.revive t).tags, P u :=
  write_tags_in (w := { alive := some true }) hc ht

/-- A change of clip records that brings in no tag outside `P`. -/
theorem TagsIn.modifyClip {x : ClipId} {φ : ClipCrdt → ClipCrdt} (h : TagsIn P s)
    (hφ : ∀ c, (∀ u ∈ c.tags, P u) → ∀ u ∈ (φ c).tags, P u) : TagsIn P (s.modifyClip x φ) where
  clips y c hc := by
    rw [clips_modifyClip] at hc
    split_ifs at hc
    · obtain ⟨d, hd, rfl⟩ := Option.map_eq_some_iff.mp hc
      exact hφ d (h.clips y d hd)
    · exact h.clips y c hc
  tracks := h.tracks
  envelopes := h.envelopes
  metadata := h.metadata

theorem TagsIn.setClip {x : ClipId} {c : ClipCrdt} (h : TagsIn P s) (hc : ∀ u ∈ c.tags, P u) :
    TagsIn P (s.setClip x c) where
  clips y d hd := by
    rw [clips_setClip] at hd
    split_ifs at hd
    · exact Option.some.inj hd ▸ hc
    · exact h.clips y d hd
  tracks := h.tracks
  envelopes := h.envelopes
  metadata := h.metadata

theorem TagsIn.applySplit (h : TagsIn P s) {t : OpTag} (ht : P t) (hi : P .initial) (c : ClipId)
    (f : UInt64) (n : ClipId) : TagsIn P (s.applySplit c f n t).2 := by
  have hrec : ∀ d : ClipCrdt, (∀ u ∈ d.tags, P u) → ∀ u ∈ (d.recordSplit f n).tags, P u := by
    intro d hd
    unfold ClipCrdt.recordSplit
    split
    · split_ifs
      · exact hd
      · exact hd
    · exact hd
  have hstep := applySplit_step s c f n t
  generalize s.applySplit c f n t = r at hstep ⊢
  rcases hstep with _ | _ | _ | _ | _ | @⟨d, k, -, -, -, -⟩
  · exact h
  · exact h
  · exact h
  · refine (h.modifyClip hrec).setClip ?_
    simp only [childRecord, ClipCrdt.link, ClipCrdt.fromSplit, ClipCrdt.tags, LwwReg.newInitial,
      List.forall_mem_cons, List.not_mem_nil, false_implies, implies_true, and_true]
    exact ⟨ht, hi, hi, hi, hi, hi, hi, hi, hi, hi, hi⟩
  · exact (h.modifyClip fun d hd => revive_tags_in hd ht).modifyClip hrec
  · have hdrop : ∀ e : ClipCrdt, (∀ u ∈ e.tags, P u) →
        ∀ u ∈ (e.dropSplit k.offset n).tags, P u := by
      intro e he
      unfold ClipCrdt.dropSplit
      split_ifs
      · exact he
      · exact he
    have hlink : ∀ e : ClipCrdt, (∀ u ∈ e.tags, P u) → ∀ u ∈ (e.link ⟨c, f⟩).tags, P u :=
      fun e he => he
    exact (((h.modifyClip hdrop).modifyClip hlink).modifyClip
      fun e he => revive_tags_in he ht).modifyClip hrec

theorem TagsIn.writeOp (h : TagsIn P s) (op : TimelineOperation) {t : OpTag} (ht : P t)
    (hi : P .initial) : TagsIn P (s.writeOp op t) := by
  have hclip : ∀ x w, TagsIn P (s.modifyClip x (·.write w t)) :=
    fun x w => h.modifyClip fun c hc => write_tags_in hc ht
  have htrack : ∀ x w, TagsIn P (s.modifyTrack x (·.write w t)) := by
    refine fun x w => ⟨h.clips, fun y r hr => ?_, h.envelopes, h.metadata⟩
    rw [tracks_modifyTrack] at hr
    split_ifs at hr
    · obtain ⟨d, hd, rfl⟩ := Option.map_eq_some_iff.mp hr
      exact track_write_tags_in (h.tracks y d hd) ht
    · exact h.tracks y r hr
  rcases op with _ | _ | _ | _ | _ | _ | _ | _ | _ | ⟨y, k, p⟩ | v
  case splitClip => exact h
  case insertTrack | updateTrackMetadata | deleteTrack => exact htrack _ _
  case updateEnvelope =>
    refine ⟨h.clips, h.tracks, fun k' r hr => ?_, h.metadata⟩
    simp only [Session.writeOp, setEnvelope, EnvelopeStore.set, BTreeMap.getElem?_insert_if] at hr
    split_ifs at hr with hk
    · rw [Option.some.injEq] at hr
      subst hr
      refine LwwReg.setOption_tag_in ?_ ht (some p)
      rcases hold : s.envelopes.envelopes[toLex (y, k)]? with _ | r
      · exact hi
      · exact h.envelopes _ r hold
    · exact h.envelopes k' r hr
  case updateSessionMetadata =>
    refine ⟨h.clips, h.tracks, h.envelopes, ?_⟩
    have hm := h.metadata
    simp only [sessionMetadataTags, List.forall_mem_cons, List.not_mem_nil, false_implies,
      implies_true, and_true, Session.writeOp, updateMetadata, SessionMetadataState.update] at hm ⊢
    obtain ⟨h1, h2, h3, h4, h5⟩ := hm
    exact ⟨LwwReg.setOption_tag_in h1 ht _, LwwReg.setOption_tag_in h2 ht _,
      LwwReg.setOption_tag_in h3 ht _, LwwReg.setOption_tag_in h4 ht _,
      LwwReg.setOption_tag_in h5 ht _⟩
  all_goals exact hclip _ _

theorem TagsIn.exec (h : TagsIn P s) (ht : P o.tag) (hi : P .initial) : TagsIn P (s.exec o) := by
  have hstep := exec_step s o
  generalize s.exec o = s' at hstep ⊢
  rcases hstep with hs | @⟨x, r, d, p, hop, hx⟩ | @⟨x, d, p, hop, hx⟩ | hop | _
  · exact h.writeOp _ ht hi
  · refine h.setClip ?_
    simp only [ClipCrdt.fromInsert, ClipCrdt.tags, List.forall_mem_cons, List.not_mem_nil,
      false_implies, implies_true, ht, and_self]
  · refine ⟨h.clips, fun y r hr => ?_, h.envelopes, h.metadata⟩
    rw [tracks_setTrack] at hr
    split_ifs at hr
    · obtain rfl := Option.some.inj hr
      simp only [TrackCrdt.fromInsert, TrackCrdt.tags, List.forall_mem_cons, List.not_mem_nil,
        false_implies, implies_true, ht, and_self]
    · exact h.tracks y r hr
  · exact h.applySplit ht hi _ _ _
  · exact h

theorem tagsIn_new (hi : P .initial) : TagsIn P new where
  clips x c h := by simp [new] at h
  tracks x c h := by simp [new] at h
  envelopes x c h := by simp [new] at h
  metadata := by
    simp only [sessionMetadataTags, new, SessionMetadataState.default, LwwReg.newInitial,
      List.forall_mem_cons, List.not_mem_nil, false_implies, implies_true, hi, and_self]

theorem TagsIn.mono {Q : OpTag → Prop} (h : TagsIn P s) (hPQ : ∀ u, P u → Q u) : TagsIn Q s where
  clips x c hx u hu := hPQ u (h.clips x c hx u hu)
  tracks x r hx u hu := hPQ u (h.tracks x r hx u hu)
  envelopes k r hk := hPQ _ (h.envelopes k r hk)
  metadata u hu := hPQ u (h.metadata u hu)

theorem TagsIn.replay {l : List TaggedOperation} (h : TagsIn P s) (hi : P .initial)
    (ht : ∀ o ∈ l, P o.tag) : TagsIn P (s.replay l) :=
  Machine.run_inv (M := machine) (I := TagsIn P) (fun _ o ho h => h.exec (ht o ho) hi) h

end Session

end AvSync
