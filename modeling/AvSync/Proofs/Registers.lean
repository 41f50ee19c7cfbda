import AvSync.State

/-!
# Register writes

A write at one tag and a write at another commute, on a register and hence on a record. The
operations that are not splits write a clip record in one way (`ClipCrdt.write`): a value for each
register they set, and the detached flag. Nothing they do depends on the parent link or on the
split points, and they leave both alone.
-/

namespace AvSync

namespace LwwReg

variable {α : Type} {r : LwwReg α} {s t : OpTag}

theorem set_comm (h : s ≠ t) (v w : α) : (r.set v s).set w t = (r.set w t).set v s := by
  unfold set
  rcases lt_trichotomy s t with hst | hst | hst
  · split_ifs <;> first | rfl | order
  · exact absurd hst h
  · split_ifs <;> first | rfl | order

theorem setOption_comm (h : s ≠ t) (v w : Option α) :
    (r.setOption v s).setOption w t = (r.setOption w t).setOption v s := by
  rcases v with _ | v <;> rcases w with _ | w <;> first | rfl | exact set_comm h v w

/-- Of two first writes the higher tag stays, whichever comes first. -/
theorem set_of_first (h : s ≠ t) (v w : α) :
    (⟨v, s⟩ : LwwReg α).set w t = (⟨w, t⟩ : LwwReg α).set v s := by
  unfold set
  rcases lt_trichotomy s t with hst | hst | hst
  · simp [hst, hst.not_gt]
  · exact absurd hst h
  · simp [hst, hst.not_gt]

theorem tag_set (r : LwwReg α) (v : α) (t : OpTag) : (r.set v t).tag = max r.tag t := by
  unfold set
  split_ifs with h
  · rw [max_eq_right h.le]
  · rw [max_eq_left (not_lt.mp h)]

theorem tag_le_setOption (r : LwwReg α) (v : Option α) (t : OpTag) :
    r.tag ≤ (r.setOption v t).tag := by
  rcases v with _ | v
  · exact le_rfl
  · exact (tag_set r v t).symm ▸ le_max_left _ _

theorem tag_setOption (r : LwwReg α) (v : Option α) (t : OpTag) :
    (r.setOption v t).tag = r.tag ∨ (r.setOption v t).tag = t := by
  rcases v with _ | v
  · exact Or.inl rfl
  · simp only [setOption, tag_set]
    exact max_choice _ _

/-- A write whose tag the register does not carry afterwards left it as it was. -/
theorem set_eq_self (v : α) (h : (r.set v t).tag ≠ t) : r.set v t = r := by
  unfold set at h ⊢
  split_ifs at h ⊢
  · exact absurd rfl h
  · rfl

theorem setOption_eq_self (v : Option α) (h : (r.setOption v t).tag ≠ t) :
    r.setOption v t = r := by
  rcases v with _ | v
  · rfl
  · exact set_eq_self v h

theorem set_of_le (v : α) (h : t ≤ r.tag) : r.set v t = r := if_neg h.not_gt

theorem set_of_lt (v : α) (h : r.tag < t) : r.set v t = ⟨v, t⟩ := if_pos h

end LwwReg

/-! ## Clips -/

/-- What an operation writes to a clip record. -/
structure ClipWrite where
  alive : Option Bool := none
  track : Option TrackId := none
  startFrame : Option UInt64 := none
  durationFrames : Option UInt64 := none
  name : Option String := none
  source : Option String := none
  color : Option UInt32 := none
  gain : Option F32 := none
  muted : Option Bool := none
  locked : Option Bool := none
  orderHint : Option UInt64 := none
  detach : Bool := false

namespace TimelineOperation

/-- The write of an operation that is not a split. -/
def clipWrite : TimelineOperation → ClipWrite
  | insertClip _ trackId clip position =>
    { alive := some true
      track := some trackId
      startFrame := some clip.startFrame
      durationFrames := some clip.durationFrames
      name := some clip.name
      source := some clip.source
      color := some clip.color
      gain := some F32.one
      muted := some false
      locked := some false
      orderHint := some position }
  | moveClip _ newTrackId newStartFrame newPosition =>
    { track := some newTrackId
      startFrame := some newStartFrame
      orderHint := some newPosition
      detach := true }
  | deleteClip _ => { alive := some false }
  | trimClip _ newStartFrame newDuration _ =>
    { startFrame := some newStartFrame, durationFrames := some newDuration, detach := true }
  | updateClipMetadata _ u =>
    { name := u.name, source := u.source, color := u.color, gain := u.gain, muted := u.muted,
      locked := u.locked }
  | _ => {}

/-- Whether an operation is a split. -/
def IsSplit : TimelineOperation → Prop
  | splitClip .. => True
  | _ => False

theorem isSplit_iff {op : TimelineOperation} : op.IsSplit ↔ ∃ c f n, op = splitClip c f n := by
  rcases op with _ | _ | _ | ⟨c, f, n⟩ | _ | _ | _ | _ | _ | _ | _ <;> simp [IsSplit]

end TimelineOperation

namespace ClipCrdt

variable {c : ClipCrdt} {w v : ClipWrite} {s t : OpTag}

/-- Writes the registers `w` names. -/
def write (c : ClipCrdt) (w : ClipWrite) (t : OpTag) : ClipCrdt where
  parent := c.parent
  alive := c.alive.setOption w.alive t
  track := c.track.setOption w.track t
  startFrame := c.startFrame.setOption w.startFrame t
  durationFrames := c.durationFrames.setOption w.durationFrames t
  name := c.name.setOption w.name t
  source := c.source.setOption w.source t
  color := c.color.setOption w.color t
  gain := c.gain.setOption w.gain t
  muted := c.muted.setOption w.muted t
  locked := c.locked.setOption w.locked t
  orderHint := c.orderHint.setOption w.orderHint t
  detached := c.detached || w.detach
  splits := c.splits
  originClaim := c.originClaim

theorem apply_eq_write {op : TimelineOperation} (h : ¬op.IsSplit) (c : ClipCrdt) (t : OpTag) :
    c.apply op t = c.write op.clipWrite t := by
  rcases op with _ | _ | _ | _ | _ | _ | _ | _ | _ | _ | _ <;>
    first
    | exact absurd trivial h
    | simp [apply, applyMetadata, write, TimelineOperation.clipWrite, LwwReg.setOption]

theorem write_comm (h : s ≠ t) : (c.write w s).write v t = (c.write v t).write w s := by
  simp only [write, LwwReg.setOption_comm h, Bool.or_right_comm]

/-- Of two inserts of a clip either may create the record. -/
theorem fromInsert_comm (h : s ≠ t) (x : ClipId) (r r' : TrackId) (d d' : ClipData)
    (p p' : UInt64) :
    (fromInsert r d p s).apply (.insertClip x r' d' p') t =
      (fromInsert r' d' p' t).apply (.insertClip x r d p) s := by
  simp only [fromInsert, apply, LwwReg.set_of_first h]

/-- A write that owns no register afterwards changed none. -/
theorem write_eq_of_not_mem (h : t ∉ (c.write w t).tags) :
    c.write w t = { c with detached := c.detached || w.detach } := by
  simp only [tags, List.mem_cons, List.not_mem_nil, or_false, not_or, ne_comm (a := t), write] at h
  obtain ⟨h1, h2, h3, h4, h5, h6, h7, h8, h9, h10, h11⟩ := h
  simp only [write, LwwReg.setOption_eq_self _ h1, LwwReg.setOption_eq_self _ h2,
    LwwReg.setOption_eq_self _ h3, LwwReg.setOption_eq_self _ h4, LwwReg.setOption_eq_self _ h5,
    LwwReg.setOption_eq_self _ h6, LwwReg.setOption_eq_self _ h7, LwwReg.setOption_eq_self _ h8,
    LwwReg.setOption_eq_self _ h9, LwwReg.setOption_eq_self _ h10,
    LwwReg.setOption_eq_self _ h11]

/-! The changes a split makes to a record. -/

/-- Gives the clip to a claim. -/
def link (c : ClipCrdt) (claim : Claim) : ClipCrdt :=
  { c with originClaim := some claim, parent := some ⟨claim.clip, claim.offset⟩ }

/-- Marks the clip alive if the tag wins. -/
def revive (c : ClipCrdt) (t : OpTag) : ClipCrdt := { c with alive := c.alive.set true t }

/-- Drops the split point at `offset` if it names `child`. -/
def dropSplit (c : ClipCrdt) (offset : UInt64) (child : ClipId) : ClipCrdt :=
  if c.splits[offset]? = some child then { c with splits := c.splits.erase offset } else c

theorem write_link (k : Claim) : (c.link k).write w t = (c.write w t).link k := rfl

theorem write_revive (h : s ≠ t) : (c.revive s).write w t = (c.write w t).revive s := by
  have := LwwReg.setOption_comm (r := c.alive) h (some true) w.alive
  simpa only [revive, write, LwwReg.setOption, ClipCrdt.mk.injEq, and_true, true_and] using this

theorem write_dropSplit (f : UInt64) (n : ClipId) :
    (c.dropSplit f n).write w t = (c.write w t).dropSplit f n := by
  unfold dropSplit
  split_ifs with h1 h2 h2 <;> first | rfl | exact absurd h1 h2 | exact absurd h2 h1

theorem write_recordSplit (f : UInt64) (n : ClipId) :
    (c.recordSplit f n).write w t = (c.write w t).recordSplit f n := by
  unfold recordSplit
  rcases h : c.splits[f]? with _ | old
  · simp [write, h]
  · by_cases hn : n < old <;> simp [write, h, hn]

end ClipCrdt

/-! ## Tracks -/

/-- What an operation writes to a track record. -/
structure TrackWrite where
  alive : Option Bool := none
  name : Option String := none
  kind : Option TrackKind := none
  volumeDb : Option F32 := none
  muted : Option Bool := none
  solo : Option Bool := none
  orderHint : Option UInt64 := none

/-- The write of a track operation. -/
def TimelineOperation.trackWrite : TimelineOperation → TrackWrite
  | insertTrack _ track position =>
    { alive := some true
      name := some track.name
      kind := some track.kind
      volumeDb := some track.volumeDb
      muted := some track.muted
      solo := some track.solo
      orderHint := some position }
  | updateTrackMetadata _ u =>
    { name := u.name, volumeDb := u.volumeDb, muted := u.muted, solo := u.solo,
      orderHint := u.position }
  | deleteTrack _ => { alive := some false }
  | _ => {}

namespace TrackCrdt

variable {r : TrackCrdt} {w v : TrackWrite} {s t : OpTag}

/-- Writes the registers `w` names. -/
def write (r : TrackCrdt) (w : TrackWrite) (t : OpTag) : TrackCrdt where
  alive := r.alive.setOption w.alive t
  name := r.name.setOption w.name t
  kind := r.kind.setOption w.kind t
  volumeDb := r.volumeDb.setOption w.volumeDb t
  muted := r.muted.setOption w.muted t
  solo := r.solo.setOption w.solo t
  orderHint := r.orderHint.setOption w.orderHint t

theorem apply_eq_write (r : TrackCrdt) (op : TimelineOperation) (t : OpTag) :
    r.apply op t = r.write op.trackWrite t := by
  rcases op with _ | _ | _ | _ | _ | _ | _ | _ | _ | _ | _ <;>
    simp [apply, write, TimelineOperation.trackWrite, LwwReg.setOption]

theorem write_comm (h : s ≠ t) : (r.write w s).write v t = (r.write v t).write w s := by
  simp only [write, LwwReg.setOption_comm h]

/-- Of two inserts of a track either may create the record. -/
theorem fromInsert_comm (h : s ≠ t) (x : TrackId) (d d' : TrackData) (p p' : UInt64) :
    (fromInsert d p s).apply (.insertTrack x d' p') t =
      (fromInsert d' p' t).apply (.insertTrack x d p) s := by
  simp only [fromInsert, apply, LwwReg.set_of_first h]

/-- A write that owns no register afterwards changed none. -/
theorem write_eq_of_not_mem (h : t ∉ (r.write w t).tags) : r.write w t = r := by
  simp only [tags, List.mem_cons, List.not_mem_nil, or_false, not_or, ne_comm (a := t), write] at h
  obtain ⟨h1, h2, h3, h4, h5, h6, h7⟩ := h
  simp only [write, LwwReg.setOption_eq_self _ h1, LwwReg.setOption_eq_self _ h2,
    LwwReg.setOption_eq_self _ h3, LwwReg.setOption_eq_self _ h4, LwwReg.setOption_eq_self _ h5,
    LwwReg.setOption_eq_self _ h6, LwwReg.setOption_eq_self _ h7]

end TrackCrdt

/-! ## Envelopes and session metadata -/

namespace EnvelopeStore

variable {s t : OpTag}

theorem set_comm (e : EnvelopeStore) (h : s ≠ t) (x y : TargetId) (k l : EnvelopeType)
    (p q : List EnvelopePoint) :
    (e.set x k p s).set y l q t = (e.set y l q t).set x k p s := by
  simp only [set, EnvelopeStore.mk.injEq]
  ext1 a
  simp only [BTreeMap.getElem?_insert_if]
  by_cases hk : toLex (x, k) = toLex (y, l)
  · rw [hk]
    simp only [reduceIte, Option.getD_some, LwwReg.set_comm h]
    split_ifs <;> rfl
  · simp only [hk, Ne.symm hk, if_false]
    split_ifs with h1 h2 <;> first | rfl | exact absurd (h2.trans h1.symm) hk

end EnvelopeStore

namespace SessionMetadataState

variable {s t : OpTag}

theorem update_comm (m : SessionMetadataState) (h : s ≠ t) (u v : SessionMetadataUpdate) :
    (m.update u s).update v t = (m.update v t).update u s := by
  simp only [update, LwwReg.setOption_comm h]

end SessionMetadataState

end AvSync
