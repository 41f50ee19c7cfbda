import AvSync.Proofs.View

/-!
# Sessions that look alike

The resolution reads the detached flag of a clip only where the clip has a parent, and neither the
tag of its liveness nor its claim. Two sessions that agree on the rest (`Alike`) have one view
(`Alike.materialize_eq`). That is the case as soon as they agree but for the detached flags of
clips without a parent (`SameRegisters.materialize_eq`).
-/

namespace AvSync

namespace ClipCrdt

/-- What the resolution reads of a record. -/
def shown (c : ClipCrdt) : ClipCrdt :=
  { c with
    alive := ⟨c.alive.value, .initial⟩
    detached := c.detached && c.parent.isSome
    originClaim := none }

theorem of_shown {c d : ClipCrdt} (h : c.shown = d.shown) :
    d = { c with alive := d.alive, detached := d.detached, originClaim := d.originClaim } ∧
      c.alive.value = d.alive.value ∧ (c.parent ≠ none → c.detached = d.detached) := by
  rcases c with ⟨⟩
  rcases d with ⟨⟩
  simp only [shown, ClipCrdt.mk.injEq, LwwReg.mk.injEq, and_true] at h ⊢
  obtain ⟨hp, ha, h1, h2, h3, h4, h5, h6, h7, h8, h9, h10, hd, hs⟩ := h
  subst hp
  refine ⟨by simp [h1, h2, h3, h4, h5, h6, h7, h8, h9, h10, hs], ha, fun hp => ?_⟩
  simpa [Option.isSome_iff_ne_none.mpr hp] using hd

/-- The record without its detached flag. -/
def attached (c : ClipCrdt) : ClipCrdt := { c with detached := false }

theorem attached_eq_iff {c d : ClipCrdt} :
    c.attached = d.attached ↔ d = { c with detached := d.detached } := by
  constructor
  · intro h
    rcases d with ⟨⟩
    simp only [attached, ClipCrdt.mk.injEq] at h ⊢
    simp [h]
  · intro h
    rw [h, attached, attached]

end ClipCrdt

namespace Session

variable {s s' : Session}

/-- The sessions agree on what the resolution reads. -/
structure Alike (s s' : Session) : Prop where
  metadata : s.metadata = s'.metadata
  tracks : s.tracks = s'.tracks
  envelopes : s.envelopes = s'.envelopes
  clips : ∀ x : ClipId, s.clips[x]?.map ClipCrdt.shown = s'.clips[x]?.map ClipCrdt.shown

namespace Alike

variable (h : Alike s s')

include h

theorem clips_none {x : ClipId} : s.clips[x]? = none ↔ s'.clips[x]? = none := by
  rw [← Option.map_eq_none_iff (f := ClipCrdt.shown), h.clips x, Option.map_eq_none_iff]

theorem clips_some {x : ClipId} {c : ClipCrdt} (hx : s.clips[x]? = some c) :
    ∃ d, s'.clips[x]? = some d ∧ c.shown = d.shown := by
  have := h.clips x
  rw [hx, Option.map_some, eq_comm, Option.map_eq_some_iff] at this
  obtain ⟨d, hd, hcd⟩ := this
  exact ⟨d, hd, hcd.symm⟩

theorem keys_eq : s.clips.keys = s'.clips.keys := by
  have hmap : s.clips.map (fun _ c => c.shown) = s'.clips.map fun _ c => c.shown := by
    ext1 x
    simp only [Std.ExtTreeMap.getElem?_map]
    exact h.clips x
  rw [← Std.ExtTreeMap.keys_map (t := s.clips) (f := fun _ c => c.shown), hmap,
    Std.ExtTreeMap.keys_map]

theorem fuel_eq : s.fuel = s'.fuel := by
  rw [fuel, fuel, ← Std.ExtTreeMap.length_keys, ← Std.ExtTreeMap.length_keys, h.keys_eq]

theorem inheritLoop_eq :
    ∀ (n : ℕ) {c d : ClipCrdt} (acc : Inherited), c.shown = d.shown →
      s.inheritLoop n c acc = s'.inheritLoop n d acc
  | 0, _, _, _, _ => rfl
  | n + 1, c, d, acc, hcd => by
    rw [(ClipCrdt.of_shown hcd).1]
    simp only [inheritLoop]
    rcases c.parent with _ | link
    · rfl
    · rcases hp : s.clips[link.clip]? with _ | p
      · simp only [hp, h.clips_none.mp hp]
      · obtain ⟨q, hq, hpq⟩ := h.clips_some hp
        simp only [hp, hq]
        rw [inheritLoop_eq n _ hpq, (ClipCrdt.of_shown hpq).1]
        rfl

theorem resolveFullRange_eq :
    ∀ (n : ℕ) {c d : ClipCrdt}, c.shown = d.shown →
      s.resolveFullRange n c = s'.resolveFullRange n d
  | 0, _, _, _ => rfl
  | n + 1, c, d, hcd => by
    obtain ⟨hd, -, hdet⟩ := ClipCrdt.of_shown hcd
    rw [hd]
    simp only [resolveFullRange]
    rcases hl : c.parent with _ | link
    · rfl
    · simp only [← hdet (by simp [hl])]
      split_ifs
      · rfl
      · rcases hp : s.clips[link.clip]? with _ | p
        · simp only [h.clips_none.mp hp]
        · obtain ⟨q, hq, hpq⟩ := h.clips_some hp
          obtain ⟨hq', halive, -⟩ := ClipCrdt.of_shown hpq
          simp only [hq, ← halive]
          rw [resolveFullRange_eq n hpq, hq']
          rfl

theorem resolveClipIn_eq (n : ℕ) (x : ClipId) : s.resolveClipIn n x = s'.resolveClipIn n x := by
  unfold resolveClipIn
  rcases hx : s.clips[x]? with _ | c
  · simp only [h.clips_none.mp hx]
  · obtain ⟨d, hx', hcd⟩ := h.clips_some hx
    obtain ⟨hd, halive, -⟩ := ClipCrdt.of_shown hcd
    simp only [hx', resolveGeometry, h.resolveFullRange_eq n hcd, h.inheritLoop_eq n _ hcd,
      h.tracks, halive]
    rw [hd]
    rfl

/-- Sessions that look alike have one view. -/
theorem materialize_eq : s.materialize = s'.materialize := by
  have hr : s.resolveClipIn s.fuel = s'.resolveClipIn s'.fuel := by
    funext x
    rw [h.fuel_eq, h.resolveClipIn_eq]
  unfold materialize materializeIn
  rw [hr, h.keys_eq]
  simp only [metadataView, trackViews, h.metadata, h.tracks, h.envelopes]

end Alike

/-- The sessions are equal but for the detached flags. -/
structure SameRegisters (s s' : Session) : Prop where
  metadata : s.metadata = s'.metadata
  tracks : s.tracks = s'.tracks
  envelopes : s.envelopes = s'.envelopes
  clips : ∀ x : ClipId, s.clips[x]?.map ClipCrdt.attached = s'.clips[x]?.map ClipCrdt.attached

/-- The flags of the clips with a parent are the same. -/
def SameDetached (s s' : Session) : Prop :=
  ∀ (x : ClipId) (c d : ClipCrdt), s.clips[x]? = some c → s'.clips[x]? = some d →
    c.parent ≠ none → c.detached = d.detached

namespace SameRegisters

theorem refl (s : Session) : SameRegisters s s := ⟨rfl, rfl, rfl, fun _ => rfl⟩

theorem trans {s'' : Session} (h : SameRegisters s s') (h' : SameRegisters s' s'') :
    SameRegisters s s'' :=
  ⟨h.metadata.trans h'.metadata, h.tracks.trans h'.tracks, h.envelopes.trans h'.envelopes,
    fun x => (h.clips x).trans (h'.clips x)⟩

variable (h : SameRegisters s s')

include h

theorem symm : SameRegisters s' s :=
  ⟨h.metadata.symm, h.tracks.symm, h.envelopes.symm, fun x => (h.clips x).symm⟩

theorem clips_none {x : ClipId} : s.clips[x]? = none ↔ s'.clips[x]? = none := by
  rw [← Option.map_eq_none_iff (f := ClipCrdt.attached), h.clips x, Option.map_eq_none_iff]

theorem clips_some {x : ClipId} {c : ClipCrdt} (hx : s.clips[x]? = some c) :
    ∃ d, s'.clips[x]? = some d ∧ c.attached = d.attached := by
  have := h.clips x
  rw [hx, Option.map_some, eq_comm, Option.map_eq_some_iff] at this
  obtain ⟨d, hd, hcd⟩ := this
  exact ⟨d, hd, hcd.symm⟩

theorem mem_clips {x : ClipId} : x ∈ s.clips ↔ x ∈ s'.clips := by
  rw [← not_iff_not, BTreeMap.not_mem_iff, BTreeMap.not_mem_iff, h.clips_none]

theorem hasTarget (r : RequiredTarget) : s.HasTarget r ↔ s'.HasTarget r := by
  rcases r with x | x
  · exact h.mem_clips
  · exact iff_of_eq (congrArg (x ∈ ·) h.tracks)

theorem misses (op : TimelineOperation) : s.Misses op ↔ s'.Misses op := by
  refine and_congr_left' (not_congr ?_)
  exact forall₂_congr fun r _ => h.hasTarget r

theorem alike (hd : SameDetached s s') : Alike s s' := by
  refine ⟨h.metadata, h.tracks, h.envelopes, fun x => ?_⟩
  rcases hx : s.clips[x]? with _ | c
  · rw [h.clips_none.mp hx]
  · obtain ⟨d, hx', hcd⟩ := h.clips_some hx
    rw [hx', Option.map_some, Option.map_some]
    have hdet := hd x c d hx hx'
    rw [ClipCrdt.attached_eq_iff.mp hcd, ClipCrdt.shown, ClipCrdt.shown]
    by_cases hp : c.parent = none
    · simp [hp]
    · simp [hdet hp]

/-- Sessions that differ in the detached flags of roots only have one view. -/
theorem materialize_eq (hd : SameDetached s s') : s.materialize = s'.materialize :=
  (h.alike hd).materialize_eq

end SameRegisters

end Session

end AvSync
