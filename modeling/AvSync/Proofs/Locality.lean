import AvSync.Proofs.Edits

/-!
# Edits are local

The walks that resolve a clip read the record of the clip and those its parent links lead to, and
nothing else of the clips (`resolveClipIn_congr`). An edit of a clip therefore leaves every clip
as it resolves that does not descend from it (`resolveClip_exec_of_not_descends`).
-/

namespace AvSync

namespace Session

variable {s s' : Session} {o : TaggedOperation} {x y : ClipId} {c : ClipCrdt}

/-- The session has the records that `s` has for `x` and for the clips above it. -/
def SameAbove (s s' : Session) (x : ClipId) : Prop :=
  ∀ y, s.Descends x y → s'.clips[y]? = s.clips[y]?

theorem SameAbove.parent {link : ClipParent} (h : SameAbove s s' x) (hx : s.clips[x]? = some c)
    (hl : c.parent = some link) : SameAbove s s' link.clip :=
  fun y hy => h y (hy.of_link hx hl)

theorem SameAbove.clips (h : SameAbove s s' x) : s'.clips[x]? = s.clips[x]? :=
  h x (descends_refl s x)

/-! ## The walks -/

theorem inheritLoop_congr : ∀ {n : ℕ} {x : ClipId} {c : ClipCrdt} {acc : Inherited},
    SameAbove s s' x → s.clips[x]? = some c → s'.inheritLoop n c acc = s.inheritLoop n c acc
  | 0, _, _, _, _, _ => rfl
  | n + 1, x, c, acc, h, hx => by
    simp only [inheritLoop]
    rcases hl : c.parent with _ | link
    · rfl
    · have hp := h.parent hx hl
      simp only [hp.clips]
      rcases hlink : s.clips[link.clip]? with _ | p
      · rfl
      · exact inheritLoop_congr hp hlink

theorem resolveFullRange_congr : ∀ {n : ℕ} {x : ClipId} {c : ClipCrdt},
    SameAbove s s' x → s.clips[x]? = some c → s'.resolveFullRange n c = s.resolveFullRange n c
  | 0, _, _, _, _ => rfl
  | n + 1, x, c, h, hx => by
    simp only [resolveFullRange]
    rcases hl : c.parent with _ | link
    · rfl
    · have hp := h.parent hx hl
      simp only [hp.clips]
      rcases hlink : s.clips[link.clip]? with _ | p
      · rfl
      · simp only [resolveFullRange_congr hp hlink]

/-- Besides the records of the clip and above it, a clip resolves by the tracks. -/
theorem resolveClipIn_congr (h : SameAbove s s' x) (ht : s'.tracks = s.tracks) (n : ℕ) :
    s'.resolveClipIn n x = s.resolveClipIn n x := by
  unfold resolveClipIn
  rw [h.clips]
  rcases hx : s.clips[x]? with _ | c
  · rfl
  · simp only [resolveGeometry, inheritLoop_congr h hx, resolveFullRange_congr h hx, ht]

/-- In forests the numbers of steps do not matter. -/
theorem Forest.resolveClip_congr (hf : s.Forest) (hf' : s'.Forest) (h : SameAbove s s' x)
    (ht : s'.tracks = s.tracks) : s'.resolveClip x = s.resolveClip x := by
  obtain ⟨r, hr⟩ := hf.resolveClip x
  obtain ⟨r', hr'⟩ := hf'.resolveClip x
  have hold := resolveClipIn_mono (le_max_left s.fuel s'.fuel) hr
  have hnew := resolveClipIn_mono (le_max_right s.fuel s'.fuel) hr'
  rw [resolveClipIn_congr h ht] at hnew
  rw [hr, hr', Option.some.inj (hold.symm.trans hnew)]

/-! ## One edit -/

theorem Rewrites.sameAbove {d : ClipCrdt} (h : Rewrites s s' x d) (hd : ¬s.Descends y x) :
    SameAbove s s' y :=
  fun z hz => h.others z fun he => hd (he ▸ hz)

/-- In a session whose parent links form a forest, an edit of an existing clip, with any tag,
leaves every clip as it resolves that is not the clip and does not lie below it. -/
theorem resolveClip_exec_of_not_descends (hf : s.Forest) (hx : x ∈ s.clips)
    (hop : o.operation.editedClip = some x) (hd : ¬s.Descends y x) :
    (∃ r, s.resolveClip y = some r) ∧ (s.exec o).resolveClip y = s.resolveClip y := by
  obtain ⟨c, hc⟩ := BTreeMap.mem_iff.mp hx
  have hrw := rewrites_exec hop hc
  have hf' : (s.exec o).Forest := forest_exec_of_not_split hf (not_isSplit_of_editedClip hop)
  exact ⟨hf.resolveClip y, hf.resolveClip_congr hf' (hrw.sameAbove hd) hrw.tracks⟩

/-- A clip that is split stays as it is when the piece split off is moved. -/
theorem splitOps_move_local : (∃ r, (new.replay splitOps).resolveClip ⟨1⟩ = some r) ∧
    ((new.replay splitOps).exec (.of 4 1 (.moveClip ⟨2⟩ ⟨1⟩ 500 1))).resolveClip ⟨1⟩ =
      (new.replay splitOps).resolveClip ⟨1⟩ := by
  have hf : (new.replay splitOps).Forest := by
    have h : (new.replay splitOps).materialize.isSome = true := by decide +kernel
    exact materialize_returns_iff.mp (Option.isSome_iff_exists.mp h)
  refine resolveClip_exec_of_not_descends hf (by decide +kernel) rfl ?_
  rintro ⟨k, hk⟩
  have htop : (new.replay splitOps).parentOf ⟨1⟩ = none := by decide +kernel
  rcases k with _ | k
  · exact absurd (Option.some.inj hk) (by decide)
  · rw [ParentLinks.walk_succ, htop] at hk
    cases hk

end Session

end AvSync
