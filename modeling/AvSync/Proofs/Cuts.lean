import AvSync.Proofs.Shows
import AvSync.Undone

/-!
# Ranges cut short

A range cut at a frame keeps its start. The ranges of the pieces are then cut at that frame, too
(`childRange_cut`), and so are the visible lengths (`visibleLength_cut`). Splitting a clip cuts the
pieces that start before the new split point, and its own visible length (`childRange_of_splits`,
`visibleLength_of_splits`). What a clip takes up is its `extentOf`.
-/

namespace AvSync

namespace Session

/-- The part of a range before the frame `z`. -/
def cut (z : UInt64) (r : UInt64 × UInt64) : UInt64 × UInt64 := (r.1, max (min r.2 z) r.1)

/-- The part before the frame `z` of a number of frames from a start on. -/
def shorten (z : UInt64) (g : UInt64 × UInt64) : UInt64 × UInt64 :=
  (g.1, min g.2 (saturatingSub z g.1))

section

variable {c d : ClipCrdt} {f g z : UInt64} {r q : UInt64 × UInt64}

theorem mem_cut {t : ℕ} : t ∈ rangeFrames (cut z r) ↔ t ∈ rangeFrames r ∧ t < z.toNat := by
  simp only [rangeFrames, cut, Set.mem_Ico, toNat_max, toNat_min]
  omega

theorem cut_le : (cut z r).1 ≤ (cut z r).2 := le_max_right _ _

/-- Ranges with the same start and the same frames are equal. -/
theorem range_ext (hr : r.1 ≤ r.2) (hq : q.1 ≤ q.2) (h1 : r.1 = q.1)
    (h : ∀ t, t ∈ rangeFrames r ↔ t ∈ rangeFrames q) : r = q := by
  refine Prod.ext h1 (UInt64.toNat_inj.mp ?_)
  rw [UInt64.le_iff_toNat_le] at hr hq
  have hr' := h r.2.toNat
  have hq' := h q.2.toNat
  simp only [rangeFrames, Set.mem_Ico, h1] at hr' hq' hr
  omega

theorem childRange_cut (h : r.1 ≤ r.2) :
    childRange c f (cut z r).1 (cut z r).2 = cut z (childRange c f r.1 r.2) := by
  refine range_ext childRange_le cut_le rfl fun t => ?_
  have hcut : (cut z r).2.toNat = max (min r.2.toNat z.toNat) r.1.toNat := by
    simp only [cut, toNat_max, toNat_min]
  rw [mem_childRange cut_le, mem_cut, mem_childRange h, hcut]
  change r.1.toNat + _ ≤ t ∧ _ ∧ (∀ g ∈ c.splits, f < g → t < r.1.toNat + _) ↔ _
  constructor
  · rintro ⟨h1, h2, h3⟩
    exact ⟨⟨h1, by omega, h3⟩, by omega⟩
  · rintro ⟨⟨h1, h2, h3⟩, h4⟩
    exact ⟨h1, by omega, h3⟩

theorem visibleLength_cut (h : r.1 ≤ r.2) :
    c.visibleLength (cut z r) = min (c.visibleLength r) (saturatingSub z r.1) := by
  rw [UInt64.le_iff_toNat_le] at h
  rw [← UInt64.toNat_inj]
  simp only [ClipCrdt.visibleLength, cut, toNat_min, toNat_max, toNat_saturatingSub]
  rcases c.firstSplitOffset with _ | g
  · simp only [Option.getD_none, toNat_saturatingSub, toNat_max, toNat_min]
    omega
  · simp only [Option.getD_some]
    omega

/-- With one more split point, the pieces that start before it are cut at it. -/
theorem childRange_of_splits (hd : ∀ g, g ∈ d.splits ↔ g ∈ c.splits ∨ g = f) (h : r.1 ≤ r.2) :
    childRange d g r.1 r.2 = if g < f then cut (saturatingAdd r.1 f) (childRange c g r.1 r.2)
      else childRange c g r.1 r.2 := by
  have hb := toNat_le_u64Max r.2
  have hsplits : ∀ t : ℕ, (∀ k ∈ d.splits, g < k → t < r.1.toNat + k.toNat) ↔
      (∀ k ∈ c.splits, g < k → t < r.1.toNat + k.toNat) ∧
        (g < f → t < r.1.toNat + f.toNat) := by
    intro t
    simp only [hd]
    constructor
    · exact fun hk => ⟨fun k hkc => hk k (.inl hkc), hk f (.inr rfl)⟩
    · rintro ⟨hk, hf⟩ k (hkc | rfl)
      · exact hk k hkc
      · exact hf
  split_ifs with hgf
  · refine range_ext childRange_le cut_le rfl fun t => ?_
    rw [mem_childRange h, mem_cut, mem_childRange h, hsplits, toNat_saturatingAdd]
    simp only [hgf, forall_const]
    constructor
    · rintro ⟨h1, h2, h3, h4⟩
      exact ⟨⟨h1, h2, h3⟩, by omega⟩
    · rintro ⟨⟨h1, h2, h3⟩, h4⟩
      exact ⟨h1, h2, h3, by omega⟩
  · refine range_ext childRange_le childRange_le rfl fun t => ?_
    rw [mem_childRange h, mem_childRange h, hsplits]
    simp only [hgf, false_imp_iff, and_true]

theorem visibleLength_congr (h : c.splits = d.splits) : c.visibleLength r = d.visibleLength r := by
  rw [ClipCrdt.visibleLength, ClipCrdt.visibleLength, ClipCrdt.firstSplitOffset,
    ClipCrdt.firstSplitOffset, h]

/-- With one more split point, the clip shows no frame from it on. -/
theorem visibleLength_of_splits (hd : ∀ g, g ∈ d.splits ↔ g ∈ c.splits ∨ g = f)
    (h : r.1 ≤ r.2) : d.visibleLength r =
      min (c.visibleLength r) (saturatingSub (saturatingAdd r.1 f) r.1) := by
  have hmem : ∀ t : ℕ, t ∈ Set.Ico r.1.toNat (r.1.toNat + (d.visibleLength r).toNat) ↔
      t ∈ Set.Ico r.1.toNat (r.1.toNat + (c.visibleLength r).toNat) ∧
        t < r.1.toNat + f.toNat := by
    intro t
    simp only [ClipCrdt.visibleLength]
    rw [mem_visible h, mem_visible h]
    simp only [hd]
    constructor
    · rintro ⟨h1, h2, h3⟩
      exact ⟨⟨h1, h2, fun k hk => h3 k (.inl hk)⟩, h3 f (.inr rfl)⟩
    · rintro ⟨⟨h1, h2, h3⟩, h4⟩
      refine ⟨h1, h2, ?_⟩
      rintro k (hk | rfl)
      · exact h3 k hk
      · exact h4
  have hend := toNat_le_u64Max r.2
  have hc : (c.visibleLength r).toNat ≤ r.2.toNat - r.1.toNat := by
    rw [← toNat_saturatingSub]
    exact UInt64.le_iff_toNat_le.mp (min_le_right _ _)
  have h1 := hmem (r.1.toNat + (d.visibleLength r).toNat)
  have h2 := hmem (r.1.toNat + min (c.visibleLength r).toNat f.toNat)
  rw [← UInt64.toNat_inj, toNat_min, toNat_saturatingSub, toNat_saturatingAdd]
  simp only [Set.mem_Ico] at h1 h2
  omega

end

/-! ## Extents -/

/-- The start of a live clip with a range, and the number of frames up to its first split point. -/
def extentOf (s : Session) (y : ClipId) : Option (UInt64 × UInt64) :=
  s.clips[y]?.bind fun c =>
    if c.alive.value then (s.rangeOf y).map fun r => (r.1, c.visibleLength r) else none

variable {s s' : Session} {x y : ClipId} {c d : ClipCrdt} {a : Inherited} {w : ClipView}
  {g r q : UInt64 × UInt64} {z : UInt64}

theorem extentOf_eq_some : s.extentOf y = some g ↔ ∃ c r, s.clips[y]? = some c ∧
    c.alive.value = true ∧ s.rangeOf y = some r ∧ g = (r.1, c.visibleLength r) := by
  simp only [extentOf, Option.bind_eq_some_iff, Option.ite_none_right_eq_some,
    Option.map_eq_some_iff]
  constructor
  · rintro ⟨c, hc, halive, r, hr, rfl⟩
    exact ⟨c, r, hc, halive, hr, rfl⟩
  · rintro ⟨c, r, hc, halive, hr, rfl⟩
    exact ⟨c, hc, halive, r, hr, rfl⟩

/-- What a clip shows: its values and its extent, if that is not empty and the track is live. -/
theorem shows_iff_extent : s.shows y = some w ↔ ∃ a g, s.valuesOf y = some a ∧
    s.LiveTrack a.trackId ∧ s.extentOf y = some g ∧ 0 < g.2 ∧ w = ⟨y, a, g.1, g.2⟩ := by
  rw [shows_eq_some]
  constructor
  · rintro ⟨c, a, r, hc, halive, ha, hr, ht, hpos, rfl⟩
    exact ⟨a, _, ha, ht, extentOf_eq_some.mpr ⟨c, r, hc, halive, hr, rfl⟩, hpos, rfl⟩
  · rintro ⟨a, g, ha, ht, hg, hpos, rfl⟩
    obtain ⟨c, r, hc, halive, hr, rfl⟩ := extentOf_eq_some.mp hg
    exact ⟨c, a, r, hc, halive, ha, hr, ht, hpos, rfl⟩

/-- Nothing of a shortened extent is lost exactly when it ends at or before the cut. -/
theorem shorten_eq_iff (hg : 0 < g.2) : shorten z g = g ↔ g.1.toNat + g.2.toNat ≤ z.toNat := by
  rw [UInt64.lt_iff_toNat_lt, UInt64.toNat_zero] at hg
  have hmin : min g.2 (saturatingSub z g.1) = g.2 ↔ g.1.toNat + g.2.toNat ≤ z.toNat := by
    rw [← UInt64.toNat_inj, toNat_min, toNat_saturatingSub]
    omega
  rw [shorten, Prod.ext_iff, ← hmin]
  exact and_iff_right rfl

theorem shorten_le : (shorten z g).2 ≤ g.2 := min_le_left _ _

theorem extentOf_cut (hrec : Option.Rel SameCuts s.clips[y]? s'.clips[y]?)
    (hrange : s'.rangeOf y = (s.rangeOf y).map (cut z)) :
    s'.extentOf y = (s.extentOf y).map (shorten z) := by
  rcases hc : s.clips[y]? with _ | c <;> rcases hd : s'.clips[y]? with _ | d <;>
    rw [hc, hd] at hrec <;> cases hrec
  · simp only [extentOf, hc, hd, Option.bind_none, Option.map_none]
  · rename_i hcd
    simp only [extentOf, hc, hd, Option.bind_some, ← hcd.alive, hrange]
    split_ifs
    · rcases hr : s.rangeOf y with _ | r
      · rfl
      · rw [Option.map_some, Option.map_some, Option.map_some, Option.map_some,
          ← visibleLength_congr hcd.splits, visibleLength_cut (rangeOf_le hr)]
        rfl
    · rfl

theorem extentOf_congr (hrec : Option.Rel SameCuts s.clips[y]? s'.clips[y]?)
    (hrange : s.rangeOf y = s'.rangeOf y) : s.extentOf y = s'.extentOf y := by
  rcases hc : s.clips[y]? with _ | c <;> rcases hd : s'.clips[y]? with _ | d <;>
    rw [hc, hd] at hrec <;> cases hrec
  · simp only [extentOf, hc, hd, Option.bind_none]
  · rename_i hcd
    simp only [extentOf, hc, hd, Option.bind_some, hcd.alive, hrange,
      visibleLength_congr hcd.splits]

section

variable (hvals : s.valuesOf y = s'.valuesOf y) (htracks : ∀ t, s.LiveTrack t ↔ s'.LiveTrack t)

include hvals htracks

theorem shows_of_extentOf_eq (h : s.extentOf y = s'.extentOf y) : s.shows y = s'.shows y := by
  ext w
  simp only [shows_iff_extent, hvals, htracks, h]

/-- With its extent shortened, a clip shows the same exactly when it ends at or before the cut. -/
theorem shows_shorten_iff (h : s'.extentOf y = (s.extentOf y).map (shorten z)) :
    s.shows y = s'.shows y ↔
      ∀ w, s.shows y = some w → w.startFrame.toNat + w.durationFrames.toNat ≤ z.toNat := by
  constructor
  · intro heq w hw
    obtain ⟨a, g, -, -, hg, hpos, hwg⟩ := shows_iff_extent.mp hw
    obtain ⟨a', g', -, -, hg', -, hwg'⟩ := shows_iff_extent.mp (heq ▸ hw)
    rw [h, hg, Option.map_some, Option.some.injEq] at hg'
    have hgg : g' = g := by
      rw [hwg] at hwg'
      simp only [ClipView.mk.injEq] at hwg'
      exact Prod.ext hwg'.2.2.1.symm hwg'.2.2.2.symm
    rw [hwg]
    exact (shorten_eq_iff hpos).mp (hg'.trans hgg)
  · intro hend
    by_cases hsome : ∃ w, s.shows y = some w
    · obtain ⟨w, hw⟩ := hsome
      refine shows_of_extentOf_eq hvals htracks ?_
      obtain ⟨a, g, -, -, hg, hpos, hwg⟩ := shows_iff_extent.mp hw
      have hz := hend w hw
      rw [hwg] at hz
      rw [h, hg, Option.map_some, (shorten_eq_iff hpos).mpr hz]
    · -- nothing becomes visible
      have hnone := Option.eq_none_iff_forall_ne_some.mpr fun w hw => hsome ⟨w, hw⟩
      rw [hnone]
      refine (Option.eq_none_iff_forall_ne_some.mpr fun w hw => ?_).symm
      obtain ⟨a, g', ha, ht, hg', hpos, -⟩ := shows_iff_extent.mp hw
      rw [h, Option.map_eq_some_iff] at hg'
      obtain ⟨g, hg, rfl⟩ := hg'
      exact hsome ⟨_, shows_iff_extent.mpr ⟨a, g, hvals.trans ha, (htracks _).mpr ht, hg,
        lt_of_lt_of_le hpos shorten_le, rfl⟩⟩

end

/-! ## Ranges derived from another -/

theorem Forest.rangeOf_attached (hf : s.Forest) (hy : s.clips[y]? = some c) {link : ClipParent}
    (hl : c.parent = some link) (hdet : c.detached = false) : s.rangeOf y =
      s.clips[link.clip]?.bind fun p =>
        if p.alive.value then
          (s.rangeOf link.clip).map fun r => childRange p link.offset r.1 r.2
        else none := by
  obtain ⟨l, hlin⟩ := hf.lineage (BTreeMap.mem_iff.mpr ⟨c, hy⟩)
  obtain ⟨c', above, hc', rfl⟩ := hlin.head
  obtain rfl := Option.some.inj (hy.symm.trans hc')
  rw [hlin.rangeOf_eq, hl]
  simp only [hdet, Bool.false_eq_true, if_false]

theorem Forest.rangeOf_attached_iff (hf : s.Forest) (hy : s.clips[y]? = some c) {link : ClipParent}
    (hl : c.parent = some link) (hdet : c.detached = false) : s.rangeOf y = some q ↔
      ∃ p r, s.clips[link.clip]? = some p ∧ p.alive.value = true ∧ s.rangeOf link.clip = some r ∧
        q = childRange p link.offset r.1 r.2 := by
  rw [hf.rangeOf_attached hy hl hdet]
  simp only [Option.bind_eq_some_iff, Option.ite_none_right_eq_some, Option.map_eq_some_iff]
  constructor
  · rintro ⟨p, hp, halive, r, hr, rfl⟩
    exact ⟨p, r, hp, halive, hr, rfl⟩
  · rintro ⟨p, r, hp, halive, hr, rfl⟩
    exact ⟨p, hp, halive, r, hr, rfl⟩

/-- What a change of the range of `x` does to the range of a piece, it does to the ranges of all
clips that follow `x`. -/
theorem Follows.rangeOf_map {φ : UInt64 × UInt64 → UInt64 × UInt64}
    (hφ : ∀ p f r, r.1 ≤ r.2 →
      childRange p f (φ r).1 (φ r).2 = φ (childRange p f r.1 r.2))
    (h : s.Follows y x) (hf : s.Forest) (hf' : s'.Forest)
    (hx : Option.Rel SameCuts s.clips[x]? s'.clips[x]?)
    (hsame : ∀ z, s.Follows z x → z ≠ x → s'.clips[z]? = s.clips[z]?)
    (hr : s'.rangeOf x = (s.rangeOf x).map φ) : s'.rangeOf y = (s.rangeOf y).map φ := by
  induction h with
  | refl x => exact hr
  | @step y x c link hc hl hdet h ih =>
    by_cases hyx : y = x
    · exact hyx ▸ hr
    have hc' := (hsame y (.step hc hl hdet h) hyx).trans hc
    rw [hf.rangeOf_attached hc hl hdet, hf'.rangeOf_attached hc' hl hdet, ih hx hsame hr]
    have hrel : Option.Rel SameCuts s.clips[link.clip]? s'.clips[link.clip]? := by
      by_cases hlx : link.clip = x
      · exact hlx ▸ hx
      · exact rel_of_eq .refl (hsame _ h hlx).symm
    rcases hp : s.clips[link.clip]? with _ | p <;> rcases hq : s'.clips[link.clip]? with _ | q <;>
      rw [hp, hq] at hrel <;> cases hrel
    · rfl
    · rename_i hpq
      simp only [Option.bind_some, ← hpq.alive]
      split_ifs
      · rcases ht : s.rangeOf link.clip with _ | t
        · rfl
        · simp only [Option.map_some]
          rw [← hφ p _ t (rangeOf_le ht), hpq.childRange_eq]
      · rfl

theorem Derives.follows (h : s.Derives x r y q) : s.Follows y x := by
  induction h with
  | here => exact .refl x
  | piece _ hc hl hdet _ _ _ ih => exact .step hc hl hdet ih

theorem Derives.unique (h : s.Derives x r y q) {q' : UInt64 × UInt64}
    (h' : s.Derives x r y q') : q = q' := by
  induction h generalizing q' with
  | here =>
    rcases h' with _ | ⟨hne, -, -, -, -, -, -⟩
    · rfl
    · exact absurd rfl hne
  | piece hne hc hl hdet hp halive h ih =>
    rcases h' with _ | ⟨-, hc', hl', -, hp', -, h'⟩
    · exact absurd rfl hne
    · obtain rfl := Option.some.inj (hc.symm.trans hc')
      obtain rfl := Option.some.inj (hl.symm.trans hl')
      obtain rfl := Option.some.inj (hp.symm.trans hp')
      rw [ih h']

/-- The records that follow `x`, and the cuts of `x`, decide what derives from its range. -/
theorem Derives.congr (h : s.Derives x r y q)
    (hx : Option.Rel (fun c d => c.splits = d.splits) s.clips[x]? s'.clips[x]?)
    (hsame : ∀ z, s.Follows z x → z ≠ x → s'.clips[z]? = s.clips[z]?) : s'.Derives x r y q := by
  induction h with
  | here => exact .here
  | @piece y c p link q hne hc hl hdet hp halive h ih =>
    have hc' := (hsame y (.step hc hl hdet h.follows) hne).trans hc
    by_cases hlx : link.clip = x
    · rw [← hlx, hp] at hx
      rcases hp' : s'.clips[link.clip]? with _ | p' <;> rw [hp'] at hx <;> cases hx
      rename_i hpp
      have hchild : childRange p link.offset q.1 q.2 = childRange p' link.offset q.1 q.2 := by
        simp only [childRange, ClipCrdt.nextSplitBoundaryAfter, hpp]
      rw [hchild]
      exact .piece hne hc' hl hdet hp' (fun h => absurd hlx h) ih
    · exact .piece hne hc' hl hdet ((hsame _ h.follows hlx).trans hp) halive ih

/-- From another range of `x` with the same start, another range with the same start derives. -/
theorem Derives.exists (h : s.Derives x r y q) (r' : UInt64 × UInt64) (hr : r.1 = r'.1) :
    ∃ q', s.Derives x r' y q' ∧ q.1 = q'.1 := by
  induction h with
  | here => exact ⟨r', .here, hr⟩
  | piece hne hc hl hdet hp halive h ih =>
    obtain ⟨q', hq', heq⟩ := ih
    exact ⟨_, .piece hne hc hl hdet hp halive hq', by rw [childRange, childRange, heq]⟩

theorem Derives.rangeOf (hf : s.Forest) (h : s.Derives x r y q) (hx : s.rangeOf x = some r)
    (halive : y ≠ x → ∀ c, s.clips[x]? = some c → c.alive.value = true) :
    s.rangeOf y = some q := by
  induction h with
  | here => exact hx
  | @piece y c p link q hne hc hl hdet hp hpalive h ih =>
    refine (hf.rangeOf_attached_iff hc hl hdet).mpr
      ⟨p, q, hp, ?_, ih fun _ => halive hne, rfl⟩
    by_cases hlx : link.clip = x
    · exact halive hne p (hlx ▸ hp)
    · exact hpalive hlx

theorem Follows.derives (hf : s.Forest) (h : s.Follows y x) (hq : s.rangeOf y = some q) :
    ∃ r, s.rangeOf x = some r ∧ s.Derives x r y q ∧
      (y ≠ x → ∀ c, s.clips[x]? = some c → c.alive.value = true) := by
  induction h generalizing q with
  | refl x => exact ⟨q, hq, .here, fun h => absurd rfl h⟩
  | @step y x c link hc hl hdet h ih =>
    by_cases hyx : y = x
    · subst hyx
      exact ⟨q, hq, .here, fun h => absurd rfl h⟩
    · obtain ⟨p, t, hp, halive, ht, rfl⟩ := (hf.rangeOf_attached_iff hc hl hdet).mp hq
      obtain ⟨r, hr, hder, hx⟩ := ih ht
      refine ⟨r, hr, .piece hyx hc hl hdet hp (fun _ => halive) hder, fun _ e he => ?_⟩
      by_cases hlx : link.clip = x
      · rw [hlx] at hp
        exact Option.some.inj (hp.symm.trans he) ▸ halive
      · exact hx hlx e he

end Session

end AvSync
