import AvSync.Pieces
import AvSync.Proofs.View

/-!
# The ranges of split pieces

A piece's range, computed with saturating operations from its parent's range and split points,
holds exactly the frames of the parent's range from the piece's offset to the next split point
(`mem_childRange`), and the visible part of a range those before the first split point
(`mem_visible`).
-/

namespace AvSync

namespace Session

/-- The frames of a `[start, tail)` range. -/
def rangeFrames (r : UInt64 × UInt64) : Set ℕ := Set.Ico r.1.toNat r.2.toNat

section

variable {c : ClipCrdt} {a b f : UInt64} {z : ℕ}

theorem mem_childRange (hab : a ≤ b) : z ∈ rangeFrames (childRange c f a b) ↔
    a.toNat + f.toNat ≤ z ∧ z < b.toNat ∧ ∀ g ∈ c.splits, f < g → z < a.toNat + g.toNat := by
  have hb := toNat_le_u64Max b
  have hab := UInt64.le_iff_toNat_le.mp hab
  simp only [rangeFrames, childRange, Set.mem_Ico, toNat_max, toNat_min, toNat_saturatingAdd,
    ClipCrdt.nextSplitBoundaryAfter]
  rcases hn : BTreeMap.firstKeyFrom c.splits (saturatingAdd f 1) with _ | g
  · -- no split point follows
    have hno : ∀ g ∈ c.splits, ¬f < g := by
      intro g hg hfg
      have := BTreeMap.firstKeyFrom_eq_none.mp hn g hg
      rw [UInt64.lt_iff_toNat_lt] at this hfg
      rw [toNat_saturatingAdd, UInt64.toNat_one] at this
      omega
    have hiff : (∀ g ∈ c.splits, f < g → z < a.toNat + g.toNat) ↔ True :=
      iff_true_intro fun g hg hfg => absurd hfg (hno g hg)
    simp only [hiff, and_true, Option.getD_none, toNat_saturatingSub]
    omega
  · obtain ⟨hg, hle, hmin⟩ := BTreeMap.firstKeyFrom_eq_some.mp hn
    rw [UInt64.le_iff_toNat_le, toNat_saturatingAdd, UInt64.toNat_one] at hle
    have hiff : a.toNat + f.toNat < 2 ^ 64 - 1 →
        ((∀ g ∈ c.splits, f < g → z < a.toNat + g.toNat) ↔ z < a.toNat + g.toNat) := by
      intro hf
      constructor
      · exact fun h => h g hg (UInt64.lt_iff_toNat_lt.mpr (by omega))
      · intro h g' hg' hfg
        rw [UInt64.lt_iff_toNat_lt] at hfg
        have := hmin g' hg' (by
          rw [UInt64.le_iff_toNat_le, toNat_saturatingAdd, UInt64.toNat_one]
          omega)
        rw [UInt64.le_iff_toNat_le] at this
        omega
    simp only [Option.getD_some]
    by_cases hf : a.toNat + f.toNat < 2 ^ 64 - 1
    · rw [hiff hf]
      omega
    · omega

theorem mem_visible (hab : a ≤ b) : z ∈ Set.Ico a.toNat
      (a.toNat + (min (c.firstSplitOffset.getD (saturatingSub b a)) (saturatingSub b a)).toNat) ↔
    a.toNat ≤ z ∧ z < b.toNat ∧ ∀ g ∈ c.splits, z < a.toNat + g.toNat := by
  have hab := UInt64.le_iff_toNat_le.mp hab
  simp only [Set.mem_Ico, toNat_min, toNat_saturatingSub, ClipCrdt.firstSplitOffset]
  rcases hn : BTreeMap.firstKey c.splits with _ | g
  · have hiff : (∀ g ∈ c.splits, z < a.toNat + g.toNat) ↔ True :=
      iff_true_intro fun g hg => absurd hg (BTreeMap.firstKey_eq_none.mp hn g)
    simp only [hiff, and_true, Option.getD_none, toNat_saturatingSub]
    omega
  · obtain ⟨hg, hmin⟩ := BTreeMap.firstKey_eq_some.mp hn
    have hiff : (∀ g ∈ c.splits, z < a.toNat + g.toNat) ↔ z < a.toNat + g.toNat := by
      refine ⟨fun h => h g hg, fun h g' hg' => ?_⟩
      have := UInt64.le_iff_toNat_le.mp (hmin g' hg')
      omega
    simp only [hiff, Option.getD_some]
    omega

theorem childRange_le : (childRange c f a b).1 ≤ (childRange c f a b).2 := le_max_right _ _

end

/-! ## In a session -/

variable {s : Session}

theorem rangeOf_root {y : ClipId} {c : ClipCrdt} (hy : s.clips[y]? = some c)
    (hp : c.parent = none) (hs : c.startFrame.tag ≠ .initial)
    (hd : c.durationFrames.tag ≠ .initial) : s.rangeOf y = some (ownRange c) := by
  simp only [rangeOf, hy, Option.bind_some, fuel, resolveFullRange, hp, hs, hd, or_self, if_false,
    Option.join_some]

/-- The range of a piece that has not been moved or trimmed, while its parent is alive. -/
theorem Forest.rangeOf_child (h : s.Forest) {y : ClipId} {c p : ClipCrdt} {k : ClipParent}
    (hy : s.clips[y]? = some c) (hk : c.parent = some k) (hd : c.detached = false)
    (hp : s.clips[k.clip]? = some p) (ha : p.alive.value = true) :
    s.rangeOf y = (s.rangeOf k.clip).map fun r => childRange p k.offset r.1 r.2 := by
  obtain ⟨g, hg⟩ := h.resolveFullRange hy
  obtain ⟨r, hr⟩ := h.resolveFullRange hp
  have hstep := hg
  simp only [fuel, Session.resolveFullRange, hk, hd, hp, ha, Bool.false_eq_true, if_false, if_true,
    Option.map_eq_some_iff] at hstep
  obtain ⟨r', hr', rfl⟩ := hstep
  have := resolveFullRange_mono (m := s.fuel) (Nat.le_succ _) hr'
  rw [hr, Option.some.injEq] at this
  subst this
  simp only [rangeOf, hy, hp, hg, hr, Option.bind_some, Option.join_some]

theorem rangeOf_le {y : ClipId} {r : UInt64 × UInt64}
    (hr : s.rangeOf y = some r) : r.1 ≤ r.2 := by
  have hown : ∀ c, (ownRange c).1 ≤ (ownRange c).2 := by
    intro c
    rw [UInt64.le_iff_toNat_le]
    simp only [ownRange, toNat_saturatingAdd]
    have := toNat_le_u64Max c.startFrame.value
    omega
  have key : ∀ n c r, s.resolveFullRange n c = some (some r) → r.1 ≤ r.2 := by
    intro n c r hr
    rcases n with _ | n
    · simp [resolveFullRange] at hr
    · simp only [resolveFullRange] at hr
      rcases hl : c.parent with _ | k <;> simp only [hl] at hr
      · split_ifs at hr
        · simp at hr
        · rw [← Option.some.inj (Option.some.inj hr)]
          exact hown c
      · split_ifs at hr
        · rw [← Option.some.inj (Option.some.inj hr)]
          exact hown c
        · rcases hp : s.clips[k.clip]? with _ | p <;> simp only [hp] at hr
          · simp at hr
          · split_ifs at hr
            · obtain ⟨q, -, hq⟩ := Option.map_eq_some_iff.mp hr
              obtain ⟨q', -, rfl⟩ := Option.map_eq_some_iff.mp hq
              exact childRange_le
            · simp at hr
  obtain ⟨c, hc, hj⟩ := Option.bind_eq_some_iff.mp hr
  exact key _ c r (Option.join_eq_some_iff.mp hj)

end Session

end AvSync
