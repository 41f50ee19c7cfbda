import AvSync.Lib.OrdMap

/-!
# Machine words

`u64` is `UInt64` with its usual order. The saturating operations are the ones the timeline uses
on frames and on Lamport counters. Floats are only stored and copied here, so they are their bits.
-/

namespace AvSync

instance linearOrderUInt64 : LinearOrder UInt64 where
  le_refl := UInt64.le_refl
  le_trans _ _ _ := UInt64.le_trans
  le_antisymm _ _ := UInt64.le_antisymm
  le_total := UInt64.le_total
  lt_iff_le_not_ge a b := by
    rw [UInt64.not_le]
    exact ⟨fun h => ⟨UInt64.le_of_lt h, h⟩, fun h => h.2⟩
  toDecidableLE := inferInstance
  toDecidableEq := inferInstance
  toDecidableLT := inferInstance

/-- `u64::MAX` -/
def u64Max : UInt64 := 0xFFFFFFFFFFFFFFFF

/-- `u64::saturating_add` -/
def saturatingAdd (a b : UInt64) : UInt64 :=
  UInt64.ofNat (min (a.toNat + b.toNat) u64Max.toNat)

/-- `u64::saturating_sub` -/
def saturatingSub (a b : UInt64) : UInt64 :=
  UInt64.ofNat (a.toNat - b.toNat)

@[simp] theorem u64Max_toNat : u64Max.toNat = 2 ^ 64 - 1 := rfl

theorem toNat_le_u64Max (a : UInt64) : a.toNat ≤ 2 ^ 64 - 1 := by
  have := a.toNat_lt
  omega

theorem toNat_saturatingAdd (a b : UInt64) :
    (saturatingAdd a b).toNat = min (a.toNat + b.toNat) (2 ^ 64 - 1) := by
  simp only [saturatingAdd, u64Max_toNat, UInt64.toNat_ofNat']
  omega

theorem toNat_saturatingSub (a b : UInt64) :
    (saturatingSub a b).toNat = a.toNat - b.toNat := by
  have := a.toNat_lt
  simp only [saturatingSub, UInt64.toNat_ofNat']
  omega

theorem toNat_max (a b : UInt64) : (max a b).toNat = max a.toNat b.toNat := by
  rcases le_total a b with h | h
  · rw [max_eq_right h, max_eq_right (UInt64.le_iff_toNat_le.mp h)]
  · rw [max_eq_left h, max_eq_left (UInt64.le_iff_toNat_le.mp h)]

theorem toNat_min (a b : UInt64) : (min a b).toNat = min a.toNat b.toNat := by
  rcases le_total a b with h | h
  · rw [min_eq_left h, min_eq_left (UInt64.le_iff_toNat_le.mp h)]
  · rw [min_eq_right h, min_eq_right (UInt64.le_iff_toNat_le.mp h)]

/-- The tick of a counter below the maximum moves it up. -/
theorem lt_saturatingAdd_one {a : UInt64} (h : a < u64Max) : a < saturatingAdd a 1 := by
  rw [UInt64.lt_iff_toNat_lt, u64Max_toNat] at h
  rw [UInt64.lt_iff_toNat_lt, toNat_saturatingAdd]
  simp only [UInt64.toNat_one]
  omega

/-- An `f32`, as its bits. -/
structure F32 where
  bits : UInt32
  deriving DecidableEq

/-- An `f64`, as its bits. -/
structure F64 where
  bits : UInt64
  deriving DecidableEq

/-- `1.0_f32` -/
def F32.one : F32 := ⟨0x3F800000⟩

end AvSync
