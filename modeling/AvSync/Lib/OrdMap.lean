import Mathlib

/-!
# Ordered finite maps

`BTreeMap κ ν` is the extensional tree map of a linear order. The lookups after an insertion, an
erasure or a modification are stated with `=` on keys; the least key and the least key from a
bound on are read off the ascending key list.
-/

namespace AvSync

/-- The ordered map of a linear order: two of them are equal when their lookups are. -/
abbrev BTreeMap (κ ν : Type) [LinearOrder κ] : Type := Std.ExtTreeMap κ ν compare

instance transOrd {κ : Type} [LinearOrder κ] : Std.TransOrd κ := inferInstance

instance lawfulEqOrd {κ : Type} [LinearOrder κ] : Std.LawfulEqOrd κ where
  eq_of_compare h := compare_eq_iff_eq.mp h

namespace BTreeMap

variable {κ ν : Type} [LinearOrder κ]

/-- The key an ascending iteration over `m` meets first. -/
def firstKey (m : BTreeMap κ ν) : Option κ := m.keys.head?

/-- The key an ascending iteration over the keys from `k` on meets first. -/
def firstKeyFrom (m : BTreeMap κ ν) (k : κ) : Option κ := m.keys.find? (k ≤ ·)

theorem getElem?_insert_if (m : BTreeMap κ ν) (k a : κ) (v : ν) :
    (m.insert k v)[a]? = if k = a then some v else m[a]? := by
  rw [Std.ExtTreeMap.getElem?_insert]
  simp

theorem getElem?_erase_if (m : BTreeMap κ ν) (k a : κ) :
    (m.erase k)[a]? = if k = a then none else m[a]? := by
  rw [Std.ExtTreeMap.getElem?_erase]
  simp

theorem getElem?_modify_if (m : BTreeMap κ ν) (k a : κ) (f : ν → ν) :
    (m.modify k f)[a]? = if k = a then m[a]?.map f else m[a]? := by
  rw [Std.ExtTreeMap.getElem?_modify]
  by_cases h : k = a
  · subst h; simp
  · simp [h]

theorem mem_iff {m : BTreeMap κ ν} {a : κ} : a ∈ m ↔ ∃ v, m[a]? = some v := by
  rw [Std.ExtTreeMap.mem_iff_isSome_getElem?, Option.isSome_iff_exists]

theorem not_mem_iff {m : BTreeMap κ ν} {a : κ} : a ∉ m ↔ m[a]? = none := by
  rw [Std.ExtTreeMap.mem_iff_isSome_getElem?]
  simp

theorem keys_pairwise_lt (m : BTreeMap κ ν) : m.keys.Pairwise (· < ·) :=
  (Std.ExtTreeMap.ordered_keys (t := m)).imp fun h => compare_lt_iff_lt.mp h

theorem firstKey_eq_none {m : BTreeMap κ ν} : m.firstKey = none ↔ ∀ k, k ∉ m := by
  simp only [firstKey, List.head?_eq_none_iff]
  constructor
  · intro h k hk
    have := Std.ExtTreeMap.mem_keys.mpr hk
    simp [h] at this
  · intro h
    refine List.eq_nil_iff_forall_not_mem.mpr fun k hk => ?_
    exact h k (Std.ExtTreeMap.mem_keys.mp hk)

theorem firstKey_eq_some {m : BTreeMap κ ν} {k : κ} :
    m.firstKey = some k ↔ k ∈ m ∧ ∀ a ∈ m, k ≤ a := by
  have hs := m.keys_pairwise_lt
  simp only [← Std.ExtTreeMap.mem_keys (t := m), firstKey]
  rcases hm : m.keys with _ | ⟨b, l⟩
  · simp
  · rw [hm, List.pairwise_cons] at hs
    simp only [List.head?_cons, Option.some.injEq]
    constructor
    · rintro rfl
      refine ⟨List.mem_cons_self, fun a ha => ?_⟩
      rcases List.mem_cons.mp ha with rfl | ha
      · exact le_rfl
      · exact (hs.1 a ha).le
    · rintro ⟨hk, hle⟩
      rcases List.mem_cons.mp hk with rfl | hk
      · rfl
      · exact absurd (hle b List.mem_cons_self) (hs.1 k hk).not_ge

theorem firstKeyFrom_eq_none {m : BTreeMap κ ν} {k : κ} :
    m.firstKeyFrom k = none ↔ ∀ a ∈ m, a < k := by
  simp only [firstKeyFrom, List.find?_eq_none, decide_eq_true_eq, not_le]
  exact forall_congr' fun a => by rw [Std.ExtTreeMap.mem_keys]

theorem firstKeyFrom_eq_some {m : BTreeMap κ ν} {k b : κ} :
    m.firstKeyFrom k = some b ↔ b ∈ m ∧ k ≤ b ∧ ∀ a ∈ m, k ≤ a → b ≤ a := by
  have hs := m.keys_pairwise_lt
  simp only [← Std.ExtTreeMap.mem_keys (t := m), firstKeyFrom]
  generalize m.keys = l at hs
  induction l with
  | nil => simp
  | cons c l ih =>
    rw [List.pairwise_cons] at hs
    by_cases hc : k ≤ c
    · simp only [List.find?_cons, hc, decide_true, Option.some.injEq]
      constructor
      · rintro rfl
        refine ⟨List.mem_cons_self, hc, fun a ha _ => ?_⟩
        rcases List.mem_cons.mp ha with rfl | ha
        · exact le_rfl
        · exact (hs.1 a ha).le
      · rintro ⟨hb, -, hle⟩
        rcases List.mem_cons.mp hb with rfl | hb
        · rfl
        · exact absurd (hle c List.mem_cons_self hc) (hs.1 b hb).not_ge
    · simp only [List.find?_cons, hc, decide_false, ih hs.2]
      constructor
      · rintro ⟨hb, hkb, hle⟩
        refine ⟨List.mem_cons_of_mem _ hb, hkb, fun a ha hka => ?_⟩
        rcases List.mem_cons.mp ha with rfl | ha
        · exact absurd hka hc
        · exact hle a ha hka
      · rintro ⟨hb, hkb, hle⟩
        rcases List.mem_cons.mp hb with rfl | hb
        · exact absurd hkb hc
        · exact ⟨hb, hkb, fun a ha => hle a (List.mem_cons_of_mem _ ha)⟩

end BTreeMap

end AvSync
