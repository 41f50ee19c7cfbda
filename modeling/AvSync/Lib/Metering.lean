import Mathlib

/-!
# Metered spending

An account holds at most a fixed amount and earns at a constant rate. What is paid from it within
a window of time is at most what it holds and what it earns in the window (`spent_le`).
-/

namespace AvSync

namespace Metering

variable {K : Type*} [Field K] [LinearOrder K]

/-- The payments, each a time and an amount, are covered in turn: what an account with `balance` at
time `last` has earned by then, up to `capacity`, pays the amount and leaves no debt. -/
def Covered (capacity rate : K) : K → K → List (K × K) → Prop
  | _, _, [] => True
  | balance, last, (now, cost) :: l => ∃ rest, 0 ≤ rest ∧ rest + cost ≤ capacity ∧
      rest + cost ≤ balance + max (now - last) 0 * rate ∧ Covered capacity rate rest now l

/-- What is paid between `s` and `t`. -/
def spent (s t : K) (l : List (K × K)) : K :=
  ((l.filter fun p => s ≤ p.1 ∧ p.1 ≤ t).map Prod.snd).sum

variable {capacity rate balance last s t now cost : K} {l : List (K × K)}

theorem spent_nil : spent s t [] = 0 := rfl

theorem spent_cons_of_mem (hs : s ≤ now) (ht : now ≤ t) :
    spent s t ((now, cost) :: l) = cost + spent s t l := by
  rw [spent, List.filter_cons_of_pos (by simp [hs, ht]), List.map_cons, List.sum_cons, spent]

theorem spent_cons_of_not_mem (h : ¬(s ≤ now ∧ now ≤ t)) :
    spent s t ((now, cost) :: l) = spent s t l := by
  rw [spent, List.filter_cons_of_neg (by simpa using h), spent]

theorem spent_of_lt (h : ∀ p ∈ l, t < p.1) : spent s t l = 0 := by
  induction l with
  | nil => rfl
  | cons p l ih =>
    obtain ⟨hp, hl⟩ := List.forall_mem_cons.mp h
    rw [spent_cons_of_not_mem fun hw => absurd hw.2 hp.not_ge, ih hl]

variable [IsStrictOrderedRing K]

/-- Once the window has begun, the balance and what is earned from then on pay for the rest. -/
theorem spent_le_balance (hrate : 0 ≤ rate) :
    ∀ {l : List (K × K)} {balance last : K}, Covered capacity rate balance last l →
      (l.map Prod.fst).Pairwise (· ≤ ·) → (∀ p ∈ l, last ≤ p.1) → 0 ≤ balance → s ≤ last →
        last ≤ t → spent s t l ≤ balance + rate * (t - last)
  | [], balance, last, _, _, _, hb, _, ht => by
    rw [spent_nil]
    exact add_nonneg hb (mul_nonneg hrate (sub_nonneg.mpr ht))
  | (now, cost) :: l, balance, last, hcov, hsorted, hlast, hb, hs, ht => by
    obtain ⟨rest, hrest, -, hpaid, hl⟩ := hcov
    obtain ⟨hnow, -⟩ := List.forall_mem_cons.mp hlast
    rw [List.map_cons, List.pairwise_cons] at hsorted
    have hlater : ∀ p ∈ l, now ≤ p.1 := fun p hp => hsorted.1 _ (List.mem_map_of_mem hp)
    by_cases hend : now ≤ t
    · have ih := spent_le_balance hrate hl hsorted.2 hlater hrest (hs.trans hnow) hend
      rw [spent_cons_of_mem (hs.trans hnow) hend]
      rw [max_eq_left (sub_nonneg.mpr hnow)] at hpaid
      linarith
    · -- the window is over
      rw [not_le] at hend
      rw [spent_of_lt (List.forall_mem_cons.mpr ⟨hend, fun p hp => hend.trans_le (hlater p hp)⟩)]
      exact add_nonneg hb (mul_nonneg hrate (sub_nonneg.mpr ht))

/-- What is paid in a window is at most the capacity and what the window earns. -/
theorem spent_le (hcapacity : 0 ≤ capacity) (hrate : 0 ≤ rate) (hst : s ≤ t) :
    ∀ {l : List (K × K)} {balance last : K}, Covered capacity rate balance last l →
      (l.map Prod.fst).Pairwise (· ≤ ·) → spent s t l ≤ capacity + rate * (t - s)
  | [], _, _, _, _ => by
    rw [spent_nil]
    exact add_nonneg hcapacity (mul_nonneg hrate (sub_nonneg.mpr hst))
  | (now, cost) :: l, balance, last, hcov, hsorted => by
    obtain ⟨rest, hrest, hcap, -, hl⟩ := hcov
    rw [List.map_cons, List.pairwise_cons] at hsorted
    have hlater : ∀ p ∈ l, now ≤ p.1 := fun p hp => hsorted.1 _ (List.mem_map_of_mem hp)
    by_cases hw : s ≤ now ∧ now ≤ t
    · -- the first payment of the window finds at most the capacity
      have htail := spent_le_balance hrate hl hsorted.2 hlater hrest hw.1 hw.2
      have hearned : rate * (t - now) ≤ rate * (t - s) :=
        mul_le_mul_of_nonneg_left (sub_le_sub_left hw.1 t) hrate
      rw [spent_cons_of_mem hw.1 hw.2]
      linarith
    · rw [spent_cons_of_not_mem hw]
      exact spent_le hcapacity hrate hst hl hsorted.2

end Metering

end AvSync
