import Mathlib.Logic.Relation
import Mathlib.Logic.Function.Basic
import Mathlib.Data.Set.Insert
import Mathlib.Order.MinMax

/-!
# Causality and counting clocks

A causal history records what each party knows and what was known where an event was created.
Parties that count their own events, stamp each event with all their counts and take maxima on
learning of an event track it (`Tracks`): of two events one is stamped below the other exactly
when it precedes it (`Tracks.precedes_iff`).
-/

namespace AvSync

/-- The events created, those each party knows, and those known where an event was created. -/
structure CausalHistory (P E : Type*) where
  created : Set E
  known : P → Set E
  direct : E → E → Prop

namespace CausalHistory

variable {P E : Type*}

/-- Nothing has happened. -/
def empty : CausalHistory P E := ⟨∅, fun _ => ∅, fun _ _ => False⟩

variable (H : CausalHistory P E)

/-- `a` is known where `b` was created, transitively through other events. -/
def Precedes (a b : E) : Prop := Relation.TransGen H.direct a b

/-- `p` knows `a`, or an event that `a` precedes. -/
def Past (p : P) (a : E) : Prop := ∃ b ∈ H.known p, a = b ∨ H.Precedes a b

variable {H} {p q : P} {a b e : E}

/-- The history as it is seen in the stamps of its events and in the parties' clocks. -/
structure Tracks (H : CausalHistory P E) (owner : E → P) (stamp : E → P → ℕ) (clock : P → P → ℕ) :
    Prop where
  known_created : ∀ {p e}, e ∈ H.known p → e ∈ H.created
  owner_knows : ∀ {e}, e ∈ H.created → e ∈ H.known (owner e)
  known_le : ∀ {p e}, e ∈ H.known p → ∀ q, stamp e q ≤ clock p q
  clock_le_own : ∀ p q, clock p q ≤ clock q q
  direct_lt : ∀ {a b}, H.direct a b →
    (∀ q, stamp a q ≤ stamp b q) ∧ stamp a (owner b) < stamp b (owner b)
  clock_past : ∀ {p a}, a ∈ H.created → stamp a (owner a) ≤ clock p (owner a) → H.Past p a
  stamp_past : ∀ {a b}, a ∈ H.created → b ∈ H.created → stamp a (owner a) ≤ stamp b (owner a) →
    a = b ∨ H.Precedes a b

namespace Tracks

variable {owner : E → P} {stamp : E → P → ℕ} {clock : P → P → ℕ}

theorem empty : (empty : CausalHistory P E).Tracks owner stamp fun _ _ => 0 where
  known_created h := h.elim
  owner_knows h := h.elim
  known_le h := h.elim
  clock_le_own _ _ := le_rfl
  direct_lt h := h.elim
  clock_past h := h.elim
  stamp_past h := h.elim

variable (h : H.Tracks owner stamp clock)

include h

theorem stamp_le_own (he : e ∈ H.created) (q : P) : stamp e q ≤ clock q q :=
  (h.known_le (h.owner_knows he) q).trans (h.clock_le_own _ q)

theorem precedes_lt (hab : H.Precedes a b) :
    (∀ q, stamp a q ≤ stamp b q) ∧ stamp a (owner b) < stamp b (owner b) := by
  induction hab with
  | single hab => exact h.direct_lt hab
  | tail _ hbc ih =>
    obtain ⟨hle, hlt⟩ := h.direct_lt hbc
    exact ⟨fun q => (ih.1 q).trans (hle q), (ih.1 _).trans_lt hlt⟩

/-- Stamps order two events as causality does. -/
theorem precedes_iff (ha : a ∈ H.created) (hb : b ∈ H.created) (hne : a ≠ b) :
    (∀ q, stamp a q ≤ stamp b q) ∧ (∃ q, stamp a q < stamp b q) ↔ H.Precedes a b := by
  constructor
  · exact fun hs => (h.stamp_past ha hb (hs.1 _)).resolve_left hne
  · exact fun hab => ⟨(h.precedes_lt hab).1, _, (h.precedes_lt hab).2⟩

end Tracks

/-! ## Creating and learning -/

variable [DecidableEq P]

variable (H) in
/-- `p` learns of `e`. -/
def learn (p : P) (e : E) : CausalHistory P E :=
  { H with known := Function.update H.known p (insert e (H.known p)) }

variable (H) in
/-- `p` creates `e`. -/
def create (p : P) (e : E) : CausalHistory P E where
  created := insert e H.created
  known := Function.update H.known p (insert e (H.known p))
  direct a b := H.direct a b ∨ b = e ∧ a ∈ H.known p

theorem mem_known_learn :
    a ∈ (H.learn p e).known q ↔ p = q ∧ a = e ∨ a ∈ H.known q := by
  by_cases h : p = q
  · subst h
    simp [learn]
  · simp [learn, h, Ne.symm h]

theorem mem_known_create : a ∈ (H.create p e).known q ↔ p = q ∧ a = e ∨ a ∈ H.known q :=
  mem_known_learn

theorem Precedes.create (h : H.Precedes a b) : (H.create p e).Precedes a b :=
  Relation.TransGen.mono (fun _ _ => Or.inl) _ _ h

theorem Past.precedes_create (h : H.Past p a) : (H.create p e).Precedes a e := by
  obtain ⟨b, hb, hab⟩ := h
  have hbe : (H.create p e).direct b e := Or.inr ⟨rfl, hb⟩
  rcases hab with rfl | hab
  · exact .single hbe
  · exact hab.create.tail hbe

theorem Past.create (h : H.Past q a) : (H.create p e).Past q a := by
  obtain ⟨b, hb, hab⟩ := h
  exact ⟨b, mem_known_create.mpr (Or.inr hb), hab.imp_right Precedes.create⟩

theorem Past.learn (h : H.Past q a) : (H.learn p e).Past q a := by
  obtain ⟨b, hb, hab⟩ := h
  exact ⟨b, mem_known_learn.mpr (Or.inr hb), hab⟩

namespace Tracks

variable {owner : E → P} {stamp : E → P → ℕ} {clock clock' : P → P → ℕ}
  (h : H.Tracks owner stamp clock)

include h

/-- Creating an event counts it, and stamps it with the counts. -/
theorem create (howner : owner e = p) (hstamp : ∀ q, stamp e q = clock' p q)
    (hself : clock' p p = clock p p + 1) (hother : ∀ q, q ≠ p → clock' p q = clock p q)
    (hrest : ∀ r, r ≠ p → clock' r = clock r) : (H.create p e).Tracks owner stamp clock' := by
  have hle : ∀ r q, clock r q ≤ clock' r q := by
    intro r q
    by_cases hr : r = p
    · subst hr
      by_cases hq : q = r
      · rw [hq, hself]
        exact Nat.le_succ _
      · exact (hother q hq).ge
    · rw [hrest r hr]
  have hnew : ∀ {b}, b ∈ H.created → ¬stamp e p ≤ stamp b p := by
    intro b hb hs
    rw [hstamp, hself] at hs
    exact absurd (h.stamp_le_own hb p) (Nat.not_le_of_lt hs)
  -- what is below the clock of `p` now was in its past before
  have hpast : ∀ {a}, a ∈ H.created → stamp a (owner a) ≤ clock' p (owner a) → H.Past p a := by
    intro a ha hs
    by_cases hq : owner a = p
    · exact ⟨a, hq ▸ h.owner_knows ha, Or.inl rfl⟩
    · exact h.clock_past ha (hother _ hq ▸ hs)
  constructor
  · intro r a ha
    rcases mem_known_create.mp ha with ⟨-, rfl⟩ | ha
    · exact Set.mem_insert _ _
    · exact Set.mem_insert_of_mem _ (h.known_created ha)
  · intro a ha
    rcases ha with rfl | ha
    · exact mem_known_create.mpr (Or.inl ⟨howner.symm, rfl⟩)
    · exact mem_known_create.mpr (Or.inr (h.owner_knows ha))
  · intro r a ha q
    rcases mem_known_create.mp ha with ⟨rfl, rfl⟩ | ha
    · exact (hstamp q).le
    · exact (h.known_le ha q).trans (hle r q)
  · intro r q
    by_cases hr : r = p
    · subst hr
      by_cases hq : q = r
      · rw [hq]
      · rw [hother q hq]
        exact (h.clock_le_own r q).trans (hle q q)
    · rw [hrest r hr]
      exact (h.clock_le_own r q).trans (hle q q)
  · rintro a b (hab | ⟨rfl, ha⟩)
    · exact h.direct_lt hab
    · simp only [hstamp, howner, hself]
      exact ⟨fun q => (h.known_le ha q).trans (hle p q), Nat.lt_succ_of_le (h.known_le ha p)⟩
  · intro r a ha hs
    by_cases hr : r = p
    · subst hr
      rcases ha with rfl | ha
      · exact ⟨a, mem_known_create.mpr (Or.inl ⟨rfl, rfl⟩), Or.inl rfl⟩
      · exact (hpast ha hs).create
    · rw [hrest r hr] at hs
      rcases ha with rfl | ha
      · rw [howner, hstamp, hself] at hs
        exact absurd (h.clock_le_own r p) (Nat.not_le_of_lt hs)
      · exact (h.clock_past ha hs).create
  · intro a b ha hb hs
    rcases ha with rfl | ha <;> rcases hb with rfl | hb
    · exact Or.inl rfl
    · rw [howner] at hs
      exact absurd hs (hnew hb)
    · rw [hstamp] at hs
      exact Or.inr (hpast ha hs).precedes_create
    · exact (h.stamp_past ha hb hs).imp_right Precedes.create

/-- Learning of an event takes the larger counts. -/
theorem learn (he : e ∈ H.created) (hself : ∀ q, clock' p q = max (clock p q) (stamp e q))
    (hrest : ∀ r, r ≠ p → clock' r = clock r) : (H.learn p e).Tracks owner stamp clock' := by
  have hle : ∀ r q, clock r q ≤ clock' r q := by
    intro r q
    by_cases hr : r = p
    · rw [hr, hself]
      exact le_max_left _ _
    · rw [hrest r hr]
  constructor
  · intro r a ha
    rcases mem_known_learn.mp ha with ⟨-, rfl⟩ | ha
    · exact he
    · exact h.known_created ha
  · exact fun ha => mem_known_learn.mpr (Or.inr (h.owner_knows ha))
  · intro r a ha q
    rcases mem_known_learn.mp ha with ⟨rfl, rfl⟩ | ha
    · rw [hself]
      exact le_max_right _ _
    · exact (h.known_le ha q).trans (hle r q)
  · intro r q
    refine le_trans ?_ (hle q q)
    by_cases hr : r = p
    · rw [hr, hself]
      exact max_le (h.clock_le_own p q) (h.stamp_le_own he q)
    · rw [hrest r hr]
      exact h.clock_le_own r q
  · exact h.direct_lt
  · intro r a ha hs
    by_cases hr : r = p
    · subst hr
      rw [hself] at hs
      rcases le_max_iff.mp hs with hs | hs
      · exact (h.clock_past ha hs).learn
      · exact ⟨e, mem_known_learn.mpr (Or.inl ⟨rfl, rfl⟩), h.stamp_past ha he hs⟩
    · rw [hrest r hr] at hs
      exact (h.clock_past ha hs).learn
  · exact h.stamp_past

end Tracks

end CausalHistory

end AvSync
