import AvSync.Clock

/-!
# Vector clock entries

Every change of a vector clock, entry by entry: witnessing and merging take maxima, incrementing
adds one to one entry. A clock happens before another without entries of zero (`Positive`)
exactly when it is below it entry by entry and somewhere less (`happensBefore_iff`); with such
entries it may come before a clock with the same counters (`comparesCounters_iff`).
-/

namespace AvSync

namespace VectorClock

variable (v w : VectorClock) (p q : PeerId)

theorem get_new : VectorClock.new.get q = 0 := by
  simp [VectorClock.new, get]

theorem get_insert (x : UInt64) :
    get ⟨v.clocks.insert p x⟩ q = if p = q then x else v.get q := by
  simp only [get, BTreeMap.getElem?_insert_if]
  split_ifs <;> rfl

theorem get_witness (x : UInt64) :
    (v.witness p x).get q = if p = q then max (v.get p) x else v.get q := by
  have hmax : (if v.get p < x then x else v.get p) = max (v.get p) x := by
    split_ifs with h
    · rw [max_eq_right h.le]
    · rw [max_eq_left (not_lt.mp h)]
  rw [witness, get_insert, hmax]

theorem get_increment :
    (v.increment p).get q = if p = q then v.get p + 1 else v.get q :=
  v.get_insert p q _

theorem get_foldl_witness_le {b : UInt64} :
    ∀ (l : List (PeerId × UInt64)) (v : VectorClock),
      (l.foldl (fun acc e => acc.witness e.1 e.2) v).get q ≤ b ↔
        v.get q ≤ b ∧ ∀ e ∈ l, e.1 = q → e.2 ≤ b
  | [], v => by simp
  | e :: l, v => by
    rw [List.foldl_cons, get_foldl_witness_le l, get_witness, List.forall_mem_cons, ← and_assoc]
    refine and_congr_left' ?_
    split_ifs with h
    · subst h
      simp only [max_le_iff, forall_const]
    · exact ⟨fun hv => ⟨hv, fun he => absurd he h⟩, And.left⟩

theorem get_merge : (v.merge w).get q = max (v.get q) (w.get q) := by
  refine eq_of_forall_ge_iff fun b => ?_
  rw [merge, get_foldl_witness_le, max_le_iff]
  refine and_congr_right' ?_
  constructor
  · intro h
    rcases hq : w.clocks[q]? with _ | x
    · simp only [get, hq, Option.getD_none]
      exact UInt64.le_iff_toNat_le.mpr (Nat.zero_le _)
    · simp only [get, hq, Option.getD_some]
      exact h (q, x) (Std.ExtTreeMap.mem_toList_iff_getElem?_eq_some.mpr hq) rfl
  · rintro h ⟨a, x⟩ he rfl
    have hx := Std.ExtTreeMap.mem_toList_iff_getElem?_eq_some.mp he
    simpa only [get, hx, Option.getD_some] using h

/-! ## The order of clocks -/

/-- No entry is zero. -/
def Positive (v : VectorClock) : Prop :=
  ∀ (p : PeerId) (x : UInt64), v.clocks[p]? = some x → 0 < x

variable {v w p}

theorem Positive.mem_iff (h : v.Positive) : p ∈ v.clocks ↔ 0 < v.get p := by
  rw [BTreeMap.mem_iff, get]
  rcases hp : v.clocks[p]? with _ | x
  · simp
  · simpa using h p x hp

theorem positive_new : VectorClock.new.Positive := by
  intro p x h
  simp [VectorClock.new] at h

theorem Positive.insert (h : v.Positive) {x : UInt64} (hx : 0 < x) :
    Positive ⟨v.clocks.insert p x⟩ := by
  intro q y hy
  rw [BTreeMap.getElem?_insert_if] at hy
  split_ifs at hy with hq
  · exact Option.some.inj hy ▸ hx
  · exact h q y hy

theorem Positive.witness (h : v.Positive) {x : UInt64} (hx : 0 < max (v.get p) x) :
    (v.witness p x).Positive := by
  refine h.insert ?_
  split_ifs with hlt
  · rwa [max_eq_right hlt.le] at hx
  · rwa [max_eq_left (not_lt.mp hlt)] at hx

theorem Positive.increment (h : v.Positive) (hp : 0 < v.get p + 1) : (v.increment p).Positive :=
  h.insert hp

theorem Positive.merge (h : v.Positive) (hw : w.Positive) : (v.merge w).Positive := by
  have hall : ∀ e ∈ w.clocks.toList, 0 < e.2 := fun e he =>
    hw e.1 e.2 (Std.ExtTreeMap.mem_toList_iff_getElem?_eq_some.mp he)
  unfold VectorClock.merge
  generalize w.clocks.toList = l at hall
  induction l generalizing v with
  | nil => exact h
  | cons e l ih =>
    refine ih (h.witness ?_) fun e' he' => hall e' (List.mem_cons_of_mem e he')
    exact (hall e List.mem_cons_self).trans_le (le_max_right _ _)

theorem valuePass_eq_some {b' : Bool} :
    ∀ {l : List (PeerId × UInt64)} {b : Bool}, valuePass w l b = some b' ↔
      (∀ e ∈ l, e.2 ≤ w.get e.1) ∧ (b' = true ↔ b = true ∨ ∃ e ∈ l, e.2 < w.get e.1)
  | [], b => by
    rcases b <;> rcases b' <;> simp [valuePass]
  | (q, x) :: l, b => by
    unfold valuePass
    split_ifs with h
    · simp [h]
    · rw [valuePass_eq_some (l := l)]
      simp only [List.mem_cons, forall_eq_or_imp, exists_eq_or_imp, not_lt.mp h, true_and,
        Bool.or_eq_true, decide_eq_true_eq, or_assoc]

/-- Below entry by entry, and somewhere less or with an entry more. -/
theorem happensBefore_eq_true : v.happensBefore w = true ↔
    v.Below w ∧ ((∃ p, v.get p < w.get p) ∨ ∃ p ∈ w.clocks, p ∉ v.clocks) := by
  have hmem : ∀ {e : PeerId × UInt64}, e ∈ v.clocks.toList ↔ v.clocks[e.1]? = some e.2 :=
    Std.ExtTreeMap.mem_toList_iff_getElem?_eq_some
  have hle : (∀ e ∈ v.clocks.toList, e.2 ≤ w.get e.1) ↔ v.Below w := by
    constructor
    · intro h p
      rcases hp : v.clocks[p]? with _ | x
      · simp [get, hp]
      · simpa [get, hp] using h (p, x) (hmem.mpr hp)
    · intro h e he
      simpa [get, hmem.mp he] using h e.1
  have hlt : ((∃ p, v.get p < w.get p) ∨ ∃ p ∈ w.clocks, p ∉ v.clocks) ↔
      (∃ e ∈ v.clocks.toList, e.2 < w.get e.1) ∨ ∃ p ∈ w.clocks, p ∉ v.clocks := by
    constructor
    · rintro (⟨p, h⟩ | h)
      · rcases hp : v.clocks[p]? with _ | x
        · refine Or.inr ⟨p, ?_, BTreeMap.not_mem_iff.mpr hp⟩
          rw [BTreeMap.mem_iff]
          refine Option.ne_none_iff_exists'.mp fun hw => ?_
          simp [get, hp, hw] at h
        · exact Or.inl ⟨(p, x), hmem.mpr hp, by simpa [get, hp] using h⟩
      · exact Or.inr h
    · rintro (⟨e, he, h⟩ | h)
      · exact Or.inl ⟨e.1, by simpa [get, hmem.mp he] using h⟩
      · exact Or.inr h
  rw [← hle, hlt, happensBefore]
  rcases hpass : valuePass w v.clocks.toList false with _ | b
  · have hno : ¬∀ e ∈ v.clocks.toList, e.2 ≤ w.get e.1 := by
      intro h
      by_cases hs : ∃ e ∈ v.clocks.toList, e.2 < w.get e.1
      · have : valuePass w v.clocks.toList false = some true :=
          valuePass_eq_some.mpr ⟨h, by simpa using hs⟩
        rw [hpass] at this
        cases this
      · have : valuePass w v.clocks.toList false = some false :=
          valuePass_eq_some.mpr ⟨h, by simpa using hs⟩
        rw [hpass] at this
        cases this
    exact iff_of_false Bool.false_ne_true fun h => hno h.1
  · obtain ⟨h, hb⟩ := valuePass_eq_some.mp hpass
    simp only [Bool.false_eq_true, false_or] at hb
    rw [and_iff_right h, ← hb]
    rcases b with _ | _
    · simp only [List.any_eq_true, Bool.not_eq_true', ← Bool.not_eq_true,
        Std.ExtTreeMap.contains_iff_mem, Std.ExtTreeMap.mem_keys, Bool.false_eq_true, false_or]
    · simp

/-- Below entry by entry, and somewhere less. -/
theorem happensBefore_iff (hw : w.Positive) :
    v.happensBefore w = true ↔ (∀ p, v.get p ≤ w.get p) ∧ ∃ p, v.get p < w.get p := by
  rw [happensBefore_eq_true, or_iff_left_of_imp]
  · rfl
  · rintro ⟨p, hpw, hpv⟩
    refine ⟨p, ?_⟩
    rw [get, BTreeMap.not_mem_iff.mp hpv]
    exact hw.mem_iff.mp hpw

/-! ## Entries of zero -/

theorem eq_of_get_eq (h : ∀ p, v.get p = w.get p) (hvw : ∀ p, p ∈ v.clocks ↔ p ∈ w.clocks) :
    v.clocks = w.clocks := by
  ext1 p
  have hp := h p
  have hm := hvw p
  rw [BTreeMap.mem_iff, BTreeMap.mem_iff] at hm
  rcases hv : v.clocks[p]? with _ | x <;> rcases hw : w.clocks[p]? with _ | y
  · rfl
  · obtain ⟨x, hx⟩ := hm.mpr ⟨y, hw⟩
    cases hv.symm.trans hx
  · obtain ⟨y, hy⟩ := hm.mp ⟨x, hv⟩
    cases hw.symm.trans hy
  · rw [get, get, hv, hw] at hp
    exact congrArg some hp

/-- Neither clock is below the other. Zero entries make no difference here: clocks with equal
counters that differ as maps happen before each other. -/
theorem isConcurrent_eq_true : v.isConcurrent w = true ↔ ¬v.Below w ∧ ¬w.Below v := by
  have hsame : (v.clocks.toList == w.clocks.toList) = true ↔ v.clocks = w.clocks := by
    rw [beq_iff_eq]
    exact Std.ExtTreeMap.toList_inj
  rw [isConcurrent, Bool.and_eq_true, Bool.and_eq_true, Bool.not_eq_true', Bool.not_eq_true',
    Bool.not_eq_true', ← Bool.not_eq_true, ← Bool.not_eq_true, ← Bool.not_eq_true, hsame,
    happensBefore_eq_true, happensBefore_eq_true]
  constructor
  · rintro ⟨⟨hvw, hwv⟩, hne⟩
    have hkeys : ∀ {v w : VectorClock}, v.Below w →
        ¬(v.Below w ∧ ((∃ p, v.get p < w.get p) ∨ ∃ p ∈ w.clocks, p ∉ v.clocks)) →
          w.Below v ∧ ∀ p ∈ w.clocks, p ∈ v.clocks := by
      intro v w hb hno
      simp only [hb, true_and, not_or, not_exists, not_lt, not_and, not_not] at hno
      exact hno
    constructor
    · intro hb
      obtain ⟨hb', hwk⟩ := hkeys hb hvw
      obtain ⟨-, hvk⟩ := hkeys hb' hwv
      exact hne (eq_of_get_eq (fun p => le_antisymm (hb p) (hb' p)) fun p => ⟨hvk p, hwk p⟩)
    · intro hb
      obtain ⟨hb', hvk⟩ := hkeys hb hwv
      obtain ⟨-, hwk⟩ := hkeys hb' hvw
      exact hne (eq_of_get_eq (fun p => le_antisymm (hb' p) (hb p)) fun p => ⟨hvk p, hwk p⟩)
  · rintro ⟨hvw, hwv⟩
    refine ⟨⟨fun h => hvw h.1, fun h => hwv h.1⟩, fun he => hvw fun p => ?_⟩
    rw [get, get, he]

theorem comparesCounters_iff_showsNoMore {v w : VectorClock} :
    v.ComparesCounters w ↔ v.ShowsNoMore w := by
  constructor
  · intro h
    by_contra hno
    simp only [ShowsNoMore, not_or, not_exists, not_not] at hno
    obtain ⟨heq, hmore⟩ := hno
    push Not at hmore
    obtain ⟨p, hlt⟩ := (h.happensBefore_iff.mp
      (happensBefore_eq_true.mpr ⟨fun p => (heq p).le, .inr hmore⟩)).2
    exact hlt.ne (heq p)
  · refine fun h => ⟨?_, isConcurrent_eq_true⟩
    rw [happensBefore_eq_true]
    refine and_congr_right fun hb => or_iff_left_of_imp ?_
    rintro ⟨p, hpw, hpv⟩
    rcases h with ⟨q, hq⟩ | h
    · exact ⟨q, lt_of_le_of_ne (hb q) hq⟩
    · exact absurd (h p hpw) hpv

/-- Where the counters differ, or the second clock has no entry that the first has not, and only
there, the comparisons are those of the counters. Among such clocks `happensBefore` is a strict
partial order. -/
theorem comparesCounters_iff (v w : VectorClock) (S : Set VectorClock) :
    (v.ComparesCounters w ↔ v.ShowsNoMore w) ∧
      ((∀ v ∈ S, ∀ w ∈ S, v.ShowsNoMore w) → (∀ v ∈ S, v.happensBefore v ≠ true) ∧
        ∀ u ∈ S, ∀ v ∈ S, ∀ w ∈ S, u.happensBefore v = true → v.happensBefore w = true →
          u.happensBefore w = true) := by
  refine ⟨comparesCounters_iff_showsNoMore, fun hS => ?_⟩
  have hbefore : ∀ v ∈ S, ∀ w ∈ S, (v.happensBefore w = true ↔
      v.Below w ∧ ∃ p, v.get p < w.get p) :=
    fun v hv w hw => (comparesCounters_iff_showsNoMore.mpr (hS v hv w hw)).happensBefore_iff
  constructor
  · intro v hv h
    obtain ⟨p, hp⟩ := ((hbefore v hv v hv).mp h).2
    exact lt_irrefl _ hp
  · intro u hu v hv w hw huv hvw
    obtain ⟨huv, p, hp⟩ := (hbefore u hu v hv).mp huv
    obtain ⟨hvw, -⟩ := (hbefore v hv w hw).mp hvw
    exact (hbefore u hu w hw).mpr ⟨fun q => (huv q).trans (hvw q), p, hp.trans_le (hvw p)⟩

/-- The empty clock happens before one with an entry of zero, whose counters are the same. -/
theorem new_not_comparesCounters : (∀ p, new.get p = (new.witness ⟨1⟩ 0).get p) ∧
    new.happensBefore (new.witness ⟨1⟩ 0) = true ∧ ¬new.ComparesCounters (new.witness ⟨1⟩ 0) := by
  have heq : ∀ p, new.get p = (new.witness ⟨1⟩ 0).get p := by
    intro p
    rw [get_witness]
    split_ifs <;> simp [get_new]
  have hbefore : new.happensBefore (new.witness ⟨1⟩ 0) = true := by decide +kernel
  refine ⟨heq, hbefore, fun h => ?_⟩
  obtain ⟨p, hp⟩ := (h.happensBefore_iff.mp hbefore).2
  exact hp.ne (heq p)

end VectorClock

end AvSync
