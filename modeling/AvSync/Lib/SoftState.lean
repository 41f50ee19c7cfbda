import AvSync.Lib.OrdMap

/-!
# Soft state

A table whose entries last as long as they are announced again. Each poll takes in what has been
announced since the one before, and drops the entries that are no longer fresh. An entry stands
exactly if it has been announced, not replaced since, and was fresh at every poll since
(`getElem?_polls_iff`).
-/

namespace AvSync

namespace SoftState

/-- What a poll takes in, and when it is made. -/
structure Poll (κ ν τ : Type) where
  announced : List (κ × ν)
  now : τ

variable {κ ν τ : Type} [LinearOrder κ] (fresh : τ → τ → Bool)

def note (now : τ) (t : BTreeMap κ (ν × τ)) (a : κ × ν) : BTreeMap κ (ν × τ) :=
  t.insert a.1 (a.2, now)

/-- `fresh now seen`: at `now`, what was announced at `seen` still counts. -/
def poll (t : BTreeMap κ (ν × τ)) (p : Poll κ ν τ) : BTreeMap κ (ν × τ) :=
  (p.announced.foldl (note p.now) t).filter fun _ e => fresh p.now e.2

def polls (t : BTreeMap κ (ν × τ)) (ps : List (Poll κ ν τ)) : BTreeMap κ (ν × τ) :=
  ps.foldl (poll fresh) t

/-- What has been announced last for a key. -/
def lastOf (k : κ) (l : List (κ × ν)) : Option ν := (l.reverse.find? fun a => a.1 = k).map Prod.snd

/-- The value was the last one announced for the key, at `seen`, and has been fresh since. -/
def Stands (k : κ) (v : ν) (seen : τ) (ps : List (Poll κ ν τ)) : Prop :=
  ∃ before p after, ps = before ++ p :: after ∧ lastOf k p.announced = some v ∧ p.now = seen ∧
    (∀ r ∈ after, lastOf k r.announced = none) ∧ ∀ r ∈ p :: after, fresh r.now seen = true

variable {fresh} {k : κ} {v : ν} {seen now : τ} {t : BTreeMap κ (ν × τ)} {l : List (κ × ν)}
  {p : Poll κ ν τ} {ps : List (Poll κ ν τ)}

theorem lastOf_append_singleton {a : κ × ν} :
    lastOf k (l ++ [a]) = if a.1 = k then some a.2 else lastOf k l := by
  rw [lastOf, List.reverse_append, List.reverse_singleton, List.singleton_append, List.find?_cons]
  by_cases h : a.1 = k <;> simp [h, lastOf]

theorem getElem?_notes :
    (l.foldl (note now) t)[k]? = ((lastOf k l).map (·, now)).or t[k]? := by
  induction l using List.reverseRecOn with
  | nil => rfl
  | append_singleton l a ih =>
    rw [List.foldl_append, List.foldl_cons, List.foldl_nil, note, BTreeMap.getElem?_insert_if, ih,
      lastOf_append_singleton]
    split_ifs <;> rfl

/-- One poll. -/
theorem getElem?_poll : (poll fresh t p)[k]? =
    (((lastOf k p.announced).map (·, p.now)).or t[k]?).filter fun e => fresh p.now e.2 := by
  rw [poll, Std.ExtTreeMap.getElem?_filter', getElem?_notes]

/-- One more poll: what it announces stands if that is fresh, and the rest if it stood before. -/
theorem stands_append : Stands fresh k v seen (ps ++ [p]) ↔ fresh p.now seen = true ∧
    (lastOf k p.announced = some v ∧ p.now = seen ∨
      lastOf k p.announced = none ∧ Stands fresh k v seen ps) := by
  constructor
  · rintro ⟨before, r, after, heq, hv, hr, hnone, hfresh⟩
    rcases List.eq_nil_or_concat' after with rfl | ⟨after, p', rfl⟩
    · obtain ⟨rfl, hp⟩ := List.append_inj' heq rfl
      obtain rfl := List.singleton_inj.mp hp
      exact ⟨hfresh p List.mem_cons_self, Or.inl ⟨hv, hr⟩⟩
    · rw [← List.cons_append, ← List.append_assoc] at heq
      obtain ⟨rfl, hp⟩ := List.append_inj' heq rfl
      obtain rfl := List.singleton_inj.mp hp
      have hmem : p ∈ after ++ [p] := List.mem_append_right _ List.mem_cons_self
      refine ⟨hfresh p (List.mem_cons_of_mem _ hmem), Or.inr ⟨hnone p hmem, before, r, after, rfl,
        hv, hr, fun q hq => hnone q (List.mem_append_left _ hq), fun q hq => hfresh q ?_⟩⟩
      exact List.mem_append_left [p] hq
  · rintro ⟨hp, ⟨hv, hr⟩ | ⟨hnone, before, r, after, rfl, hv, hr, hnones, hfresh⟩⟩
    · refine ⟨ps, p, [], rfl, hv, hr, fun q hq => absurd hq List.not_mem_nil, fun q hq => ?_⟩
      rw [List.mem_singleton.mp hq]
      exact hp
    · refine ⟨before, r, after ++ [p], by simp, hv, hr, fun q hq => ?_, fun q hq => ?_⟩
      · rcases List.mem_append.mp hq with hq | hq
        · exact hnones q hq
        · exact List.mem_singleton.mp hq ▸ hnone
      · rw [← List.cons_append] at hq
        rcases List.mem_append.mp hq with hq | hq
        · exact hfresh q hq
        · exact List.mem_singleton.mp hq ▸ hp

/-- What a table holds after any polls. -/
theorem getElem?_polls_iff :
    (polls fresh (∅ : BTreeMap κ (ν × τ)) ps)[k]? = some (v, seen) ↔ Stands fresh k v seen ps := by
  induction ps using List.reverseRecOn with
  | nil =>
    constructor
    · intro h
      simp [polls] at h
    · rintro ⟨before, p, after, h, -⟩
      simp at h
  | append_singleton ps p ih =>
    rw [polls, List.foldl_append, List.foldl_cons, List.foldl_nil, getElem?_poll, stands_append,
      ← ih, polls, Option.filter_eq_some_iff]
    rcases lastOf k p.announced with _ | w
    · simp [and_comm]
    · simp [and_comm]

end SoftState

end AvSync
