import AvSync.Lib.OrdMap

/-!
# Lists and maps compared entry by entry

The comparison of the entries need not be an equality, as that of floats is not.
-/

namespace AvSync

theorem isEqv_iff {α : Type} {R : α → α → Bool} :
    ∀ {l m : List α}, l.isEqv m R = true ↔ List.Forall₂ (fun a b => R a b = true) l m
  | [], [] => by simp
  | [], _ :: _ => by simp
  | _ :: _, [] => by simp
  | a :: l, b :: m => by
    rw [List.isEqv_cons_cons, Bool.and_eq_true, isEqv_iff, List.forall₂_cons]

theorem isEqv_map_left {α : Type} {R : α → α → Bool} {f : α → α} {l : List α} :
    (l.map f).isEqv l R = true ↔ ∀ a ∈ l, R (f a) a = true := by
  rw [isEqv_iff, List.forall₂_map_left_iff, List.forall₂_same]

namespace BTreeMap

variable {κ ν : Type} [LinearOrder κ] {m n : BTreeMap κ ν}

theorem keys_eq_of_mem (h : ∀ k, k ∈ m ↔ k ∈ n) : m.keys = n.keys := by
  refine List.Perm.eq_of_pairwise (fun _ _ _ _ hab hba => (lt_asymm hab hba).elim)
    m.keys_pairwise_lt n.keys_pairwise_lt ?_
  have hnodup : ∀ m : BTreeMap κ ν, m.keys.Nodup := fun m =>
    m.keys_pairwise_lt.imp fun h => h.ne
  refine (List.perm_ext_iff_of_nodup (hnodup m) (hnodup n)).mpr fun k => ?_
  rw [Std.ExtTreeMap.mem_keys, Std.ExtTreeMap.mem_keys, h]

/-- Two maps are equal entry by entry if they have the same keys and equal values. -/
theorem toList_isEqv_iff {R : ν → ν → Bool} :
    (m.toList.isEqv n.toList fun a b => decide (a.1 = b.1) && R a.2 b.2) = true ↔
      (∀ k, k ∈ m ↔ k ∈ n) ∧
        ∀ (k : κ) (v w : ν), m[k]? = some v → n[k]? = some w → R v w = true := by
  have hentry : ∀ {m : BTreeMap κ ν} {e : κ × ν}, e ∈ m.toList ↔ m[e.1]? = some e.2 :=
    Std.ExtTreeMap.mem_toList_iff_getElem?_eq_some
  have hmem : ∀ {m : BTreeMap κ ν} {k : κ}, k ∈ m.toList.map (·.1) ↔ k ∈ m := by
    intro m k
    rw [Std.ExtTreeMap.map_fst_toList_eq_keys, Std.ExtTreeMap.mem_keys]
  simp only [isEqv_iff, Bool.and_eq_true, decide_eq_true_eq]
  constructor
  · intro h
    have hkeys : m.toList.map (·.1) = n.toList.map (·.1) := by
      refine (congrFun (congrFun List.forall₂_eq_eq_eq _) _).mp ?_
      exact List.forall₂_map_left_iff.mpr (List.forall₂_map_right_iff.mpr (h.imp fun _ _ h => h.1))
    refine ⟨fun k => by rw [← hmem, hkeys, hmem], fun k v w hv hw => ?_⟩
    obtain ⟨b, hb, hbk, hvb⟩ : ∃ b ∈ n.toList, k = b.1 ∧ R v b.2 = true := by
      obtain ⟨i, hi, hget⟩ := List.getElem_of_mem (hentry.mpr hv : (k, v) ∈ m.toList)
      have hlen := h.length_eq
      have hR := h.get (i := i) hi (hlen ▸ hi)
      simp only [List.get_eq_getElem, hget] at hR
      exact ⟨_, List.getElem_mem (hlen ▸ hi), hR.1, hR.2⟩
    obtain rfl := Option.some.inj ((hbk ▸ hw).symm.trans (hentry.mp hb))
    exact hvb
  · rintro ⟨hkeys, hvalues⟩
    have hzip : ∀ {l l' : List (κ × ν)}, l.map (·.1) = l'.map (·.1) →
        (∀ a ∈ l, ∀ b ∈ l', a.1 = b.1 → R a.2 b.2 = true) →
          List.Forall₂ (fun a b => a.1 = b.1 ∧ R a.2 b.2 = true) l l' := by
      intro l
      induction l with
      | nil =>
        intro l' he _
        obtain rfl := List.map_eq_nil_iff.mp he.symm
        exact .nil
      | cons a l ih =>
        intro l' he hR
        rcases l' with _ | ⟨b, l'⟩
        · cases he
        · obtain ⟨h1, h2⟩ := List.cons.inj he
          exact .cons ⟨h1, hR a List.mem_cons_self b List.mem_cons_self h1⟩
            (ih h2 fun c hc d hd =>
              hR c (List.mem_cons_of_mem a hc) d (List.mem_cons_of_mem b hd))
    refine hzip ?_ fun a ha b hb hab => hvalues a.1 a.2 b.2 (hentry.mp ha) (hab ▸ hentry.mp hb)
    rw [Std.ExtTreeMap.map_fst_toList_eq_keys, Std.ExtTreeMap.map_fst_toList_eq_keys,
      keys_eq_of_mem hkeys]

end BTreeMap

end AvSync
