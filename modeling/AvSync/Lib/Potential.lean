import AvSync.Lib.Machine
import AvSync.Lib.OrdMap

/-!
# Potentials

A list of events that lowers a number as long as the state is not one it leads to gets there when
it is run often enough (`Machine.exists_rounds`). Such a number is often a sum over the values of
an ordered map, which an insertion raises by the new value at most, and an erasure or a filter
lowers (`BTreeMap.total`).
-/

namespace AvSync

/-- The sum of `l` under `f` is at most that of a list with the same entries and more. -/
theorem sum_map_le_of_subset {α : Type*} {l m : List α} (hl : l.Nodup) (h : l ⊆ m) (f : α → ℕ) :
    (l.map f).sum ≤ (m.map f).sum := by
  obtain ⟨k, hk, hsub⟩ := List.subperm_of_subset hl h
  rw [← (hk.map f).sum_eq]
  exact (hsub.map f).sum_le_sum fun _ _ => Nat.zero_le _

/-- Two sums that differ in one entry. -/
theorem sum_map_exchange {α : Type*} [DecidableEq α] {f g : α → ℕ} {a : α} {l : List α}
    (hl : l.Nodup) (ha : a ∈ l) (hoff : ∀ b ∈ l, b ≠ a → f b = g b) :
    (l.map f).sum + g a = (l.map g).sum + f a := by
  have hrest : (l.erase a).map f = (l.erase a).map g := List.map_congr_left fun b hb =>
    hoff b (List.mem_of_mem_erase hb) (hl.mem_erase_iff.mp hb).1
  rw [← List.sum_map_erase f ha, ← List.sum_map_erase g ha, hrest]
  omega

namespace Machine

variable {σ ι : Type*} {M : Machine σ ι} {I G : σ → Prop} {μ : σ → ℕ} {l : List ι}

/-- `n` times the events of `l`. -/
def rounds (n : ℕ) (l : List ι) : List ι := (List.replicate n l).flatten

/-- Rounds that lower `μ` wherever `G` does not hold lead to where it does. -/
theorem exists_rounds (hinv : ∀ s, I s → I (M.run s l))
    (hlt : ∀ s, I s → ¬G s → μ (M.run s l) < μ s) {s : σ} (hs : I s) :
    ∃ n, G (M.run s (rounds n l)) := by
  induction hn : μ s using Nat.strong_induction_on generalizing s with
  | _ m ih =>
    by_cases hg : G s
    · exact ⟨0, hg⟩
    · obtain ⟨n, h⟩ := ih _ (hn ▸ hlt s hs hg) (hinv s hs) rfl
      refine ⟨n + 1, ?_⟩
      rwa [rounds, List.replicate_succ, List.flatten_cons, run_append]

end Machine

namespace BTreeMap

variable {κ ν : Type} [LinearOrder κ] {m : BTreeMap κ ν} {f g : ν → ℕ}

/-- The sum of `f` over the values of `m`. -/
def total (m : BTreeMap κ ν) (f : ν → ℕ) : ℕ := (m.toList.map fun e => f e.2).sum

theorem mem_toList_iff {e : κ × ν} : e ∈ m.toList ↔ m[e.1]? = some e.2 :=
  Std.ExtTreeMap.mem_toList_iff_getElem?_eq_some

theorem nodup_toList (m : BTreeMap κ ν) : m.toList.Nodup := by
  refine List.Nodup.of_map Prod.fst ?_
  rw [Std.ExtTreeMap.map_fst_toList_eq_keys]
  exact m.keys_pairwise_lt.imp ne_of_lt

theorem total_insert_le (m : BTreeMap κ ν) (k : κ) (v : ν) :
    total (m.insert k v) f ≤ m.total f + f v := by
  have hsub : (m.insert k v).toList ⊆ (k, v) :: m.toList := by
    rintro ⟨a, b⟩ h
    rw [mem_toList_iff, getElem?_insert_if] at h
    rw [List.mem_cons, mem_toList_iff]
    split_ifs at h with hk
    · exact Or.inl (by rw [hk, Option.some.inj h])
    · exact Or.inr h
  have := sum_map_le_of_subset (nodup_toList _) hsub fun e => f e.2
  simpa only [total, List.map_cons, List.sum_cons, Nat.add_comm (f v)] using this

theorem total_erase_le (m : BTreeMap κ ν) (k : κ) : total (m.erase k) f ≤ m.total f := by
  refine sum_map_le_of_subset (nodup_toList _) ?_ fun e => f e.2
  rintro ⟨a, b⟩ h
  rw [mem_toList_iff, getElem?_erase_if] at h
  split_ifs at h
  exact mem_toList_iff.mpr h

/-- What a filter keeps of each value, and what is counted for it, is within the value. -/
theorem total_filterMap_le {h : ν → Option ν} {p : ν → Bool} {c : ℕ}
    (hle : ∀ (k : κ) (v : ν), m[k]? = some v →
      ((h v).map f).getD 0 + (if p v then c else 0) ≤ f v) :
    total (m.filterMap fun _ v => h v) f + (m.toList.filter fun e => p e.2).length * c ≤
      m.total f := by
  have key : ∀ l : List (κ × ν), (∀ e ∈ l, m[e.1]? = some e.2) →
      ((l.filterMap fun e => (h e.2).map (e.1, ·)).map fun e => f e.2).sum +
        (l.filter fun e => p e.2).length * c ≤ (l.map fun e => f e.2).sum := by
    intro l hl
    induction l with
    | nil => simp
    | cons e l ih =>
      have he := hle e.1 e.2 (hl e List.mem_cons_self)
      have ih := ih fun b hb => hl b (List.mem_cons_of_mem e hb)
      rw [List.filterMap_cons, List.map_cons, List.sum_cons, List.filter_cons]
      rcases hv : h e.2 with _ | v <;> by_cases hp : p e.2 = true <;>
        simp only [hv, hp, Option.map_none, Option.map_some, Option.getD_none, Option.getD_some,
          if_true, if_false, Bool.false_eq_true, List.length_cons, List.map_cons, List.sum_cons,
          Nat.succ_mul] at he ⊢ <;> omega
  rw [total, Std.ExtTreeMap.toList_filterMap]
  exact key m.toList fun e he => mem_toList_iff.mp he

end BTreeMap

end AvSync
