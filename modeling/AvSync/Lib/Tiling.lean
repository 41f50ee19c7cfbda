import Mathlib.Data.Set.Disjoint
import AvSync.Lib.ParentLinks

/-!
# Tilings along a tree

Every node of a tree has a set, of which it keeps a part and hands the rest down to its children,
each point to one of them (`TreeTiling`). The parts kept then tile the root's set: each point of
it is kept by one node (`TreeTiling.exists_own`, `TreeTiling.own_unique`).
-/

namespace AvSync

open ParentLinks

/-- Each node of a tree keeps `own` of its set `full`, and its children's sets tile the rest. -/
structure TreeTiling {κ β : Type*} (parent : κ → Option κ) (root : κ) (full own : κ → Set β) :
    Prop where
  reaches : ∀ {u x}, x ∈ full u → Reaches parent u root
  bounded : ∃ b, ∀ n u, walk parent n u = some root → n ≤ b
  own_full : ∀ {u x}, x ∈ own u → x ∈ full u
  child_full : ∀ {u v x}, parent v = some u → x ∈ full v → x ∈ full u
  child_own : ∀ {u v x}, parent v = some u → x ∈ full v → x ∉ own u
  child_unique : ∀ {u v w x}, parent v = some u → parent w = some u → x ∈ full v → x ∈ full w →
    v = w
  cover : ∀ {u x}, x ∈ full u → x ∉ own u → ∃ v, parent v = some u ∧ x ∈ full v

namespace TreeTiling

variable {κ β : Type*} {parent : κ → Option κ} {root : κ} {full own : κ → Set β}
  (h : TreeTiling parent root full own)

include h

/-- A point of a node's set is in the set of each node above it. -/
theorem walk_full {x : β} :
    ∀ {n : ℕ} {u v : κ}, walk parent n u = some v → x ∈ full u → x ∈ full v
  | 0, _, _, hw, hx => Option.some.inj hw ▸ hx
  | n + 1, u, v, hw, hx => by
    obtain ⟨y, hy, hyv⟩ := Option.bind_eq_some_iff.mp ((walk_succ n u).symm.trans hw)
    exact walk_full hyv (h.child_full hy hx)

theorem full_root {u : κ} {x : β} (hx : x ∈ full u) : x ∈ full root := by
  obtain ⟨n, hn⟩ := h.reaches hx
  exact h.walk_full hn hx

/-- At each depth a point is in the set of one node at most. -/
theorem depth_unique {x : β} :
    ∀ {n : ℕ} {u v : κ}, walk parent n u = some root → walk parent n v = some root → x ∈ full u →
      x ∈ full v → u = v
  | 0, u, v, hu, hv, _, _ => Option.some.inj (hu.trans hv.symm)
  | n + 1, u, v, hu, hv, hxu, hxv => by
    obtain ⟨y, hy, hyr⟩ := Option.bind_eq_some_iff.mp ((walk_succ n u).symm.trans hu)
    obtain ⟨z, hz, hzr⟩ := Option.bind_eq_some_iff.mp ((walk_succ n v).symm.trans hv)
    obtain rfl := depth_unique hyr hzr (h.child_full hy hxu) (h.child_full hz hxv)
    exact h.child_unique hy hz hxu hxv

/-- No node keeps a point that it hands down. -/
theorem not_own_of_below {x : β} {n : ℕ} {u v : κ} (hw : walk parent (n + 1) v = some u)
    (hx : x ∈ full v) : x ∉ own u := by
  rw [walk_add, Option.bind_eq_some_iff] at hw
  obtain ⟨w, hvw, hwu⟩ := hw
  rw [walk_succ, Option.bind_eq_some_iff] at hwu
  obtain ⟨u', hu', he⟩ := hwu
  obtain rfl := Option.some.inj he
  exact h.child_own hu' (h.walk_full hvw hx)

theorem own_unique {x : β} {u v : κ} (hu : x ∈ own u) (hv : x ∈ own v) : u = v := by
  have key : ∀ {u v : κ} {m n : ℕ}, x ∈ own u → x ∈ own v → walk parent m u = some root →
      walk parent n v = some root → m ≤ n → u = v := by
    intro u v m n hu hv hm hn hmn
    obtain ⟨w, hw, hwr⟩ := walk_of_le hn (Nat.sub_le n m)
    rw [Nat.sub_sub_self hmn] at hwr
    obtain rfl := h.depth_unique hm hwr (h.own_full hu) (h.walk_full hw (h.own_full hv))
    rcases hk : n - m with _ | k
    · rw [hk] at hw
      exact (Option.some.inj hw).symm
    · rw [hk] at hw
      exact absurd hu (h.not_own_of_below hw (h.own_full hv))
  obtain ⟨m, hm⟩ := h.reaches (h.own_full hu)
  obtain ⟨n, hn⟩ := h.reaches (h.own_full hv)
  rcases le_total m n with hmn | hmn
  · exact key hu hv hm hn hmn
  · exact (key hv hu hn hm hmn).symm

theorem exists_own {x : β} (hx : x ∈ full root) : ∃ u, x ∈ own u := by
  obtain ⟨b, hb⟩ := h.bounded
  -- a point that no node keeps is handed down for ever
  by_contra hno
  have hdeep : ∀ n, ∃ u, walk parent n u = some root ∧ x ∈ full u := by
    intro n
    induction n with
    | zero => exact ⟨root, rfl, hx⟩
    | succ n ih =>
      obtain ⟨u, hu, hxu⟩ := ih
      obtain ⟨v, hv, hxv⟩ := h.cover hxu fun ho => hno ⟨u, ho⟩
      exact ⟨v, by rw [walk_succ, hv, Option.bind_some, hu], hxv⟩
  obtain ⟨u, hu, -⟩ := hdeep (b + 1)
  exact absurd (hb _ u hu) (Nat.not_succ_le_self b)

end TreeTiling

end AvSync
