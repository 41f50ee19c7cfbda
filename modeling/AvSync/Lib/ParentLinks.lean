import Mathlib.Data.Finset.Card
import Mathlib.Data.Nat.Find

/-!
# Parent links

A partial map from nodes to their parents is a forest when no walk along it comes back to where it
started. In a forest whose linked nodes lie in a finite set a walk is no longer than the set is
large (`Forest.lt_card`), and setting one link keeps a forest exactly when the new parent does not
descend from the child (`Forest.update_iff`).
-/

namespace AvSync

namespace ParentLinks

variable {κ : Type*}

/-- The node `n` links above `x`. -/
def walk (link : κ → Option κ) : ℕ → κ → Option κ
  | 0, x => some x
  | n + 1, x => (link x).bind (walk link n)

/-- No walk comes back to its start. -/
def Forest (link : κ → Option κ) : Prop := ∀ n x, walk link (n + 1) x ≠ some x

/-- `y` is `x` or above it. -/
def Reaches (link : κ → Option κ) (x y : κ) : Prop := ∃ n, walk link n x = some y

variable {link link' : κ → Option κ}

@[simp] theorem walk_zero (x : κ) : walk link 0 x = some x := rfl

theorem walk_succ (n : ℕ) (x : κ) : walk link (n + 1) x = (link x).bind (walk link n) := rfl

theorem walk_add (m n : ℕ) (x : κ) : walk link (m + n) x = (walk link m x).bind (walk link n) := by
  induction m generalizing x with
  | zero => rw [Nat.zero_add, walk_zero, Option.bind_some]
  | succ m ih =>
    rw [Nat.add_right_comm, walk_succ, walk_succ, Option.bind_assoc]
    exact congrArg _ (funext ih)

/-- The part of a walk before one of its nodes. -/
theorem walk_of_le {m n : ℕ} {x y : κ} (h : walk link n x = some y) (hm : m ≤ n) :
    ∃ z, walk link m x = some z ∧ walk link (n - m) z = some y := by
  rw [← Nat.add_sub_cancel' hm, walk_add, Option.bind_eq_some_iff] at h
  exact h

theorem Forest.walk_ne (h : Forest link) {m n : ℕ} {x y : κ} (hmn : m < n)
    (hm : walk link m x = some y) : walk link n x ≠ some y := by
  intro hn
  obtain ⟨z, hz, hzy⟩ := walk_of_le hn hmn.le
  obtain rfl : y = z := Option.some.inj (hm.symm.trans hz)
  obtain ⟨k, hk⟩ : ∃ k, n - m = k + 1 := ⟨n - m - 1, by omega⟩
  exact h k y (hk ▸ hzy)

/-- A walk in a forest meets no node of a finite set twice. -/
theorem Forest.lt_card (h : Forest link) {S : Finset κ} (hS : ∀ y z, link y = some z → y ∈ S)
    {n : ℕ} {x y : κ} (hy : y ∈ S) (hw : walk link n x = some y) : n < S.card := by
  have hmem : ∀ m ≤ n, ∃ z ∈ S, walk link m x = some z := by
    intro m hm
    obtain ⟨z, hz, hzy⟩ := walk_of_le hw hm
    refine ⟨z, ?_, hz⟩
    rcases hk : n - m with _ | k
    · rw [hk, walk_zero, Option.some.injEq] at hzy
      exact hzy ▸ hy
    · rw [hk, walk_succ, Option.bind_eq_some_iff] at hzy
      obtain ⟨u, hu, -⟩ := hzy
      exact hS z u hu
  have : Nonempty κ := ⟨x⟩
  choose! f hfS hf using hmem
  have hinj : Set.InjOn f (Finset.range (n + 1) : Set ℕ) := by
    intro a ha b hb hab
    have ha := Nat.lt_succ_iff.mp (Finset.mem_range.mp (Finset.mem_coe.mp ha))
    have hb := Nat.lt_succ_iff.mp (Finset.mem_range.mp (Finset.mem_coe.mp hb))
    rcases lt_trichotomy a b with hlt | heq | hlt
    · exact absurd (hab ▸ hf b hb) (h.walk_ne hlt (hf a ha))
    · exact heq
    · exact absurd (hab ▸ hf a ha) (h.walk_ne hlt (hf b hb))
  have := Finset.card_le_card_of_injOn (t := S) f
    (fun m hm => hfS m (Nat.lt_succ_iff.mp (Finset.mem_range.mp hm))) hinj
  rw [Finset.card_range] at this
  exact this

/-- Two link maps that differ at one node give the same walk up to where it meets that node. -/
theorem walk_congr {n : κ} (h : ∀ x, x ≠ n → link x = link' x) :
    ∀ (k : ℕ) (x : κ), walk link k x = walk link' k x ∨
      ∃ j < k, walk link j x = some n ∧ walk link' j x = some n
  | 0, x => Or.inl rfl
  | k + 1, x => by
    by_cases hx : x = n
    · exact Or.inr ⟨0, Nat.succ_pos k, by rw [walk_zero, hx], by rw [walk_zero, hx]⟩
    · rw [walk_succ, walk_succ, h x hx]
      rcases hl : link' x with _ | y
      · exact Or.inl rfl
      · rcases walk_congr h k y with he | ⟨j, hj, h1, h2⟩
        · exact Or.inl he
        · refine Or.inr ⟨j + 1, Nat.succ_lt_succ hj, ?_, ?_⟩
          · rw [walk_succ, h x hx, hl, Option.bind_some, h1]
          · rw [walk_succ, hl, Option.bind_some, h2]

theorem reaches_congr {n : κ} (h : ∀ x, x ≠ n → link x = link' x) {x : κ}
    (hr : Reaches link x n) : Reaches link' x n := by
  obtain ⟨k, hk⟩ := hr
  rcases walk_congr h k x with he | ⟨j, -, -, hj⟩
  · exact ⟨k, he ▸ hk⟩
  · exact ⟨j, hj⟩

/-- Setting the parent of `n` to `c` keeps a forest exactly when `c` does not descend from `n`. -/
theorem Forest.update_iff {n c : κ} (hf : Forest link) (h : ∀ x, x ≠ n → link x = link' x)
    (hn : link' n = some c) : Forest link' ↔ ¬Reaches link c n := by
  constructor
  · rintro hf' hr
    obtain ⟨k, hk⟩ := reaches_congr h hr
    refine hf' k n ?_
    rw [walk_succ, hn, Option.bind_some, hk]
  · intro hr k x hx
    rcases walk_congr h (k + 1) x with he | ⟨j, hj, -, hjn⟩
    · exact hf k x (he ▸ hx)
    · -- the cycle runs through `n`, so it comes back to `n`
      obtain ⟨z, hz, hzx⟩ := walk_of_le hx hj.le
      obtain rfl : n = z := Option.some.inj (hjn.symm.trans hz)
      have hcyc : walk link' (k + 1) n = some n := by
        have hk : walk link' (k + 1 - j + j) n = some n := by
          rw [walk_add, hzx, Option.bind_some, hjn]
        rwa [Nat.sub_add_cancel hj.le] at hk
      rw [walk_succ, hn, Option.bind_some] at hcyc
      exact hr (reaches_congr (fun x hx => (h x hx).symm) ⟨k, hcyc⟩)

end ParentLinks

end AvSync
