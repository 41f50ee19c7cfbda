import Mathlib.Order.MinMax
import Mathlib.Logic.Function.Basic

/-!
# Auctions won by the smallest bid

Bids `k` are made for items `n`. Each item belongs to the smallest bid made for it, and each bid
displays the smallest item that was recorded under it; an item that moves on to a smaller bid is
taken off display, and the place it leaves stays empty until something is recorded there again. The
owner of an item is the smallest bid whatever the order (`owner_bid_le`), what is on display is not:
it stays where no smaller item passes through (`point_bid_of_le`).
-/

namespace AvSync

/-- Who owns each item, and what each bid displays. -/
@[ext] structure Auction (κ ν : Type*) where
  owner : ν → Option κ
  point : κ → Option ν

namespace Auction

variable {κ ν : Type*} [LinearOrder κ] [LinearOrder ν]

/-- Displays `n` at `k`, unless a smaller item is on display there. -/
def record (a : Auction κ ν) (k : κ) (n : ν) : Auction κ ν :=
  { a with point := Function.update a.point k (some ((a.point k).elim n (min n))) }

/-- Takes `n` off display at `k`. -/
def release (a : Auction κ ν) (k : κ) (n : ν) : Auction κ ν :=
  { a with point := if a.point k = some n then Function.update a.point k none else a.point }

/-- Gives `n` to `k`. -/
def award (a : Auction κ ν) (k : κ) (n : ν) : Auction κ ν :=
  { a with owner := Function.update a.owner n (some k) }

/-- The bid `k` for `n`. A bid that is not `open` displays nothing, and founds no new item. -/
def bid (a : Auction κ ν) (k : κ) (n : ν) (isOpen : Bool) : Auction κ ν :=
  match a.owner n with
  | none => if isOpen then (a.award k n).record k n else a
  | some k₀ =>
    if k₀ < k then a
    else
      let a := if k < k₀ then (a.release k₀ n).award k n else a
      if isOpen then a.record k n else a

/-- What is on display belongs to the bid that displays it. -/
def Sound (a : Auction κ ν) : Prop := ∀ k n, a.point k = some n → a.owner n = some k

variable {a : Auction κ ν} {k k' k₀ : κ} {n m : ν} {b : Bool}

theorem owner_bid_of_ne (h : m ≠ n) : (a.bid k n b).owner m = a.owner m := by
  unfold bid
  rcases a.owner n with _ | k₀
  · rcases b <;> simp [award, record, h]
  · rcases lt_trichotomy k₀ k with hk | rfl | hk
    · simp [hk]
    · rcases b <;> simp [record]
    · rcases b <;> simp [award, record, release, hk, hk.not_gt, h]

theorem owner_bid_of_none (h : a.owner n = none) :
    (a.bid k n b).owner n = if b then some k else none := by
  rcases b <;> simp [bid, award, record, h]

theorem owner_bid_of_some (h : a.owner n = some k₀) :
    (a.bid k n b).owner n = some (min k k₀) := by
  unfold bid
  simp only [h]
  rcases lt_trichotomy k₀ k with hk | rfl | hk
  · simp [hk, h, hk.le]
  · rcases b <;> simp [record, h]
  · rcases b <;> simp [award, record, release, hk, hk.not_gt, hk.le]

/-- An item that has an owner keeps one, which is no larger. -/
theorem owner_bid_le (h : a.owner m = some k₀) :
    ∃ k₁ ≤ k₀, (a.bid k n b).owner m = some k₁ := by
  by_cases hm : m = n
  · subst hm
    exact ⟨min k k₀, min_le_right k k₀, owner_bid_of_some h⟩
  · exact ⟨k₀, le_rfl, (owner_bid_of_ne hm).trans h⟩

/-- After an open bid the item has an owner that is no larger than the bid. -/
theorem owner_bid_self (a : Auction κ ν) (k : κ) (n : ν) :
    ∃ k₁ ≤ k, (a.bid k n true).owner n = some k₁ := by
  rcases h : a.owner n with _ | k₀
  · exact ⟨k, le_rfl, owner_bid_of_none h⟩
  · exact ⟨min k k₀, min_le_left k k₀, owner_bid_of_some h⟩

/-- An owner has been one before, or is the bid. -/
theorem owner_of_bid (h : (a.bid k n b).owner m = some k') :
    a.owner m = some k' ∨ m = n ∧ k' = k := by
  by_cases hm : m = n
  · subst hm
    rcases ha : a.owner m with _ | k₀
    · rw [owner_bid_of_none ha] at h
      rcases b
      · cases h
      · exact Or.inr ⟨rfl, (Option.some.inj h).symm⟩
    · rw [owner_bid_of_some ha, Option.some.injEq] at h
      rcases min_choice k k₀ with hk | hk
      · exact Or.inr ⟨rfl, h.symm.trans hk⟩
      · exact Or.inl (congrArg some (hk.symm.trans h))
  · exact Or.inl ((owner_bid_of_ne hm).symm.trans h)

/-! ## What is on display -/

theorem point_record (a : Auction κ ν) (k j : κ) (n : ν) :
    (a.record k n).point j = if j = k then some ((a.point k).elim n (min n)) else a.point j :=
  Function.update_apply ..

theorem point_release (a : Auction κ ν) (k j : κ) (n : ν) :
    (a.release k n).point j = if j = k ∧ a.point k = some n then none else a.point j := by
  unfold release
  by_cases h : a.point k = some n
  · simp only [h, if_true, Function.update_apply, and_true]
  · simp only [h, if_false, and_false]

/-- The bid `k` takes `n` from what `j` displays. -/
def Takes (a : Auction κ ν) (k : κ) (n : ν) (j : κ) : Prop :=
  a.owner n = some j ∧ k < j ∧ a.point j = some n

/-- The bid `k` owns `n` once it is made. -/
def Wins (a : Auction κ ν) (k : κ) (n : ν) : Prop := ∀ k₀, a.owner n = some k₀ → k ≤ k₀

/-- What a bid leaves on display at `j`: what was there, or nothing, or its item, if no smaller one
was there. -/
inductive Display (a : Auction κ ν) (k : κ) (n : ν) (b : Bool) (j : κ) : Option ν → Prop
  | same : ¬a.Takes k n j → ¬(j = k ∧ b = true ∧ a.Wins k n) → Display a k n b j (a.point j)
  | gone : a.Takes k n j → Display a k n b j none
  | record : j = k → b = true → a.Wins k n →
      Display a k n b j (some ((a.point j).elim n (min n)))

theorem display_bid (a : Auction κ ν) (k : κ) (n : ν) (b : Bool) (j : κ) :
    Display a k n b j ((a.bid k n b).point j) := by
  have hrec : ∀ {a' : Auction κ ν}, (j = k → a'.point j = a.point j) →
      (j ≠ k → Display a k n b j (a'.point j)) → b = true → a.Wins k n →
      Display a k n b j ((a'.record k n).point j) := by
    intro a' h h' hb hk
    rw [point_record]
    split_ifs with hj
    · subst hj
      rw [h rfl]
      exact .record rfl hb hk
    · exact h' hj
  unfold bid
  rcases h : a.owner n with _ | k₀
  · have ht : ¬a.Takes k n j := fun ht => by cases h.symm.trans ht.1
    have hw : a.Wins k n := fun k₀ hk => by cases h.symm.trans hk
    rcases b
    · exact .same ht fun hs => Bool.false_ne_true hs.2.1
    · exact hrec (fun _ => rfl) (fun hj => .same ht fun hs => hj hs.1) rfl hw
  · have hown : ∀ {k'}, a.owner n = some k' → k' = k₀ := fun h' =>
      (Option.some.inj (h.symm.trans h')).symm
    rcases lt_trichotomy k₀ k with hk | rfl | hk
    · simp only [hk, if_true]
      exact .same (fun ht => hk.not_gt (hown ht.1 ▸ ht.2.1)) fun hs =>
        hk.not_ge (hs.2.2 k₀ h)
    · simp only [lt_irrefl, if_false]
      have ht : ¬a.Takes k₀ n j := fun ht => lt_irrefl k₀ (hown ht.1 ▸ ht.2.1)
      rcases b
      · exact .same ht fun hs => Bool.false_ne_true hs.2.1
      · exact hrec (fun _ => rfl) (fun hj => .same ht fun hs => hj hs.1) rfl
          fun k hk => (hown hk).ge
    · simp only [hk, hk.not_gt, if_true, if_false]
      have hgone : b = false ∨ j ≠ k →
          Display a k n b j (((a.release k₀ n).award k n).point j) := by
        intro hb
        change Display a k n b j ((a.release k₀ n).point j)
        rw [point_release]
        split_ifs with hj
        · obtain ⟨rfl, hj⟩ := hj
          exact .gone ⟨h, hk, hj⟩
        · refine .same (fun ht => hj ?_) fun hs => ?_
          · obtain rfl := hown ht.1
            exact ⟨rfl, ht.2.2⟩
          · rcases hb with hb | hb
            · exact Bool.false_ne_true (hb.symm.trans hs.2.1)
            · exact hb hs.1
      rcases b
      · exact hgone (Or.inl rfl)
      · refine hrec (fun hj => ?_) (fun hj => hgone (Or.inr hj)) rfl fun k' hk' => ?_
        · change (a.release k₀ n).point j = _
          rw [point_release, if_neg fun hs => hk.ne (hj.symm.trans hs.1)]
        · exact hown hk' ▸ hk.le

theorem Sound.bid (h : a.Sound) : (a.bid k n b).Sound := by
  intro j m hm
  have hdisplay := display_bid a k n b j
  rw [hm] at hdisplay
  generalize hP : some m = P at hdisplay
  rcases hdisplay with ⟨ht, -⟩ | _ | ⟨rfl, rfl, hw⟩
  · have hown := h j m hP.symm
    by_cases hmn : m = n
    · subst hmn
      have hkj : ¬k < j := fun hk => ht ⟨hown, hk, hP.symm⟩
      rw [owner_bid_of_some hown, min_eq_right (not_lt.mp hkj)]
    · exact (owner_bid_of_ne hmn).trans hown
  · cases hP
  · have hn : (a.bid j n true).owner n = some j := by
      rcases ha : a.owner n with _ | k₀
      · exact owner_bid_of_none ha
      · rw [owner_bid_of_some ha, min_eq_left (hw k₀ ha)]
    have hold : ∀ m', a.point j = some m' → (a.bid j n true).owner m' = some j := by
      intro m' hm'
      by_cases hmn : m' = n
      · exact hmn ▸ hn
      · exact (owner_bid_of_ne hmn).trans (h j m' hm')
    rcases hj : a.point j with _ | m'
    · rw [hj, Option.elim_none, Option.some.injEq] at hP
      exact hP ▸ hn
    · rw [hj, Option.elim_some, Option.some.injEq] at hP
      rcases min_choice n m' with hmin | hmin
      · rw [hP, hmin]
        exact hn
      · rw [hP, hmin]
        exact hold m' hj

/-- The smallest item stays on display where no bid takes it away. -/
theorem point_bid_of_le (h : a.point j = some m) (hn : n = m → j ≤ k) (hk : k = j → m ≤ n) :
    (a.bid k n b).point j = some m := by
  have hdisplay := display_bid a k n b j
  generalize (a.bid k n b).point j = P at hdisplay ⊢
  rcases hdisplay with - | ht | ⟨rfl, -, -⟩
  · exact h
  · exact absurd ht.2.1 (not_lt.mpr (hn (Option.some.inj (ht.2.2.symm.trans h))))
  · rw [h, Option.elim_some, min_eq_right (hk rfl)]

/-- A bid that wins the smallest item displays it. -/
theorem point_bid_self (hw : a.Wins k n) (hmin : ∀ m, a.point k = some m → n ≤ m) :
    (a.bid k n true).point k = some n := by
  have hdisplay := display_bid a k n true k
  generalize (a.bid k n true).point k = P at hdisplay ⊢
  rcases hdisplay with ⟨-, hs⟩ | ht | -
  · exact absurd ⟨rfl, rfl, hw⟩ hs
  · exact absurd ht.2.1 (lt_irrefl k)
  · rcases h : a.point k with _ | m
    · rfl
    · rw [Option.elim_some, min_eq_left (hmin m h)]

theorem point_bid_ne_none_of_wins (hw : a.Wins k n) : (a.bid k n true).point k ≠ none := by
  have hdisplay := display_bid a k n true k
  generalize (a.bid k n true).point k = P at hdisplay ⊢
  rcases hdisplay with ⟨-, hs⟩ | ht | -
  · exact absurd ⟨rfl, rfl, hw⟩ hs
  · exact absurd ht.2.1 (lt_irrefl k)
  · exact Option.some_ne_none _

/-- Only its own bids bring something on display at `j`. -/
theorem point_bid_of_none (h : a.point j = none) (hk : k ≠ j) : (a.bid k n b).point j = none := by
  have hdisplay := display_bid a k n b j
  generalize (a.bid k n b).point j = P at hdisplay ⊢
  rcases hdisplay with - | - | ⟨hj, -⟩
  · exact h
  · rfl
  · exact absurd hj.symm hk

/-- A smaller bid for the item on display leaves the place empty. -/
theorem point_bid_of_takes (h : a.Takes k n j) : (a.bid k n b).point j = none := by
  have hdisplay := display_bid a k n b j
  generalize (a.bid k n b).point j = P at hdisplay ⊢
  rcases hdisplay with ⟨ht, -⟩ | - | ⟨rfl, -⟩
  · exact absurd h ht
  · rfl
  · exact absurd h.2.1 (lt_irrefl j)

/-- Something stays on display where no item moves on. -/
theorem point_bid_ne_none (h : a.point j ≠ none) (hn : ∀ k₀, a.owner n = some k₀ → k₀ ≤ k) :
    (a.bid k n b).point j ≠ none := by
  have hdisplay := display_bid a k n b j
  generalize (a.bid k n b).point j = P at hdisplay ⊢
  rcases hdisplay with - | ht | -
  · exact h
  · exact absurd ht.2.1 (hn j ht.1).not_gt
  · exact Option.some_ne_none _

end Auction

end AvSync
