import Mathlib.Data.List.Basic

/-!
# Inheriting along a chain

A node inherits a value along the chain of its ancestors, itself first. `settle` walks the chain
and takes the value of a node's parent wherever the node has not written its own; the topmost
such parent, the `donor`, has the last word (`settle_eq`). That is the value of the nearest node
that has written one exactly when no donor above that node carries another value
(`settled_eq_nearest_iff`).
-/

namespace AvSync

namespace Inheritance

variable {α β : Type*} (written : β → Prop) [DecidablePred written] (value : β → α)

/-- The walk up the chain. -/
def settle : List β → α → α
  | c :: p :: l, a => settle (p :: l) (if written c then a else value p)
  | _, a => a

/-- The parent of the topmost node that has a parent and has not written a value. -/
def donor : List β → Option β
  | c :: p :: l => (donor (p :: l)).or (if written c then none else some p)
  | _ => none

/-- The donor of the chain carries another value than `v`. -/
def Overrides (l : List β) (v : α) : Prop := ∃ p, donor written l = some p ∧ value p ≠ v

variable {written value} {l pre : List β} {c d p : β} {a v : α}

theorem donor_cons_of_written (h : written c) : donor written (c :: l) = donor written l := by
  rcases l with _ | ⟨p, l⟩
  · rfl
  · simp only [donor, h, if_true, Option.or_none]

theorem donor_cons_of_not_written (h : ¬written c) :
    donor written (c :: p :: l) = (donor written (p :: l)).or (some p) := by
  simp only [donor, h, if_false]

/-- A donor of the upper part of the chain is the donor of the chain. -/
theorem donor_append (h : donor written l = some p) :
    ∀ pre : List β, donor written (pre ++ l) = some p
  | [] => h
  | c :: pre => by
    have ih := donor_append h pre
    rcases hl : pre ++ l with _ | ⟨q, m⟩
    · rw [hl] at ih
      cases ih
    · rw [List.cons_append, hl]
      rw [hl] at ih
      simp only [donor, ih, Option.some_or]

/-! ## The walk -/

theorem settle_eq : ∀ (l : List β) (a : α),
    settle written value l a = (donor written l).elim a value
  | [], _ => rfl
  | [_], _ => rfl
  | c :: p :: l, a => by
    rw [settle, settle_eq (p :: l), donor]
    rcases donor written (p :: l) with _ | q
    · by_cases hc : written c <;> simp [hc]
    · rfl

theorem settle_cons_of_written (h : written c) :
    settle written value (c :: l) a = settle written value l a := by
  rw [settle_eq, settle_eq, donor_cons_of_written h]

/-- A node that has written nothing, and none below it has, settles from the nearest that has. -/
theorem settle_append_of_not_written (hd : written d) :
    ∀ {pre : List β} {c : β} (a : α), (∀ b ∈ c :: pre, ¬written b) →
      settle written value (c :: (pre ++ d :: l)) a = settle written value l (value d)
  | [], c, a, h => by
    rw [List.nil_append, settle, if_neg (h c List.mem_cons_self), settle_cons_of_written hd]
  | e :: pre, c, a, h => by
    rw [List.cons_append, settle, if_neg (h c List.mem_cons_self)]
    exact settle_append_of_not_written hd _ fun b hb => h b (List.mem_cons_of_mem c hb)

/-- What the first node of a chain settles on. -/
def settled (written : β → Prop) [DecidablePred written] (value : β → α) (l : List β) : Option α :=
  l.head?.map fun c => settle written value l (value c)

/-- A lowest node that has written nothing settles like the one above it. -/
theorem settled_cons_of_not_written (h : ¬written c) :
    settled written value (c :: d :: l) = settled written value (d :: l) := by
  simp only [settled, List.head?_cons, Option.map_some, settle, if_neg h]

theorem settled_append (hd : written d) (hpre : ∀ c ∈ pre, ¬written c) :
    settled written value (pre ++ d :: l) = some ((donor written l).elim (value d) value) := by
  rw [← settle_eq]
  rcases pre with _ | ⟨c, pre⟩
  · rw [List.nil_append, settled, List.head?_cons, Option.map_some, settle_cons_of_written hd]
  · rw [List.cons_append, settled, List.head?_cons, Option.map_some,
      settle_append_of_not_written hd _ hpre]

/-- The walk gives the value of the nearest node that has written one exactly when no donor above
that node overrides it. -/
theorem settled_eq_nearest_iff (hd : written d) (hpre : ∀ c ∈ pre, ¬written c) :
    settled written value (pre ++ d :: l) = some (value d) ↔
      ¬Overrides written value l (value d) := by
  rw [settled_append hd hpre, Overrides]
  rcases donor written l with _ | p <;> simp

/-- Chains that agree node by node settle alike. -/
theorem settle_congr {m : List β}
    (h : List.Forall₂ (fun c d => value c = value d ∧ (written c ↔ written d)) l m) (a : α) :
    settle written value l a = settle written value m a := by
  induction h generalizing a with
  | nil => rfl
  | @cons c d l m hcd hlm ih =>
    rcases hlm with _ | ⟨hef, -⟩
    · rfl
    · simp only [settle, ih, hcd.2, hef.1]

theorem settled_congr {m : List β}
    (h : List.Forall₂ (fun c d => value c = value d ∧ (written c ↔ written d)) l m) :
    settled written value l = settled written value m := by
  rcases h with _ | ⟨hcd, hlm⟩
  · rfl
  · simp only [settled, List.head?_cons, Option.map_some, hcd.1,
      settle_congr (List.Forall₂.cons hcd hlm)]

/-! ## Writing what is inherited -/

theorem settle_append : ∀ (pre : List β) (a : α), settle written value (pre ++ c :: l) a =
    settle written value (c :: l) (settle written value (pre ++ [c]) a)
  | [], _ => rfl
  | [e], a => by
    simp only [List.singleton_append, settle]
  | e :: f :: pre, a => by
    simp only [List.cons_append, settle]
    exact settle_append (f :: pre) _

/-- Nodes with one value hand the same down. -/
theorem settle_append_congr (h : value c = value d) :
    ∀ (pre : List β) (a : α),
      settle written value (pre ++ [c]) a = settle written value (pre ++ [d]) a
  | [], _ => rfl
  | [e], a => by
    simp only [List.singleton_append, settle, h]
  | e :: f :: pre, a => by
    simp only [List.cons_append, settle]
    exact settle_append_congr h (f :: pre) _

/-- A chain with a donor settles on the donor's value. -/
theorem settled_of_donor (h : donor written l = some p) :
    settled written value l = some (value p) := by
  rcases l with _ | ⟨c, l⟩
  · cases h
  · rw [settled, List.head?_cons, Option.map_some, settle_eq, h]
    rfl

theorem settled_append_congr (h : value c = value d) :
    settled written value (pre ++ [c]) = settled written value (pre ++ [d]) := by
  rcases pre with _ | ⟨e, pre⟩
  · simp only [settled, List.nil_append, List.head?_cons, Option.map_some, settle, h]
  · simp only [settled, List.cons_append, List.head?_cons, Option.map_some]
    exact congrArg some (settle_append_congr h (e :: pre) _)

/-- A written node just above passes nothing down past a written one. -/
theorem settled_append_of_written (hz : ∀ z ∈ pre.getLast?, written z) (hne : pre ≠ []) :
    settled written value (pre ++ [d]) = settled written value pre := by
  obtain ⟨low, z, rfl⟩ : ∃ low z, pre = low ++ [z] :=
    ⟨_, _, (List.dropLast_append_getLast hne).symm⟩
  have hz := hz z (by simp)
  have hsettle : ∀ a, settle written value (low ++ [z] ++ [d]) a =
      settle written value (low ++ [z]) a := by
    intro a
    rw [List.append_assoc, List.singleton_append, settle_append, settle_cons_of_written hz]
    rfl
  rcases low with _ | ⟨e, low⟩ <;>
    simp only [settled, List.nil_append, List.cons_append, List.head?_cons, Option.map_some] <;>
    exact congrArg some (hsettle _)

theorem donor_append_of_written (hl : donor written l = none) (hd : written d) :
    ∀ pre : List β, donor written (pre ++ d :: l) = donor written (pre ++ [d])
  | [] => by rw [List.nil_append, List.nil_append, donor_cons_of_written hd, hl]; rfl
  | [e] => by
    simp only [List.singleton_append, donor, donor_cons_of_written hd, hl]
  | e :: f :: pre => by
    have ih := donor_append_of_written hl hd (f :: pre)
    simp only [List.cons_append] at ih ⊢
    simp only [donor, ih]

/-- Above a written node without a donor, nothing is passed down. -/
theorem settled_append_of_donor (hl : donor written l = none) (hd : written d) :
    settled written value (pre ++ d :: l) = settled written value (pre ++ [d]) := by
  have h := donor_append_of_written hl hd pre
  rcases pre with _ | ⟨e, pre⟩ <;>
    simp only [settled, List.nil_append, List.cons_append, List.head?_cons, Option.map_some,
      settle_eq] at h ⊢ <;>
    rw [h]

/-- What the lowest node of `pre` settles on below a node that has written `v`: a node just below
that has written nothing hands `v` down, and nothing is handed down past one that has. -/
def settledUnder (written : β → Prop) [DecidablePred written] (value : β → α) (v : α)
    (pre : List β) : Option α :=
  if ∀ z ∈ pre.getLast?, ¬written z then some v else settled written value pre

theorem settled_append_eq_under (hl : donor written l = none) (hd : written d) (pre : List β) :
    settled written value (pre ++ d :: l) = settledUnder written value (value d) pre := by
  rw [settled_append_of_donor hl hd, settledUnder]
  rcases List.eq_nil_or_concat pre with rfl | ⟨low, z, rfl⟩
  · rw [if_pos (by simp)]
    rfl
  · rw [List.concat_eq_append, List.getLast?_concat]
    by_cases hz : written z
    · rw [if_neg (by simpa using hz), settled_append_of_written (by simpa using hz) (by simp)]
    · have hdon : donor written [z, d] = some d := by
        rw [donor_cons_of_not_written hz]
        rfl
      rw [if_pos (by simpa using hz), List.append_assoc, List.singleton_append]
      exact settled_of_donor (donor_append hdon low)

/-- Without a donor above, the parent of a node that has written nothing is the donor of all the
nodes below. -/
theorem settled_append_of_not_written (hl : donor written l = none) (hw : ¬written c)
    (hne : l ≠ []) (pre : List β) :
    settled written value (pre ++ c :: l) = settled written value (c :: l) := by
  obtain ⟨p, m, rfl⟩ := List.exists_cons_of_ne_nil hne
  have hdon : donor written (c :: p :: m) = some p := by
    rw [donor_cons_of_not_written hw, hl]
    rfl
  rw [settled_of_donor hdon, settled_of_donor (donor_append hdon pre)]

/-- A node that writes the value it settles on changes the value at the bottom of the chain, unless
a donor above has the last word, the node had written a value before or is at the top, the node
just below has written none, or the nodes below settle on the same value by themselves. -/
theorem settled_replace_iff (hd : written d) (h : settled written value (c :: l) = some (value d)) :
    settled written value (pre ++ d :: l) = settled written value (pre ++ c :: l) ↔
      donor written l ≠ none ∨ written c ∨ l = [] ∨ (∀ z ∈ pre.getLast?, ¬written z) ∨
        settled written value pre = some (value d) := by
  rcases hl : donor written l with _ | w
  · by_cases hw : written c
    · -- both nodes have written, and the same value
      rw [settled_append_of_donor hl hd, settled_append_of_donor hl hw]
      rw [settled, List.head?_cons, Option.map_some, settle_cons_of_written hw, settle_eq, hl] at h
      exact iff_of_true (settled_append_congr (Option.some.inj h).symm) (.inr (.inl hw))
    rcases l with _ | ⟨p, l⟩
    · exact iff_of_true (settled_append_congr (Option.some.inj h).symm) (.inr (.inr (.inl rfl)))
    rw [settled_append_of_not_written hl hw (List.cons_ne_nil p l), h,
      settled_append_eq_under hl hd, settledUnder]
    split_ifs with hz
    · exact iff_of_true rfl (.inr (.inr (.inr (.inl hz))))
    · simp only [ne_eq, not_true_eq_false, hw, hz, false_or]
  · have hchain : ∀ e, settled written value (pre ++ e :: l) = some (value w) := fun e => by
      have := donor_append hl (pre ++ [e])
      rw [List.append_assoc, List.singleton_append] at this
      exact settled_of_donor this
    exact iff_of_true ((hchain d).trans (hchain c).symm) (.inl (Option.some_ne_none w))

end Inheritance

end AvSync
