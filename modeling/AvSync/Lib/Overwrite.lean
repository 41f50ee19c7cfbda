import Mathlib.Data.List.Basic

/-!
# Values overwritten in turn

A write sets a value or leaves it. The last value that is set stays (`settle_eq_getD`), and once one
is set the value before the writes does not matter (`settle_eq_of_isSome`).
-/

namespace AvSync

namespace Overwrite

variable {α : Type*} {l m : List (Option α)} {a : α}

/-- The value after the writes `l`, made in their order. -/
def settle (a : α) (l : List (Option α)) : α := l.foldl (fun a w => w.getD a) a

theorem settle_append (a : α) (l m : List (Option α)) :
    settle a (l ++ m) = settle (settle a l) m := List.foldl_append

/-- Writes that set only the value that is there. -/
theorem settle_eq_self (h : ∀ w ∈ l, ∀ v ∈ w, v = a) : settle a l = a := by
  induction l with
  | nil => rfl
  | cons w l ih =>
    rw [List.forall_mem_cons] at h
    have hw : w.getD a = a := by
      rcases w with _ | v
      · rfl
      · exact h.1 v rfl
    change settle (w.getD a) l = a
    rw [hw]
    exact ih h.2

/-- Once a value is set, the one before it does not matter. -/
theorem settle_eq_of_isSome (h : ∃ w ∈ l, w.isSome) (a b : α) : settle a l = settle b l := by
  induction l generalizing a b with
  | nil => exact absurd h.choose_spec.1 List.not_mem_nil
  | cons w l ih =>
    change settle (w.getD a) l = settle (w.getD b) l
    rcases w with _ | v
    · obtain ⟨w, hw, hv⟩ := h
      rcases List.mem_cons.mp hw with rfl | hw
      · cases hv
      · exact ih ⟨w, hw, hv⟩ a b
    · rfl

/-- The last value that is set stays. -/
theorem settle_eq_getD (a : α) (l : List (Option α)) :
    settle a l = (l.filterMap id).getLast?.getD a := by
  induction l generalizing a with
  | nil => rfl
  | cons w l ih =>
    change settle (w.getD a) l = _
    rw [ih]
    rcases w with _ | v
    · rfl
    · have hcons : (some v :: l).filterMap id = v :: l.filterMap id := rfl
      rw [hcons, List.getLast?_cons, Option.getD_some, Option.getD_some]

end Overwrite

end AvSync
