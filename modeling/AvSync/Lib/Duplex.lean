import Mathlib.Logic.Relation
import Mathlib.Tactic.Common

/-!
# Two parties on a duplex link

A party is a program that sends, receives or has halted. Two of them share a reliable ordered link
in each direction, and take steps in any order. The order does not matter: a state in which no
party can step is reached from every state on the way (`Duplex.star_final`), so it is the only one.
-/

namespace AvSync

/-- What a party with local states `σ` does next. -/
inductive Party.Act (σ μ : Type*) where
  | send (frame : μ) (next : σ)
  | receive (next : μ → σ)
  | halt

/-- A deterministic party that exchanges frames `μ`. -/
structure Party (σ μ : Type*) where
  act : σ → Party.Act σ μ

/-- Both parties' states, and the frames in flight to each. -/
structure Duplex (σ τ μ : Type*) where
  left : σ
  right : τ
  toLeft : List μ
  toRight : List μ

namespace Duplex

variable {σ τ μ : Type*} (P : Party σ μ) (Q : Party τ μ)

/-- A party sends, or takes the first frame in flight to it. -/
inductive Step : Duplex σ τ μ → Duplex σ τ μ → Prop
  | leftSend {s t l r m s'} (h : P.act s = .send m s') : Step ⟨s, t, l, r⟩ ⟨s', t, l, r ++ [m]⟩
  | leftReceive {s t l r m next} (h : P.act s = .receive next) :
      Step ⟨s, t, m :: l, r⟩ ⟨next m, t, l, r⟩
  | rightSend {s t l r m t'} (h : Q.act t = .send m t') : Step ⟨s, t, l, r⟩ ⟨s, t', l ++ [m], r⟩
  | rightReceive {s t l r m next} (h : Q.act t = .receive next) :
      Step ⟨s, t, l, m :: r⟩ ⟨s, next m, l, r⟩

/-- Any number of steps. -/
def Star : Duplex σ τ μ → Duplex σ τ μ → Prop := Relation.ReflTransGen (Step P Q)

/-- No party can step. -/
def Final (d : Duplex σ τ μ) : Prop := ∀ e, ¬Step P Q d e

variable {P Q} {c d e : Duplex σ τ μ}

/-- Two different steps are of different parties, and can be taken in either order. -/
theorem Step.diamond (h₁ : Step P Q c d) (h₂ : Step P Q c e) :
    d = e ∨ ∃ f, Step P Q d f ∧ Step P Q e f := by
  cases h₁ with
  | leftSend h =>
    cases h₂ with
    | leftSend h' => cases h.symm.trans h'; exact Or.inl rfl
    | leftReceive h' => cases h.symm.trans h'
    | rightSend h' => exact Or.inr ⟨_, .rightSend h', .leftSend h⟩
    | rightReceive h' => exact Or.inr ⟨_, .rightReceive h', .leftSend h⟩
  | leftReceive h =>
    cases h₂ with
    | leftSend h' => cases h.symm.trans h'
    | leftReceive h' => cases h.symm.trans h'; exact Or.inl rfl
    | rightSend h' => exact Or.inr ⟨_, .rightSend h', .leftReceive h⟩
    | rightReceive h' => exact Or.inr ⟨_, .rightReceive h', .leftReceive h⟩
  | rightSend h =>
    cases h₂ with
    | leftSend h' => exact Or.inr ⟨_, .leftSend h', .rightSend h⟩
    | leftReceive h' => exact Or.inr ⟨_, .leftReceive h', .rightSend h⟩
    | rightSend h' => cases h.symm.trans h'; exact Or.inl rfl
    | rightReceive h' => cases h.symm.trans h'
  | rightReceive h =>
    cases h₂ with
    | leftSend h' => exact Or.inr ⟨_, .leftSend h', .rightReceive h⟩
    | leftReceive h' => exact Or.inr ⟨_, .leftReceive h', .rightReceive h⟩
    | rightSend h' => cases h.symm.trans h'
    | rightReceive h' => cases h.symm.trans h'; exact Or.inl rfl

theorem Final.eq_of_star (hd : d.Final P Q) (h : Star P Q d e) : e = d := by
  rcases Relation.ReflTransGen.cases_head h with rfl | ⟨f, hf, -⟩
  · rfl
  · exact absurd hf (hd f)

/-- Every state on the way can still go on to the state in which no party can step. -/
theorem star_final (hd : Star P Q c d) (hfin : d.Final P Q) (he : Star P Q c e) :
    Star P Q e d := by
  have hjoin := Relation.church_rosser (r := Step P Q) (fun a b c hb hc => by
    rcases hb.diamond hc with rfl | ⟨f, hbf, hcf⟩
    · exact ⟨b, .refl, .refl⟩
    · exact ⟨f, .single hbf, .single hcf⟩) hd he
  obtain ⟨f, hdf, hef⟩ := hjoin
  exact hfin.eq_of_star hdf ▸ hef

/-- A party that has halted stays where it is. -/
theorem Star.left_eq (h : Star P Q d e) (hd : P.act d.left = .halt) : e.left = d.left := by
  induction h with
  | refl => rfl
  | tail _ hs ih =>
    rw [← ih] at hd ⊢
    cases hs with
    | leftSend h => cases h.symm.trans hd
    | leftReceive h => cases h.symm.trans hd
    | rightSend => rfl
    | rightReceive => rfl

theorem Star.right_eq (h : Star P Q d e) (hd : Q.act d.right = .halt) : e.right = d.right := by
  induction h with
  | refl => rfl
  | tail _ hs ih =>
    rw [← ih] at hd ⊢
    cases hs with
    | leftSend => rfl
    | leftReceive => rfl
    | rightSend h => cases h.symm.trans hd
    | rightReceive h => cases h.symm.trans hd

/-- Two parties that wait for a frame wait for good once none is in flight. -/
theorem final_of_receive {s : σ} {t : τ} {f : μ → σ} {g : μ → τ} (hs : P.act s = .receive f)
    (ht : Q.act t = .receive g) : Final P Q ⟨s, t, [], []⟩ := by
  intro e he
  cases he with
  | leftSend h => cases h.symm.trans hs
  | rightSend h => cases h.symm.trans ht

end Duplex

end AvSync
