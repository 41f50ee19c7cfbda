import Mathlib.Data.List.Perm.Basic
import Mathlib.Data.List.Nodup

/-!
# Machines with enabled steps

A machine runs lists of events; each step is total, and an event may be enabled or not where it
is run. Two enabled runs that hold the same events, up to those disabled where the run ends, end
in the same state as soon as enabled events commute and stay enabled (`Confluent.run_eq`).
-/

namespace AvSync

/-- Total steps, with the events each state enables. -/
structure Machine (σ ι : Type*) where
  step : σ → ι → σ
  enabled : σ → ι → Prop

namespace Machine

variable {σ ι : Type*} (M : Machine σ ι)

/-- The state after a list of events. -/
def run (s : σ) (l : List ι) : σ := l.foldl M.step s

/-- Each event of the run meets `P` in the state it is run in. -/
def Along (P : σ → ι → Prop) : σ → List ι → Prop
  | _, [] => True
  | s, a :: l => P s a ∧ Along P (M.step s a) l

/-- Each event of the run is enabled where it is run. -/
def Valid (s : σ) (l : List ι) : Prop := M.Along M.enabled s l

variable {M}

instance decidableAlong {P : σ → ι → Prop} [∀ s a, Decidable (P s a)] :
    ∀ (s : σ) (l : List ι), Decidable (M.Along P s l)
  | _, [] => .isTrue trivial
  | s, a :: l =>
    have := decidableAlong (P := P) (M.step s a) l
    inferInstanceAs (Decidable (_ ∧ _))

instance [∀ s a, Decidable (M.enabled s a)] (s : σ) (l : List ι) : Decidable (M.Valid s l) :=
  inferInstanceAs (Decidable (M.Along M.enabled s l))

@[simp] theorem run_nil (s : σ) : M.run s [] = s := rfl

@[simp] theorem run_cons (s : σ) (a : ι) (l : List ι) : M.run s (a :: l) = M.run (M.step s a) l :=
  rfl

@[simp] theorem run_append (s : σ) (l m : List ι) : M.run s (l ++ m) = M.run (M.run s l) m :=
  List.foldl_append

@[simp] theorem along_nil (P : σ → ι → Prop) (s : σ) : M.Along P s [] := trivial

@[simp] theorem along_cons {P : σ → ι → Prop} {s : σ} {a : ι} {l : List ι} :
    M.Along P s (a :: l) ↔ P s a ∧ M.Along P (M.step s a) l := Iff.rfl

theorem along_append {P : σ → ι → Prop} :
    ∀ {s : σ} {l m : List ι}, M.Along P s (l ++ m) ↔ M.Along P s l ∧ M.Along P (M.run s l) m
  | s, [], m => by simp
  | s, a :: l, m => by
    simp only [List.cons_append, along_cons, run_cons, along_append, and_assoc]

theorem Along.and {P Q : σ → ι → Prop} :
    ∀ {l : List ι} {s : σ}, M.Along P s l → M.Along Q s l → M.Along (fun s a => P s a ∧ Q s a) s l
  | [], _, _, _ => trivial
  | _ :: _, _, hp, hq => ⟨⟨hp.1, hq.1⟩, hp.2.and hq.2⟩

@[simp] theorem valid_nil (s : σ) : M.Valid s [] := trivial

@[simp] theorem valid_cons {s : σ} {a : ι} {l : List ι} :
    M.Valid s (a :: l) ↔ M.enabled s a ∧ M.Valid (M.step s a) l := Iff.rfl

theorem valid_append {s : σ} {l m : List ι} :
    M.Valid s (l ++ m) ↔ M.Valid s l ∧ M.Valid (M.run s l) m := along_append

/-- What each step along a run preserves holds where the run ends. -/
theorem Along.run_inv {P : σ → ι → Prop} {I : σ → Prop} :
    ∀ {l : List ι} {s : σ}, (∀ s, ∀ a ∈ l, I s → P s a → I (M.step s a)) →
      M.Along P s l → I s → I (M.run s l)
  | [], _, _, _, hs => hs
  | a :: l, _, hstep, hl, hs =>
    Along.run_inv (l := l) (fun s b hb => hstep s b (List.mem_cons_of_mem a hb)) hl.2
      (hstep _ a List.mem_cons_self hs hl.1)

/-- What every step preserves holds where the run ends. -/
theorem run_inv {I : σ → Prop} {l : List ι} {s : σ}
    (hstep : ∀ s, ∀ a ∈ l, I s → I (M.step s a)) (hs : I s) : I (M.run s l) := by
  induction l generalizing s with
  | nil => exact hs
  | cons a l ih =>
    exact ih (fun s b hb => hstep s b (List.mem_cons_of_mem a hb))
      (hstep s a List.mem_cons_self hs)

/-- A state that every event leaves as it is. -/
theorem run_fixed {s : σ} (h : ∀ a, M.step s a = s) (l : List ι) : M.run s l = s :=
  run_inv (I := (· = s)) (fun _ a _ hs => hs ▸ h a) rfl

/-- A property of the states of a run that each step keeps exactly when its event meets `P` holds
in all of them exactly when each event does. -/
theorem forall_prefix_iff_along {P : σ → ι → Prop} {I Good : σ → Prop}
    (hinv : ∀ s a, I s → Good s → I (M.step s a))
    (hgood : ∀ s a, I s → Good s → (Good (M.step s a) ↔ P s a)) :
    ∀ {l : List ι} {s : σ}, I s → Good s →
      ((∀ m, m <+: l → Good (M.run s m)) ↔ M.Along P s l)
  | [], s, _, hs => by simp [hs]
  | a :: l, s, hi, hs => by
    rw [along_cons, ← hgood s a hi hs]
    constructor
    · intro h
      have ha : Good (M.step s a) := h [a] (by simp)
      refine ⟨ha, (forall_prefix_iff_along hinv hgood (hinv s a hi hs) ha).mp fun m hm => ?_⟩
      exact h (a :: m) (by simpa using hm)
    · rintro ⟨ha, hl⟩ m hm
      rcases m with _ | ⟨b, m⟩
      · exact hs
      · obtain ⟨rfl, hml⟩ := List.cons_prefix_cons.mp hm
        exact (forall_prefix_iff_along (l := l) hinv hgood (hinv s _ hi hs) ha).mpr hl m hml

/-! ## Events left out -/

/-- A run beside the run without the events that are not kept: where a kept event is enabled on the
right too and keeps `R`, and the others keep it on the left alone, the right run is enabled and `R`
holds at the end. -/
theorem run_filter {P : σ → ι → Prop} {R : σ → σ → Prop} {q : ι → Bool}
    (hkept : ∀ {s t a}, R s t → M.enabled s a → P s a → q a = true →
      M.enabled t a ∧ R (M.step s a) (M.step t a))
    (hleft : ∀ {s t a}, R s t → M.enabled s a → P s a → ¬q a = true → R (M.step s a) t) :
    ∀ {l : List ι} {s t : σ}, M.Valid s l → M.Along P s l → R s t →
      M.Valid t (l.filter q) ∧ R (M.run s l) (M.run t (l.filter q))
  | [], _, _, _, _, hr => ⟨trivial, hr⟩
  | a :: l, s, t, hv, hp, hr => by
    by_cases ha : q a = true
    · obtain ⟨he, hstep⟩ := hkept hr hv.1 hp.1 ha
      obtain ⟨hvt, hrt⟩ := run_filter hkept hleft hv.2 hp.2 hstep
      rw [List.filter_cons_of_pos ha]
      exact ⟨⟨he, hvt⟩, hrt⟩
    · rw [List.filter_cons_of_neg ha]
      exact run_filter hkept hleft hv.2 hp.2 (hleft hr hv.1 hp.1 ha)

/-! ## Confluence -/

/-- Where `Inv` holds, distinct enabled events of `U` commute and stay enabled, and an enabled
event keeps `Inv`. -/
structure Confluent (M : Machine σ ι) (U : ι → Prop) (Inv : σ → Prop) : Prop where
  inv_step : ∀ {s a}, Inv s → U a → M.enabled s a → Inv (M.step s a)
  enabled_step : ∀ {s a b}, Inv s → U a → U b → a ≠ b → M.enabled s a → M.enabled s b →
    M.enabled (M.step s b) a
  step_comm : ∀ {s a b}, Inv s → U a → U b → a ≠ b → M.enabled s a → M.enabled s b →
    M.step (M.step s a) b = M.step (M.step s b) a

namespace Confluent

variable {U : ι → Prop} {Inv : σ → Prop} (C : M.Confluent U Inv)

include C

theorem inv_run {l : List ι} {s : σ} (hU : ∀ a ∈ l, U a) (hl : M.Valid s l) (hs : Inv s) :
    Inv (M.run s l) :=
  Along.run_inv (fun _ a ha hi he => C.inv_step hi (hU a ha) he) hl hs

/-- An event that a run does not hold stays enabled along it. -/
theorem enabled_run {a : ι} (ha : U a) :
    ∀ {l : List ι} {s : σ}, (∀ b ∈ l, U b) → a ∉ l → M.Valid s l → Inv s → M.enabled s a →
      M.enabled (M.run s l) a
  | [], _, _, _, _, _, he => he
  | b :: l, s, hU, hal, hl, hs, he => by
    have hb := hU b List.mem_cons_self
    have hab : a ≠ b := fun h => hal (h ▸ List.mem_cons_self)
    exact enabled_run ha (l := l) (fun c hc => hU c (List.mem_cons_of_mem b hc))
      (fun h => hal (List.mem_cons_of_mem b h)) hl.2 (C.inv_step hs hb hl.1)
      (C.enabled_step hs ha hb hab he hl.1)

/-- An event that is enabled where the run starts can be run first. -/
theorem move_first {a : ι} (ha : U a) {v : List ι} :
    ∀ {u : List ι} {s : σ}, (∀ b ∈ u, U b) → a ∉ u → M.Valid s (u ++ a :: v) → Inv s →
      M.enabled s a →
      M.Valid (M.step s a) (u ++ v) ∧ M.run s (u ++ a :: v) = M.run (M.step s a) (u ++ v)
  | [], _, _, _, hl, _, _ => ⟨hl.2, rfl⟩
  | b :: u, s, hU, hau, hl, hs, he => by
    have hb := hU b List.mem_cons_self
    have hab : a ≠ b := fun h => hau (h ▸ List.mem_cons_self)
    obtain ⟨hv, hr⟩ := move_first ha (fun c hc => hU c (List.mem_cons_of_mem b hc))
      (fun h => hau (List.mem_cons_of_mem b h)) hl.2 (C.inv_step hs hb hl.1)
      (C.enabled_step hs ha hb hab he hl.1)
    rw [← C.step_comm hs ha hb hab he hl.1] at hv hr
    exact ⟨⟨C.enabled_step hs hb ha hab.symm hl.1 he, hv⟩, hr⟩

/-- Two enabled runs with the same events, up to ones that are disabled where the runs end, run
the same events and end in the same state. -/
theorem run_eq :
    ∀ {l m : List ι} {s : σ} {p q : List ι}, (∀ a ∈ l ++ p, U a) → (l ++ p).Nodup →
      (l ++ p).Perm (m ++ q) → M.Valid s l → M.Valid s m → Inv s →
      (∀ a ∈ p, ¬M.enabled (M.run s l) a) → (∀ a ∈ q, ¬M.enabled (M.run s m) a) →
      M.run s l = M.run s m ∧ l.Perm m ∧ p.Perm q
  | [], [], s, p, q, _, _, hperm, _, _, _, _, _ => ⟨rfl, .refl _, by simpa using hperm⟩
  | [], a :: m, s, p, q, _, _, hperm, _, hm, _, hp, _ => by
    have hap : a ∈ p := by simpa using hperm.mem_iff.mpr (List.mem_cons_self)
    exact absurd hm.1 (hp a hap)
  | a :: l, m, s, p, q, hU, hnd, hperm, hl, hm, hs, hp, hq => by
    have ha : U a := hU a List.mem_cons_self
    have hUm : ∀ b ∈ m, U b := fun b hb =>
      hU b (hperm.mem_iff.mpr (List.mem_append_left q hb))
    have ham : a ∈ m := by
      by_contra hn
      have haq : a ∈ q := by
        have := hperm.mem_iff.mp (show a ∈ a :: l ++ p from List.mem_cons_self)
        simpa [hn] using this
      exact hq a haq (C.enabled_run ha hUm hn hm hs hl.1)
    obtain ⟨u, v, rfl⟩ := List.append_of_mem ham
    have hau : a ∉ u := by
      have := hperm.nodup_iff.mp hnd
      simp only [List.append_assoc, List.cons_append, List.nodup_middle, List.nodup_cons,
        List.mem_append, not_or] at this
      exact this.1.1
    have hUu : ∀ b ∈ u, U b := fun b hb => hUm b (List.mem_append_left _ hb)
    obtain ⟨hv, hr⟩ := C.move_first ha hUu hau hm hs hl.1
    have hperm' : (l ++ p).Perm (u ++ v ++ q) := by
      have : (a :: (l ++ p)).Perm (a :: (u ++ v ++ q)) :=
        hperm.trans (by simp)
      exact this.cons_inv
    rw [hr] at hq ⊢
    obtain ⟨h1, h2, h3⟩ := run_eq (fun b hb => hU b (List.mem_cons_of_mem a hb))
      (List.nodup_cons.mp hnd).2 hperm' hl.2 hv (C.inv_step hs ha hl.1) hp hq
    exact ⟨h1, (h2.cons a).trans List.perm_middle.symm, h3⟩

end Confluent

end Machine

end AvSync
