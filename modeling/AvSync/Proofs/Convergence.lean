import AvSync.Proofs.Forest
import AvSync.Proofs.Fresh

/-!
# Convergence of fresh ids

Whatever the order and the duplicates, deliveries of a set of operations whose children have one
owner each end in the same session with the same operations buffered
(`OpSet.Delivers.session_eq`). Parents are there before their children, so the view is defined.
-/

namespace AvSync

namespace Session

variable {s : Session} {ops : List TaggedOperation} {o : TaggedOperation}

/-- Every parent link leads to a clip that is there. -/
def Rooted (s : Session) : Prop := ∀ x y, s.parentOf x = some y → y ∈ s.clips

theorem Rooted.mem_of_descends (h : s.Rooted) {x y : ClipId} (hx : x ∈ s.clips)
    (hxy : s.Descends x y) : y ∈ s.clips := by
  obtain ⟨n, hn⟩ := hxy
  induction n generalizing x with
  | zero => exact Option.some.inj hn ▸ hx
  | succ n ih =>
    obtain ⟨z, hz, hzy⟩ := Option.bind_eq_some_iff.mp ((ParentLinks.walk_succ n x).symm.trans hn)
    exact ih (h x z hz) hzy

theorem Owned.not_taken (h : Owned ops s) (ho : o ∈ ops) {c f n}
    (hop : o.operation = .splitClip c f n) (hl : s.Links c f n) : n ∉ s.clips ∧ c ∈ s.clips := by
  rcases hl with ⟨hcn, hl | ⟨d, k, hd, hk, hlt⟩⟩
  · exact hl
  · have := (h o ho hop hcn d hd).1
    rw [hk, Option.some.injEq] at this
    exact absurd hlt (this ▸ lt_irrefl _)

theorem Owned.keepsForest (h : Owned ops s) (ho : o ∈ ops) (hr : s.Rooted) : s.KeepsForest o := by
  intro c f n hop hl hd
  obtain ⟨hn, hc⟩ := h.not_taken ho hop hl
  exact hn (hr.mem_of_descends hc hd)

theorem Owned.rooted_exec (h : Owned ops s) (ho : o ∈ ops) (hr : s.Rooted) :
    (s.exec o).Rooted := by
  have hmem : ∀ {x}, x ∈ s.clips → x ∈ (s.exec o).clips := fun {x} => HasTarget.exec (r := .clip x)
  intro x y hxy
  by_cases hsplit : ∃ c f n, o.operation = .splitClip c f n
  · obtain ⟨c, f, n, hop⟩ := hsplit
    rcases parentOf_exec_split (s := s) hop with ⟨-, he⟩ | ⟨hl, hn, he⟩
    · exact hmem (hr x y (he ▸ hxy))
    · by_cases hx : x = n
      · rw [hx, hn, Option.some.injEq] at hxy
        exact hxy ▸ hmem (h.not_taken ho hop hl).2
      · exact hmem (hr x y (he x hx ▸ hxy))
  · rw [parentOf_exec_of_not_split] at hxy
    · exact hmem (hr x y hxy)
    · intro hs
      exact hsplit (TimelineOperation.isSplit_iff.mp hs)

/-- What holds of the session throughout. -/
theorem replay_inv_of_oneOwner (H : OneOwner ops) {l : List TaggedOperation}
    (hl : ∀ o ∈ l, o ∈ ops) :
    Owned ops (new.replay l) ∧ (new.replay l).Rooted ∧ (new.replay l).Forest := by
  refine Machine.run_inv (M := machine)
    (I := fun s : Session => Owned ops s ∧ s.Rooted ∧ s.Forest) (fun s o ho h => ?_)
    ⟨owned_new, fun x y h => ?_, forest_new⟩
  · exact ⟨h.1.exec H (hl o ho), h.1.rooted_exec (hl o ho) h.2.1,
      (forest_exec_iff h.2.2).mpr (h.1.keepsForest (hl o ho) h.2.1)⟩
  · simp [parentOf, new] at h

end Session

namespace OpSet

open TimelineCrdt Session

variable {D : OpSet} {l m : List TaggedOperation}

/-- Two deliveries of operations whose children have one owner each end alike. -/
theorem Delivers.session_eq (H : OneOwner D.ops) (T : TagsDistinct D.ops)
    (hl : D.Delivers l) (hm : D.Delivers m)
    (p q : PeerId) : (replica p l).session = (replica q m).session ∧
      (replica p l).pending.Perm (replica q m).pending := by
  obtain ⟨a, ta, ha, hpa⟩ := hl.trace p
  obtain ⟨b, tb, hb, hpb⟩ := hm.trace q
  have := Session.replay_eq_of_oneOwner H T D.nodup ha hb (ta.perm.trans hpa) (tb.perm.trans hpb)
    (fun o ho => ta.session_eq ▸ ta.missing o ho) (fun o ho => tb.session_eq ▸ tb.missing o ho)
  exact ⟨by rw [ta.session_eq, tb.session_eq, this.1], this.2.2⟩

theorem Delivers.view (H : OneOwner D.ops) (hl : D.Delivers l) (p : PeerId) :
    ∃ v, (replica p l).view = some v := by
  obtain ⟨a, ta, ha, -⟩ := hl.trace p
  have := (Session.replay_inv_of_oneOwner H ha).2.2
  exact (ta.session_eq ▸ this : (replica p l).session.Forest).materialize

/-- Deliveries of operations with fresh ids converge: to one session, one view and one set of
buffered operations. -/
theorem FreshIds.converge (H : D.FreshIds) (hl : D.Delivers l) (hm : D.Delivers m)
    (p q : PeerId) :
    (replica p l).session = (replica q m).session ∧
      (∃ v, (replica p l).view = some v ∧ (replica q m).view = some v) ∧
      ∀ o, o ∈ (replica p l).pending ↔ o ∈ (replica q m).pending := by
  obtain ⟨hs, hp⟩ := hl.session_eq H.oneOwner H.stamped.tagsDistinct hm p q
  obtain ⟨v, hv⟩ := hl.view H.oneOwner p
  refine ⟨hs, ⟨v, hv, ?_⟩, fun o => hp.mem_iff⟩
  rw [TimelineCrdt.view, ← hs]
  exact hv

/-- A track, a clip on it, and a split of the clip. -/
def sample : OpSet where
  ops := [.of 1 1 (.insertTrack ⟨1⟩ (.new "t") 0),
    .of 2 1 (.insertClip ⟨1⟩ ⟨1⟩ (.new "c" 0 100) 0), .of 3 1 (.splitClip ⟨1⟩ 40 ⟨2⟩)]
  distinct := by decide

theorem sample_freshIds : sample.FreshIds where
  stamped := by simp [Stamped, sample, TaggedOperation.of]
  split_once := by
    intro o ho o' ho' c f n c' f' h h'
    simp only [sample, List.mem_cons, List.not_mem_nil, or_false] at ho ho'
    rcases ho with rfl | rfl | rfl <;> rcases ho' with rfl | rfl | rfl <;>
      simp_all [TaggedOperation.of]
  not_inserted := by
    rintro c f n r d p ⟨o, ho, h⟩ ⟨o', ho', h'⟩
    simp only [sample, List.mem_cons, List.not_mem_nil, or_false] at ho ho'
    rcases ho with rfl | rfl | rfl <;> rcases ho' with rfl | rfl | rfl <;>
      simp only [TaggedOperation.of, reduceCtorEq] at h h'
    cases h
    simp at h'

theorem sample_delivers : sample.Delivers sample.ops.reverse := fun _ => List.mem_reverse

/-- The sample delivered forwards, backwards or twice. -/
theorem sample_converge :
    (replica ⟨7⟩ (sample.ops ++ sample.ops)).session = (replica ⟨8⟩ sample.ops.reverse).session ∧
      (∃ v, (replica ⟨7⟩ (sample.ops ++ sample.ops)).view = some v ∧
        (replica ⟨8⟩ sample.ops.reverse).view = some v) ∧
      ∀ o, o ∈ (replica ⟨7⟩ (sample.ops ++ sample.ops)).pending ↔
        o ∈ (replica ⟨8⟩ sample.ops.reverse).pending :=
  sample_freshIds.converge (fun o => by simp) sample_delivers ⟨7⟩ ⟨8⟩

end OpSet

end AvSync
