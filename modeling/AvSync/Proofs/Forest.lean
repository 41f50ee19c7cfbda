import AvSync.Ancestry
import AvSync.Proofs.Settled

/-!
# The walks up the parent links

A walk of the resolution runs out of steps exactly when the parent links lead on that far
(`inheritLoop_eq_none`), so `materialize` returns exactly when the links form a forest
(`materialize_returns_iff`), and then more steps change nothing. An operation keeps a forest
exactly when it does not link a clip below its own descendant (`forest_exec_iff`).
-/

namespace AvSync

namespace Session

variable {s : Session} {o : TaggedOperation}

open ParentLinks

theorem parentOf_eq_some {x y : ClipId} : s.parentOf x = some y ↔
    ∃ c link, s.clips[x]? = some c ∧ c.parent = some link ∧ link.clip = y := by
  simp only [parentOf, Option.map_eq_some_iff, Option.bind_eq_some_iff]
  constructor
  · rintro ⟨link, ⟨c, hc, hl⟩, rfl⟩
    exact ⟨c, link, hc, hl, rfl⟩
  · rintro ⟨c, link, hc, hl, rfl⟩
    exact ⟨link, ⟨c, hc, hl⟩, rfl⟩

theorem mem_of_parentOf {x y : ClipId} (h : s.parentOf x = some y) : x ∈ s.clips := by
  obtain ⟨c, -, hc, -, -⟩ := parentOf_eq_some.mp h
  exact BTreeMap.mem_iff.mpr ⟨c, hc⟩

theorem mem_of_walk {n : ℕ} {x y : ClipId} (h : walk s.parentOf n x = some y) (hy : y ∈ s.clips) :
    x ∈ s.clips := by
  rcases n with _ | n
  · exact Option.some.inj h ▸ hy
  · rw [walk_succ, Option.bind_eq_some_iff] at h
    obtain ⟨z, hz, -⟩ := h
    exact mem_of_parentOf hz

/-! ## The two walks -/

/-- The chain loop runs out of steps exactly when the chain leads to a clip that many links up. -/
theorem inheritLoop_eq_none :
    ∀ {n : ℕ} {x : ClipId} {c : ClipCrdt} {acc : Inherited}, s.clips[x]? = some c →
      (s.inheritLoop n c acc = none ↔ ∃ y ∈ s.clips, walk s.parentOf n x = some y)
  | 0, x, c, acc, hx => by
    simp only [inheritLoop, walk_zero, Option.some.injEq, true_iff]
    exact ⟨x, BTreeMap.mem_iff.mpr ⟨c, hx⟩, rfl⟩
  | n + 1, x, c, acc, hx => by
    simp only [inheritLoop, walk_succ]
    rcases hl : c.parent with _ | link
    · have : s.parentOf x = none := by simp [parentOf, hx, hl]
      simp [this]
    · have hpx : s.parentOf x = some link.clip := parentOf_eq_some.mpr ⟨c, link, hx, hl, rfl⟩
      simp only [hpx, Option.bind_some]
      rcases hp : s.clips[link.clip]? with _ | p
      · simp only [reduceCtorEq, false_iff]
        rintro ⟨y, hy, hw⟩
        exact absurd (mem_of_walk hw hy) (BTreeMap.not_mem_iff.mpr hp)
      · exact inheritLoop_eq_none hp

theorem inheritLoop_mono :
    ∀ {n m : ℕ} {c : ClipCrdt} {acc a : Inherited}, n ≤ m → s.inheritLoop n c acc = some a →
      s.inheritLoop m c acc = some a
  | 0, _, _, _, _, _, h => by simp [inheritLoop] at h
  | n + 1, 0, _, _, _, hnm, _ => absurd hnm (Nat.not_succ_le_zero n)
  | n + 1, m + 1, c, acc, a, hnm, h => by
    simp only [inheritLoop] at h ⊢
    rcases hl : c.parent with _ | link <;> simp only [hl] at h ⊢
    · exact h
    · rcases hp : s.clips[link.clip]? with _ | p
      · simpa only [hp] using h
      · simp only [hp] at h ⊢
        exact inheritLoop_mono (Nat.le_of_succ_le_succ hnm) h

theorem resolveFullRange_eq_none :
    ∀ {n : ℕ} {x : ClipId} {c : ClipCrdt}, s.clips[x]? = some c → s.resolveFullRange n c = none →
      ∃ y ∈ s.clips, walk s.parentOf n x = some y
  | 0, x, c, hx, _ => ⟨x, BTreeMap.mem_iff.mpr ⟨c, hx⟩, rfl⟩
  | n + 1, x, c, hx, h => by
    simp only [resolveFullRange] at h
    rcases hl : c.parent with _ | link
    · simp only [hl] at h
      split_ifs at h
    · simp only [hl] at h
      split_ifs at h
      rcases hp : s.clips[link.clip]? with _ | p
      · simp [hp] at h
      · simp only [hp] at h
        split_ifs at h
        rw [Option.map_eq_none_iff] at h
        obtain ⟨y, hy, hw⟩ := resolveFullRange_eq_none hp h
        refine ⟨y, hy, ?_⟩
        rw [walk_succ, parentOf_eq_some.mpr ⟨c, link, hx, hl, rfl⟩, Option.bind_some, hw]

theorem resolveFullRange_mono :
    ∀ {n m : ℕ} {c : ClipCrdt} {r : Option (UInt64 × UInt64)}, n ≤ m →
      s.resolveFullRange n c = some r → s.resolveFullRange m c = some r
  | 0, _, _, _, _, h => by simp [resolveFullRange] at h
  | n + 1, 0, _, _, hnm, _ => absurd hnm (Nat.not_succ_le_zero n)
  | n + 1, m + 1, c, r, hnm, h => by
    simp only [resolveFullRange] at h ⊢
    rcases hl : c.parent with _ | link <;> simp only [hl] at h ⊢
    · exact h
    · split_ifs at h ⊢
      · exact h
      · rcases hp : s.clips[link.clip]? with _ | p
        · simpa only [hp] using h
        · simp only [hp] at h ⊢
          split_ifs at h ⊢
          · obtain ⟨v, hv, hvr⟩ := Option.map_eq_some_iff.mp h
            rw [resolveFullRange_mono (Nat.le_of_succ_le_succ hnm) hv, Option.map_some, hvr]
          · exact h

theorem resolveClipIn_mono {n m : ℕ} {x : ClipId} {r : Option ResolvedClip} (hnm : n ≤ m)
    (h : s.resolveClipIn n x = some r) : s.resolveClipIn m x = some r := by
  unfold resolveClipIn at h ⊢
  rcases hx : s.clips[x]? with _ | c <;> simp only [hx] at h ⊢
  · exact h
  · simp only [resolveGeometry, Option.bind_eq_bind, Option.bind_eq_some_iff,
      Option.map_eq_some_iff] at h ⊢
    obtain ⟨a, ha, g, ⟨g', hg', rfl⟩, hr⟩ := h
    exact ⟨a, inheritLoop_mono hnm ha, _, ⟨g', resolveFullRange_mono hnm hg', rfl⟩, hr⟩

/-! ## Returning -/

theorem Forest.lt_fuel (h : s.Forest) {n : ℕ} {x y : ClipId} (hy : y ∈ s.clips)
    (hw : walk s.parentOf n x = some y) : n < s.fuel := by
  have hS : ∀ y z, s.parentOf y = some z → y ∈ s.clips.keys.toFinset := fun y z hyz => by
    rw [List.mem_toFinset, Std.ExtTreeMap.mem_keys]
    exact mem_of_parentOf hyz
  have hlt := ParentLinks.Forest.lt_card h hS
    (List.mem_toFinset.mpr (Std.ExtTreeMap.mem_keys.mpr hy)) hw
  have hcard := List.toFinset_card_le s.clips.keys
  rw [Std.ExtTreeMap.length_keys] at hcard
  simp only [fuel]
  omega

/-- In a forest the walks have steps enough. -/
theorem Forest.no_walk (h : s.Forest) (x : ClipId) :
    ¬∃ y ∈ s.clips, walk s.parentOf s.fuel x = some y :=
  fun ⟨_, hy, hw⟩ => absurd (h.lt_fuel hy hw) (lt_irrefl _)

theorem Forest.inheritLoop (h : s.Forest) {x : ClipId} {c : ClipCrdt} (hx : s.clips[x]? = some c)
    (acc : Inherited) : ∃ a, s.inheritLoop s.fuel c acc = some a :=
  Option.ne_none_iff_exists'.mp fun hn => h.no_walk x ((inheritLoop_eq_none hx).mp hn)

theorem Forest.resolveFullRange (h : s.Forest) {x : ClipId} {c : ClipCrdt}
    (hx : s.clips[x]? = some c) : ∃ g, s.resolveFullRange s.fuel c = some g :=
  Option.ne_none_iff_exists'.mp fun hn => h.no_walk x (resolveFullRange_eq_none hx hn)

theorem Forest.resolveClip (h : s.Forest) (x : ClipId) : ∃ r, s.resolveClip x = some r := by
  unfold Session.resolveClip resolveClipIn
  rcases hx : s.clips[x]? with _ | c
  · exact ⟨none, rfl⟩
  · obtain ⟨a, ha⟩ := h.inheritLoop hx (.own c)
    obtain ⟨g, hg⟩ := h.resolveFullRange hx
    simp only [ha, resolveGeometry, hg, Option.bind_eq_bind, Option.bind_some, Option.map_some]
    exact ⟨_, rfl⟩

theorem mapM_isSome {α β : Type} {f : α → Option β} :
    ∀ {l : List α}, (∃ r, l.mapM f = some r) ↔ ∀ a ∈ l, ∃ b, f a = some b
  | [] => by simp
  | a :: l => by
    rw [List.mapM_cons, List.forall_mem_cons, ← mapM_isSome]
    simp only [Option.bind_eq_bind, Option.bind_eq_some_iff, Option.pure_def]
    constructor
    · rintro ⟨r, b, hb, t, ht, -⟩
      exact ⟨⟨b, hb⟩, ⟨t, ht⟩⟩
    · rintro ⟨⟨b, hb⟩, ⟨t, ht⟩⟩
      exact ⟨_, b, hb, t, ht, rfl⟩

theorem mapM_mono {α β : Type} {f g : α → Option β} (h : ∀ a b, f a = some b → g a = some b) :
    ∀ {l : List α} {r : List β}, l.mapM f = some r → l.mapM g = some r
  | [], _, hr => hr
  | a :: l, r, hr => by
    rw [List.mapM_cons] at hr ⊢
    simp only [Option.bind_eq_bind, Option.bind_eq_some_iff, Option.pure_def] at hr ⊢
    obtain ⟨b, hb, t, ht, hbt⟩ := hr
    exact ⟨b, h a b hb, t, mapM_mono h ht, hbt⟩

theorem Forest.materialize (h : s.Forest) : ∃ v, s.materialize = some v := by
  obtain ⟨r, hr⟩ := mapM_isSome.mpr fun x (_ : x ∈ s.clips.keys) => h.resolveClip x
  exact ⟨_, by simp only [Session.materialize, materializeIn, Option.bind_eq_bind]; exact
    Option.bind_eq_some_iff.mpr ⟨r, hr, rfl⟩⟩

theorem forest_of_returns {n : ℕ} {v : SessionView} (h : s.materializeIn n = some v) :
    s.Forest := by
  intro k x hx
  obtain ⟨r, hr, -⟩ := Option.bind_eq_some_iff.mp h
  obtain ⟨p, hp, -⟩ := Option.bind_eq_some_iff.mp ((walk_succ k x).symm.trans hx)
  have hxs := mem_of_parentOf hp
  have hcyc : ∀ m, ∃ y ∈ s.clips, walk s.parentOf m x = some y := by
    intro m
    obtain ⟨j, hj, hjm⟩ : ∃ j, walk s.parentOf j x = some x ∧ m ≤ j := by
      refine ⟨(k + 1) * m, ?_, Nat.le_mul_of_pos_left m (Nat.succ_pos k)⟩
      induction m with
      | zero => rw [Nat.mul_zero, walk_zero]
      | succ m ih => rw [Nat.mul_succ, walk_add, ih, Option.bind_some, hx]
    obtain ⟨y, hy, hyx⟩ := walk_of_le hj hjm
    exact ⟨y, mem_of_walk hyx hxs, hy⟩
  obtain ⟨c, hc⟩ := BTreeMap.mem_iff.mp hxs
  obtain ⟨rx, hrx⟩ := mapM_isSome.mp ⟨r, hr⟩ x (Std.ExtTreeMap.mem_keys.mpr hxs)
  simp only [resolveClipIn, hc, (inheritLoop_eq_none hc).mpr (hcyc n), Option.bind_eq_bind,
    Option.bind_none, reduceCtorEq] at hrx

/-- `materialize` returns exactly when the parent links form a forest. -/
theorem materialize_returns_iff : (∃ v, s.materialize = some v) ↔ s.Forest :=
  ⟨fun ⟨_, h⟩ => forest_of_returns h, Forest.materialize⟩

theorem materializeIn_mono {n m : ℕ} {v : SessionView} (hnm : n ≤ m)
    (h : s.materializeIn n = some v) : s.materializeIn m = some v := by
  obtain ⟨r, hr, hv⟩ := Option.bind_eq_some_iff.mp h
  exact Option.bind_eq_some_iff.mpr ⟨r, mapM_mono (fun _ _ => resolveClipIn_mono hnm) hr, hv⟩

/-- The bound on the steps is no restriction: if any number of steps is enough, so is it. -/
theorem materialize_of_returns {n : ℕ} {v : SessionView} (h : s.materializeIn n = some v) :
    s.materialize = some v := by
  obtain ⟨w, hw⟩ := (forest_of_returns h).materialize
  rcases le_total n s.fuel with hn | hn
  · exact materializeIn_mono hn h
  · have := materializeIn_mono hn hw
    rw [h] at this
    rw [hw, this]

/-! ## One operation -/

theorem parentOf_congr {s' : Session} {y : ClipId}
    (h : s'.clips[y]?.bind (·.parent) = s.clips[y]?.bind (·.parent)) :
    s'.parentOf y = s.parentOf y := by
  rw [parentOf, h, parentOf]

theorem parentOf_modifyClip {x : ClipId} {φ : ClipCrdt → ClipCrdt}
    (h : ∀ c, (φ c).parent = c.parent) : (s.modifyClip x φ).parentOf = s.parentOf := by
  funext y
  refine parentOf_congr ?_
  rw [clips_modifyClip]
  split_ifs
  · rcases s.clips[y]? with _ | c
    · rfl
    · exact h c
  · rfl

theorem dropSplit_parent (c : ClipCrdt) (f : UInt64) (n : ClipId) :
    (c.dropSplit f n).parent = c.parent := by
  unfold ClipCrdt.dropSplit
  split_ifs <;> rfl

theorem recordSplit_parent (c : ClipCrdt) (f : UInt64) (n : ClipId) :
    (c.recordSplit f n).parent = c.parent := by
  unfold ClipCrdt.recordSplit
  split
  · split_ifs <;> rfl
  · rfl

theorem parentOf_record (s : Session) (c : ClipId) (f : UInt64) (n : ClipId) :
    (s.modifyClip c (·.recordSplit f n)).parentOf = s.parentOf :=
  parentOf_modifyClip fun d => recordSplit_parent d f n

theorem parentOf_revive (s : Session) (n : ClipId) (t : OpTag) :
    (s.modifyClip n (·.revive t)).parentOf = s.parentOf :=
  parentOf_modifyClip fun _ => rfl

theorem parentOf_drop (s : Session) (c : ClipId) (f : UInt64) (n : ClipId) :
    (s.modifyClip c (·.dropSplit f n)).parentOf = s.parentOf :=
  parentOf_modifyClip fun d => dropSplit_parent d f n

theorem parentOf_exec_of_not_split (h : ¬o.operation.IsSplit) :
    (s.exec o).parentOf = s.parentOf := by
  funext y
  refine parentOf_congr ?_
  rw [clips_exec h]
  split_ifs
  · rcases s.clips[y]? with _ | c <;> unfold clipStep <;> split <;> rfl
  · rfl

/-- A split sets one parent link or none. -/
theorem parentOf_exec_split {c f n} (hop : o.operation = .splitClip c f n) :
    (¬s.Links c f n ∧ (s.exec o).parentOf = s.parentOf) ∨
      (s.Links c f n ∧ (s.exec o).parentOf n = some c ∧
        ∀ y, y ≠ n → s.parentOf y = (s.exec o).parentOf y) := by
  simp only [exec, hop, apply]
  have hstep := applySplit_step s c f n o.tag
  generalize s.applySplit c f n o.tag = r at hstep ⊢
  rcases hstep with e | ⟨e, hn, hk, hlt⟩ | ⟨e, hn, hc⟩ | ⟨e, hn, hc⟩ | ⟨e, hn, hk⟩ |
    ⟨e, hn, hk, hlt⟩
  · exact Or.inl ⟨fun h => h.1 e, rfl⟩
  · refine Or.inl ⟨?_, rfl⟩
    rintro ⟨-, ⟨hn', -⟩ | ⟨d, k', hd, hk', hlt'⟩⟩
    · exact hn' (BTreeMap.mem_iff.mpr ⟨_, hn⟩)
    · obtain rfl := Option.some.inj (hn.symm.trans hd)
      obtain rfl := Option.some.inj (hk.symm.trans hk')
      exact lt_asymm hlt hlt'
  · refine Or.inl ⟨?_, rfl⟩
    rintro ⟨-, ⟨-, hc'⟩ | ⟨d, k', hd, -⟩⟩
    · exact hc hc'
    · exact hn (BTreeMap.mem_iff.mpr ⟨d, hd⟩)
  · refine Or.inr ⟨⟨e, Or.inl ⟨hn, hc⟩⟩, ?_, fun y hy => ?_⟩
    · exact parentOf_eq_some.mpr ⟨_, ⟨c, f⟩, by rw [clips_setClip, if_pos rfl], rfl, rfl⟩
    · refine (congrFun (parentOf_record s c f n) y).symm.trans ?_
      refine (parentOf_congr ?_).symm
      rw [clips_setClip, if_neg hy.symm]
  · refine Or.inl ⟨?_, ?_⟩
    · rintro ⟨-, ⟨hn', -⟩ | ⟨d, k', hd, hk', hlt'⟩⟩
      · exact hn' (BTreeMap.mem_iff.mpr ⟨_, hn⟩)
      · obtain rfl := Option.some.inj (hn.symm.trans hd)
        rw [hk', Option.getD_some] at hk
        exact absurd hlt' (hk ▸ lt_irrefl _)
    · rw [parentOf_record, parentOf_revive]
  · refine Or.inr ⟨⟨e, Or.inr ⟨_, _, hn, hk, hlt⟩⟩, ?_, fun y hy => ?_⟩
    · rw [parentOf_record, parentOf_revive]
      obtain ⟨d, hd⟩ := BTreeMap.mem_iff.mp
        (mem_modifyClip.mpr (BTreeMap.mem_iff.mpr ⟨_, hn⟩))
      exact parentOf_eq_some.mpr ⟨d.link ⟨c, f⟩, ⟨c, f⟩, by
        rw [clips_modifyClip, if_pos rfl, hd, Option.map_some], rfl, rfl⟩
    · rw [parentOf_record, parentOf_revive]
      rw [← parentOf_drop s _ _ n]
      refine (parentOf_congr ?_).symm
      rw [clips_modifyClip, if_neg hy.symm]

/-- An operation keeps a forest exactly when it links no clip below its own descendant. -/
theorem forest_exec_iff (h : s.Forest) : (s.exec o).Forest ↔ s.KeepsForest o := by
  by_cases hsplit : ∃ c f n, o.operation = .splitClip c f n
  · obtain ⟨c, f, n, hop⟩ := hsplit
    have hkeep : s.KeepsForest o ↔ (s.Links c f n → ¬s.Descends c n) := by
      constructor
      · exact fun hk => hk c f n hop
      · intro hk c' f' n' hop'
        rw [hop] at hop'
        cases hop'
        exact hk
    rw [hkeep]
    rcases parentOf_exec_split (s := s) hop with ⟨hl, he⟩ | ⟨hl, hn, he⟩
    · rw [Forest, he]
      exact ⟨fun _ hl' => absurd hl' hl, fun _ => h⟩
    · exact (ParentLinks.Forest.update_iff h he hn).trans
        ⟨fun hd _ => hd, fun hd => hd hl⟩
  · have hns : ¬o.operation.IsSplit := fun hs => hsplit (TimelineOperation.isSplit_iff.mp hs)
    rw [Forest, parentOf_exec_of_not_split hns]
    exact ⟨fun _ c f n hop => absurd ⟨c, f, n, hop⟩ hsplit, fun _ => h⟩

theorem forest_new : new.Forest := by
  intro n x h
  have : (new : Session).parentOf x = none := by simp [parentOf, new]
  rw [walk_succ, this] at h
  cases h

/-- Every state of a run on the empty session is a forest whose clips resolve and whose view
materializes, exactly when no operation of the run links a clip below its own descendant. -/
theorem run_forest_iff (ops : List TaggedOperation) :
    (∀ m, m <+: ops → (new.replay m).Forest ∧ (∀ x, ∃ r, (new.replay m).resolveClip x = some r) ∧
      ∃ v, (new.replay m).materialize = some v) ↔ machine.Along KeepsForest new ops := by
  rw [← Machine.forall_prefix_iff_along (M := machine) (I := fun _ => True)
    (fun _ _ _ _ => trivial) (fun _ _ _ h => forest_exec_iff h) trivial forest_new]
  exact forall₂_congr fun m _ => ⟨And.left, fun h => ⟨h, h.resolveClip, h.materialize⟩⟩

/-- Clip 5 is split off clip 100 and clip 7 off clip 5; then clip 5 is split off clip 7, the
smaller claim. -/
def cycleOps : List TaggedOperation :=
  [.of 1 1 (.insertClip ⟨100⟩ ⟨1⟩ (.new "c" 0 1000) 0),
    .of 2 1 (.splitClip ⟨100⟩ 10 ⟨5⟩), .of 3 1 (.splitClip ⟨5⟩ 10 ⟨7⟩),
    .of 4 1 (.splitClip ⟨7⟩ 0 ⟨5⟩)]

/-- Clips 5 and 7 are then each other's parents, and no number of steps materializes the view. -/
theorem cycleOps_never_returns :
    ¬(new.replay cycleOps).Forest ∧ ∀ n, (new.replay cycleOps).materializeIn n = none := by
  have h5 : (new.replay cycleOps).parentOf ⟨5⟩ = some ⟨7⟩ := by decide +kernel
  have h7 : (new.replay cycleOps).parentOf ⟨7⟩ = some ⟨5⟩ := by decide +kernel
  have hcyc : ¬(new.replay cycleOps).Forest := by
    intro hf
    refine hf 1 ⟨5⟩ ?_
    rw [walk_succ, h5, Option.bind_some, walk_succ, h7, Option.bind_some, walk_zero]
  refine ⟨hcyc, fun n => ?_⟩
  rcases h : (new.replay cycleOps).materializeIn n with _ | v
  · rfl
  · exact absurd (forest_of_returns h) hcyc

end Session

end AvSync
