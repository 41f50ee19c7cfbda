import AvSync.Lineage
import AvSync.Proofs.View

/-!
# What a clip inherits

The parent-chain loop settles each field along the lineage of the clip (`Lineage.inheritLoop`). Its
result is the value of the nearest record that has written the field exactly when the records
above that one do not override it (`resolveClip_nearest_iff`).
-/

namespace AvSync

namespace Field

theorem get_own (φ : Field) (c : ClipCrdt) : φ.get (.own c) = φ.value c := by
  rcases φ with _ | _ | _ | _ | _ | _ | _ | _ <;> rfl

theorem get_step (φ : Field) (a : Session.Inherited) (c p : ClipCrdt) :
    φ.get (a.step c p) = if φ.Written c then φ.get a else φ.value p := by
  rcases φ with _ | _ | _ | _ | _ | _ | _ | _ <;> exact (ite_not ..).symm

theorem ext_get {a b : Session.Inherited} (h : ∀ φ : Field, φ.get a = φ.get b) : a = b := by
  rcases a with ⟨⟩
  rcases b with ⟨⟩
  simp only [Session.Inherited.mk.injEq]
  exact ⟨h .name, h .source, h .color, h .gain, h .muted, h .locked, h .orderHint, h .track⟩

end Field

namespace Session

open Inheritance ParentLinks

variable {s : Session} {x : ClipId} {c : ClipCrdt} {l m : List ClipCrdt}

/-! ## Lineages -/

theorem Lineage.head (h : s.Lineage x l) : ∃ c m, s.clips[x]? = some c ∧ l = c :: m := by
  rcases h with ⟨hx, -⟩ | ⟨hx, -, -⟩ <;> exact ⟨_, _, hx, rfl⟩

theorem Lineage.clips (h : s.Lineage x (c :: l)) : s.clips[x]? = some c := by
  rcases h with ⟨hx, -⟩ | ⟨hx, -, -⟩ <;> exact hx

theorem Lineage.mem (h : s.Lineage x l) : x ∈ s.clips := by
  obtain ⟨c, -, hx, -⟩ := h.head
  exact BTreeMap.mem_iff.mpr ⟨c, hx⟩

theorem Lineage.unique (h : s.Lineage x l) (h' : s.Lineage x m) : l = m := by
  induction h generalizing m with
  | top hx htop =>
    rcases h' with ⟨hx', -⟩ | ⟨hx', hlink, hm⟩
    · rw [Option.some.inj (hx.symm.trans hx')]
    · obtain rfl := Option.some.inj (hx.symm.trans hx')
      exact absurd hm.mem (htop _ hlink)
  | child hx hlink _ ih =>
    rcases h' with ⟨hx', htop⟩ | ⟨hx', hlink', hm⟩
    · obtain rfl := Option.some.inj (hx.symm.trans hx')
      rename_i hl
      exact absurd hl.mem (htop _ hlink)
    · obtain rfl := Option.some.inj (hx.symm.trans hx')
      obtain rfl := Option.some.inj (hlink.symm.trans hlink')
      rw [ih hm]

/-- A walk that leaves the clips within `n` steps passes a lineage. -/
theorem exists_lineage : ∀ {n : ℕ} {x : ClipId}, x ∈ s.clips →
    (¬∃ y ∈ s.clips, walk s.parentOf n x = some y) → ∃ l, s.Lineage x l ∧ l.length ≤ n
  | 0, x, hx, h => absurd ⟨x, hx, rfl⟩ h
  | n + 1, x, hx, h => by
    obtain ⟨c, hc⟩ := BTreeMap.mem_iff.mp hx
    by_cases htop : ∀ link, c.parent = some link → link.clip ∉ s.clips
    · exact ⟨[c], .top hc htop, by simp⟩
    · push Not at htop
      obtain ⟨link, hlink, hp⟩ := htop
      have hpar : s.parentOf x = some link.clip := parentOf_eq_some.mpr ⟨c, link, hc, hlink, rfl⟩
      obtain ⟨l, hl, hlen⟩ := exists_lineage hp (n := n) fun hw => by
        obtain ⟨y, hy, hw⟩ := hw
        exact h ⟨y, hy, by rw [walk_succ, hpar, Option.bind_some, hw]⟩
      exact ⟨c :: l, .child hc hlink hl, Nat.succ_le_succ hlen⟩

theorem Forest.lineage (h : s.Forest) (hx : x ∈ s.clips) : ∃ l, s.Lineage x l := by
  obtain ⟨l, hl, -⟩ := exists_lineage hx (h.no_walk x)
  exact ⟨l, hl⟩

theorem lineage_of_resolveClip {r : ResolvedClip} (h : s.resolveClip x = some (some r)) :
    ∃ l, s.Lineage x l := by
  obtain ⟨c, a, -, hc, ha, -⟩ := resolveClip_eq_some.mp h
  have hw : ¬∃ y ∈ s.clips, walk s.parentOf s.fuel x = some y := by
    have hloop : s.inheritLoop s.fuel c (.own c) ≠ none := ha ▸ Option.some_ne_none a
    rwa [Ne, inheritLoop_eq_none hc] at hloop
  obtain ⟨l, hl, -⟩ := exists_lineage (BTreeMap.mem_iff.mpr ⟨c, hc⟩) hw
  exact ⟨l, hl⟩

theorem Lineage.walk (h : s.Lineage x l) : ∀ {k : ℕ}, k < l.length →
    ∃ y, walk s.parentOf k x = some y ∧ s.Lineage y (l.drop k) := by
  induction h with
  | @top x c hx htop =>
    intro k hk
    obtain rfl : k = 0 := by simpa using hk
    exact ⟨x, rfl, .top hx htop⟩
  | @child x c link l hx hl hp ih =>
    rintro (_ | k) hk
    · exact ⟨x, rfl, .child hx hl hp⟩
    · obtain ⟨y, hy, hyl⟩ := ih (Nat.lt_of_succ_lt_succ hk)
      refine ⟨y, ?_, hyl⟩
      rw [walk_succ, parentOf_eq_some.mpr ⟨c, link, hx, hl, rfl⟩, Option.bind_some, hy]

/-- The part of a lineage above a clip on it. -/
theorem Lineage.of_walk (h : s.Lineage x l) : ∀ {k : ℕ} {y : ClipId},
    ParentLinks.walk s.parentOf k x = some y → y ∈ s.clips →
      k < l.length ∧ s.Lineage y (l.drop k) := by
  induction h with
  | @top x c hx htop =>
    rintro (_ | k) y hw hy
    · obtain rfl := Option.some.inj hw
      exact ⟨Nat.one_pos, .top hx htop⟩
    · rw [walk_succ, Option.bind_eq_some_iff] at hw
      obtain ⟨p, hp, hw⟩ := hw
      obtain ⟨c', link, hx', hl, rfl⟩ := parentOf_eq_some.mp hp
      obtain rfl := Option.some.inj (hx.symm.trans hx')
      exact absurd (mem_of_walk hw hy) (htop link hl)
  | @child x c link l hx hl hp ih =>
    rintro (_ | k) y hw hy
    · obtain rfl := Option.some.inj hw
      exact ⟨Nat.succ_pos _, .child hx hl hp⟩
    · rw [walk_succ, parentOf_eq_some.mpr ⟨c, link, hx, hl, rfl⟩, Option.bind_some] at hw
      obtain ⟨hk, hy⟩ := ih hw hy
      exact ⟨Nat.succ_lt_succ hk, hy⟩

/-- A clip with a lineage is not above its own parent. -/
theorem Lineage.not_descends {link : ClipParent} (h : s.Lineage x (c :: l))
    (hl : c.parent = some link) : ¬s.Descends link.clip x := by
  rintro ⟨k, hk⟩
  have hw : ParentLinks.walk s.parentOf (k + 1) x = some x := by
    rw [walk_succ, parentOf_eq_some.mpr ⟨c, link, h.clips, hl, rfl⟩, Option.bind_some, hk]
  obtain ⟨hlt, hx⟩ := h.of_walk hw h.mem
  have hlen := congrArg List.length (h.unique hx)
  rw [List.length_drop] at hlen
  omega

theorem forest_of_lineage (h : ∀ x ∈ s.clips, ∃ l, s.Lineage x l) : s.Forest := by
  intro k x hw
  rw [walk_succ, Option.bind_eq_some_iff] at hw
  obtain ⟨y, hy, hyx⟩ := hw
  obtain ⟨c, link, hc, hl, rfl⟩ := parentOf_eq_some.mp hy
  obtain ⟨l, hlin⟩ := h x (BTreeMap.mem_iff.mpr ⟨c, hc⟩)
  obtain ⟨d, m, hd, rfl⟩ := hlin.head
  obtain rfl := Option.some.inj (hc.symm.trans hd)
  exact hlin.not_descends hl ⟨k, hyx⟩

/-- Above a clip, a session with the same records has the same lineage. -/
theorem Lineage.transfer {s' : Session} (h : s.Lineage x l)
    (hsame : ∀ y, s.Descends x y → s'.clips[y]? = s.clips[y]?) : s'.Lineage x l := by
  have hstep : ∀ {x c link}, s.clips[x]? = some c → c.parent = some link →
      ∀ {y}, s.Descends link.clip y → s.Descends x y := by
    rintro x c link hx hl y ⟨k, hk⟩
    exact ⟨k + 1, by
      rw [walk_succ, parentOf_eq_some.mpr ⟨c, link, hx, hl, rfl⟩, Option.bind_some, hk]⟩
  induction h with
  | @top x c hx htop =>
    refine .top (by rw [hsame x ⟨0, rfl⟩, hx]) fun link hl => ?_
    rw [BTreeMap.not_mem_iff, hsame link.clip (hstep hx hl ⟨0, rfl⟩), ← BTreeMap.not_mem_iff]
    exact htop link hl
  | @child x c link l hx hl hp ih =>
    exact .child (by rw [hsame x ⟨0, rfl⟩, hx]) hl (ih fun y hy => hsame y (hstep hx hl hy))

/-- No clip comes twice in a lineage, so the walk along it does not run out of steps. -/
theorem Lineage.length_le (h : s.Lineage x l) : l.length ≤ s.fuel := by
  have hex : ∀ k : Fin l.length, ∃ y ∈ s.clips.keys.toFinset, s.Lineage y (l.drop k) := by
    intro k
    obtain ⟨y, -, hy⟩ := h.walk k.2
    exact ⟨y, by rw [List.mem_toFinset, Std.ExtTreeMap.mem_keys]; exact hy.mem, hy⟩
  choose f hf hlin using hex
  have hinj : Function.Injective f := by
    intro i j hij
    have hlen := congrArg List.length ((hij ▸ hlin i).unique (hlin j))
    simp only [List.length_drop] at hlen
    exact Fin.ext (by omega)
  have hcard := Finset.card_le_card_of_injOn (s := Finset.univ) (t := s.clips.keys.toFinset) f
    (fun k _ => hf k) hinj.injOn
  rw [Finset.card_univ, Fintype.card_fin] at hcard
  have hkeys := List.toFinset_card_le s.clips.keys
  rw [Std.ExtTreeMap.length_keys] at hkeys
  unfold fuel
  omega

/-! ## The loop -/

/-- The loop settles every field along the lineage. -/
theorem Lineage.inheritLoop (h : s.Lineage x (c :: l)) :
    ∀ {n : ℕ} (acc : Inherited), (c :: l).length ≤ n → ∃ a, s.inheritLoop n c acc = some a ∧
      ∀ φ : Field, φ.get a = settle φ.Written φ.value (c :: l) (φ.get acc) := by
  generalize hm : c :: l = m at h
  induction h generalizing c l with
  | top hx htop =>
    rintro (_ | n) acc hn
    · cases hn
    · obtain ⟨rfl, rfl⟩ := List.cons.inj hm
      refine ⟨acc, ?_, fun φ => rfl⟩
      rcases hlink : c.parent with _ | link
      · simp only [Session.inheritLoop, hlink]
      · simp only [Session.inheritLoop, hlink, BTreeMap.not_mem_iff.mp (htop link hlink)]
  | @child x d link m hx hlink hl ih =>
    rintro (_ | n) acc hn
    · cases hn
    · obtain ⟨rfl, rfl⟩ := List.cons.inj hm
      obtain ⟨p, k, hp, rfl⟩ := hl.head
      obtain ⟨a, ha, hget⟩ := ih rfl (acc.step c p) (Nat.le_of_succ_le_succ hn)
      refine ⟨a, ?_, fun φ => ?_⟩
      · simp only [Session.inheritLoop, hlink, hp, ha]
      · rw [hget, settle, φ.get_step]

theorem Lineage.values (h : s.Lineage x (c :: l)) {a : Inherited}
    (ha : s.inheritLoop s.fuel c (.own c) = some a) (φ : Field) :
    settled φ.Written φ.value (c :: l) = some (φ.get a) := by
  obtain ⟨b, hb, hget⟩ := h.inheritLoop (.own c) h.length_le
  obtain rfl := Option.some.inj (ha.symm.trans hb)
  rw [hget, φ.get_own, settled, List.head?_cons, Option.map_some]

/-- The recursion for the range of a clip with a lineage returns. -/
theorem Lineage.resolveFullRange (h : s.Lineage x (c :: l)) {n : ℕ} (hn : (c :: l).length ≤ n) :
    ∃ g, s.resolveFullRange n c = some g := by
  refine Option.ne_none_iff_exists'.mp fun hnone => ?_
  obtain ⟨y, hy, hw⟩ := resolveFullRange_eq_none h.clips hnone
  obtain ⟨a, ha, -⟩ := h.inheritLoop (.own c) hn
  rw [(inheritLoop_eq_none h.clips).mpr ⟨y, hy, hw⟩] at ha
  cases ha

theorem Lineage.resolveClip_some (h : s.Lineage x l) :
    ∃ r, s.resolveClip x = some (some r) := by
  obtain ⟨c, m, hc, rfl⟩ := h.head
  obtain ⟨a, ha, -⟩ := h.inheritLoop (.own c) h.length_le
  obtain ⟨g, hg⟩ := h.resolveFullRange h.length_le
  have hgeo := congrArg (Option.map fun range : Option (UInt64 × UInt64) =>
    range.map fun r =>
      let full := saturatingSub r.2 r.1
      (r.1, min (c.firstSplitOffset.getD full) full)) hg
  exact ⟨_, resolveClip_eq_some.mpr ⟨c, a, _, hc, ha, hgeo, rfl⟩⟩

/-- A field of a resolved clip is the value of the nearest record that has written it exactly when
the records above that one do not override it. -/
theorem resolveClip_nearest_iff (ops : List TaggedOperation) (hf : (new.replay ops).Forest)
    (hx : x ∈ (new.replay ops).clips) :
    ∃ r l, (new.replay ops).resolveClip x = some (some r) ∧ (new.replay ops).Lineage x l ∧
      ∀ (φ : Field) (below above : List ClipCrdt) (d : ClipCrdt), l = below ++ d :: above →
        (∀ e ∈ below, ¬φ.Written e) → φ.Written d →
          (φ.get r.values = φ.value d ↔ ¬φ.Overrides above (φ.value d)) := by
  obtain ⟨l, hl⟩ := hf.lineage hx
  obtain ⟨r, hr⟩ := hl.resolveClip_some
  refine ⟨r, l, hr, hl, fun φ below above d hlist hbelow hd => ?_⟩
  obtain ⟨c, a, g, hc, ha, -, rfl⟩ := resolveClip_eq_some.mp hr
  obtain ⟨c', m, hc', rfl⟩ := hl.head
  obtain rfl := Option.some.inj (hc.symm.trans hc')
  have hset := hl.values ha φ
  rw [hlist] at hset
  rw [← settled_eq_nearest_iff hd hbelow, hset, Option.some.injEq]
  rfl

/-- A clip is split, the right piece is split again, and the last piece is renamed. -/
def renamedOps : List TaggedOperation :=
  [.of 1 1 (.insertTrack ⟨1⟩ (.new "t") 0), .of 2 1 (.insertClip ⟨1⟩ ⟨1⟩ (.new "c" 0 1000) 0),
    .of 3 1 (.splitClip ⟨1⟩ 400 ⟨2⟩), .of 4 1 (.splitClip ⟨2⟩ 300 ⟨3⟩),
    .of 5 1 (.updateClipMetadata ⟨3⟩ { name := some "last" })]

theorem renamedOps_forest : (new.replay renamedOps).Forest := by
  have h : (new.replay renamedOps).materialize.isSome = true := by decide +kernel
  exact materialize_returns_iff.mp (Option.isSome_iff_exists.mp h)

theorem renamedOps_nearest : ∃ r l, (new.replay renamedOps).resolveClip ⟨2⟩ = some (some r) ∧
    (new.replay renamedOps).Lineage ⟨2⟩ l ∧
      ∀ (φ : Field) (below above : List ClipCrdt) (d : ClipCrdt), l = below ++ d :: above →
        (∀ e ∈ below, ¬φ.Written e) → φ.Written d →
          (φ.get r.values = φ.value d ↔ ¬φ.Overrides above (φ.value d)) :=
  resolveClip_nearest_iff renamedOps renamedOps_forest (by decide +kernel)

/-- The last piece still shows the name of the clip it comes from. -/
theorem renamedOps_not_nearest : (new.replay renamedOps).Forest ∧ ∃ r l,
    (new.replay renamedOps).resolveClip ⟨3⟩ = some (some r) ∧
      (new.replay renamedOps).Lineage ⟨3⟩ l ∧
        ∃ d above, l = d :: above ∧ Field.name.Written d ∧ Field.name.get r.values = "c" ∧
          Field.name.value d = "last" := by
  refine ⟨renamedOps_forest, ?_⟩
  obtain ⟨l, hl⟩ := renamedOps_forest.lineage (x := ⟨3⟩) (by decide +kernel)
  obtain ⟨d, above, hd, rfl⟩ := hl.head
  have hname : (new.replay renamedOps).clips[(⟨3⟩ : ClipId)]?.map (fun c =>
      (c.name.value, decide (c.name.tag = .initial))) = some ("last", false) := by decide +kernel
  rw [hd, Option.map_some, Option.some.injEq, Prod.mk.injEq, decide_eq_false_iff_not] at hname
  have hr : ((new.replay renamedOps).resolveClip ⟨3⟩).join.map (·.values.name) = some "c" := by
    decide +kernel
  obtain ⟨r, hr, hc⟩ := Option.map_eq_some_iff.mp hr
  exact ⟨r, d :: above, Option.join_eq_some_iff.mp hr, hl, d, above, rfl, hname.2, hc, hname.1⟩

end Session

end AvSync
