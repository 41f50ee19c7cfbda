import AvSync.Proofs.Convergence
import AvSync.Proofs.Ranges
import AvSync.Lib.Tiling

/-!
# Split pieces tile the clip

Along the attempts of a delivery the split points of a clip name exactly the pieces linked to them
(`Grown`). The ranges then form a tiling along the tree of pieces (`Grown.tiling`), so the visible
clips tile the frames the clip was inserted with (`OpSet.SplitsOf.tiles`).
-/

namespace AvSync

theorem OpSet.SplitsOf.oneOwner {D : OpSet} {x : ClipId} {t : TrackId} {d : ClipData}
    (H : D.SplitsOf x t d) : OneOwner D.ops where
  claim_eq o ho o' ho' := by
    intro c f n c' f' h1 h2
    obtain rfl := H.child_once o ho o' ho' h1 h2
    rw [h1] at h2
    cases h2
    exact ⟨rfl, rfl⟩
  not_inserted o ho o' ho' := by
    intro c f n r e p h1 h2
    have hn := H.child_fresh ⟨o, ho, h1⟩
    rcases H.kinds o' ho' with ⟨r', p', h⟩ | ⟨p', h⟩ | ⟨c', f', n', h⟩ <;> rw [h] at h2 <;>
      cases h2
    exact hn rfl

namespace Session

open ParentLinks

variable {s : Session} {D : OpSet} {x y : ClipId} {t : TrackId} {d : ClipData}
  {o : TaggedOperation}

/-- The parent link of a clip. -/
def linkOf (s : Session) (y : ClipId) : Option ClipParent := s.clips[y]?.bind (·.parent)

/-- The record of the inserted clip. -/
structure RootRecord (t : TrackId) (d : ClipData) (c : ClipCrdt) : Prop where
  parent : c.parent = none
  alive : c.alive.value = true
  track : c.track.value = t
  startFrame : c.startFrame.value = d.startFrame ∧ c.startFrame.tag ≠ .initial
  durationFrames : c.durationFrames.value = d.durationFrames ∧ c.durationFrames.tag ≠ .initial

/-- The record of a piece: its link is that of a split, and it inherits its track and range. -/
structure PieceRecord (D : OpSet) (y : ClipId) (c : ClipCrdt) : Prop where
  parent : ∃ k : ClipParent, c.parent = some k ∧ D.Has (.splitClip k.clip k.offset y)
  alive : c.alive.value = true
  track : c.track.tag = .initial
  detached : c.detached = false

/-- What holds of the session throughout a delivery. -/
structure Grown (D : OpSet) (x : ClipId) (t : TrackId) (d : ClipData) (s : Session) : Prop where
  rooted : s.Rooted
  root : ∀ c, s.clips[x]? = some c → RootRecord t d c
  piece : ∀ y c, y ≠ x → s.clips[y]? = some c → PieceRecord D y c
  points : ∀ y c f n, s.clips[y]? = some c → (c.splits[f]? = some n ↔ s.linkOf n = some ⟨y, f⟩)
  track : ∀ r, s.tracks[t]? = some r → r.alive.value = true

theorem set_value {α : Type} (r : LwwReg α) (v : α) (u : OpTag) (h : r.value = v) :
    (r.set v u).value = v := by
  unfold LwwReg.set
  split_ifs
  · rfl
  · exact h

theorem set_tag_ne {α : Type} (r : LwwReg α) (v : α) {u : OpTag} (h : r.tag ≠ .initial) :
    (r.set v u).tag ≠ .initial := by
  rw [LwwReg.tag_set]
  intro he
  exact h (le_antisymm (he ▸ le_max_left _ _) (OpTag.initial_le _))

theorem tag_ne_initial (h : 1 ≤ o.lamportTs) : o.tag ≠ .initial := by
  intro he
  have : o.lamportTs = 0 := congrArg OpTag.lamport he
  rw [this] at h
  exact absurd h (by decide)

/-- Inserting the clip again changes nothing that matters here. -/
theorem RootRecord.write {c : ClipCrdt} (h : RootRecord t d c) (p : UInt64) (u : OpTag) :
    RootRecord t d (c.write (TimelineOperation.clipWrite (.insertClip x t d p)) u) where
  parent := h.parent
  alive := set_value _ _ _ h.alive
  track := set_value _ _ _ h.track
  startFrame := ⟨set_value _ _ _ h.startFrame.1, set_tag_ne _ _ h.startFrame.2⟩
  durationFrames := ⟨set_value _ _ _ h.durationFrames.1, set_tag_ne _ _ h.durationFrames.2⟩

theorem RootRecord.fromInsert {u : OpTag} (hu : u ≠ .initial) (p : UInt64) :
    RootRecord t d (.fromInsert t d p u) :=
  ⟨rfl, rfl, rfl, ⟨rfl, hu⟩, rfl, hu⟩

theorem RootRecord.recordSplit {c : ClipCrdt} (h : RootRecord t d c) (f : UInt64) (n : ClipId) :
    RootRecord t d (c.recordSplit f n) := by
  rw [ClipCrdt.recordSplit_eq]
  exact ⟨h.parent, h.alive, h.track, h.startFrame, h.durationFrames⟩

theorem PieceRecord.recordSplit {c : ClipCrdt} (h : PieceRecord D y c) (f : UInt64) (n : ClipId) :
    PieceRecord D y (c.recordSplit f n) := by
  rw [ClipCrdt.recordSplit_eq]
  exact ⟨h.parent, h.alive, h.track, h.detached⟩

theorem PieceRecord.revive {c : ClipCrdt} (h : PieceRecord D y c) (u : OpTag) :
    PieceRecord D y (c.revive u) :=
  ⟨h.parent, set_value _ _ _ h.alive, h.track, h.detached⟩

theorem linkOf_recordSplit (c : ClipCrdt) (f : UInt64) (n : ClipId) :
    (c.recordSplit f n).parent = c.parent := by
  rw [ClipCrdt.recordSplit_eq]

namespace Grown

theorem new : Grown D x t d .new where
  rooted y z h := by simp [parentOf, Session.new] at h
  root c h := by simp [Session.new] at h
  piece y c _ h := by simp [Session.new] at h
  points y c f n h := by simp [Session.new] at h
  track r h := by simp [Session.new] at h

/-- A link is that of a split of the set. -/
theorem has_of_link (h : Grown D x t d s) {k : ClipParent} (hk : s.linkOf y = some k) :
    D.Has (.splitClip k.clip k.offset y) := by
  obtain ⟨c, hc, hp⟩ := Option.bind_eq_some_iff.mp hk
  by_cases hy : y = x
  · subst hy
    rw [(h.root c hc).parent] at hp
    cases hp
  · obtain ⟨k', hk', hD⟩ := (h.piece y c hy hc).parent
    obtain rfl := Option.some.inj (hk'.symm.trans hp)
    exact hD

theorem mem_of_link (h : Grown D x t d s) {k : ClipParent} (hk : s.linkOf y = some k) :
    k.clip ∈ s.clips :=
  h.rooted y k.clip (by rw [parentOf, ← linkOf, hk, Option.map_some])

theorem link_eq (H : D.SplitsOf x t d) (h : Grown D x t d s) {c n : ClipId} {f : UInt64}
    (hD : D.Has (.splitClip c f n)) {k : ClipParent} (hk : s.linkOf n = some k) :
    k = ⟨c, f⟩ := by
  obtain ⟨o, ho, hop⟩ := hD
  obtain ⟨o', ho', hop'⟩ := h.has_of_link hk
  obtain rfl := H.child_once o ho o' ho' hop hop'
  rw [hop] at hop'
  cases hop'
  rfl

theorem child_eq (H : D.SplitsOf x t d) (h : Grown D x t d s) {c n m : ClipId} {f : UInt64}
    (hD : D.Has (.splitClip c f n)) (hk : s.linkOf m = some ⟨c, f⟩) : m = n := by
  obtain ⟨o, ho, hop⟩ := hD
  obtain ⟨o', ho', hop'⟩ := h.has_of_link hk
  obtain rfl := H.point_once o ho o' ho' hop hop'
  rw [hop] at hop'
  cases hop'
  rfl

theorem insertTrack (h : Grown D x t d s) (hr : (s.exec o).Rooted) {e : TrackData} {p : UInt64}
    (hop : o.operation = .insertTrack t e p) : Grown D x t d (s.exec o) := by
  have hc := clips_exec_insertTrack (s := s) hop
  have hl : ∀ n, (s.exec o).linkOf n = s.linkOf n := fun n => by rw [linkOf, hc, linkOf]
  constructor
  · exact hr
  · rw [hc]
    exact h.root
  · rw [hc]
    exact h.piece
  · intro y c f n hy
    rw [hc] at hy
    rw [hl]
    exact h.points y c f n hy
  · intro r hr
    rw [tracks_exec, hop, TimelineOperation.editedTrack, if_pos rfl, trackStep, hop] at hr
    rcases ht : s.tracks[t]? with _ | r₀
    · simp only [ht, Option.elim_none, Option.some.injEq] at hr
      exact hr ▸ rfl
    · simp only [ht, Option.elim_some, Option.some.injEq] at hr
      exact hr ▸ set_value _ _ _ (h.track r₀ ht)

theorem insertClip (h : Grown D x t d s) (hr : (s.exec o).Rooted) (hpos : 1 ≤ o.lamportTs)
    {p : UInt64} (hop : o.operation = .insertClip x t d p) : Grown D x t d (s.exec o) := by
  have hc := clips_exec_insert (s := s) hop
  have hroot : s.linkOf x = none := by
    rcases hx : s.clips[x]? with _ | c
    · rw [linkOf, hx, Option.bind_none]
    · rw [linkOf, hx, Option.bind_some, (h.root c hx).parent]
  have hl : ∀ n, (s.exec o).linkOf n = s.linkOf n := by
    intro n
    rw [linkOf, hc]
    split_ifs with hn
    · rw [← hn, hroot]
      rcases hx : s.clips[x]? with _ | c
      · rfl
      · exact (h.root c hx).parent
    · rfl
  constructor
  · exact hr
  · intro c hx
    rw [hc, if_pos rfl, Option.some.injEq] at hx
    subst hx
    rcases hx : s.clips[x]? with _ | c
    · exact .fromInsert (tag_ne_initial hpos) p
    · rw [Option.elim_some, hop]
      exact (h.root c hx).write p o.tag
  · intro y c hy hyc
    rw [hc, if_neg hy.symm] at hyc
    exact h.piece y c hy hyc
  · intro y c f n hy
    rw [hl]
    rw [hc] at hy
    split_ifs at hy with hxy
    · subst hxy
      rw [Option.some.injEq] at hy
      subst hy
      rcases hx : s.clips[x]? with _ | c
      · -- no piece of a clip that was not there
        have hno : s.linkOf n ≠ some ⟨x, f⟩ := fun hk =>
          BTreeMap.not_mem_iff.mpr hx (h.mem_of_link hk)
        simp [ClipCrdt.fromInsert, hno]
      · exact h.points x c f n hx
    · exact h.points y c f n hy
  · intro r hr
    simp only [tracks_exec, hop, TimelineOperation.editedTrack, reduceCtorEq, if_false] at hr
    exact h.track r hr

theorem linkOf_split (H : D.SplitsOf x t d) (h : Grown D x t d s) {c n : ClipId} {f : UInt64}
    (hD : D.Has (.splitClip c f n)) (y : ClipId) :
    (s.splitOff c f n o.tag).linkOf y = if n = y then some ⟨c, f⟩ else s.linkOf y := by
  rw [linkOf, clips_splitOff]
  split_ifs with hn hc
  · subst hn
    rcases hy : s.clips[n]? with _ | e
    · rfl
    · obtain ⟨k, hk, -⟩ := (h.piece n e (H.child_fresh hD) hy).parent
      have hlink : s.linkOf n = some k := by rw [linkOf, hy, Option.bind_some, hk]
      rw [← h.link_eq H hD hlink]
      exact hk
  · rcases hy : s.clips[y]? with _ | e
    · rw [linkOf, hy]
      rfl
    · rw [linkOf, hy]
      exact linkOf_recordSplit e f n
  · rfl

theorem points_split (H : D.SplitsOf x t d) (h : Grown D x t d s) {c n : ClipId} {f : UInt64}
    (hD : D.Has (.splitClip c f n)) (hcn : c ≠ n) {y m : ClipId} {e : ClipCrdt} {g : UInt64}
    (hy : (s.splitOff c f n o.tag).clips[y]? = some e) :
    e.splits[g]? = some m ↔ (s.splitOff c f n o.tag).linkOf m = some ⟨y, g⟩ := by
  have hother : y ≠ c ∨ g ≠ f → (s.linkOf m = some ⟨y, g⟩ ↔
      (s.splitOff c f n o.tag).linkOf m = some ⟨y, g⟩) := by
    intro hne
    rw [h.linkOf_split H hD]
    split_ifs with hm
    · have hno : ∀ k : ClipParent, k = ⟨c, f⟩ → k ≠ ⟨y, g⟩ := by
        rintro _ rfl he
        cases he
        exact hne.elim (· rfl) (· rfl)
      constructor
      · exact fun hk => absurd rfl (hno _ (h.link_eq H hD (hm ▸ hk)))
      · exact fun hk => absurd (Option.some.inj hk) (hno _ rfl)
    · exact Iff.rfl
  rw [clips_splitOff] at hy
  split_ifs at hy with hny hcy
  · -- the child: a new record has no points, an old one keeps its own
    subst hny
    rw [← hother (Or.inl hcn.symm)]
    rw [Option.some.injEq] at hy
    subst hy
    rcases hn : s.clips[n]? with _ | e
    · have hno : s.linkOf m ≠ some ⟨n, g⟩ := fun hk =>
        BTreeMap.not_mem_iff.mpr hn (h.mem_of_link hk)
      simp [childRecord, ClipCrdt.link, ClipCrdt.fromSplit, hno]
    · exact h.points n e g m hn
  · subst hcy
    obtain ⟨e', he', rfl⟩ := Option.map_eq_some_iff.mp hy
    rw [ClipCrdt.splits_recordSplit]
    split_ifs with hfg
    · subst hfg
      have hpoint : (e'.splits[f]?.map (min n)).getD n = n := by
        rcases hs : e'.splits[f]? with _ | n'
        · rfl
        · rw [h.child_eq H hD ((h.points c e' f n' he').mp hs)]
          simp
      rw [hpoint, h.linkOf_split H hD]
      constructor
      · rintro ⟨rfl⟩
        exact if_pos rfl
      · intro hk
        split_ifs at hk with hm
        · rw [hm]
        · exact absurd (h.child_eq H hD hk).symm hm
    · rw [← hother (Or.inr (Ne.symm hfg))]
      exact h.points c e' g m he'
  · rw [← hother (Or.inl (Ne.symm hcy))]
    exact h.points y e g m hy

theorem split (H : D.SplitsOf x t d) (h : Grown D x t d s) (hr : (s.exec o).Rooted)
    {c n : ClipId} {f : UInt64} (hD : D.Has (.splitClip c f n)) (hcn : c ≠ n)
    (he : s.exec o = s.splitOff c f n o.tag) : Grown D x t d (s.exec o) := by
  have hx := H.child_fresh hD
  constructor
  · exact hr
  · intro e hxe
    rw [he, clips_splitOff, if_neg hx] at hxe
    split_ifs at hxe
    · obtain ⟨e', he', rfl⟩ := Option.map_eq_some_iff.mp hxe
      exact (h.root e' he').recordSplit f n
    · exact h.root e hxe
  · intro y e hy hye
    rw [he, clips_splitOff] at hye
    split_ifs at hye with hn
    · subst hn
      rw [Option.some.injEq] at hye
      subst hye
      rcases hs : s.clips[n]? with _ | e
      · exact ⟨⟨⟨c, f⟩, rfl, hD⟩, rfl, rfl, rfl⟩
      · exact (h.piece n e hy hs).revive o.tag
    · obtain ⟨e', he', rfl⟩ := Option.map_eq_some_iff.mp hye
      exact (h.piece y e' hy he').recordSplit f n
    · exact h.piece y e hy hye
  · intro y e g m hy
    rw [he] at hy ⊢
    exact h.points_split H hD hcn hy
  · intro r hr
    rw [he] at hr
    exact h.track r hr

theorem exec (H : D.SplitsOf x t d) (h : Grown D x t d s) (hown : Owned D.ops s) (ho : o ∈ D.ops) :
    Grown D x t d (s.exec o) := by
  have hr := hown.rooted_exec ho h.rooted
  rcases H.kinds o ho with ⟨r, p, hop⟩ | ⟨p, hop⟩ | ⟨c, f, n, hop⟩
  · exact h.insertTrack hr hop
  · exact h.insertClip hr (H.lamport_pos o ho) hop
  · rcases hown.split ho hop with ⟨-, -, he⟩ | ⟨-, -, -, he⟩ | ⟨hcn, -, -, he⟩
    · rwa [he]
    · rwa [he]
    · exact h.split H hr ⟨o, ho, hop⟩ hcn he

theorem replay (H : D.SplitsOf x t d) {l : List TaggedOperation} (hl : ∀ o ∈ l, o ∈ D.ops) :
    Grown D x t d (Session.new.replay l) := by
  have := Machine.run_inv (M := machine) (l := l)
    (I := fun s : Session => Grown D x t d s ∧ Owned D.ops s)
    (fun s o ho h => ⟨h.1.exec H h.2 (hl o ho), h.2.exec H.oneOwner (hl o ho)⟩)
    ⟨Grown.new, owned_new⟩
  exact this.1

/-! ## The tree of pieces -/

section

variable {u v : ClipId} {p : ClipCrdt} {r : UInt64 × UInt64} {f : UInt64} {z : ℕ}

theorem parentOf_eq (y : ClipId) : s.parentOf y = (s.linkOf y).map (·.clip) := rfl

theorem ne_root (h : Grown D x t d s) {k : ClipParent} (hk : s.linkOf y = some k) : y ≠ x := by
  rintro rfl
  obtain ⟨c, hc, hp⟩ := Option.bind_eq_some_iff.mp hk
  rw [(h.root c hc).parent] at hp
  cases hp

theorem alive (h : Grown D x t d s) {c : ClipCrdt} (hy : s.clips[y]? = some c) :
    c.alive.value = true := by
  by_cases hx : y = x
  · exact (h.root c (hx ▸ hy)).alive
  · exact (h.piece y c hx hy).alive

/-- The chain of parents of a clip ends at the inserted one. -/
theorem descends (h : Grown D x t d s) (hf : s.Forest) (hu : u ∈ s.clips) : s.Descends u x := by
  have key : ∀ n u, u ∈ s.clips → s.Descends u x ∨ ∃ y ∈ s.clips, walk s.parentOf n u = some y := by
    intro n
    induction n with
    | zero => exact fun u hu => Or.inr ⟨u, hu, rfl⟩
    | succ n ih =>
      intro u hu
      by_cases hx : u = x
      · exact Or.inl ⟨0, congrArg some hx⟩
      obtain ⟨c, hc⟩ := BTreeMap.mem_iff.mp hu
      obtain ⟨k, hk, -⟩ := (h.piece u c hx hc).parent
      have hlink : s.linkOf u = some k := by rw [linkOf, hc, Option.bind_some, hk]
      have hp : s.parentOf u = some k.clip := by rw [parentOf_eq, hlink, Option.map_some]
      rcases ih k.clip (h.mem_of_link hlink) with ⟨m, hm⟩ | ⟨y, hy, hw⟩
      · exact Or.inl ⟨m + 1, by rw [walk_succ, hp, Option.bind_some, hm]⟩
      · exact Or.inr ⟨y, hy, by rw [walk_succ, hp, Option.bind_some, hw]⟩
  exact (key s.fuel u hu).resolve_right (hf.no_walk u)

/-- The frames of a clip's full range. -/
def fullFrames (s : Session) (y : ClipId) : Set ℕ :=
  {z | ∃ r, s.rangeOf y = some r ∧ z ∈ rangeFrames r}

/-- The frames of a clip's full range before its first split point. -/
def ownFrames (s : Session) (y : ClipId) : Set ℕ :=
  {z | ∃ c r, s.clips[y]? = some c ∧ s.rangeOf y = some r ∧ z ∈ rangeFrames r ∧
    ∀ g ∈ c.splits, z < r.1.toNat + g.toNat}

/-- A piece has the frames of its parent's range from its split point up to the next one. -/
theorem mem_fullFrames_piece (h : Grown D x t d s) (hf : s.Forest) (hu : s.clips[u]? = some p)
    (hr : s.rangeOf u = some r) (hv : p.splits[f]? = some v) : z ∈ fullFrames s v ↔
      r.1.toNat + f.toNat ≤ z ∧ z < r.2.toNat ∧
        ∀ g ∈ p.splits, f < g → z < r.1.toNat + g.toNat := by
  have hlink := (h.points u p f v hu).mp hv
  obtain ⟨c, hc, hk⟩ := Option.bind_eq_some_iff.mp hlink
  have hrange := hf.rangeOf_child hc hk (h.piece v c (h.ne_root hlink) hc).detached hu (h.alive hu)
  rw [hr, Option.map_some] at hrange
  rw [← mem_childRange (rangeOf_le hr)]
  simp only [fullFrames, Set.mem_ofPred_eq, hrange, Option.some.injEq, exists_eq_left']

/-- A piece with frames is at a split point of a clip with a range. -/
theorem exists_point (h : Grown D x t d s) (hf : s.Forest) (hv : s.parentOf v = some u)
    (hz : z ∈ fullFrames s v) :
    ∃ (p : ClipCrdt) (r : UInt64 × UInt64) (f : UInt64), s.clips[u]? = some p ∧
      s.rangeOf u = some r ∧ p.splits[f]? = some v := by
  rw [parentOf_eq, Option.map_eq_some_iff] at hv
  obtain ⟨k, hlink, rfl⟩ := hv
  obtain ⟨c, hc, hk⟩ := Option.bind_eq_some_iff.mp hlink
  obtain ⟨p, hp⟩ := BTreeMap.mem_iff.mp (h.mem_of_link hlink)
  have hrange := hf.rangeOf_child hc hk (h.piece v c (h.ne_root hlink) hc).detached hp (h.alive hp)
  obtain ⟨r', hr', -⟩ := hz
  rw [hrange, Option.map_eq_some_iff] at hr'
  obtain ⟨r, hr, -⟩ := hr'
  exact ⟨p, r, k.offset, hp, hr, (h.points _ p _ v hp).mpr hlink⟩

/-- The largest split point at or before a frame. -/
theorem exists_last_point {a : ℕ} (h : ∃ g ∈ p.splits, a + g.toNat ≤ z) :
    ∃ f ∈ p.splits, a + f.toNat ≤ z ∧ ∀ g ∈ p.splits, f < g → z < a + g.toNat := by
  have hmem : ∀ {g}, g ∈ p.splits.keys.toFinset.filter (a + ·.toNat ≤ z) ↔
      g ∈ p.splits ∧ a + g.toNat ≤ z := by
    intro g
    rw [Finset.mem_filter, List.mem_toFinset, Std.ExtTreeMap.mem_keys]
  obtain ⟨g, hg⟩ := h
  obtain ⟨f, hf, hmax⟩ := Finset.exists_max_image _ id ⟨g, hmem.mpr hg⟩
  obtain ⟨hfs, hfz⟩ := hmem.mp hf
  refine ⟨f, hfs, hfz, fun g hg hfg => ?_⟩
  by_contra hz
  exact absurd (hmax g (hmem.mpr ⟨hg, not_lt.mp hz⟩)) hfg.not_ge

/-- The ranges of the pieces tile those of their parents. -/
theorem tiling (h : Grown D x t d s) (hf : s.Forest) (hx : x ∈ s.clips) :
    TreeTiling s.parentOf x (fullFrames s) (ownFrames s) where
  reaches {u z} hz := by
    obtain ⟨r, hr, -⟩ := hz
    obtain ⟨c, hc, -⟩ := Option.bind_eq_some_iff.mp hr
    exact h.descends hf (BTreeMap.mem_iff.mpr ⟨c, hc⟩)
  bounded := ⟨s.fuel, fun n u hw => (hf.lt_fuel hx hw).le⟩
  own_full := by
    rintro u z ⟨c, r, -, hr, hz, -⟩
    exact ⟨r, hr, hz⟩
  child_full {u v z} hv hz := by
    obtain ⟨p, r, f, hp, hr, hs⟩ := h.exists_point hf hv hz
    obtain ⟨h1, h2, -⟩ := (h.mem_fullFrames_piece hf hp hr hs).mp hz
    exact ⟨r, hr, (Nat.le_add_right _ _).trans h1, h2⟩
  child_own {u v z} hv hz := by
    obtain ⟨p, r, f, hp, hr, hs⟩ := h.exists_point hf hv hz
    obtain ⟨h1, -, -⟩ := (h.mem_fullFrames_piece hf hp hr hs).mp hz
    rintro ⟨p', r', hp', hr', -, hown⟩
    obtain rfl := Option.some.inj (hp.symm.trans hp')
    obtain rfl := Option.some.inj (hr.symm.trans hr')
    exact absurd (hown f (BTreeMap.mem_iff.mpr ⟨v, hs⟩)) h1.not_gt
  child_unique {u v w z} hv hw hzv hzw := by
    obtain ⟨p, r, f, hp, hr, hs⟩ := h.exists_point hf hv hzv
    obtain ⟨p', r', g, hp', hr', hs'⟩ := h.exists_point hf hw hzw
    obtain rfl := Option.some.inj (hp.symm.trans hp')
    obtain rfl := Option.some.inj (hr.symm.trans hr')
    obtain ⟨h1, -, h2⟩ := (h.mem_fullFrames_piece hf hp hr hs).mp hzv
    obtain ⟨h3, -, h4⟩ := (h.mem_fullFrames_piece hf hp hr hs').mp hzw
    rcases lt_trichotomy f g with hfg | rfl | hgf
    · exact absurd (h2 g (BTreeMap.mem_iff.mpr ⟨w, hs'⟩) hfg) h3.not_gt
    · exact Option.some.inj (hs.symm.trans hs')
    · exact absurd (h4 f (BTreeMap.mem_iff.mpr ⟨v, hs⟩) hgf) h1.not_gt
  cover {u z} hz hown := by
    obtain ⟨r, hr, hzr⟩ := hz
    obtain ⟨p, hp, -⟩ := Option.bind_eq_some_iff.mp hr
    have hpast : ∃ g ∈ p.splits, r.1.toNat + g.toNat ≤ z := by
      by_contra hno
      exact hown ⟨p, r, hp, hr, hzr, fun g hg => not_le.mp fun hle => hno ⟨g, hg, hle⟩⟩
    obtain ⟨f, hfs, hfz, hlast⟩ := exists_last_point hpast
    obtain ⟨v, hv⟩ := BTreeMap.mem_iff.mp hfs
    refine ⟨v, ?_, (h.mem_fullFrames_piece hf hp hr hv).mpr ⟨hfz, hzr.2, hlast⟩⟩
    rw [parentOf_eq, (h.points u p f v hp).mp hv, Option.map_some]

end

/-! ## The view -/

theorem trackId (h : Grown D x t d s) :
    ∀ {n : ℕ} {y : ClipId} {c : ClipCrdt} {acc a : Inherited}, s.clips[y]? = some c →
      (y = x → acc.trackId = t) → s.inheritLoop n c acc = some a → a.trackId = t
  | 0, _, _, _, _, _, _, ha => by simp [Session.inheritLoop] at ha
  | n + 1, y, c, acc, a, hc, hacc, ha => by
    simp only [Session.inheritLoop] at ha
    by_cases hx : y = x
    · simp only [(h.root c (hx ▸ hc)).parent, Option.some.injEq] at ha
      exact ha ▸ hacc hx
    · have hpiece := h.piece y c hx hc
      obtain ⟨k, hk, -⟩ := hpiece.parent
      have hlink : s.linkOf y = some k := by rw [linkOf, hc, Option.bind_some, hk]
      obtain ⟨p, hp⟩ := BTreeMap.mem_iff.mp (h.mem_of_link hlink)
      simp only [hk, hp] at ha
      refine trackId h hp (fun hkx => ?_) ha
      simp only [Inherited.step, inheritReg, hpiece.track, if_true]
      exact (h.root p (hkx ▸ hp)).track

theorem mem_ownFrames {c : ClipCrdt} {q : UInt64 × UInt64} {z : ℕ} (hy : s.clips[y]? = some c)
    (hq : s.rangeOf y = some q) : z ∈ ownFrames s y ↔ z ∈ Set.Ico q.1.toNat (q.1.toNat +
      (min (c.firstSplitOffset.getD (saturatingSub q.2 q.1)) (saturatingSub q.2 q.1)).toNat) := by
  rw [mem_visible (rangeOf_le hq)]
  simp only [ownFrames, Set.mem_ofPred_eq, hy, hq, Option.some.injEq, exists_and_left,
    exists_eq_left', rangeFrames, Set.mem_Ico, and_assoc]

/-- The visible clips show the frames of their ranges before the first split points. -/
theorem exists_view_iff (h : Grown D x t d s) (hf : s.Forest) (ht : t ∈ s.tracks)
    {v : SessionView} (hv : s.materialize = some v) {z : ℕ} :
    (∃ c ∈ v.clips, c.clipId = y ∧ z ∈ c.frames) ↔ z ∈ ownFrames s y := by
  constructor
  · rintro ⟨cv, hcv, hy, hz⟩
    obtain ⟨r, hr, hvis, hrv⟩ := (mem_clips_of_materialize hv).mp hcv
    rw [hy] at hr
    obtain ⟨c, a, g, hc, -, hg, rfl⟩ := resolveClip_eq_some.mp hr
    obtain ⟨q', hq', rfl⟩ := Option.map_eq_some_iff.mp hg
    subst hrv
    rcases q' with _ | q
    · simp [resolved] at hvis
    · have hq : s.rangeOf y = some q := by
        rw [rangeOf, hc, Option.bind_some, hq', Option.join_some]
      exact (mem_ownFrames hc hq).mpr hz
  · intro hz
    obtain ⟨c, q, hc, hq, -⟩ := id hz
    rw [mem_ownFrames hc hq] at hz
    obtain ⟨a, ha⟩ := hf.inheritLoop hc (.own c)
    obtain ⟨q', hq'⟩ := hf.resolveFullRange hc
    obtain rfl : q' = some q := by
      rw [rangeOf, hc, Option.bind_some, hq', Option.join_some] at hq
      exact hq
    have hg : s.resolveGeometry s.fuel c = some (some (q.1,
        min (c.firstSplitOffset.getD (saturatingSub q.2 q.1)) (saturatingSub q.2 q.1))) := by
      rw [resolveGeometry, hq', Option.map_some, Option.map_some]
    have hres := resolveClip_eq_some.mpr ⟨c, a, _, hc, ha, hg, rfl⟩
    obtain ⟨r, hr'⟩ := BTreeMap.mem_iff.mp ht
    have htrack : a.trackId = t :=
      h.trackId hc (fun hx => (h.root c (hx ▸ hc)).track) ha
    have hpos : 0 < min (c.firstSplitOffset.getD (saturatingSub q.2 q.1))
        (saturatingSub q.2 q.1) := by
      rw [UInt64.lt_iff_toNat_lt]
      have := hz.1.trans_lt hz.2
      simp only [UInt64.toNat_zero]
      omega
    refine ⟨(s.resolved y c a (some (q.1, _))).view,
      (mem_clips_of_materialize hv).mpr ⟨_, hres, ?_, rfl⟩, rfl, hz⟩
    simp [resolved, h.alive hc, htrack, hr', h.track r hr', hpos]

end Grown

theorem hasTarget_of_applied {r : RequiredTarget} (hr : ∀ s, Creates s o.operation r) :
    ∀ {l : List TaggedOperation} {s : Session}, o ∈ s.applied l → (s.replay l).HasTarget r
  | [], _, h => absurd h List.not_mem_nil
  | b :: l, s, h => by
    have htail : o ∈ (s.exec b).applied l → (s.replay (b :: l)).HasTarget r := fun h =>
      hasTarget_of_applied (l := l) hr h
    simp only [applied] at h
    split_ifs at h
    · rcases List.mem_cons.mp h with rfl | h
      · exact (hasTarget_exec.mpr (Or.inr (hr s))).replay
      · exact htail h
    · exact htail h

end Session

namespace OpSet

open TimelineCrdt Session

variable {D : OpSet} {l : List TaggedOperation} {x : ClipId} {t : TrackId} {d : ClipData}

/-- An insert of a set that is delivered has its entity there in the end. -/
theorem Delivers.hasTarget (hl : D.Delivers l) (p : PeerId) {op : TimelineOperation}
    {r : RequiredTarget} (h : D.Has op) (hop : op.requiredTargets = [])
    (hr : ∀ s, Creates s op r) : (replica p l).session.HasTarget r := by
  obtain ⟨a, ta, -, hp⟩ := hl.trace p
  obtain ⟨o, ho, rfl⟩ := h
  have hu : untargeted o = true := by rw [untargeted, hop, List.isEmpty_nil]
  have hmem : o ∈ (replica p l).operationLog.filter untargeted :=
    List.mem_filter.mpr ⟨hp.mem_iff.mpr ho, hu⟩
  rw [← ta.order] at hmem
  rw [ta.session_eq]
  exact hasTarget_of_applied hr (List.mem_of_mem_filter hmem)

/-- Whatever the split frames and the order of delivery, the visible clips descend from the
inserted one and tile its frames. -/
theorem SplitsOf.tiles (H : D.SplitsOf x t d) (hl : D.Delivers l) (p : PeerId) :
    ∃ v, (replica p l).view = some v ∧
      (∀ c ∈ v.clips, (replica p l).session.Descends c.clipId x) ∧
      v.clips.Pairwise (fun c c' => Disjoint c.frames c'.frames) ∧
      ∀ z, (∃ c ∈ v.clips, z ∈ c.frames) ↔ z ∈ d.frames := by
  obtain ⟨a, ta, ha, -⟩ := hl.trace p
  obtain ⟨i, hi⟩ := H.has_clip
  obtain ⟨e, j, hj⟩ := H.has_track
  have hx : x ∈ (replica p l).session.clips := hl.hasTarget p (r := .clip x) hi rfl fun _ => rfl
  have ht : t ∈ (replica p l).session.tracks := hl.hasTarget p (r := .track t) hj rfl fun _ => rfl
  have hg : Grown D x t d (replica p l).session := ta.session_eq ▸ Grown.replay H ha
  have hf : (replica p l).session.Forest :=
    ta.session_eq ▸ (replay_inv_of_oneOwner H.oneOwner ha).2.2
  obtain ⟨v, hv⟩ := hf.materialize
  have tiles := hg.tiling hf hx
  have hview : ∀ {y z}, (∃ c ∈ v.clips, c.clipId = y ∧ z ∈ c.frames) ↔
      z ∈ Grown.ownFrames (replica p l).session y := hg.exists_view_iff hf ht hv
  refine ⟨v, hv, fun c hc => ?_, ?_, fun z => ?_⟩
  · obtain ⟨r, hr, -⟩ := (mem_clips_of_materialize hv).mp hc
    exact hg.descends hf (mem_of_resolveClip hr)
  · have hne := nodup_clips_of_materialize hv
    rw [List.Nodup, List.pairwise_map] at hne
    refine hne.imp_of_mem fun {c c'} hc hc' hcc => Set.disjoint_left.mpr fun z hz hz' => ?_
    exact hcc (tiles.own_unique (hview.mp ⟨c, hc, rfl, hz⟩) (hview.mp ⟨c', hc', rfl, hz'⟩))
  · obtain ⟨c, hc⟩ := BTreeMap.mem_iff.mp hx
    have hroot := hg.root c hc
    have hrange := rangeOf_root hc hroot.parent hroot.startFrame.2 hroot.durationFrames.2
    have hmin := Nat.min_eq_left (u64Max_toNat ▸ H.fits)
    have hfull : z ∈ Grown.fullFrames (replica p l).session x ↔ z ∈ d.frames := by
      simp only [Grown.fullFrames, Set.mem_ofPred_eq, hrange, Option.some.injEq, exists_eq_left',
        rangeFrames, ownRange, toNat_saturatingAdd, hroot.startFrame.1, hroot.durationFrames.1,
        ClipData.frames, hmin]
    rw [← hfull]
    constructor
    · rintro ⟨c, hc, hz⟩
      exact tiles.full_root (tiles.own_full (hview.mp ⟨c, hc, rfl, hz⟩))
    · intro hz
      obtain ⟨y, hy⟩ := tiles.exists_own hz
      obtain ⟨c, hc, -, hz⟩ := hview.mpr hy
      exact ⟨c, hc, hz⟩

/-- A clip that is split at 40, a split of the piece at 10, and a split far beyond the clip. -/
def nestedSplits : OpSet where
  ops := [.of 1 1 (.insertTrack ⟨1⟩ (.new "t") 0),
    .of 2 1 (.insertClip ⟨1⟩ ⟨1⟩ (.new "c" 5 100) 0), .of 3 1 (.splitClip ⟨1⟩ 40 ⟨2⟩),
    .of 4 1 (.splitClip ⟨2⟩ 10 ⟨3⟩), .of 5 1 (.splitClip ⟨1⟩ u64Max ⟨4⟩)]
  distinct := by decide

theorem nestedSplits_splitsOf : nestedSplits.SplitsOf ⟨1⟩ ⟨1⟩ (.new "c" 5 100) where
  kinds := by
    intro o ho
    simp only [nestedSplits, List.mem_cons, List.not_mem_nil, or_false] at ho
    rcases ho with rfl | rfl | rfl | rfl | rfl <;> simp [TaggedOperation.of]
  has_track := ⟨.new "t", 0, _, List.mem_cons_self, rfl⟩
  has_clip := ⟨0, _, List.mem_cons_of_mem _ List.mem_cons_self, rfl⟩
  child_fresh := by
    rintro c f n ⟨o, ho, h⟩
    simp only [nestedSplits, List.mem_cons, List.not_mem_nil, or_false] at ho
    rcases ho with rfl | rfl | rfl | rfl | rfl <;> simp only [TaggedOperation.of, reduceCtorEq] at h
    all_goals
      cases h
      simp
  child_once := by
    intro o ho o' ho' c f n c' f' h h'
    simp only [nestedSplits, List.mem_cons, List.not_mem_nil, or_false] at ho ho'
    rcases ho with rfl | rfl | rfl | rfl | rfl <;> simp only [TaggedOperation.of, reduceCtorEq] at h
    all_goals
      cases h
      rcases ho' with rfl | rfl | rfl | rfl | rfl <;> simp_all [TaggedOperation.of]
  point_once := by
    intro o ho o' ho' c f n n' h h'
    simp only [nestedSplits, List.mem_cons, List.not_mem_nil, or_false] at ho ho'
    rcases ho with rfl | rfl | rfl | rfl | rfl <;> simp only [TaggedOperation.of, reduceCtorEq] at h
    all_goals
      cases h
      rcases ho' with rfl | rfl | rfl | rfl | rfl <;> simp_all [TaggedOperation.of, u64Max]
  lamport_pos := by decide
  fits := by decide

/-- The nested splits delivered backwards. -/
theorem nestedSplits_tiles :
    ∃ v, (replica ⟨7⟩ nestedSplits.ops.reverse).view = some v ∧
      (∀ c ∈ v.clips, (replica ⟨7⟩ nestedSplits.ops.reverse).session.Descends c.clipId ⟨1⟩) ∧
      v.clips.Pairwise (fun c c' => Disjoint c.frames c'.frames) ∧
      ∀ z, (∃ c ∈ v.clips, z ∈ c.frames) ↔ z ∈ (ClipData.new "c" 5 100).frames :=
  nestedSplits_splitsOf.tiles (fun _ => List.mem_reverse) ⟨7⟩

end OpSet

end AvSync
