import AvSync.Replay
import AvSync.Proofs.Registers

/-!
# What one operation does to a session

Every change to a clip is a `modifyClip`, but for the two that create a record. A split does one
of six things (`SplitStep`). An operation that is not a split and finds its entity, a settled
write, commutes with every operation of another tag, whatever that one does
(`Settled.exec_comm`).
-/

namespace AvSync

namespace Session

variable {s : Session} {x y : ClipId} {φ ψ : ClipCrdt → ClipCrdt}

/-- Changes the record of a clip, if there is one. -/
def modifyClip (s : Session) (x : ClipId) (φ : ClipCrdt → ClipCrdt) : Session :=
  { s with clips := s.clips.modify x φ }

/-- Changes the record of a track, if there is one. -/
def modifyTrack (s : Session) (x : TrackId) (φ : TrackCrdt → TrackCrdt) : Session :=
  { s with tracks := s.tracks.modify x φ }

theorem clips_modifyClip : (s.modifyClip x φ).clips[y]? =
    if x = y then s.clips[y]?.map φ else s.clips[y]? :=
  BTreeMap.getElem?_modify_if ..

theorem clips_setClip {c : ClipCrdt} : (s.setClip x c).clips[y]? =
    if x = y then some c else s.clips[y]? :=
  BTreeMap.getElem?_insert_if ..

theorem tracks_modifyTrack {x y : TrackId} {φ : TrackCrdt → TrackCrdt} :
    (s.modifyTrack x φ).tracks[y]? = if x = y then s.tracks[y]?.map φ else s.tracks[y]? :=
  BTreeMap.getElem?_modify_if ..

theorem tracks_setTrack {x y : TrackId} {r : TrackCrdt} : (s.setTrack x r).tracks[y]? =
    if x = y then some r else s.tracks[y]? :=
  BTreeMap.getElem?_insert_if ..

@[simp] theorem mem_modifyClip : y ∈ (s.modifyClip x φ).clips ↔ y ∈ s.clips :=
  Std.ExtTreeMap.mem_modify

@[simp] theorem mem_setClip {c : ClipCrdt} : y ∈ (s.setClip x c).clips ↔ x = y ∨ y ∈ s.clips := by
  simp [setClip, Std.ExtTreeMap.mem_insert]

@[simp] theorem mem_modifyTrack {x y : TrackId} {φ : TrackCrdt → TrackCrdt} :
    y ∈ (s.modifyTrack x φ).tracks ↔ y ∈ s.tracks :=
  Std.ExtTreeMap.mem_modify

@[simp] theorem mem_setTrack {x y : TrackId} {r : TrackCrdt} :
    y ∈ (s.setTrack x r).tracks ↔ x = y ∨ y ∈ s.tracks := by
  simp [setTrack, Std.ExtTreeMap.mem_insert]

@[simp] theorem modifyClip_tracks : (s.modifyClip x φ).tracks = s.tracks := rfl
@[simp] theorem modifyClip_envelopes : (s.modifyClip x φ).envelopes = s.envelopes := rfl
@[simp] theorem modifyClip_metadata : (s.modifyClip x φ).metadata = s.metadata := rfl
@[simp] theorem setClip_tracks {c : ClipCrdt} : (s.setClip x c).tracks = s.tracks := rfl
@[simp] theorem setClip_envelopes {c : ClipCrdt} : (s.setClip x c).envelopes = s.envelopes := rfl
@[simp] theorem setClip_metadata {c : ClipCrdt} : (s.setClip x c).metadata = s.metadata := rfl

theorem modifyClip_of_not_mem (h : x ∉ s.clips) : s.modifyClip x φ = s := by
  refine Session.ext rfl rfl ?_ rfl
  ext1 y
  rw [clips_modifyClip]
  split_ifs with hy
  · subst hy
    rw [BTreeMap.not_mem_iff.mp h, Option.map_none]
  · rfl

theorem modifyClip_of_some {c : ClipCrdt} (h : s.clips[x]? = some c) :
    s.modifyClip x φ = s.setClip x (φ c) := by
  refine Session.ext rfl rfl ?_ rfl
  ext1 y
  rw [clips_setClip, clips_modifyClip]
  split_ifs with hy
  · rw [← hy, h, Option.map_some]
  · rfl

theorem modifyClip_comm (h : ∀ c, ψ (φ c) = φ (ψ c)) :
    (s.modifyClip x φ).modifyClip y ψ = (s.modifyClip y ψ).modifyClip x φ := by
  refine Session.ext rfl rfl ?_ rfl
  ext1 z
  simp only [clips_modifyClip]
  split_ifs <;> simp [Option.map_map, Function.comp_def, h]

theorem modifyClip_comm_of_ne (h : x ≠ y) :
    (s.modifyClip x φ).modifyClip y ψ = (s.modifyClip y ψ).modifyClip x φ := by
  refine Session.ext rfl rfl ?_ rfl
  ext1 z
  simp only [clips_modifyClip]
  split_ifs with h1 h2 <;> first | rfl | exact absurd (h2.trans h1.symm) h

theorem setClip_modifyClip_of_ne {c : ClipCrdt} (h : x ≠ y) :
    (s.setClip y c).modifyClip x φ = (s.modifyClip x φ).setClip y c := by
  refine Session.ext rfl rfl ?_ rfl
  ext1 z
  simp only [clips_modifyClip, clips_setClip]
  split_ifs with h1 h2 <;> first | rfl | exact absurd (h1.trans h2.symm) h

theorem modifyTrack_of_some {x : TrackId} {r : TrackCrdt} {φ : TrackCrdt → TrackCrdt}
    (h : s.tracks[x]? = some r) : s.modifyTrack x φ = s.setTrack x (φ r) := by
  refine Session.ext rfl ?_ rfl rfl
  ext1 y
  rw [tracks_setTrack, tracks_modifyTrack]
  split_ifs with hy
  · rw [← hy, h, Option.map_some]
  · rfl

theorem modifyTrack_of_not_mem {x : TrackId} {φ : TrackCrdt → TrackCrdt} (h : x ∉ s.tracks) :
    s.modifyTrack x φ = s := by
  refine Session.ext rfl ?_ rfl rfl
  ext1 y
  rw [tracks_modifyTrack]
  split_ifs with hy
  · subst hy
    rw [BTreeMap.not_mem_iff.mp h, Option.map_none]
  · rfl

theorem modifyTrack_comm {x y : TrackId} {φ ψ : TrackCrdt → TrackCrdt}
    (h : ∀ r, ψ (φ r) = φ (ψ r)) :
    (s.modifyTrack x φ).modifyTrack y ψ = (s.modifyTrack y ψ).modifyTrack x φ := by
  refine Session.ext rfl ?_ rfl rfl
  ext1 z
  simp only [tracks_modifyTrack]
  split_ifs <;> simp [Option.map_map, Function.comp_def, h]

theorem setTrack_modifyTrack_of_ne {x y : TrackId} {r : TrackCrdt} {φ : TrackCrdt → TrackCrdt}
    (h : x ≠ y) : (s.setTrack y r).modifyTrack x φ = (s.modifyTrack x φ).setTrack y r := by
  refine Session.ext rfl ?_ rfl rfl
  ext1 z
  simp only [tracks_modifyTrack, tracks_setTrack]
  split_ifs with h1 h2 <;> first | rfl | exact absurd (h1.trans h2.symm) h

/-! ## Edits and inserts -/

/-- The answer to an edit of clip `x`. -/
def clipReply (s : Session) (x : ClipId) : Except UnknownTarget Unit :=
  if x ∈ s.clips then .ok () else .error (unknownClip x)

/-- The answer to an edit of track `x`. -/
def trackReply (s : Session) (x : TrackId) : Except UnknownTarget Unit :=
  if x ∈ s.tracks then .ok () else .error (unknownTrack x)

theorem applyToClip_eq (op : TimelineOperation) (t : OpTag) :
    s.applyToClip x op t = (s.clipReply x, s.modifyClip x (·.apply op t)) := by
  unfold applyToClip clipReply
  rcases h : s.clips[x]? with _ | c
  · have hx := BTreeMap.not_mem_iff.mpr h
    simp only [hx, if_false, modifyClip_of_not_mem hx]
  · have hx : x ∈ s.clips := BTreeMap.mem_iff.mpr ⟨c, h⟩
    simp only [hx, if_true, modifyClip_of_some h]

theorem applyToTrack_eq {x : TrackId} (op : TimelineOperation) (t : OpTag) :
    s.applyToTrack x op t = (s.trackReply x, s.modifyTrack x (·.apply op t)) := by
  unfold applyToTrack trackReply
  rcases h : s.tracks[x]? with _ | c
  · have hx := BTreeMap.not_mem_iff.mpr h
    simp only [hx, if_false, modifyTrack_of_not_mem hx]
  · have hx : x ∈ s.tracks := BTreeMap.mem_iff.mpr ⟨c, h⟩
    simp only [hx, if_true, modifyTrack_of_some h]

theorem apply_insertClip_of_mem (h : x ∈ s.clips) {r : TrackId} {d : ClipData} {p : UInt64}
    {t : OpTag} : s.apply (.insertClip x r d p) t =
      (.ok (), s.modifyClip x (·.apply (.insertClip x r d p) t)) := by
  obtain ⟨c, hc⟩ := BTreeMap.mem_iff.mp h
  simp only [apply, hc, modifyClip_of_some hc]

theorem apply_insertClip_of_not_mem (h : x ∉ s.clips) {r : TrackId} {d : ClipData} {p : UInt64}
    {t : OpTag} : s.apply (.insertClip x r d p) t =
      (.ok (), s.setClip x (.fromInsert r d p t)) := by
  simp only [apply, BTreeMap.not_mem_iff.mp h]

theorem apply_insertTrack_of_mem {x : TrackId} (h : x ∈ s.tracks) {d : TrackData} {p : UInt64}
    {t : OpTag} : s.apply (.insertTrack x d p) t =
      (.ok (), s.modifyTrack x (·.apply (.insertTrack x d p) t)) := by
  obtain ⟨c, hc⟩ := BTreeMap.mem_iff.mp h
  simp only [apply, hc, modifyTrack_of_some hc]

theorem apply_insertTrack_of_not_mem {x : TrackId} (h : x ∉ s.tracks) {d : TrackData}
    {p : UInt64} {t : OpTag} : s.apply (.insertTrack x d p) t =
      (.ok (), s.setTrack x (.fromInsert d p t)) := by
  simp only [apply, BTreeMap.not_mem_iff.mp h]

/-! ## Splits -/

/-- The record a split creates for its child. -/
def childRecord (k : Claim) (t : OpTag) : ClipCrdt := (ClipCrdt.fromSplit t).link k

/-- The six things a split of `c` at `f` into `n` can do. -/
inductive SplitStep (s : Session) (c : ClipId) (f : UInt64) (n : ClipId) (t : OpTag) :
    Except UnknownTarget Unit × Session → Prop
  | self : c = n → SplitStep s c f n t (.ok (), s)
  | lost {child : ClipCrdt} {k : Claim} : c ≠ n → s.clips[n]? = some child →
      child.originClaim = some k → k < ⟨c, f⟩ → SplitStep s c f n t (.ok (), s)
  | missing : c ≠ n → n ∉ s.clips → c ∉ s.clips →
      SplitStep s c f n t (.error (unknownClip c), s)
  | create : c ≠ n → n ∉ s.clips → c ∈ s.clips → SplitStep s c f n t
      (.ok (), (s.modifyClip c (·.recordSplit f n)).setClip n (childRecord ⟨c, f⟩ t))
  | keep {child : ClipCrdt} : c ≠ n → s.clips[n]? = some child →
      child.originClaim.getD ⟨c, f⟩ = ⟨c, f⟩ → SplitStep s c f n t
        (s.clipReply c, (s.modifyClip n (·.revive t)).modifyClip c (·.recordSplit f n))
  | take {child : ClipCrdt} {k : Claim} : c ≠ n → s.clips[n]? = some child →
      child.originClaim = some k → (⟨c, f⟩ : Claim) < k → SplitStep s c f n t
        (s.clipReply c, (((s.modifyClip k.clip (·.dropSplit k.offset n)).modifyClip n
          (·.link ⟨c, f⟩)).modifyClip n (·.revive t)).modifyClip c (·.recordSplit f n))

theorem reparent_eq (n : ClipId) (k k' : Claim) :
    s.reparent n k k' =
      (s.modifyClip k.clip (·.dropSplit k.offset n)).modifyClip n (·.link k') := by
  unfold reparent
  rcases hp : s.clips[k.clip]? with _ | p
  · rw [modifyClip_of_not_mem (BTreeMap.not_mem_iff.mpr hp)]
    rfl
  · by_cases hn : p.splits[k.offset]? = some n
    · simp only [hn, if_true, modifyClip_of_some hp, ClipCrdt.dropSplit]
      rfl
    · have : s.setClip k.clip p = s := by
        refine Session.ext rfl rfl ?_ rfl
        ext1 y
        rw [clips_setClip]
        split_ifs with hy
        · rw [← hy, hp]
        · rfl
      simp only [hn, if_false, modifyClip_of_some hp, ClipCrdt.dropSplit, this]
      rfl

/-- Recording a split point on a parent that may be missing. -/
theorem record_eq (s : Session) (c : ClipId) (f : UInt64) (n : ClipId) :
    (match s.clips[c]? with
      | none => (.error (unknownClip c), s)
      | some p => (.ok (), s.setClip c (p.recordSplit f n))) =
      (s.clipReply c, s.modifyClip c (·.recordSplit f n)) := by
  unfold clipReply
  rcases h : s.clips[c]? with _ | p
  · have hc := BTreeMap.not_mem_iff.mpr h
    simp only [hc, if_false, modifyClip_of_not_mem hc]
  · have hc : c ∈ s.clips := BTreeMap.mem_iff.mpr ⟨p, h⟩
    simp only [hc, if_true, modifyClip_of_some h]

@[simp] theorem clipReply_modifyClip : (s.modifyClip x φ).clipReply y = s.clipReply y := by
  simp only [clipReply, mem_modifyClip]

section

variable {c n : ClipId} {f : UInt64} {t : OpTag} {child : ClipCrdt} {k : Claim}

theorem applySplit_of_lost (hcn : c ≠ n) (hn : s.clips[n]? = some child)
    (hk : child.originClaim = some k) (h : k < ⟨c, f⟩) : s.applySplit c f n t = (.ok (), s) := by
  simp only [applySplit, hcn, if_false, hn, hk, Option.getD_some, h, if_true]

theorem applySplit_of_missing (hcn : c ≠ n) (hn : n ∉ s.clips) (hc : c ∉ s.clips) :
    s.applySplit c f n t = (.error (unknownClip c), s) := by
  simp only [applySplit, hcn, if_false, BTreeMap.not_mem_iff.mp hn, BTreeMap.not_mem_iff.mp hc]

theorem applySplit_of_create (hcn : c ≠ n) (hn : n ∉ s.clips) (hc : c ∈ s.clips) :
    s.applySplit c f n t =
      (.ok (), (s.modifyClip c (·.recordSplit f n)).setClip n (childRecord ⟨c, f⟩ t)) := by
  obtain ⟨p, hp⟩ := BTreeMap.mem_iff.mp hc
  simp only [applySplit, hcn, if_false, BTreeMap.not_mem_iff.mp hn, hp, modifyClip_of_some hp]
  rfl

theorem applySplit_of_keep (hcn : c ≠ n) (hn : s.clips[n]? = some child)
    (hk : child.originClaim.getD ⟨c, f⟩ = ⟨c, f⟩) : s.applySplit c f n t =
      (s.clipReply c, (s.modifyClip n (·.revive t)).modifyClip c (·.recordSplit f n)) := by
  simp only [applySplit, hcn, if_false, hn, hk, lt_irrefl]
  rw [← clipReply_modifyClip (x := n), ← record_eq]
  rfl

theorem applySplit_of_take (hcn : c ≠ n) (hn : s.clips[n]? = some child)
    (hk : child.originClaim = some k) (h : (⟨c, f⟩ : Claim) < k) : s.applySplit c f n t =
      (s.clipReply c, (((s.modifyClip k.clip (·.dropSplit k.offset n)).modifyClip n
        (·.link ⟨c, f⟩)).modifyClip n (·.revive t)).modifyClip c (·.recordSplit f n)) := by
  simp only [applySplit, hcn, if_false, hn, hk, Option.getD_some, h.not_gt, h, if_true,
    reparent_eq]
  rw [← clipReply_modifyClip (x := k.clip), ← clipReply_modifyClip (x := n),
    ← clipReply_modifyClip (x := n), ← record_eq]
  rfl

theorem SplitStep.applySplit_eq {r : Except UnknownTarget Unit × Session}
    (h : SplitStep s c f n t r) : s.applySplit c f n t = r := by
  rcases h with h | ⟨h, hn, hk, hlt⟩ | ⟨h, hn, hc⟩ | ⟨h, hn, hc⟩ | ⟨h, hn, hk⟩ | ⟨h, hn, hk, hlt⟩
  · exact if_pos h
  · exact applySplit_of_lost h hn hk hlt
  · exact applySplit_of_missing h hn hc
  · exact applySplit_of_create h hn hc
  · exact applySplit_of_keep h hn hk
  · exact applySplit_of_take h hn hk hlt

theorem applySplit_step (s : Session) (c : ClipId) (f : UInt64) (n : ClipId) (t : OpTag) :
    SplitStep s c f n t (s.applySplit c f n t) := by
  by_cases hcn : c = n
  · rw [applySplit, if_pos hcn]
    exact .self hcn
  rcases hn : s.clips[n]? with _ | child
  · have hn' := BTreeMap.not_mem_iff.mpr hn
    by_cases hc : c ∈ s.clips
    · rw [applySplit_of_create hcn hn' hc]
      exact .create hcn hn' hc
    · rw [applySplit_of_missing hcn hn' hc]
      exact .missing hcn hn' hc
  rcases hk : child.originClaim with _ | k
  · have hk' : child.originClaim.getD ⟨c, f⟩ = ⟨c, f⟩ := by rw [hk, Option.getD_none]
    rw [applySplit_of_keep hcn hn hk']
    exact .keep hcn hn hk'
  rcases lt_trichotomy k ⟨c, f⟩ with h | h | h
  · rw [applySplit_of_lost hcn hn hk h]
    exact .lost hcn hn hk h
  · have hk' : child.originClaim.getD ⟨c, f⟩ = ⟨c, f⟩ := by rw [hk, Option.getD_some, h]
    rw [applySplit_of_keep hcn hn hk']
    exact .keep hcn hn hk'
  · rw [applySplit_of_take hcn hn hk h]
    exact .take hcn hn hk h

end

/-! ## Settled writes -/

section

variable {w : ClipWrite} {u t : OpTag}

theorem clips_write_some {n : ClipId} {child : ClipCrdt} (h : s.clips[n]? = some child) :
    ∃ c, (s.modifyClip x (·.write w u)).clips[n]? = some c ∧
      c.originClaim = child.originClaim := by
  rw [clips_modifyClip, h]
  split_ifs
  · exact ⟨_, rfl, rfl⟩
  · exact ⟨_, rfl, rfl⟩

theorem modifyClip_write_comm (h : ∀ c, ψ (c.write w u) = (ψ c).write w u) :
    (s.modifyClip x (·.write w u)).modifyClip y ψ =
      (s.modifyClip y ψ).modifyClip x (·.write w u) := modifyClip_comm h

theorem applySplit_write (hx : x ∈ s.clips) (hu : u ≠ t) (c : ClipId) (f : UInt64) (n : ClipId) :
    (s.modifyClip x (·.write w u)).applySplit c f n t =
      (s.applySplit c f n t).map id (·.modifyClip x (·.write w u)) := by
  have hrev : ∀ c : ClipCrdt, (c.write w u).revive t = (c.revive t).write w u :=
    fun c => (ClipCrdt.write_revive hu.symm).symm
  have hrec : ∀ c : ClipCrdt, (c.write w u).recordSplit f n = (c.recordSplit f n).write w u :=
    fun c => (ClipCrdt.write_recordSplit f n).symm
  refine SplitStep.applySplit_eq ?_
  have hstep := applySplit_step s c f n t
  generalize s.applySplit c f n t = r at hstep ⊢
  rcases hstep with h | ⟨h, hn, hk, hlt⟩ | ⟨h, hn, hc⟩ | ⟨h, hn, hc⟩ | ⟨h, hn, hk⟩ |
    ⟨h, hn, hk, hlt⟩
  · exact .self h
  · obtain ⟨d, hd, hdk⟩ := clips_write_some (x := x) (w := w) (u := u) hn
    exact .lost h hd (hdk.trans hk) hlt
  · exact .missing h (by simpa using hn) (by simpa using hc)
  · have hxn : x ≠ n := fun e => hn (e ▸ hx)
    have := SplitStep.create (s := s.modifyClip x (·.write w u)) (t := t) (f := f) h
      (by simpa using hn) (by simpa using hc)
    rwa [modifyClip_write_comm hrec, ← setClip_modifyClip_of_ne hxn] at this
  · obtain ⟨d, hd, hdk⟩ := clips_write_some (x := x) (w := w) (u := u) hn
    have := SplitStep.keep (t := t) h hd (by rw [hdk, hk])
    rwa [clipReply_modifyClip, modifyClip_write_comm hrev, modifyClip_write_comm hrec] at this
  · obtain ⟨d, hd, hdk⟩ := clips_write_some (x := x) (w := w) (u := u) hn
    have := SplitStep.take (t := t) h hd (hdk.trans hk) hlt
    rwa [clipReply_modifyClip,
      modifyClip_write_comm fun c => (ClipCrdt.write_dropSplit _ n).symm,
      modifyClip_write_comm fun c => (ClipCrdt.write_link _).symm,
      modifyClip_write_comm hrev, modifyClip_write_comm hrec] at this

/-- A write to a clip that is there commutes with every operation of another tag. -/
theorem apply_modifyClip (hx : x ∈ s.clips) (hu : u ≠ t) (op : TimelineOperation) :
    (s.modifyClip x (·.write w u)).apply op t =
      (s.apply op t).map id (·.modifyClip x (·.write w u)) := by
  have hedit : ∀ (y : ClipId) (op : TimelineOperation), ¬op.IsSplit →
      (s.modifyClip x (·.write w u)).applyToClip y op t =
        (s.applyToClip y op t).map id (·.modifyClip x (·.write w u)) := by
    intro y op hop
    have hcomm : ∀ c : ClipCrdt, (c.write w u).apply op t = (c.apply op t).write w u := by
      intro c
      simp only [ClipCrdt.apply_eq_write hop, ClipCrdt.write_comm hu]
    simp only [applyToClip_eq, clipReply_modifyClip, Prod.map_apply, id_eq]
    rw [modifyClip_write_comm hcomm]
  rcases op with ⟨y, r, d, p⟩ | _ | _ | _ | _ | _ | ⟨y, d, p⟩ | _ | _ | _ | _
  · by_cases hy : y ∈ s.clips
    · have hy' : y ∈ (s.modifyClip x (·.write w u)).clips := by simpa using hy
      rw [apply_insertClip_of_mem hy, apply_insertClip_of_mem hy']
      have := hedit y (.insertClip y r d p) id
      simp only [applyToClip_eq, clipReply_modifyClip, Prod.map_apply, id_eq, Prod.mk.injEq,
        true_and] at this
      simp only [this, Prod.map_apply, id_eq]
    · have hy' : y ∉ (s.modifyClip x (·.write w u)).clips := by simpa using hy
      have hxy : x ≠ y := fun e => hy (e ▸ hx)
      rw [apply_insertClip_of_not_mem hy, apply_insertClip_of_not_mem hy', Prod.map_apply,
        setClip_modifyClip_of_ne hxy, id_eq]
  · exact hedit _ _ id
  · exact hedit _ _ id
  · exact applySplit_write hx hu _ _ _
  · exact hedit _ _ id
  · exact hedit _ _ id
  · by_cases hy : y ∈ s.tracks
    · rw [apply_insertTrack_of_mem hy, apply_insertTrack_of_mem (s := s.modifyClip x _) hy]
      rfl
    · rw [apply_insertTrack_of_not_mem hy, apply_insertTrack_of_not_mem (s := s.modifyClip x _) hy]
      rfl
  · simp only [apply, applyToTrack_eq]
    rfl
  · simp only [apply, applyToTrack_eq]
    rfl
  · rename_i target _ _
    have : (s.modifyClip x (·.write w u)).missingEnvelopeTarget target =
        s.missingEnvelopeTarget target := by
      cases target
      · simp [missingEnvelopeTarget]
      · rfl
    simp only [apply, this]
    rcases s.missingEnvelopeTarget target <;> rfl
  · rfl

end

/-- A change to the part of a session that clip operations neither read nor write. -/
structure ClipFree (T : Session → Session) : Prop where
  clips : ∀ s, (T s).clips = s.clips
  modifyClip : ∀ s x φ, (T s).modifyClip x φ = T (s.modifyClip x φ)
  setClip : ∀ s x c, (T s).setClip x c = T (s.setClip x c)

namespace ClipFree

variable {T : Session → Session} (hT : ClipFree T) {t : OpTag}

include hT

theorem clipReply : (T s).clipReply x = s.clipReply x := by
  unfold Session.clipReply
  rw [hT.clips]

theorem applyToClip (op : TimelineOperation) :
    (T s).applyToClip x op t = (s.applyToClip x op t).map id T := by
  simp only [applyToClip_eq, hT.clipReply, hT.modifyClip, Prod.map_apply, id_eq]

theorem apply_insertClip (x : ClipId) (r : TrackId) (d : ClipData) (p : UInt64) :
    (T s).apply (.insertClip x r d p) t = (s.apply (.insertClip x r d p) t).map id T := by
  by_cases hx : x ∈ s.clips
  · have hx' : x ∈ (T s).clips := by rwa [hT.clips]
    rw [apply_insertClip_of_mem hx, apply_insertClip_of_mem hx', hT.modifyClip]
    rfl
  · have hx' : x ∉ (T s).clips := by rwa [hT.clips]
    rw [apply_insertClip_of_not_mem hx, apply_insertClip_of_not_mem hx', hT.setClip]
    rfl

theorem applySplit (c : ClipId) (f : UInt64) (n : ClipId) :
    (T s).applySplit c f n t = (s.applySplit c f n t).map id T := by
  refine SplitStep.applySplit_eq ?_
  have hstep := applySplit_step s c f n t
  generalize s.applySplit c f n t = r at hstep ⊢
  rcases hstep with h | ⟨h, hn, hk, hlt⟩ | ⟨h, hn, hc⟩ | ⟨h, hn, hc⟩ | ⟨h, hn, hk⟩ |
    ⟨h, hn, hk, hlt⟩
  · exact .self h
  · exact .lost h (by rwa [hT.clips]) hk hlt
  · exact .missing h (by rwa [hT.clips]) (by rwa [hT.clips])
  · have := SplitStep.create (s := T s) (t := t) (f := f) h (by rwa [hT.clips])
      (by rwa [hT.clips])
    rwa [hT.modifyClip, hT.setClip] at this
  · have := SplitStep.keep (s := T s) (t := t) h (by rwa [hT.clips]) hk
    rwa [hT.clipReply, hT.modifyClip, hT.modifyClip] at this
  · have := SplitStep.take (s := T s) (t := t) h (by rwa [hT.clips]) hk hlt
    rwa [hT.clipReply, hT.modifyClip, hT.modifyClip, hT.modifyClip, hT.modifyClip] at this

end ClipFree

section

variable {t u : OpTag}

/-- A write to a track that is there commutes with every operation of another tag. -/
theorem apply_modifyTrack {x : TrackId} {w : TrackWrite} (hx : x ∈ s.tracks) (hu : u ≠ t)
    (op : TimelineOperation) :
    (s.modifyTrack x (·.write w u)).apply op t =
      (s.apply op t).map id (·.modifyTrack x (·.write w u)) := by
  have hT : ClipFree (·.modifyTrack x (·.write w u)) :=
    ⟨fun _ => rfl, fun _ _ _ => rfl, fun _ _ _ => rfl⟩
  have hedit : ∀ (s : Session) (y : TrackId) (op : TimelineOperation),
      (s.modifyTrack x (·.write w u)).modifyTrack y (·.apply op t) =
        (s.modifyTrack y (·.apply op t)).modifyTrack x (·.write w u) := by
    intro s y op
    refine modifyTrack_comm fun r => ?_
    simp only [TrackCrdt.apply_eq_write, TrackCrdt.write_comm hu]
  have hreply : ∀ y, (s.modifyTrack x (·.write w u)).trackReply y = s.trackReply y := by
    intro y
    simp only [trackReply, mem_modifyTrack]
  rcases op with _ | _ | _ | _ | _ | _ | ⟨y, d, p⟩ | _ | _ | ⟨target, _, _⟩ | _
  · exact hT.apply_insertClip _ _ _ _
  · exact hT.applyToClip _
  · exact hT.applyToClip _
  · exact hT.applySplit _ _ _
  · exact hT.applyToClip _
  · exact hT.applyToClip _
  · by_cases hy : y ∈ s.tracks
    · have hy' : y ∈ (s.modifyTrack x (·.write w u)).tracks := by simpa using hy
      rw [apply_insertTrack_of_mem hy, apply_insertTrack_of_mem hy', hedit]
      rfl
    · have hy' : y ∉ (s.modifyTrack x (·.write w u)).tracks := by simpa using hy
      have hxy : x ≠ y := fun e => hy (e ▸ hx)
      rw [apply_insertTrack_of_not_mem hy, apply_insertTrack_of_not_mem hy', Prod.map_apply,
        setTrack_modifyTrack_of_ne hxy, id_eq]
  · simp only [apply, applyToTrack_eq, hreply, hedit, Prod.map_apply, id_eq]
  · simp only [apply, applyToTrack_eq, hreply, hedit, Prod.map_apply, id_eq]
  · have : (s.modifyTrack x (·.write w u)).missingEnvelopeTarget target =
        s.missingEnvelopeTarget target := by
      cases target
      · rfl
      · simp [missingEnvelopeTarget]
    simp only [apply, this]
    rcases s.missingEnvelopeTarget target <;> rfl
  · rfl

/-- Sets the points of an envelope, if the tag wins. -/
def setEnvelope (s : Session) (y : TargetId) (k : EnvelopeType) (p : List EnvelopePoint)
    (u : OpTag) : Session :=
  { s with envelopes := s.envelopes.set y k p u }

/-- A write to an envelope commutes with every operation of another tag. -/
theorem apply_setEnvelope {y : TargetId} {k : EnvelopeType} {p : List EnvelopePoint} (hu : u ≠ t)
    (op : TimelineOperation) :
    (s.setEnvelope y k p u).apply op t = (s.apply op t).map id (·.setEnvelope y k p u) := by
  have hT : ClipFree (·.setEnvelope y k p u) :=
    ⟨fun _ => rfl, fun _ _ _ => rfl, fun _ _ _ => rfl⟩
  rcases op with _ | _ | _ | _ | _ | _ | ⟨y, d, p⟩ | _ | _ | ⟨target, _, _⟩ | _
  · exact hT.apply_insertClip _ _ _ _
  · exact hT.applyToClip _
  · exact hT.applyToClip _
  · exact hT.applySplit _ _ _
  · exact hT.applyToClip _
  · exact hT.applyToClip _
  · by_cases hy : y ∈ s.tracks
    · rw [apply_insertTrack_of_mem hy, apply_insertTrack_of_mem (s := s.setEnvelope _ _ _ _) hy]
      rfl
    · rw [apply_insertTrack_of_not_mem hy,
        apply_insertTrack_of_not_mem (s := s.setEnvelope _ _ _ _) hy]
      rfl
  · simp only [apply, applyToTrack_eq]
    rfl
  · simp only [apply, applyToTrack_eq]
    rfl
  · have : (s.setEnvelope y k p u).missingEnvelopeTarget target =
        s.missingEnvelopeTarget target := by
      cases target <;> rfl
    simp only [apply, this]
    rcases s.missingEnvelopeTarget target
    · simp only [setEnvelope, EnvelopeStore.set_comm _ hu]
      rfl
    · rfl
  · rfl

/-- Updates the session metadata, where the tag wins. -/
def updateMetadata (s : Session) (v : SessionMetadataUpdate) (u : OpTag) : Session :=
  { s with metadata := s.metadata.update v u }

/-- A write to the session metadata commutes with every operation of another tag. -/
theorem apply_updateMetadata {v : SessionMetadataUpdate} (hu : u ≠ t) (op : TimelineOperation) :
    (s.updateMetadata v u).apply op t = (s.apply op t).map id (·.updateMetadata v u) := by
  have hT : ClipFree (·.updateMetadata v u) :=
    ⟨fun _ => rfl, fun _ _ _ => rfl, fun _ _ _ => rfl⟩
  rcases op with _ | _ | _ | _ | _ | _ | ⟨y, d, p⟩ | _ | _ | ⟨target, _, _⟩ | _
  · exact hT.apply_insertClip _ _ _ _
  · exact hT.applyToClip _
  · exact hT.applyToClip _
  · exact hT.applySplit _ _ _
  · exact hT.applyToClip _
  · exact hT.applyToClip _
  · by_cases hy : y ∈ s.tracks
    · rw [apply_insertTrack_of_mem hy, apply_insertTrack_of_mem (s := s.updateMetadata _ _) hy]
      rfl
    · rw [apply_insertTrack_of_not_mem hy,
        apply_insertTrack_of_not_mem (s := s.updateMetadata _ _) hy]
      rfl
  · simp only [apply, applyToTrack_eq]
    rfl
  · simp only [apply, applyToTrack_eq]
    rfl
  · have : (s.updateMetadata v u).missingEnvelopeTarget target =
        s.missingEnvelopeTarget target := by
      cases target <;> rfl
    simp only [apply, this]
    rcases s.missingEnvelopeTarget target <;> rfl
  · simp only [apply, updateMetadata, SessionMetadataState.update_comm _ hu, Prod.map_apply, id_eq]

end

end Session

end AvSync
