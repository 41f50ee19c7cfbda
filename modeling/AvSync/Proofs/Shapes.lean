import AvSync.Proofs.Slots

/-!
# What registers leave alone

An operation writes registers, and may add to the shape of a session: its records and envelopes,
the links, the flags and the split points. Once a session has absorbed what an operation adds, the
operation leaves the shape alone (`Absorbs.sameShape`).
-/

namespace AvSync

/-- The part of a record that is no register. -/
structure ClipFrame where
  parent : Option ClipParent
  detached : Bool
  splits : BTreeMap UInt64 ClipId
  originClaim : Option Claim

def ClipCrdt.frame (c : ClipCrdt) : ClipFrame := ⟨c.parent, c.detached, c.splits, c.originClaim⟩

/-- A split of the record at `f` into `n` has been recorded, or one into a smaller id. -/
def ClipCrdt.Records (c : ClipCrdt) (f : UInt64) (n : ClipId) : Prop :=
  ∃ m, c.splits[f]? = some m ∧ m ≤ n

namespace ClipCrdt

variable {c : ClipCrdt} {f g : UInt64} {m n : ClipId}

theorem Records.recordSplit_eq (h : c.Records f n) : c.recordSplit f n = c := by
  obtain ⟨m, hm, hle⟩ := h
  unfold recordSplit
  simp only [hm, hle.not_gt, if_false]

theorem records_recordSplit (c : ClipCrdt) (f : UInt64) (n : ClipId) :
    (c.recordSplit f n).Records f n := by
  refine ⟨_, (splits_recordSplit c f f n).trans (if_pos rfl), ?_⟩
  rcases c.splits[f]? with _ | old
  · exact le_rfl
  · exact min_le_left n old

theorem Records.recordSplit (h : c.Records f n) (g : UInt64) (m : ClipId) :
    (c.recordSplit g m).Records f n := by
  obtain ⟨k, hk, hle⟩ := h
  rw [Records, splits_recordSplit]
  split_ifs with hg
  · rw [hg, hk]
    exact ⟨_, rfl, (min_le_right m k).trans hle⟩
  · exact ⟨k, hk, hle⟩

end ClipCrdt

namespace Session

variable {s s' : Session} {o : TaggedOperation} {op : TimelineOperation} {x : ClipId} {c : ClipCrdt}

/-- The sessions differ in registers only. -/
structure SameShape (s s' : Session) : Prop where
  clips : ∀ x : ClipId, s'.clips[x]?.map (·.frame) = s.clips[x]?.map (·.frame)
  tracks : ∀ t : TrackId, t ∈ s'.tracks ↔ t ∈ s.tracks
  envelopes : ∀ κ, κ ∈ s'.envelopes.envelopes ↔ κ ∈ s.envelopes.envelopes

/-- What `op` adds to the shape of a session is there. -/
structure Absorbs (s : Session) (op : TimelineOperation) : Prop extends Takes s op where
  introduced : ∀ r, op.introduced = some r → s.HasTarget r
  detached : ∀ {x c}, op.editedClip = some x → op.clipWrite.detach = true →
    s.clips[x]? = some c → c.detached = true
  recorded : ∀ {p f n c}, op = .splitClip p f n → s.clips[p]? = some c → c.Records f n
  envelope : ∀ {y k points}, op = .updateEnvelope y k points →
    toLex (y, k) ∈ s.envelopes.envelopes

namespace SameShape

theorem refl (s : Session) : SameShape s s := ⟨fun _ => rfl, fun _ => Iff.rfl, fun _ => Iff.rfl⟩

theorem trans {s'' : Session} (h : SameShape s s') (h' : SameShape s' s'') : SameShape s s'' :=
  ⟨fun x => (h'.clips x).trans (h.clips x), fun t => (h'.tracks t).trans (h.tracks t),
    fun κ => (h'.envelopes κ).trans (h.envelopes κ)⟩

variable (h : SameShape s s')

include h

theorem symm : SameShape s' s :=
  ⟨fun x => (h.clips x).symm, fun t => (h.tracks t).symm, fun κ => (h.envelopes κ).symm⟩

theorem clip {d : ClipCrdt} (hd : s'.clips[x]? = some d) :
    ∃ c, s.clips[x]? = some c ∧ d.frame = c.frame := by
  have := h.clips x
  rw [hd, Option.map_some] at this
  obtain ⟨c, hc, he⟩ := Option.map_eq_some_iff.mp this.symm
  exact ⟨c, hc, he.symm⟩

theorem mem_clips : x ∈ s'.clips ↔ x ∈ s.clips := by
  rw [BTreeMap.mem_iff, BTreeMap.mem_iff]
  constructor
  · rintro ⟨d, hd⟩
    obtain ⟨c, hc, -⟩ := h.clip hd
    exact ⟨c, hc⟩
  · rintro ⟨c, hc⟩
    have := h.clips x
    rw [hc, Option.map_some] at this
    obtain ⟨d, hd, -⟩ := Option.map_eq_some_iff.mp this
    exact ⟨d, hd⟩

end SameShape

/-- An operation that introduces only what is there leaves the entities alone. -/
theorem hasTarget_exec_of_introduced (h : ∀ r, o.operation.introduced = some r → s.HasTarget r)
    (r : RequiredTarget) : (s.exec o).HasTarget r ↔ s.HasTarget r := by
  rw [hasTarget_exec, or_iff_left_of_imp]
  exact fun hc => h r hc.introduced.1

/-- An operation that has been absorbed leaves the shape alone. -/
theorem Absorbs.sameShape (h : s.Absorbs o.operation) : SameShape s (s.exec o) where
  clips := by
    intro x
    by_cases hsplit : o.operation.IsSplit
    · obtain ⟨p, f, n, hop⟩ := TimelineOperation.isSplit_iff.mp hsplit
      rw [h.exec_split hop, clips_splitOff]
      split_ifs with hn hp
      · obtain ⟨c, hc⟩ := BTreeMap.mem_iff.mp (h.introduced (.clip n) (by rw [hop]; rfl))
        rw [← hn, hc]
        rfl
      · subst hp
        rcases hc : s.clips[p]? with _ | c
        · rfl
        · rw [Option.map_some, (h.recorded hop hc).recordSplit_eq]
      · rfl
    · rw [clips_exec hsplit]
      split_ifs with hedit
      · rcases hc : s.clips[x]? with _ | c
        · have hmem : x ∉ s.clips := BTreeMap.not_mem_iff.mpr hc
          rw [clipStep]
          rcases hop : o.operation with ⟨y, r, d, p⟩ | _ | _ | _ | _ | _ | _ | _ | _ | _ | _
          case insertClip =>
            rw [hop] at hedit
            cases hedit
            exact absurd (h.introduced (.clip x) (by rw [hop]; rfl)) hmem
          all_goals rfl
        · rw [clipStep_some, Option.map_some, Option.map_some]
          congr 1
          have hdet : (c.detached || o.operation.clipWrite.detach) = c.detached := by
            rcases hd : o.operation.clipWrite.detach with _ | _
            · exact Bool.or_false _
            · rw [h.detached hedit hd hc]
              rfl
          exact congrArg (fun b => (⟨c.parent, b, c.splits, c.originClaim⟩ : ClipFrame)) hdet
      · rfl
  tracks t := hasTarget_exec_of_introduced h.introduced (.track t)
  envelopes κ := by
    rw [BTreeMap.mem_iff, BTreeMap.mem_iff, envelopes_exec h.targets]
    rcases hw : (Slot.envelope κ).writes o.operation with _ | points
    · rfl
    · rcases hop : o.operation with _ | _ | _ | _ | _ | _ | _ | _ | _ | ⟨y, k, q⟩ | _ <;>
        rw [hop] at hw <;> simp only [Slot.writes] at hw
      all_goals try cases hw
      split_ifs at hw with hκ
      exact iff_of_true ⟨_, rfl⟩ (BTreeMap.mem_iff.mp (hκ ▸ h.envelope hop))

/-! ## What is absorbed stays absorbed -/

/-- A record after an operation that finds its targets. -/
structure Grows (c d : ClipCrdt) : Prop where
  originClaim : d.originClaim = c.originClaim
  detached : c.detached = true → d.detached = true
  records : ∀ {f n}, c.Records f n → d.Records f n

theorem Takes.grows (h : s.Takes o.operation) (hx : s.clips[x]? = some c) :
    ∃ d, (s.exec o).clips[x]? = some d ∧ Grows c d := by
  by_cases hsplit : o.operation.IsSplit
  · obtain ⟨p, f, n, hop⟩ := TimelineOperation.isSplit_iff.mp hsplit
    rw [h.exec_split hop, clips_splitOff, hx]
    split_ifs with hn hp
    · exact ⟨_, rfl, rfl, id, id⟩
    · have hsame := SameStart.recordSplit c f n
      exact ⟨_, rfl, hsame.originClaim, hsame.detached.trans, fun hr => hr.recordSplit f n⟩
    · exact ⟨c, rfl, rfl, id, id⟩
  · rw [clips_exec hsplit, hx]
    split_ifs with hedit
    · rw [clipStep_some]
      refine ⟨_, rfl, rfl, fun hd => ?_, id⟩
      simp only [ClipCrdt.write, hd, Bool.true_or]
    · exact ⟨c, rfl, rfl, id, id⟩

theorem Absorbs.exec (ha : s.Absorbs op) (h : s.Takes o.operation) : (s.exec o).Absorbs op where
  targets := ha.targets.exec
  split := by
    intro p f n hop
    refine ⟨(ha.split hop).1, fun d hd => ?_⟩
    obtain ⟨c, hc⟩ := BTreeMap.mem_iff.mp (ha.introduced (.clip n) (by rw [hop]; rfl))
    obtain ⟨d', hd', hg⟩ := h.grows hc
    obtain rfl := Option.some.inj (hd.symm.trans hd')
    rw [hg.originClaim]
    exact (ha.split hop).2 c hc
  introduced r hr := (ha.introduced r hr).exec
  detached := by
    intro x d hedit hdet hd
    have hmem : x ∈ s.clips := by
      rcases op with y | y | y | _ | y | y | _ | _ | _ | _ | _ <;> cases hedit
      · exact ha.introduced (.clip x) rfl
      all_goals exact ha.targets (.clip x) List.mem_cons_self
    obtain ⟨c, hc⟩ := BTreeMap.mem_iff.mp hmem
    obtain ⟨d', hd', hg⟩ := h.grows hc
    obtain rfl := Option.some.inj (hd.symm.trans hd')
    exact hg.detached (ha.detached hedit hdet hc)
  recorded := by
    intro p f n d hop hd
    obtain ⟨c, hc⟩ := BTreeMap.mem_iff.mp
      (ha.targets (.clip p) (by rw [hop]; exact List.mem_cons_self))
    obtain ⟨d', hd', hg⟩ := h.grows hc
    obtain rfl := Option.some.inj (hd.symm.trans hd')
    exact hg.records (ha.recorded hop hc)
  envelope hop := by
    have hmem := ha.envelope hop
    obtain ⟨r, hr⟩ := BTreeMap.mem_iff.mp hmem
    rw [BTreeMap.mem_iff, envelopes_exec h.targets, hr]
    rcases (Slot.envelope _).writes o.operation with _ | points
    · exact ⟨r, rfl⟩
    · exact ⟨_, rfl⟩

/-- An operation that finds its targets is absorbed at once. -/
theorem Takes.absorbs (h : s.Takes o.operation) : (s.exec o).Absorbs o.operation where
  targets := h.targets.exec
  split := by
    intro p f n hop
    refine ⟨(h.split hop).1, fun d hd => ?_⟩
    rw [h.exec_split hop, clips_splitOff, if_pos rfl] at hd
    obtain rfl := Option.some.inj hd
    rcases hc : s.clips[n]? with _ | c
    · rfl
    · exact (h.split hop).2 c hc
  introduced := by
    intro r hr
    refine hasTarget_exec.mpr (.inr ?_)
    rcases hop : o.operation with _ | _ | _ | ⟨p, f, n⟩ | _ | _ | _ | _ | _ | _ | _ <;>
      rw [hop] at hr <;> cases hr
    · rfl
    · exact ⟨rfl, h.targets (.clip p) (by rw [hop]; exact List.mem_cons_self)⟩
    · rfl
  detached := by
    intro x d hedit hdet hd
    have hsplit : ¬o.operation.IsSplit := by
      intro hs
      obtain ⟨p, f, n, hop⟩ := TimelineOperation.isSplit_iff.mp hs
      rw [hop] at hedit
      cases hedit
    rcases clip_exec_of_not_split hsplit hd with ⟨c, hc, -⟩ | ⟨-, r, a, p, hop, -⟩
    · rw [(rewrites_exec hedit hc).record] at hd
      obtain rfl := Option.some.inj hd
      simp only [ClipCrdt.write, hdet, Bool.or_true]
    · rw [hop] at hdet
      cases hdet
  recorded := by
    intro p f n d hop hd
    rw [h.exec_split hop, clips_splitOff, if_neg (h.split hop).1.symm, if_pos rfl] at hd
    obtain ⟨c, hc, rfl⟩ := Option.map_eq_some_iff.mp hd
    exact ClipCrdt.records_recordSplit c f n
  envelope := by
    intro y k points hop
    rw [BTreeMap.mem_iff, envelopes_exec h.targets, hop]
    simp only [Slot.writes, if_true]
    exact ⟨_, rfl⟩

end Session

end AvSync
