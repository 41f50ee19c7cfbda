import AvSync.Proofs.Settled

/-!
# Operations that fail

An operation other than a split checks its target first, so it fails without a change. A split of
a missing clip looks at the child first: when the child exists it is rewritten before the parent is
found missing, and the operation that failed has left a mark (`apply_error_unchanged_iff`).
-/

namespace AvSync

namespace Session

variable {s : Session} {c n : ClipId} {f : UInt64} {t : OpTag} {child : ClipCrdt}

theorem revive_eq_self : child.revive t = child ↔ ¬child.alive.tag < t := by
  constructor
  · intro h hlt
    have htag : (child.alive.set true t).tag = t := congrArg LwwReg.tag (LwwReg.set_of_lt true hlt)
    rw [show child.alive.set true t = child.alive from congrArg ClipCrdt.alive h] at htag
    exact absurd (htag ▸ hlt) (lt_irrefl _)
  · intro h
    rw [ClipCrdt.revive, LwwReg.set_of_le true (not_lt.mp h)]

theorem modifyClip_eq_self {φ : ClipCrdt → ClipCrdt} (hn : s.clips[n]? = some child) :
    s.modifyClip n φ = s ↔ φ child = child := by
  constructor
  · intro h
    have : (s.modifyClip n φ).clips[n]? = some child := h.symm ▸ hn
    rw [clips_modifyClip, if_pos rfl, hn, Option.map_some, Option.some.injEq] at this
    exact this
  · intro h
    refine Session.ext rfl rfl ?_ rfl
    ext1 y
    rw [clips_modifyClip]
    split_ifs with hy
    · rw [← hy, hn, Option.map_some, h]
    · rfl

theorem error_clipReply {e : UnknownTarget} (h : s.clipReply c = .error e) : c ∉ s.clips := by
  intro hc
  rw [succeeds_clipReply.mpr hc] at h
  cases h

theorem originClaim_take {x : ClipId} {φ : ClipCrdt → ClipCrdt} {k : Claim} (hn : n ∈ s.clips) :
    ∃ d, (((s.modifyClip x φ).modifyClip n (·.link k)).modifyClip n (·.revive t)).clips[n]? =
      some d ∧ d.originClaim = some k := by
  obtain ⟨d, hd⟩ := BTreeMap.mem_iff.mp (mem_modifyClip.mpr hn : n ∈ (s.modifyClip x φ).clips)
  refine ⟨(d.link k).revive t, ?_, rfl⟩
  rw [clips_modifyClip, if_pos rfl, clips_modifyClip, if_pos rfl, hd, Option.map_some,
    Option.map_some]

/-- A split that fails changes nothing, unless it rewrites the child of a missing parent. -/
theorem applySplit_error_unchanged_iff {e : UnknownTarget}
    (h : (s.applySplit c f n t).1 = .error e) :
    (s.applySplit c f n t).2 = s ↔ ¬s.RewritesChild (.splitClip c f n) t := by
  have hrw : s.RewritesChild (.splitClip c f n) t ↔ c ≠ n ∧ c ∉ s.clips ∧
      ∃ child, s.clips[n]? = some child ∧
        ((∃ k, child.originClaim = some k ∧ (⟨c, f⟩ : Claim) < k) ∨
          child.originClaim.getD ⟨c, f⟩ = ⟨c, f⟩ ∧ child.alive.tag < t) := by
    constructor
    · rintro ⟨c', f', n', child, hop, h1, h2, h3, h4⟩
      cases hop
      exact ⟨h1, h2, child, h3, h4⟩
    · rintro ⟨h1, h2, child, h3, h4⟩
      exact ⟨c, f, n, child, rfl, h1, h2, h3, h4⟩
  rw [hrw]
  have hstep := applySplit_step s c f n t
  generalize s.applySplit c f n t = r at hstep h ⊢
  rcases hstep with e | ⟨e, hn, hk, hlt⟩ | ⟨e, hn, hc⟩ | ⟨e, hn, hc⟩ | ⟨e, hn, hk⟩ |
    ⟨e, hn, hk, hlt⟩
  · cases h
  · cases h
  · refine iff_of_true rfl ?_
    rintro ⟨-, -, child, hchild, -⟩
    exact hn (BTreeMap.mem_iff.mpr ⟨child, hchild⟩)
  · cases h
  · -- the child's own claim: only the revival can show
    have hc := error_clipReply h
    change (s.modifyClip n _).modifyClip c _ = s ↔ _
    rw [modifyClip_of_not_mem (by simpa using hc), modifyClip_eq_self hn, revive_eq_self,
      not_iff_not]
    constructor
    · exact fun ht => ⟨e, hc, _, hn, Or.inr ⟨hk, ht⟩⟩
    · rintro ⟨-, -, child, hchild, ⟨k, hk', hlt⟩ | ⟨-, ht⟩⟩
      · obtain rfl := Option.some.inj (hn.symm.trans hchild)
        rw [hk', Option.getD_some] at hk
        exact absurd hlt (hk ▸ lt_irrefl _)
      · obtain rfl := Option.some.inj (hn.symm.trans hchild)
        exact ht
  · -- a smaller claim: the child has a new owner
    rename_i child k
    have hc := error_clipReply h
    refine iff_of_false (fun hs => ?_) (not_not_intro ⟨e, hc, _, hn, Or.inl ⟨_, hk, hlt⟩⟩)
    rw [modifyClip_of_not_mem (by simpa using hc)] at hs
    simp only at hs
    obtain ⟨d, hd, hdk⟩ := originClaim_take (x := k.clip) (φ := (·.dropSplit k.offset n)) (t := t)
      (k := ⟨c, f⟩) (BTreeMap.mem_iff.mpr ⟨_, hn⟩)
    rw [hs, hn, Option.some.injEq] at hd
    rw [← hd, hk, Option.some.injEq] at hdk
    exact absurd hlt (hdk ▸ lt_irrefl _)

/-- An operation that fails changes nothing, unless it is a split that rewrites the child of a
missing parent. -/
theorem apply_error_unchanged_iff {op : TimelineOperation} {e : UnknownTarget}
    (h : (s.apply op t).1 = .error e) : (s.apply op t).2 = s ↔ ¬s.RewritesChild op t := by
  by_cases hsplit : ∃ c f n, op = .splitClip c f n
  · obtain ⟨c, f, n, rfl⟩ := hsplit
    exact applySplit_error_unchanged_iff h
  · have hns : ¬op.IsSplit := fun hs => hsplit (TimelineOperation.isSplit_iff.mp hs)
    have ht : ¬s.HasTargets op := by
      intro ht
      rw [ok_of_hasTargets ht] at h
      cases h
    obtain ⟨e', ha⟩ := apply_of_missing (t := t) hns ht
    refine iff_of_true (by rw [ha]) ?_
    rintro ⟨c, f, n, child, rfl, -⟩
    exact hsplit ⟨c, f, n, rfl⟩

/-- A clip is inserted and deleted, before it is split off a clip that is missing. -/
def orphanOps : List TaggedOperation :=
  [.of 1 1 (.insertClip ⟨2⟩ ⟨1⟩ (.new "c" 0 100) 0), .of 2 1 (.deleteClip ⟨2⟩)]

/-- The split fails, and leaves the clip deleted if it is older than the delete. -/
theorem olderSplit_unchanged :
    ((new.replay orphanOps).apply (.splitClip ⟨1⟩ 10 ⟨2⟩) ⟨1, ⟨2⟩⟩).2 =
      new.replay orphanOps := by
  refine (apply_error_unchanged_iff (e := unknownClip ⟨1⟩) (by decide +kernel)).mpr ?_
  rintro ⟨c, f, n, child, hop, -, -, hn, hrw⟩
  cases hop
  have hchild : (new.replay orphanOps).clips[(⟨2⟩ : ClipId)]?.map
      (fun d => (d.originClaim, d.alive.tag)) = some (none, ⟨2, ⟨1⟩⟩) := by decide +kernel
  rw [hn] at hchild
  obtain ⟨hclaim, htag⟩ := Prod.mk.inj (Option.some.inj hchild)
  rcases hrw with ⟨k, hk, -⟩ | ⟨-, ht⟩
  · rw [hclaim] at hk
    cases hk
  · rw [htag] at ht
    exact absurd ht (by decide)

/-- If it is newer, it fails and has brought the clip back. -/
theorem orphanOps_split_changes :
    ((new.replay orphanOps).apply (.splitClip ⟨1⟩ 10 ⟨2⟩) ⟨3, ⟨1⟩⟩).1 =
        .error (unknownClip ⟨1⟩) ∧
      ((new.replay orphanOps).apply (.splitClip ⟨1⟩ 10 ⟨2⟩) ⟨3, ⟨1⟩⟩).2 ≠
        new.replay orphanOps := by
  refine ⟨by decide +kernel, fun h => ?_⟩
  have halive := congrArg (fun s : Session => s.clips[(⟨2⟩ : ClipId)]?.map (·.alive.value)) h
  revert halive
  decide +kernel

end Session

end AvSync
