import AvSync.LocalRuns
import AvSync.Proofs.Calls
import AvSync.Proofs.Convergence
import AvSync.Proofs.View

/-!
# What a run of one user leaves behind

The session of such a run is the replay of its log, the log is in stamp order, each split child
has one owner, and what the history can issue again is there (`LocalRun`). Each call keeps this
(`LocalRun.call`).
-/

namespace AvSync

namespace Session

variable {s : Session} {o : TaggedOperation} {l : List TaggedOperation}

/-! ## Where entities and parent links come from -/

/-- An operation that creates an entity introduces it, unless it was there. -/
theorem Creates.introduced {op : TimelineOperation} {r : RequiredTarget} (h : s.Creates op r) :
    op.introduced = some r ∧ ((∃ x f, op = .splitClip x f x) → s.HasTarget r) := by
  rcases op with _ | _ | _ | ⟨c, f, n⟩ | _ | _ | _ | _ | _ | _ | _ <;> rcases r with y | y <;>
    simp only [Creates] at h
  · refine ⟨h ▸ rfl, ?_⟩
    rintro ⟨x, f, hx⟩
    cases hx
  · refine ⟨h.1 ▸ rfl, ?_⟩
    rintro ⟨x, f', hx⟩
    cases hx
    exact h.1 ▸ h.2
  · refine ⟨h ▸ rfl, ?_⟩
    rintro ⟨x, f, hx⟩
    cases hx

theorem introduced_of_replay {r : RequiredTarget} (h : (new.replay l).HasTarget r) :
    ∃ o ∈ l, o.operation.introduced = some r ∧ ∀ x f, o.operation ≠ .splitClip x f x := by
  revert h
  refine Machine.run_inv (M := machine) (I := fun s : Session => s.HasTarget r →
    ∃ o ∈ l, o.operation.introduced = some r ∧ ∀ x f, o.operation ≠ .splitClip x f x)
    (fun s o ho ih h => ?_) fun h => ?_
  · rcases hasTarget_exec.mp h with h | h
    · exact ih h
    · by_cases hself : ∃ x f, o.operation = .splitClip x f x
      · exact ih (h.introduced.2 hself)
      · exact ⟨o, ho, h.introduced.1, fun x f hop => hself ⟨x, f, hop⟩⟩
  · rcases r with x | x <;> simp [HasTarget, new] at h

/-- The geometry, the track, the flag and the link of the records are the same. -/
structure SameStart (d e : ClipCrdt) : Prop where
  detached : d.detached = e.detached
  startFrame : d.startFrame = e.startFrame
  durationFrames : d.durationFrames = e.durationFrames
  track : d.track = e.track
  parent : d.parent = e.parent
  originClaim : d.originClaim = e.originClaim

namespace SameStart

variable {d e : ClipCrdt}

theorem refl (d : ClipCrdt) : SameStart d d := ⟨rfl, rfl, rfl, rfl, rfl, rfl⟩

theorem trans {b : ClipCrdt} (h : SameStart d e) (h' : SameStart e b) : SameStart d b :=
  ⟨h.detached.trans h'.detached, h.startFrame.trans h'.startFrame,
    h.durationFrames.trans h'.durationFrames, h.track.trans h'.track, h.parent.trans h'.parent,
    h.originClaim.trans h'.originClaim⟩

theorem recordSplit (e : ClipCrdt) (f : UInt64) (n : ClipId) : SameStart (e.recordSplit f n) e := by
  rw [ClipCrdt.recordSplit_eq]
  exact ⟨rfl, rfl, rfl, rfl, rfl, rfl⟩

theorem dropSplit (e : ClipCrdt) (f : UInt64) (n : ClipId) : SameStart (e.dropSplit f n) e := by
  unfold ClipCrdt.dropSplit
  split_ifs <;> exact ⟨rfl, rfl, rfl, rfl, rfl, rfl⟩

theorem revive (e : ClipCrdt) (t : OpTag) : SameStart (e.revive t) e :=
  ⟨rfl, rfl, rfl, rfl, rfl, rfl⟩

theorem of_modifyClip {x y : ClipId} {φ : ClipCrdt → ClipCrdt} (hφ : ∀ e, SameStart (φ e) e)
    (hy : (s.modifyClip x φ).clips[y]? = some d) : ∃ e, s.clips[y]? = some e ∧ SameStart d e := by
  rw [clips_modifyClip] at hy
  split_ifs at hy
  · obtain ⟨e, he, rfl⟩ := Option.map_eq_some_iff.mp hy
    exact ⟨e, he, hφ e⟩
  · exact ⟨d, hy, .refl d⟩

end SameStart

/-- What a split leaves of a record: the child it creates, or the record as it was, or linked anew
if it had been linked before. -/
theorem clip_exec_split {c n y : ClipId} {f : UInt64} (hop : o.operation = .splitClip c f n)
    {d : ClipCrdt} (hy : (s.exec o).clips[y]? = some d) :
    (y = n ∧ n ∉ s.clips ∧ d = childRecord ⟨c, f⟩ o.tag) ∨
      ∃ e, s.clips[y]? = some e ∧
        (SameStart d e ∨ e.originClaim ≠ none ∧ SameStart d (e.link ⟨c, f⟩)) := by
  simp only [exec, hop, apply] at hy
  have hstep := applySplit_step s c f n o.tag
  generalize s.applySplit c f n o.tag = r at hstep hy
  rcases hstep with _ | _ | _ | ⟨-, hn, hc⟩ | ⟨-, hn, hk⟩ | @⟨child, k, -, hn, hk, -⟩
  · exact .inr ⟨d, hy, .inl (.refl d)⟩
  · exact .inr ⟨d, hy, .inl (.refl d)⟩
  · exact .inr ⟨d, hy, .inl (.refl d)⟩
  · rw [clips_setClip] at hy
    split_ifs at hy with h
    · exact .inl ⟨h.symm, hn, (Option.some.inj hy).symm⟩
    · obtain ⟨e, he, hde⟩ := SameStart.of_modifyClip (fun e => .recordSplit e f n) hy
      exact .inr ⟨e, he, .inl hde⟩
  · obtain ⟨e, he, hde⟩ := SameStart.of_modifyClip (fun e => .recordSplit e f n) hy
    obtain ⟨e', he', hee⟩ := SameStart.of_modifyClip (fun e => .revive e o.tag) he
    exact .inr ⟨e', he', .inl (hde.trans hee)⟩
  · obtain ⟨e, he, hde⟩ := SameStart.of_modifyClip (fun e => .recordSplit e f n) hy
    obtain ⟨e', he', hee⟩ := SameStart.of_modifyClip (fun e => .revive e o.tag) he
    rw [clips_modifyClip] at he'
    split_ifs at he' with hny
    · obtain ⟨e₁, he₁, rfl⟩ := Option.map_eq_some_iff.mp he'
      obtain ⟨e₂, he₂, h₂⟩ := SameStart.of_modifyClip (fun e => .dropSplit e k.offset n) he₁
      obtain rfl : child = e₂ := Option.some.inj (hn.symm.trans (hny ▸ he₂))
      refine .inr ⟨child, he₂, .inr ⟨by rw [hk]; exact Option.some_ne_none k, ?_⟩⟩
      exact (hde.trans hee).trans
        ⟨h₂.detached, h₂.startFrame, h₂.durationFrames, h₂.track, rfl, rfl⟩
    · obtain ⟨e₂, he₂, h₂⟩ := SameStart.of_modifyClip (fun e => .dropSplit e k.offset n) he'
      exact .inr ⟨e₂, he₂, .inl ((hde.trans hee).trans h₂)⟩

/-- A clip's parent link is its claim. -/
def Linked (s : Session) : Prop :=
  ∀ (x : ClipId) (c : ClipCrdt), s.clips[x]? = some c →
    c.parent = c.originClaim.map fun k => ⟨k.clip, k.offset⟩

theorem Linked.exec (h : s.Linked) : (s.exec o).Linked := by
  intro y d hy
  by_cases hsplit : o.operation.IsSplit
  · obtain ⟨c, f, n, hop⟩ := TimelineOperation.isSplit_iff.mp hsplit
    rcases clip_exec_split hop hy with ⟨-, -, rfl⟩ | ⟨e, he, hde | ⟨-, hde⟩⟩
    · rfl
    · rw [hde.parent, hde.originClaim, h y e he]
    · rw [hde.parent, hde.originClaim]
      rfl
  · rcases clip_exec_of_not_split hsplit hy with ⟨e, he, rfl | ⟨-, rfl⟩⟩ | ⟨-, _, _, _, -, rfl⟩
    · exact h y d he
    · exact h y e he
    · rfl

/-- A split piece with a duration of its own has been detached, or has a track of its own: an
insert writes both registers. -/
def Landed (s : Session) : Prop :=
  ∀ (x : ClipId) (c : ClipCrdt), s.clips[x]? = some c → c.originClaim ≠ none →
    c.detached = true ∨ c.durationFrames.value = 0 ∨ c.track.tag ≠ .initial

theorem landed_write {c : ClipCrdt} {w : ClipWrite} {t : OpTag}
    (hw : w.durationFrames = none ∨ w.detach = true ∨ w.track ≠ none)
    (h : c.detached = true ∨ c.durationFrames.value = 0 ∨ c.track.tag ≠ .initial) :
    (c.write w t).detached = true ∨ (c.write w t).durationFrames.value = 0 ∨
      (c.write w t).track.tag ≠ .initial := by
  have hmono : ∀ v, c.track.tag ≠ .initial → (c.track.setOption v t).tag ≠ .initial := by
    rintro (_ | v) hne
    · exact hne
    · rw [LwwReg.setOption]
      rcases lt_or_ge c.track.tag t with hlt | hle
      · rw [LwwReg.set_of_lt v hlt]
        exact ne_of_gt (lt_of_le_of_lt (OpTag.initial_le _) hlt)
      · rwa [LwwReg.set_of_le v hle]
  simp only [ClipCrdt.write, Bool.or_eq_true]
  rcases h with h | h | h
  · exact .inl (.inl h)
  · rcases hw with hw | hw | hw
    · exact .inr (.inl (by rw [hw]; exact h))
    · exact .inl (.inr hw)
    · by_cases ht : t = .initial
      · -- nothing is written
        refine .inr (.inl ?_)
        rcases w.durationFrames with _ | v
        · exact h
        · rw [LwwReg.setOption, LwwReg.set_of_le v (ht ▸ OpTag.initial_le _)]
          exact h
      · obtain ⟨v, hv⟩ := Option.ne_none_iff_exists'.mp hw
        refine .inr (.inr ?_)
        rw [hv, LwwReg.setOption]
        rcases lt_or_ge c.track.tag t with hlt | hle
        · rw [LwwReg.set_of_lt v hlt]
          exact ht
        · rw [LwwReg.set_of_le v hle]
          rintro h0
          exact ht (le_antisymm (h0 ▸ hle) (OpTag.initial_le t))
  · exact .inr (.inr (hmono _ h))

theorem Landed.exec (h : s.Landed) : (s.exec o).Landed := by
  intro y d hy hclaim
  have same : ∀ {e : ClipCrdt}, SameStart d e → (e.detached = true ∨ e.durationFrames.value = 0 ∨
      e.track.tag ≠ .initial) → d.detached = true ∨ d.durationFrames.value = 0 ∨
        d.track.tag ≠ .initial := by
    intro e hde he
    rwa [hde.detached, hde.durationFrames, hde.track]
  by_cases hsplit : o.operation.IsSplit
  · obtain ⟨c, f, n, hop⟩ := TimelineOperation.isSplit_iff.mp hsplit
    rcases clip_exec_split hop hy with ⟨-, -, rfl⟩ | ⟨e, he, hde | ⟨hne, hde⟩⟩
    · exact .inr (.inl rfl)
    · exact same hde (h y e he (hde.originClaim ▸ hclaim))
    · exact same hde (h y e he hne)
  · rcases clip_exec_of_not_split hsplit hy with ⟨e, he, rfl | ⟨-, rfl⟩⟩ | ⟨-, _, _, _, -, rfl⟩
    · exact h y d he hclaim
    · refine landed_write ?_ (h y e he hclaim)
      rcases o.operation with _ | _ | _ | _ | _ | _ | _ | _ | _ | _ | _ <;>
        simp [TimelineOperation.clipWrite]
    · exact absurd rfl hclaim

theorem linked_new : new.Linked := fun x c h => by simp [new] at h

theorem landed_new : new.Landed := fun x c h => by simp [new] at h

theorem linked_replay (l : List TaggedOperation) : (new.replay l).Linked :=
  Machine.run_inv (M := machine) (I := Linked) (fun _ _ _ h => h.exec) linked_new

end Session

namespace TimelineCrdt

variable {peer : PeerId} {c c' : TimelineCrdt} {op : TimelineOperation}
  {inv : Option TimelineOperation}

/-! ## The log -/

/-- `op` introduces an unused entity, or one that is there; a split of the latter kind has been
logged. -/
def Sound (c : TimelineCrdt) (op : TimelineOperation) : Prop :=
  ∀ r, op.introduced = some r → c.Unused r ∨
    (c.session.HasTarget r ∨ ∃ x f, op = .splitClip x f x) ∧
      (op.IsSplit → ∃ o ∈ c.operationLog, o.operation = op)

/-- The log and the session of a run of one user. -/
structure LocalLog (peer : PeerId) (c : TimelineCrdt) : Prop where
  local_eq : c.localPeerId = peer
  session_eq : c.session = Session.new.replay c.operationLog
  perm : (Session.new.applied c.operationLog ++ c.pending).Perm c.operationLog
  stamped : ∀ o ∈ c.operationLog, o.opId = ⟨o.lamportTs, o.peerId⟩ ∧ o.peerId = peer ∧
    1 ≤ o.lamportTs ∧ o.lamportTs ≤ c.lamport.counter
  sorted : c.operationLog.Pairwise fun a b => a.lamportTs < b.lamportTs
  claim_eq : ∀ o ∈ c.operationLog, ∀ o' ∈ c.operationLog, ∀ {x f n x' f'},
    o.operation = .splitClip x f n → o'.operation = .splitClip x' f' n → x = x' ∧ f = f'
  owned : Session.Owned c.operationLog c.session
  rooted : c.session.Rooted
  forest : c.session.Forest

theorem stamp_log : (c.stamp op inv).2.operationLog = c.operationLog ++ [c.tagNext op] := by
  obtain ⟨s, p, h, he⟩ := stamp_eq c op inv
  rw [he]

theorem stamp_history : (c.stamp op inv).2.history =
    if c.session.Succeeds (c.tagNext op) then
      inv.elim c.history fun inv => c.history.record ⟨op, inv⟩ else c.history := by
  split_ifs with h
  · rw [stamp_of_succeeds inv h]
  · rw [stamp_of_fails inv h]

namespace LocalLog

theorem new (peer : PeerId) : LocalLog peer (.new peer) where
  local_eq := rfl
  session_eq := rfl
  perm := .nil
  stamped _ ho := absurd ho List.not_mem_nil
  sorted := .nil
  claim_eq _ ho := absurd ho List.not_mem_nil
  owned := Session.owned_new
  rooted x y h := by simp [Session.parentOf, TimelineCrdt.new, Session.new] at h
  forest := Session.forest_new

theorem withHistory (h : LocalLog peer c) (h₀ : History) :
    LocalLog peer { c with history := h₀ } :=
  ⟨h.local_eq, h.session_eq, h.perm, h.stamped, h.sorted, h.claim_eq, h.owned, h.rooted, h.forest⟩

variable (h : LocalLog peer c) (hs : c.Sound op)

include h

theorem not_unused {r : RequiredTarget} (hr : c.session.HasTarget r) : ¬c.Unused r := by
  rw [h.session_eq] at hr
  obtain ⟨o, ho, hop, -⟩ := Session.introduced_of_replay hr
  exact fun hu => hu o ho hop

include hs

/-- A sound split makes no other claim to a logged child. -/
theorem claim_next {o : TaggedOperation} (ho : o ∈ c.operationLog) {x f n x' f'}
    (hop : op = .splitClip x f n) (hop' : o.operation = .splitClip x' f' n) : x = x' ∧ f = f' := by
  rcases hs (.clip n) (by rw [hop]; rfl) with hu | ⟨-, hl⟩
  · exact absurd (by rw [hop']; rfl) (hu o ho)
  · obtain ⟨o₁, ho₁, hop₁⟩ := hl (by rw [hop]; trivial)
    exact h.claim_eq o₁ ho₁ o ho (hop₁.trans hop) hop'

theorem claim_eq_stamp : ∀ o ∈ c.operationLog ++ [c.tagNext op],
    ∀ o' ∈ c.operationLog ++ [c.tagNext op], ∀ {x f n x' f'},
    o.operation = .splitClip x f n → o'.operation = .splitClip x' f' n → x = x' ∧ f = f' := by
  intro o ho o' ho' x f n x' f' hop hop'
  rcases List.mem_append.mp ho with ho | ho <;> rcases List.mem_append.mp ho' with ho' | ho'
  · exact h.claim_eq o ho o' ho' hop hop'
  · obtain rfl := List.mem_singleton.mp ho'
    obtain ⟨rfl, rfl⟩ := h.claim_next hs ho hop' hop
    exact ⟨rfl, rfl⟩
  · obtain rfl := List.mem_singleton.mp ho
    exact h.claim_next hs ho' hop hop'
  · obtain rfl := List.mem_singleton.mp ho
    obtain rfl := List.mem_singleton.mp ho'
    cases hop.symm.trans hop'
    exact ⟨rfl, rfl⟩

theorem owned_next : Session.Owned (c.operationLog ++ [c.tagNext op]) c.session := by
  intro o ho x f n hop hxn child hchild
  rcases List.mem_append.mp ho with ho | ho
  · exact h.owned o ho hop hxn child hchild
  · obtain rfl := List.mem_singleton.mp ho
    have hop : op = .splitClip x f n := hop
    rcases hs (.clip n) (by rw [hop]; rfl) with hu | ⟨-, hl⟩
    · exact absurd hu (h.not_unused (r := .clip n) (BTreeMap.mem_iff.mpr ⟨child, hchild⟩))
    · obtain ⟨o₁, ho₁, hop₁⟩ := hl (by rw [hop]; trivial)
      exact h.owned o₁ ho₁ (hop₁.trans hop) hxn child hchild

theorem owned_stamp : Session.Owned (c.operationLog ++ [c.tagNext op])
    (c.session.exec (c.tagNext op)) := by
  have hmem : c.tagNext op ∈ c.operationLog ++ [c.tagNext op] := by simp
  refine (h.owned_next hs).exec_of hmem (fun o' ho' => h.claim_eq_stamp hs _ hmem o' ho') ?_
  intro o' ho' x f n r d p hop' hop
  have hop : op = .insertClip n r d p := hop
  rcases hs (.clip n) (by rw [hop]; rfl) with hu | ⟨hn | ⟨x, f, hx⟩, -⟩
  · rcases List.mem_append.mp ho' with ho' | ho'
    · exact absurd (by rw [hop']; rfl) (hu o' ho')
    · obtain rfl := List.mem_singleton.mp ho'
      cases hop.symm.trans hop'
  · exact hn
  · cases hop.symm.trans hx

theorem stamp (hl : c.lamport.counter < u64Max) : LocalLog peer (c.stamp op inv).2 := by
  have hlt : c.lamport.counter < c.lamport.tick.1 := lt_saturatingAdd_one hl
  have hlog : (c.stamp op inv).2.operationLog = c.operationLog ++ [c.tagNext op] := stamp_log
  have hsess := stamp_session (c := c) op inv
  have hlam : (c.stamp op inv).2.lamport = c.lamport.tick.2 := by
    obtain ⟨s, p, h, he⟩ := stamp_eq c op inv
    rw [he]
  have hmem : c.tagNext op ∈ c.operationLog ++ [c.tagNext op] := by simp
  refine ⟨?_, ?_, ?_, fun o ho => ?_, ?_, ?_, ?_, ?_, ?_⟩
  · obtain ⟨s, p, h', he⟩ := stamp_eq c op inv
    rw [he]
    exact h.local_eq
  · rw [hsess, hlog, Session.replay_append, ← h.session_eq]
    rfl
  · rw [hlog, stamp_pending, Session.applied_append, ← h.session_eq]
    simp only [Session.applied]
    split_ifs
    · rw [List.append_assoc]
      refine (List.Perm.append_left _ List.perm_append_comm).trans ?_
      rw [← List.append_assoc]
      exact h.perm.append_right _
    · rw [List.append_nil, ← List.append_assoc]
      exact h.perm.append_right _
  · rw [hlam]
    rw [hlog] at ho
    rcases List.mem_append.mp ho with ho | ho
    · obtain ⟨h1, h2, h3, h4⟩ := h.stamped o ho
      exact ⟨h1, h2, h3, h4.trans hlt.le⟩
    · obtain rfl := List.mem_singleton.mp ho
      refine ⟨rfl, h.local_eq, ?_, le_rfl⟩
      change 1 ≤ c.lamport.tick.1
      rw [UInt64.lt_iff_toNat_lt] at hlt
      rw [UInt64.le_iff_toNat_le, UInt64.toNat_one]
      omega
  · rw [hlog, List.pairwise_append]
    refine ⟨h.sorted, List.pairwise_singleton _ _, fun a ha b hb => ?_⟩
    obtain rfl := List.mem_singleton.mp hb
    exact (h.stamped a ha).2.2.2.trans_lt hlt
  · rw [hlog]
    exact h.claim_eq_stamp hs
  · rw [hlog, hsess]
    exact h.owned_stamp hs
  · rw [hsess]
    exact (h.owned_next hs).rooted_exec hmem h.rooted
  · rw [hsess]
    exact (Session.forest_exec_iff h.forest).mpr ((h.owned_next hs).keepsForest hmem h.rooted)

end LocalLog

/-! ## The history -/

theorem popUndo_eq {hist h₀ : History} {e : HistoryEntry} (h : hist.popUndo = some (e, h₀)) :
    hist.undoStack = e :: h₀.undoStack ∧ h₀.redoStack = hist.redoStack := by
  unfold History.popUndo at h
  split at h
  · cases h
  · rename_i hu
    cases h
    exact ⟨hu, rfl⟩

theorem popRedo_eq {hist h₀ : History} {e : HistoryEntry} (h : hist.popRedo = some (e, h₀)) :
    hist.redoStack = e :: h₀.redoStack ∧ h₀.undoStack = hist.undoStack := by
  unfold History.popRedo at h
  split at h
  · cases h
  · rename_i hu
    cases h
    exact ⟨hu, rfl⟩

/-- What a history entry issues again is logged or there. -/
structure Replayable (c : TimelineCrdt) (e : HistoryEntry) : Prop where
  logged : ∃ o ∈ c.operationLog, o.operation = e.forward
  forward : ∀ r, e.forward.introduced = some r →
    c.session.HasTarget r ∨ ∃ x f, e.forward = .splitClip x f x
  no_split : ¬e.inverse.IsSplit
  inverse : ∀ r, e.inverse.introduced = some r → c.session.HasTarget r

/-- The log, the session and the history of a run of one user. -/
structure LocalRun (peer : PeerId) (c : TimelineCrdt) : Prop extends LocalLog peer c where
  history : ∀ e, e ∈ c.history.undoStack ∨ e ∈ c.history.redoStack → c.Replayable e

/-- An inverse introduces only what is there. -/
theorem computeInverse_introduced {s : Session} {i : TimelineOperation}
    (h : computeInverse op s = some (some i)) :
    ¬i.IsSplit ∧ ∀ r, i.introduced = some r → s.HasTarget r := by
  have hclip : ∀ {x : ClipId} {f : Session.ResolvedClip → TimelineOperation},
      (s.resolveClip x).map (fun prev => prev.map f) = some (some i) →
      (∀ p, ¬(f p).IsSplit ∧ ∀ r, (f p).introduced = some r → r = .clip x) →
      ¬i.IsSplit ∧ ∀ r, i.introduced = some r → s.HasTarget r := by
    intro x f hx hf
    obtain ⟨prev, hprev, hp⟩ := Option.map_eq_some_iff.mp hx
    obtain ⟨p, rfl, rfl⟩ := Option.map_eq_some_iff.mp hp
    exact ⟨(hf p).1, fun r hr => (hf p).2 r hr ▸ Session.mem_of_resolveClip hprev⟩
  have hins : ∀ (x : ClipId) (p : Session.ResolvedClip), ¬(reinsertClip x p).IsSplit ∧
      ∀ r, (reinsertClip x p).introduced = some r → r = .clip x :=
    fun x p => ⟨id, fun r hr => (Option.some.inj hr).symm⟩
  rcases op with x | x | x | ⟨x, f, n⟩ | x | x | x | x | x | _ | _ <;>
    simp only [computeInverse] at h
  case insertClip =>
    split_ifs at h
    · exact hclip h (hins x)
    · cases h
      exact ⟨id, fun r hr => by cases hr⟩
  case deleteClip => exact hclip h (hins x)
  case moveClip | trimClip | updateClipMetadata =>
    exact hclip h fun p => ⟨id, fun r hr => by cases hr⟩
  case splitClip =>
    split_ifs at h
    · cases h
    · cases h
      exact ⟨id, fun r hr => by cases hr⟩
  case insertTrack =>
    rcases hx : s.tracks[x]? with _ | prev <;> simp only [hx] at h <;> cases h
    · exact ⟨id, fun r hr => by cases hr⟩
    · refine ⟨id, fun r hr => ?_⟩
      obtain rfl := Option.some.inj hr
      exact BTreeMap.mem_iff.mpr ⟨prev, hx⟩
  case updateTrackMetadata =>
    obtain ⟨prev, -, rfl⟩ := Option.map_eq_some_iff.mp (Option.some.inj h)
    exact ⟨id, fun r hr => by cases hr⟩
  case deleteTrack =>
    obtain ⟨prev, hx, rfl⟩ := Option.map_eq_some_iff.mp (Option.some.inj h)
    refine ⟨id, fun r hr => ?_⟩
    obtain rfl := Option.some.inj hr
    exact BTreeMap.mem_iff.mpr ⟨prev, hx⟩
  case updateEnvelope =>
    cases h
    exact ⟨id, fun r hr => by cases hr⟩
  case updateSessionMetadata =>
    obtain ⟨v, -, hv⟩ := Option.map_eq_some_iff.mp h
    cases hv
    exact ⟨id, fun r hr => by cases hr⟩

/-- A history entry was there before the call, or the call has recorded it. -/
theorem call_history {k : Call} (hu : c.UserCall k) (hk : c.call k = some c') {e : HistoryEntry}
    (he : e ∈ c'.history.undoStack ∨ e ∈ c'.history.redoStack) :
    (e ∈ c.history.undoStack ∨ e ∈ c.history.redoStack) ∨
      ∃ op i, k = .applyLocal op ∧ computeInverse op c.session = some (some i) ∧
        c.session.Succeeds (c.tagNext op) ∧ e = ⟨op, i⟩ := by
  rcases k with op | _ | _ | _ | _
  · obtain ⟨⟨t, c₁⟩, h1, rfl⟩ := Option.map_eq_some_iff.mp hk
    obtain ⟨inv, hi, h2⟩ := Option.map_eq_some_iff.mp h1
    have hc₁ : c₁ = (c.stamp op inv).2 := (congrArg Prod.snd h2).symm
    simp only [hc₁, stamp_history] at he
    split_ifs at he with hok
    swap
    · exact .inl he
    rcases inv with _ | i
    · exact .inl he
    simp only [Option.elim, History.record, List.not_mem_nil, or_false, List.mem_cons] at he
    rcases he with rfl | he
    · exact .inr ⟨op, i, rfl, hi, hok, rfl⟩
    · refine .inl (.inl ?_)
      split_ifs at he
      · exact List.mem_of_mem_dropLast he
      · exact he
  · simp only [TimelineCrdt.call, undo, Option.some.injEq] at hk
    rcases hp : c.history.popUndo with _ | ⟨e', h₀⟩ <;> simp only [hp] at hk
    · exact .inl (hk ▸ he)
    · obtain ⟨hu₀, hr₀⟩ := popUndo_eq hp
      subst hk
      simp only [stamp_history, Option.elim, ite_self, History.pushRedo, List.mem_cons, hr₀] at he
      rw [hu₀, List.mem_cons]
      tauto
  · simp only [TimelineCrdt.call, redo, Option.some.injEq] at hk
    rcases hp : c.history.popRedo with _ | ⟨e', h₀⟩ <;> simp only [hp] at hk
    · exact .inl (hk ▸ he)
    · obtain ⟨hr₀, hu₀⟩ := popRedo_eq hp
      subst hk
      simp only [stamp_history, Option.elim, ite_self, History.pushUndo, List.mem_cons, hu₀] at he
      rw [hr₀, List.mem_cons]
      tauto
  · exact hu.elim
  · exact hu.elim

/-- A call of the user stamps what it issues, or changes nothing. -/
theorem userCall_cases {k : Call} (hu : c.UserCall k) (hk : c.call k = some c') :
    (∃ op inv h₀ h₁, c.issued k = some op ∧
      c' = { ({ c with history := h₀ }.stamp op inv).2 with history := h₁ }) ∨
      (c.issued k = none ∧ c' = c) := by
  refine (call_cases hk).imp_right fun ⟨hop, hc⟩ => ⟨hop, hc.trans ?_⟩
  rcases k with _ | _ | _ | _ | _
  case applyRemote | mergeSnapshot => exact hu.elim
  all_goals rfl

theorem Replayable.stamp {e : HistoryEntry} (h : c.Replayable e) :
    (c.stamp op inv).2.Replayable e := by
  obtain ⟨o, ho, hop⟩ := h.logged
  refine ⟨⟨o, ?_, hop⟩, fun r hr => ?_, h.no_split, fun r hr => ?_⟩
  · rw [stamp_log]
    exact List.mem_append_left _ ho
  · rw [stamp_session]
    exact (h.forward r hr).imp Session.HasTarget.exec id
  · rw [stamp_session]
    exact (h.inverse r hr).exec

theorem Replayable.withHistory {e : HistoryEntry} (h : c.Replayable e) (h₀ : History) :
    Replayable { c with history := h₀ } e := ⟨h.logged, h.forward, h.no_split, h.inverse⟩

namespace LocalRun

theorem new (peer : PeerId) : LocalRun peer (.new peer) where
  toLocalLog := .new peer
  history e he := by simp [TimelineCrdt.new, History.new] at he

variable (h : LocalRun peer c)

include h

/-- What an operation that applies introduces is there afterwards. -/
theorem hasTarget_next (hs : c.Sound op) (hok : c.session.Succeeds (c.tagNext op))
    {r : RequiredTarget} (hr : op.introduced = some r) :
    (c.session.exec (c.tagNext op)).HasTarget r ∨ ∃ x f, op = .splitClip x f x := by
  rcases hop : op with x | _ | _ | ⟨x, f, n⟩ | _ | _ | x | _ | _ | _ | _ <;> rw [hop] at hr <;>
    cases hr
  case insertClip => exact .inl (Session.hasTarget_exec.mpr (.inr rfl))
  case insertTrack => exact .inl (Session.hasTarget_exec.mpr (.inr rfl))
  case splitClip =>
    have hown : Session.Owned (c.operationLog ++ [c.tagNext op]) c.session :=
      h.owned_next hs
    rcases hown.split (o := c.tagNext op) (by simp) hop with
      ⟨e, -⟩ | ⟨-, -, hf, -⟩ | ⟨-, hx, -⟩
    · exact .inr ⟨x, f, e ▸ rfl⟩
    · exact absurd (hop ▸ hok) hf
    · exact .inl (Session.hasTarget_exec.mpr (.inr ⟨rfl, hx⟩))

theorem sound {k : Call} (hu : c.UserCall k) (hop : c.issued k = some op) : c.Sound op := by
  rcases k with op' | _ | _ | _ | _
  · obtain rfl := Option.some.inj hop
    intro r hr
    have ha : c.Admits op' := hu
    rw [Admits, hr] at ha
    exact .inl ha
  · obtain ⟨⟨e, h₀⟩, hp, rfl⟩ := Option.map_eq_some_iff.mp hop
    have he := h.history e (.inl ((popUndo_eq hp).1 ▸ List.mem_cons_self))
    exact fun r hr => .inr ⟨.inl (he.inverse r hr), fun hs => absurd hs he.no_split⟩
  · obtain ⟨⟨e, h₀⟩, hp, rfl⟩ := Option.map_eq_some_iff.mp hop
    have he := h.history e (.inr ((popRedo_eq hp).1 ▸ List.mem_cons_self))
    exact fun r hr => .inr ⟨he.forward r hr, fun _ => he.logged⟩
  · cases hop
  · cases hop

/-- A recorded edit can be undone and done again. -/
theorem replayable_next {i : TimelineOperation} (hs : c.Sound op)
    (hi : computeInverse op c.session = some (some i)) (hok : c.session.Succeeds (c.tagNext op))
    (h₀ : History) : ({ c with history := h₀ }.stamp op inv).2.Replayable ⟨op, i⟩ := by
  obtain ⟨h1, h2⟩ := computeInverse_introduced hi
  refine ⟨⟨c.tagNext op, ?_, rfl⟩, fun r hr => ?_, h1, fun r hr => ?_⟩
  · rw [stamp_log]
    exact List.mem_append_right _ (List.mem_singleton_self _)
  · rw [stamp_session]
    exact h.hasTarget_next hs hok hr
  · rw [stamp_session]
    exact (h2 r hr).exec

theorem call {k : Call} (hu : c.UserCall k) (ht : c.Ticks k) (hk : c.call k = some c') :
    LocalRun peer c' := by
  rcases userCall_cases hu hk with ⟨op, inv, h₀, h₁, hop, hc'⟩ | ⟨-, rfl⟩
  swap
  · exact h
  have hs := h.sound hu hop
  refine ⟨?_, fun e he => ?_⟩
  · rw [hc']
    exact ((h.toLocalLog.withHistory h₀).stamp hs (ht (by rw [hop]; rfl))).withHistory h₁
  · rcases call_history hu hk he with he | ⟨op', i, rfl, hi, hok, rfl⟩
    · rw [hc']
      exact (((h.history e he).withHistory h₀).stamp).withHistory h₁
    · obtain rfl := Option.some.inj hop
      rw [hc']
      exact (h.replayable_next hs hi hok h₀).withHistory h₁

end LocalRun

/-- What every call of a run keeps holds where the run ends. -/
theorem run_inv {P : TimelineCrdt → Call → Prop} {I : TimelineCrdt → Prop}
    (hstep : ∀ c k c', I c → P c k → c.call k = some c' → I c') {calls : List Call}
    (hnew : I (.new peer))
    (hP : engine.Along (fun c k => ∀ c₀, c = some c₀ → P c₀ k) (some (.new peer)) calls)
    (hc : afterCalls peer calls = some c) : I c := by
  refine Machine.Along.run_inv (I := fun c => ∀ c₀, c = some c₀ → I c₀) (fun s k _ hs hp => ?_) hP
    (fun c₀ h => Option.some.inj h ▸ hnew) c hc
  intro c' hc'
  obtain ⟨c₀, hc₀, hk⟩ := Option.bind_eq_some_iff.mp hc'
  exact hstep c₀ k c' (hs c₀ hc₀) (hp c₀ hc₀) hk

end TimelineCrdt

end AvSync
