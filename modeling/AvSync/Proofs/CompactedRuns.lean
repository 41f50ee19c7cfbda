import AvSync.Proofs.Compaction
import AvSync.Proofs.Undo

/-!
# Compacting what one user did

Every move and every trim of a run of one user detaches its clip. Compaction keeps one of them as
long as the clip's start is theirs, which an insert on a detached split child ends. A run without
such an insert has the view of its compacted log (`run_compacted`).
-/

namespace AvSync

/-- The operation is a move or a trim of the clip. -/
def TimelineOperation.Detaches (op : TimelineOperation) (x : ClipId) : Prop :=
  op.editedClip = some x ∧ op.clipWrite.detach = true

namespace Session

variable {s : Session} {o : TaggedOperation} {l : List TaggedOperation} {x : ClipId}

/-! ## The detached flag -/

/-- A detached clip has been moved or trimmed. -/
theorem detached_of_replay {c : ClipCrdt} (hx : (new.replay l).clips[x]? = some c)
    (hd : c.detached = true) : ∃ o ∈ l, o.operation.Detaches x := by
  revert c
  refine Machine.run_inv (M := machine)
    (I := fun s : Session => ∀ {c : ClipCrdt}, s.clips[x]? = some c → c.detached = true →
      ∃ o ∈ l, o.operation.Detaches x) (fun s o ho ih c hx hd => ?_) fun {c} h => ?_
  · by_cases hsplit : o.operation.IsSplit
    · obtain ⟨c', f, n, hop⟩ := TimelineOperation.isSplit_iff.mp hsplit
      rcases clip_exec_split hop hx with ⟨-, -, rfl⟩ | ⟨e, he, hde | ⟨-, hde⟩⟩
      · cases hd
      · exact ih he (hde.detached ▸ hd)
      · exact ih he (hde.detached ▸ hd)
    · rcases clip_exec_of_not_split hsplit hx with ⟨e, he, rfl | ⟨hex, rfl⟩⟩ | ⟨-, _, _, _, -, rfl⟩
      · exact ih he hd
      · rcases (Bool.or_eq_true _ _).mp hd with hd | hd
        · exact ih he hd
        · exact ⟨o, ho, hex, hd⟩
      · cases hd
  · simp [new] at h

theorem detached_exec {c : ClipCrdt} (hx : s.clips[x]? = some c) (hd : c.detached = true) :
    ∃ d, (s.exec o).clips[x]? = some d ∧ d.detached = true := by
  have hmem : (s.exec o).HasTarget (.clip x) :=
    HasTarget.exec (r := .clip x) (BTreeMap.mem_iff.mpr ⟨c, hx⟩)
  obtain ⟨d, hd'⟩ := BTreeMap.mem_iff.mp hmem
  refine ⟨d, hd', ?_⟩
  by_cases hsplit : o.operation.IsSplit
  · obtain ⟨c', f, n, hop⟩ := TimelineOperation.isSplit_iff.mp hsplit
    rcases clip_exec_split hop hd' with ⟨rfl, hn, -⟩ | ⟨e, he, hde | ⟨-, hde⟩⟩
    · exact absurd (BTreeMap.mem_iff.mpr ⟨c, hx⟩) hn
    · obtain rfl := Option.some.inj (hx.symm.trans he)
      exact hde.detached.trans hd
    · obtain rfl := Option.some.inj (hx.symm.trans he)
      exact hde.detached.trans hd
  · rcases clip_exec_of_not_split hsplit hd' with ⟨e, he, rfl | ⟨-, rfl⟩⟩ | ⟨hn, -⟩
    · obtain rfl := Option.some.inj (hx.symm.trans he)
      exact hd
    · obtain rfl := Option.some.inj (hx.symm.trans he)
      simp only [ClipCrdt.write, hd, Bool.true_or]
    · rw [hx] at hn
      cases hn

/-- A move or a trim that applies detaches its clip for good. -/
theorem detached_replay (hv : s.Applies l) (ho : o ∈ l) (hdet : o.operation.Detaches x) :
    ∃ c, (s.replay l).clips[x]? = some c ∧ c.detached = true := by
  obtain ⟨u, v, rfl⟩ := List.append_of_mem ho
  obtain ⟨-, hv'⟩ := Machine.valid_append.mp hv
  have hok : (s.replay u).Succeeds o := hv'.1
  have hns : ¬o.operation.IsSplit := by
    intro hs
    obtain ⟨c', f, n, hop⟩ := TimelineOperation.isSplit_iff.mp hs
    have := hdet.1
    rw [hop] at this
    cases this
  rw [replay_append]
  change ∃ c, (((s.replay u).exec o).replay v).clips[x]? = some c ∧ c.detached = true
  refine Machine.run_inv (M := machine)
    (I := fun s : Session => ∃ c, s.clips[x]? = some c ∧ c.detached = true)
    (fun s b _ ⟨c, hc, hd⟩ => detached_exec hc hd) ?_
  have hx : x ∈ (s.replay u).clips := by
    have ht := hasTargets_of_succeeds hns hok
    obtain ⟨hex, hd⟩ := hdet
    rcases hop : o.operation with y | y | y | _ | y | y | _ | _ | _ | _ | _ <;>
      rw [hop] at hex hd ht <;> cases hex <;> cases hd <;> exact ht (.clip x) List.mem_cons_self
  obtain ⟨c, hc⟩ := BTreeMap.mem_iff.mp hx
  refine ⟨c.write o.operation.clipWrite o.tag, ?_, by simp [ClipCrdt.write, hdet.2]⟩
  rw [clips_exec hns, if_pos hdet.1, hc]
  unfold clipStep
  split <;> rfl

end Session

namespace TimelineCrdt

open Session

variable {peer : PeerId} {c c' : TimelineCrdt} {op : TimelineOperation}
  {inv : Option TimelineOperation} {k : Call} {l : List TaggedOperation} {o : TaggedOperation}

/-! ## Runs that compact -/

/-- A call of the user that edits entities that are there, parents of splits included, and inserts
no detached split child. -/
structure Compacts (c : TimelineCrdt) (k : Call) : Prop where
  user : c.UserCall k
  targets : ∀ op, k = .applyLocal op → c.session.HasTargets op
  ticks : c.Ticks k
  attached : c.InsertsAttached k

/-- A run of one user in which every operation applies, what the history issues applies too, and a
detached split child has its start from a move or a trim. -/
structure MovedRun (peer : PeerId) (c : TimelineCrdt) : Prop extends LocalRun peer c where
  valid : Session.new.Applies c.operationLog
  targets : ∀ e, e ∈ c.history.undoStack ∨ e ∈ c.history.redoStack →
    c.session.HasTargets e.forward ∧ c.session.HasTargets e.inverse
  tags_le : c.session.TagsIn fun u => u.lamport ≤ c.lamport.counter
  moved : ∀ (x : ClipId) (d : ClipCrdt), c.session.clips[x]? = some d → d.parent ≠ none →
    d.detached = true → ∃ o ∈ c.operationLog, o.tag = d.startFrame.tag ∧ o.operation.Detaches x

/-- The inverse of an edit that applies finds its targets afterwards. -/
theorem computeInverse_targets {s : Session} {o : TaggedOperation} {i : TimelineOperation}
    (h : computeInverse o.operation s = some (some i)) (ht : s.HasTargets o.operation) :
    (s.exec o).HasTargets i := by
  have hold : (s.exec o).HasTargets o.operation := ht.exec
  have hnil : ∀ {j : TimelineOperation}, j.requiredTargets = [] → (s.exec o).HasTargets j :=
    fun hj r hr => absurd (hj ▸ hr) List.not_mem_nil
  have hone : ∀ {r : RequiredTarget} {j : TimelineOperation}, j.requiredTargets = [r] →
      s.Creates o.operation r → (s.exec o).HasTargets j := by
    intro r j hj hc r' hr'
    rw [hj, List.mem_singleton] at hr'
    exact hr' ▸ hasTarget_exec.mpr (.inr hc)
  rcases hop : o.operation with x | x | x | ⟨x, f, n⟩ | x | x | x | x | x | _ | _ <;>
    simp only [hop, computeInverse] at h hold hone ht
  case insertClip =>
    split_ifs at h
    · obtain ⟨prev, -, hp⟩ := Option.map_eq_some_iff.mp h
      obtain ⟨p, -, rfl⟩ := Option.map_eq_some_iff.mp hp
      exact hnil rfl
    · cases h
      exact hone (r := .clip x) rfl rfl
  case deleteClip =>
    obtain ⟨prev, -, hp⟩ := Option.map_eq_some_iff.mp h
    obtain ⟨p, -, rfl⟩ := Option.map_eq_some_iff.mp hp
    exact hnil rfl
  case moveClip | trimClip | updateClipMetadata =>
    obtain ⟨prev, -, hp⟩ := Option.map_eq_some_iff.mp h
    obtain ⟨p, -, rfl⟩ := Option.map_eq_some_iff.mp hp
    exact hold
  case splitClip =>
    split_ifs at h
    · cases h
    · cases h
      exact hone (r := .clip n) rfl ⟨rfl, ht (.clip x) List.mem_cons_self⟩
  case insertTrack =>
    rcases hx : s.tracks[x]? with _ | prev <;> simp only [hx] at h <;> cases h
    · exact hone (r := .track x) rfl rfl
    · exact hnil rfl
  case updateTrackMetadata =>
    obtain ⟨prev, -, rfl⟩ := Option.map_eq_some_iff.mp (Option.some.inj h)
    exact hold
  case deleteTrack =>
    obtain ⟨prev, -, rfl⟩ := Option.map_eq_some_iff.mp (Option.some.inj h)
    exact hnil rfl
  case updateEnvelope y _ _ =>
    cases h
    cases y <;> exact hold
  case updateSessionMetadata =>
    obtain ⟨v, -, hv⟩ := Option.map_eq_some_iff.mp h
    cases hv
    exact hnil rfl

/-- The first insert of an entity in the log is kept. -/
theorem introduced_log (c : TimelineCrdt) :
    Introduced (OpSet.isKept c) Session.new c.operationLog := by
  intro l₁ o l₂ r hlog hk hr
  obtain ⟨b, hb, hbr, hbk⟩ := insert_mem_keptIds (l := l₁) (m := l₂) (s := c.session) hr
  rw [← hlog] at hbk
  have hbk : OpSet.isKept c b = true := decide_eq_true hbk
  refine .inr ⟨b, ?_, hbk, OpSet.brings_of_inserted hbr⟩
  rcases List.mem_append.mp hb with hb | hb
  · exact hb
  · rw [List.mem_singleton.mp hb, hk] at hbk
    exact absurd hbk Bool.false_ne_true

namespace MovedRun

theorem new (peer : PeerId) : MovedRun peer (.new peer) where
  toLocalRun := .new peer
  valid := trivial
  targets e he := by simp [TimelineCrdt.new, History.new] at he
  tags_le := tagsIn_new le_rfl
  moved x d hx := by simp [TimelineCrdt.new, Session.new] at hx

variable (h : MovedRun peer c)

include h

theorem hasTargets_issued (hP : c.Compacts k) (hop : c.issued k = some op) :
    c.session.HasTargets op := by
  rcases k with op' | _ | _ | _ | _
  · exact hP.targets op (congrArg Call.applyLocal (Option.some.inj hop))
  · obtain ⟨⟨e, h₀⟩, hp, rfl⟩ := Option.map_eq_some_iff.mp hop
    exact (h.targets e (.inl ((popUndo_eq hp).1 ▸ List.mem_cons_self))).2
  · obtain ⟨⟨e, h₀⟩, hp, rfl⟩ := Option.map_eq_some_iff.mp hop
    exact (h.targets e (.inr ((popRedo_eq hp).1 ▸ List.mem_cons_self))).1
  · cases hop
  · cases hop

/-- A move or a trim, stamped ahead of every tag, takes the start of its clip; nothing else does
on a detached split child. -/
theorem moved_next (hl : c.lamport.counter < u64Max)
    (ha : ∀ x r d p, op = .insertClip x r d p → ∀ clip, c.session.clips[x]? = some clip →
      clip.parent ≠ none → clip.detached = false) :
    ∀ (x : ClipId) (d : ClipCrdt), (c.session.exec (c.tagNext op)).clips[x]? = some d →
      d.parent ≠ none → d.detached = true →
      ∃ o ∈ c.operationLog ++ [c.tagNext op],
        o.tag = d.startFrame.tag ∧ o.operation.Detaches x := by
  intro x d hx hp hd
  have hold : ∀ e : ClipCrdt, c.session.clips[x]? = some e → e.parent ≠ none → e.detached = true →
      e.startFrame = d.startFrame →
      ∃ o ∈ c.operationLog ++ [c.tagNext op], o.tag = d.startFrame.tag ∧
        o.operation.Detaches x := by
    intro e he hep hed hst
    obtain ⟨o, ho, hot, hodet⟩ := h.moved x e he hep hed
    exact ⟨o, List.mem_append_left _ ho, hst ▸ hot, hodet⟩
  by_cases hsplit : (c.tagNext op).operation.IsSplit
  · obtain ⟨c', f, n, hop⟩ := TimelineOperation.isSplit_iff.mp hsplit
    rcases clip_exec_split hop hx with ⟨-, -, rfl⟩ | ⟨e, he, hde | ⟨hek, hde⟩⟩
    · cases hd
    · exact hold e he (hde.parent ▸ hp) (hde.detached ▸ hd) hde.startFrame.symm
    · have hlink := linked_replay c.operationLog x e (h.session_eq ▸ he)
      refine hold e he ?_ (hde.detached ▸ hd) hde.startFrame.symm
      rw [hlink, Ne, Option.map_eq_none_iff]
      exact hek
  · rcases clip_exec_of_not_split hsplit hx with ⟨e, he, rfl | ⟨hex, rfl⟩⟩ | ⟨-, _, _, _, -, rfl⟩
    · exact hold d he hp hd rfl
    · have hlt : e.startFrame.tag < (c.tagNext op).tag := by
        have hle := h.tags_le.clips x e he e.startFrame.tag (by simp [ClipCrdt.tags])
        exact OpTag.lt_iff.mpr (.inl (lt_of_le_of_lt hle (lt_saturatingAdd_one hl)))
      rcases hins : op.inserted with _ | r
      · have hdet := detach_eq hins
        rcases hst : op.clipWrite.startFrame with _ | v
        · rw [hst] at hdet
          refine hold e he hp ?_ ?_
          · simpa [ClipCrdt.write, tagNext, hdet] using hd
          · simp only [ClipCrdt.write, tagNext, hst, LwwReg.setOption]
        · rw [hst] at hdet
          refine ⟨c.tagNext op, by simp, ?_, hex, hdet⟩
          have hst' : (c.tagNext op).operation.clipWrite.startFrame = some v := hst
          simp only [ClipCrdt.write, hst', LwwReg.setOption, LwwReg.set_of_lt v hlt]
      · -- an insert detaches nothing, and finds the child attached
        rcases hop : op with y | _ | _ | _ | _ | _ | _ | _ | _ | _ | _ <;> rw [hop] at hins <;>
          cases hins
        · have hxy : y = x := by
            rw [show (c.tagNext op).operation = op from rfl, hop] at hex
            exact Option.some.inj hex
          have hed := ha y _ _ _ hop e (hxy ▸ he) hp
          simp only [ClipCrdt.write, hed, tagNext, hop] at hd
          cases hd
        · rw [show (c.tagNext op).operation = op from rfl, hop] at hex
          cases hex
    · exact absurd rfl hp

theorem call (hP : c.Compacts k) (hk : c.call k = some c') : MovedRun peer c' := by
  rcases userCall_cases hP.user hk with ⟨op, inv, h₀, h₁, hop, hc'⟩ | ⟨-, rfl⟩
  swap
  · exact h
  have ht := h.hasTargets_issued hP hop
  have hl : c.lamport.counter < u64Max := hP.ticks (by rw [hop]; rfl)
  have hok : c.session.Succeeds (c.tagNext op) := succeeds_of_hasTargets ht
  have hsess : c'.session = c.session.exec (c.tagNext op) := by
    rw [hc']
    exact stamp_session op inv
  have hlog : c'.operationLog = c.operationLog ++ [c.tagNext op] := by
    rw [hc']
    exact stamp_log
  have hlam : c'.lamport = c.lamport.tick.2 := by
    obtain ⟨s, p, h', he⟩ := stamp_eq { c with history := h₀ } op inv
    rw [hc', he]
  refine ⟨h.toLocalRun.call hP.user hP.ticks hk, ?_, fun e he => ?_, ?_, ?_⟩
  · have hok' : (Session.new.replay c.operationLog).Succeeds (c.tagNext op) :=
      h.session_eq ▸ hok
    rw [hlog]
    exact Machine.valid_append.mpr ⟨h.valid, hok', trivial⟩
  · rw [hsess]
    rcases call_history hP.user hk he with he | ⟨op', i, rfl, hi, -, rfl⟩
    · exact ⟨(h.targets e he).1.exec, (h.targets e he).2.exec⟩
    · obtain rfl := Option.some.inj hop
      exact ⟨ht.exec, computeInverse_targets (o := c.tagNext op') hi ht⟩
  · rw [hsess, hlam]
    refine (h.tags_le.mono fun u hu => hu.trans (lt_saturatingAdd_one hl).le).exec le_rfl ?_
    exact UInt64.le_iff_toNat_le.mpr (Nat.zero_le _)
  · rw [hsess, hlog]
    exact h.moved_next hl fun x r d p hx => hP.attached x r d p (hx ▸ hop)

/-- The compacted log applies and ends in the registers and flags of the run. -/
theorem replay_compacted :
    Session.new.Applies (c.operationLog.filter (OpSet.isKept c)) ∧
      SameRegisters c.session (Session.new.replay (c.operationLog.filter (OpSet.isKept c))) ∧
      SameDetached c.session (Session.new.replay (c.operationLog.filter (OpSet.isKept c))) := by
  have hdropped : ∀ o ∈ c.operationLog, OpSet.isKept c o = false →
      ¬o.operation.IsSplit ∧ c.session.TagsIn (· ≠ o.tag) := by
    intro o ho hk
    have hk : o.opId ∉ keptIds c.operationLog c.session := of_decide_eq_false hk
    obtain ⟨hid, -, hpos, -⟩ := h.stamped o ho
    exact ⟨fun hs => hk (split_mem_keptIds ho hs),
      tagsIn_of_dropped ho hid (OpSet.tag_ne_initial hpos) hk⟩
  obtain ⟨hval, hsame⟩ := replay_filter h.valid
    (h.sorted.imp fun hlt he => absurd (congrArg OpTag.lamport he) (ne_of_lt hlt))
    (introduced_log c) fun o ho hk => by
      obtain ⟨h1, h2⟩ := hdropped o ho hk
      exact ⟨h1, h.session_eq ▸ h2⟩
  rw [← h.session_eq] at hsame
  refine ⟨hval, hsame, fun x d d' hx hx' hp => ?_⟩
  rw [Bool.eq_iff_iff]
  constructor
  · intro hd
    obtain ⟨o, ho, hot, hdet⟩ := h.moved x d hx hp hd
    have hk : OpSet.isKept c o = true := by
      by_contra hk
      rw [Bool.not_eq_true] at hk
      exact (hdropped o ho hk).2.clips x d hx d.startFrame.tag (by simp [ClipCrdt.tags]) hot.symm
    obtain ⟨e, he, hed⟩ := detached_replay hval (List.mem_filter.mpr ⟨ho, hk⟩) hdet
    exact Option.some.inj (hx'.symm.trans he) ▸ hed
  · intro hd
    obtain ⟨o, ho, hdet⟩ := detached_of_replay hx' hd
    obtain ⟨e, he, hed⟩ := detached_replay h.valid (List.mem_of_mem_filter ho) hdet
    rw [← h.session_eq] at he
    exact Option.some.inj (hx.symm.trans he) ▸ hed

theorem sortByRank_filter (f : TaggedOperation → Bool) :
    sortByRank (c.operationLog.filter f) = c.operationLog.filter f := by
  refine List.Pairwise.insertionSort_eq ((h.sorted.sublist List.filter_sublist).imp ?_)
  intro a b hlt
  exact Prod.Lex.le_iff.mpr (.inl hlt)

end MovedRun

/-! ## Replicas that never wait -/

theorem applyRemote_of_succeeds (hp : c.pending = []) (ho : o.opId ∉ c.seen)
    (hs : c.session.Succeeds o) : ∃ e, c.applyRemote o = { c with
      session := c.session.exec o
      resolutionEvents := e
      vectorClock := (c.vectorClock.merge o.vectorClock).witness o.peerId o.lamportTs
      lamport := c.lamport.observe o.lamportTs
      seen := insert o.opId c.seen
      operationLog := c.operationLog ++ [o] } := by
  obtain ⟨e, he⟩ := observeResolution_eq { c with
    vectorClock := (c.vectorClock.merge o.vectorClock).witness o.peerId o.lamportTs
    lamport := c.lamport.observe o.lamportTs
    seen := insert o.opId c.seen
    operationLog := c.operationLog ++ [o] } o
  rcases c.session.apply_cases o with ⟨ha, -⟩ | ⟨err, -, hf⟩
  swap
  · exact absurd hs hf
  simp only [applyRemote, ho, if_false, he, ha]
  obtain ⟨att, p, e', hdrain, hatt, hperm, -⟩ := drainPending_eq { c with
    session := c.session.exec o
    resolutionEvents := e
    vectorClock := (c.vectorClock.merge o.vectorClock).witness o.peerId o.lamportTs
    lamport := c.lamport.observe o.lamportTs
    seen := insert o.opId c.seen
    operationLog := c.operationLog ++ [o] }
  -- there is nothing to retry
  rw [show c.pending = [] from hp] at hatt hperm
  obtain rfl := List.eq_nil_iff_forall_not_mem.mpr fun b hb => List.not_mem_nil (hatt b hb)
  obtain rfl := (List.append_eq_nil_iff.mp hperm.eq_nil).2
  exact ⟨e', by rw [hdrain, hp]; rfl⟩

/-- Operations that apply one after the other are not buffered. -/
theorem deliver_of_applies :
    ∀ {l : List TaggedOperation} {c : TimelineCrdt}, c.pending = [] → (l.map (·.opId)).Nodup →
      (∀ o ∈ l, o.opId ∉ c.seen) → c.session.Applies l →
      (c.deliver l).session = c.session.replay l
  | [], _, _, _, _, _ => rfl
  | o :: l, c, hp, hnd, hseen, hv => by
    obtain ⟨e, he⟩ := applyRemote_of_succeeds hp (hseen o List.mem_cons_self) hv.1
    rw [List.map_cons, List.nodup_cons] at hnd
    have hc : c.deliver (o :: l) = (c.applyRemote o).deliver l := rfl
    rw [hc, he]
    refine deliver_of_applies hp hnd.2 (fun b hb hs => ?_) hv.2
    rcases Finset.mem_insert.mp hs with hbo | hs
    · exact hnd.1 (hbo ▸ List.mem_map_of_mem hb)
    · exact hseen b (List.mem_cons_of_mem o hb) hs

/-- A replica built from the snapshot of the compacted run has the view of the run. -/
theorem run_compacted (peer q : PeerId) (calls : List Call)
    (hP : engine.Along (fun c k => ∀ c₀, c = some c₀ → c₀.Compacts k) (some (new peer)) calls)
    (hc : afterCalls peer calls = some c) :
    ∃ v, c.view = some v ∧ (fromSnapshot c.compact.snapshot q).view = some v := by
  have h : MovedRun peer c :=
    run_inv (I := MovedRun peer) (fun c k c' h hP hk => h.call hP hk) (.new peer) hP hc
  obtain ⟨hval, hsame, hdet⟩ := h.replay_compacted
  have hsess : (fromSnapshot c.compact.snapshot q).session =
      Session.new.replay (c.operationLog.filter (OpSet.isKept c)) := by
    have hkept : sortByRank c.compact.snapshot.ops = c.operationLog.filter (OpSet.isKept c) :=
      h.sortByRank_filter _
    rw [fromSnapshot, hkept]
    refine deliver_of_applies rfl (h.nodup.sublist (List.filter_sublist.map _)) ?_ hval
    exact fun o _ => Finset.notMem_empty _
  obtain ⟨v, hv⟩ := h.view
  refine ⟨v, hv, ?_⟩
  rw [TimelineCrdt.view, hsess, ← hsame.materialize_eq hdet]
  exact hv

/-- A split child is deleted and brought back, and then moved twice. -/
def childMovedCalls : List Call :=
  [.applyLocal (.insertTrack ⟨1⟩ (.new "t") 0),
    .applyLocal (.insertClip ⟨1⟩ ⟨1⟩ (.new "c" 0 1000) 0),
    .applyLocal (.splitClip ⟨1⟩ 400 ⟨2⟩), .applyLocal (.deleteClip ⟨2⟩), .undo,
    .applyLocal (.moveClip ⟨2⟩ ⟨1⟩ 700 0), .applyLocal (.moveClip ⟨2⟩ ⟨1⟩ 800 0)]

theorem childMovedCalls_compacted :
    ∃ c, afterCalls ⟨1⟩ childMovedCalls = some c ∧
      ∃ v, c.view = some v ∧ (fromSnapshot c.compact.snapshot ⟨2⟩).view = some v := by
  have hP : engine.Along (fun c k => ∀ c₀, c = some c₀ → c₀.Compacts k) (some (new ⟨1⟩))
      childMovedCalls := by
    refine ⟨?_, ?_, ?_, ?_, ?_, ?_, ?_, trivial⟩
    all_goals
      rintro c ⟨⟩
      refine ⟨by decide +kernel, fun op h => ?_, by decide +kernel, fun x r d p h clip hx => ?_⟩
    all_goals cases h
    all_goals first | decide +kernel | skip
    · cases hx
    · cases hx
      exact fun _ => rfl
  exact ⟨_, rfl, run_compacted ⟨1⟩ ⟨2⟩ childMovedCalls hP rfl⟩

/-- A split child is moved, deleted and brought back. -/
def movedReinsertCalls : List Call :=
  [.applyLocal (.insertTrack ⟨1⟩ (.new "t") 0),
    .applyLocal (.insertClip ⟨1⟩ ⟨1⟩ (.new "c" 0 1000) 0),
    .applyLocal (.splitClip ⟨1⟩ 400 ⟨2⟩), .applyLocal (.moveClip ⟨2⟩ ⟨1⟩ 700 0),
    .applyLocal (.deleteClip ⟨2⟩), .undo]

/-- The move is dropped, and the child is back where it was split off. -/
theorem movedReinsertCalls_not_compacted :
    engine.Along (fun c k => ∀ c₀, c = some c₀ → c₀.UserCall k ∧
        ∀ op, k = .applyLocal op → c₀.session.HasTargets op) (some (new ⟨1⟩))
      movedReinsertCalls ∧
      ∃ c, afterCalls ⟨1⟩ movedReinsertCalls = some c ∧
        (fromSnapshot c.compact.snapshot ⟨2⟩).view ≠ c.view := by
  refine ⟨?_, _, rfl, fun h => ?_⟩
  · refine ⟨?_, ?_, ?_, ?_, ?_, ?_, trivial⟩
    all_goals
      rintro c ⟨⟩
      refine ⟨by decide +kernel, fun op h => ?_⟩
      cases h
    all_goals decide +kernel
  · exact absurd (congrArg (Option.map (·.clips)) h) (by decide +kernel)

end TimelineCrdt

end AvSync
