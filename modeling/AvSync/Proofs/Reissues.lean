import AvSync.Proofs.Calls
import AvSync.Proofs.Inbound
import AvSync.ReplicaRuns

/-!
# Ids of a rebuilt replica

A replica that is rebuilt counts on from the greatest timestamp in its log
(`counter_deliver_le_iff`), whatever it has issued before. Its next id is new exactly if the log
passes every timestamp it has issued by (`TimelineCrdt.run_issuesAnew_iff`); a compaction that
drops the latest operation may break that.
-/

namespace AvSync

namespace TimelineCrdt

variable {peer : PeerId} {c c' : TimelineCrdt} {ops : List TaggedOperation} {t : UInt64}

/-! ## The clock of a rebuilt replica -/

theorem localPeerId_deliver :
    ∀ {ops : List TaggedOperation} {c : TimelineCrdt},
      (c.deliver ops).localPeerId = c.localPeerId
  | [], _ => rfl
  | o :: ops, c => by
    change ((c.applyRemote o).deliver ops).localPeerId = _
    rw [localPeerId_deliver]
    by_cases ho : o.opId ∈ c.seen
    · rw [applyRemote_of_mem ho]
    · obtain ⟨att, p, e, he, -⟩ := applyRemote_eq ho
      rw [he]

/-- Each operation that is not seen is observed. -/
theorem counter_deliver_le_iff :
    ∀ {ops : List TaggedOperation} {c : TimelineCrdt},
      (c.deliver ops).lamport.counter ≤ t ↔
        c.lamport.counter ≤ t ∧ ∀ o ∈ unseen c.seen ops, o.lamportTs ≤ t
  | [], c => by simp [deliver, unseen]
  | o :: ops, c => by
    change ((c.applyRemote o).deliver ops).lamport.counter ≤ t ↔ _
    rw [counter_deliver_le_iff, unseen]
    split_ifs with ho
    · rw [applyRemote_of_mem ho]
    · obtain ⟨att, p, e, he, -⟩ := applyRemote_eq ho
      rw [he, LamportClock.observe_counter, max_le_iff, List.forall_mem_cons, and_assoc]

/-- Every operation has been seen, or the first of its id is not. -/
theorem mem_unseen {o : TaggedOperation} :
    ∀ {ops : List TaggedOperation} {seen : Finset OperationId}, o ∈ ops →
      o.opId ∈ seen ∨ ∃ o' ∈ unseen seen ops, o' ∈ ops ∧ o'.opId = o.opId
  | a :: ops, seen, h => by
    rw [unseen]
    split_ifs with ha
    · rcases List.mem_cons.mp h with rfl | h
      · exact Or.inl ha
      · rcases mem_unseen h with h | ⟨o', ho', hmem, hid⟩
        · exact Or.inl h
        · exact Or.inr ⟨o', ho', List.mem_cons_of_mem a hmem, hid⟩
    · rcases List.mem_cons.mp h with rfl | h
      · exact Or.inr ⟨o, List.mem_cons_self, List.mem_cons_self, rfl⟩
      · rcases @mem_unseen _ _ (insert a.opId seen) h with h | ⟨o', ho', hmem, hid⟩
        · rcases Finset.mem_insert.mp h with h | h
          · exact Or.inr ⟨a, List.mem_cons_self, List.mem_cons_self, h.symm⟩
          · exact Or.inl h
        · exact Or.inr ⟨o', List.mem_cons_of_mem a ho', List.mem_cons_of_mem a hmem, hid⟩

theorem mem_of_mem_unseen {o : TaggedOperation} :
    ∀ {ops : List TaggedOperation} {seen : Finset OperationId}, o ∈ unseen seen ops → o ∈ ops
  | a :: ops, seen, h => by
    rw [unseen] at h
    split_ifs at h
    · exact List.mem_cons_of_mem a (mem_of_mem_unseen h)
    · rcases List.mem_cons.mp h with rfl | h
      · exact List.mem_cons_self
      · exact List.mem_cons_of_mem a (mem_of_mem_unseen h)

/-- Where operations of one id have one timestamp, the clock is at the greatest of them all. -/
theorem counter_fromSnapshot_le_iff
    (h : ∀ a ∈ ops, ∀ b ∈ ops, a.opId = b.opId → a.lamportTs = b.lamportTs) :
    (fromSnapshot ⟨ops⟩ peer).lamport.counter ≤ t ↔ ∀ o ∈ ops, o.lamportTs ≤ t := by
  have hmem : ∀ o, o ∈ sortByRank ops ↔ o ∈ ops := fun o => List.mem_insertionSort _
  rw [fromSnapshot, counter_deliver_le_iff]
  constructor
  · rintro ⟨-, hle⟩ o ho
    rcases mem_unseen ((hmem o).mpr ho) with hs | ⟨o', ho', hmem', hid⟩
    · exact absurd hs (Finset.notMem_empty _)
    · exact h o' ((hmem o').mp hmem') o ho hid ▸ hle o' ho'
  · refine fun hle => ⟨UInt64.le_iff_toNat_le.mpr (Nat.zero_le _), fun o ho => ?_⟩
    exact hle o ((hmem o).mp (mem_of_mem_unseen ho))

/-- The greatest timestamp is that of an operation, unless it is zero. -/
theorem eq_zero_or_exists {m : UInt64} (hm : ∀ t, m ≤ t ↔ ∀ o ∈ ops, o.lamportTs ≤ t) :
    m = 0 ∨ ∃ o ∈ ops, o.lamportTs = m := by
  by_contra hne
  push Not at hne
  obtain ⟨h0, hne⟩ := hne
  have hpos : 1 ≤ m := by
    rw [UInt64.le_iff_toNat_le, UInt64.toNat_one]
    rw [Ne, ← UInt64.toNat_inj, UInt64.toNat_zero] at h0
    omega
  have hpred : (m - 1).toNat = m.toNat - 1 := UInt64.toNat_sub_of_le m 1 hpos
  have hle : m ≤ m - 1 := (hm _).mpr fun o ho => by
    have hlt := lt_of_le_of_ne ((hm m).mp le_rfl o ho) (hne o ho)
    rw [UInt64.lt_iff_toNat_lt] at hlt
    rw [UInt64.le_iff_toNat_le]
    omega
  rw [UInt64.le_iff_toNat_le, UInt64.toNat_one] at hpos
  rw [UInt64.le_iff_toNat_le] at hle
  omega

/-- A clock at the greatest timestamp does not tick to `t` exactly if the operations pass it by. -/
theorem passesBy_iff {m : UInt64} (hm : ∀ t, m ≤ t ↔ ∀ o ∈ ops, o.lamportTs ≤ t) :
    saturatingAdd m 1 ≠ t ↔ PassesBy ops t := by
  have hle : ∀ o ∈ ops, o.lamportTs ≤ m := (hm m).mp le_rfl
  have hmax := eq_zero_or_exists hm
  have hone : saturatingAdd 0 1 = 1 := rfl
  constructor
  · intro hne
    by_cases hlater : t < u64Max ∧ ∃ o ∈ ops, t ≤ o.lamportTs
    · exact Or.inl hlater
    refine Or.inr ⟨?_, fun o ho heq => hne ?_⟩
    · rintro rfl
      rcases hmax with rfl | ⟨o, ho, rfl⟩
      · exact hne hone
      · refine hlater ⟨by decide, o, ho, ?_⟩
        rw [UInt64.le_iff_toNat_le, UInt64.toNat_one]
        by_contra h0
        have : o.lamportTs = 0 := UInt64.toNat_inj.mp (by simpa using h0)
        exact hne (by rw [this, hone])
    · -- no operation is past the one before `t`, so that one is the greatest
      rcases hmax with rfl | ⟨o', ho', rfl⟩
      · have h0 : o.lamportTs = 0 := le_antisymm (hle o ho) (UInt64.le_iff_toNat_le.mpr (by simp))
        rw [← heq, h0]
      · have ht : t.toNat = min (o.lamportTs.toNat + 1) (2 ^ 64 - 1) := by
          rw [← heq, toNat_saturatingAdd, UInt64.toNat_one]
        have hoo := UInt64.le_iff_toNat_le.mp (hle o ho)
        have hmax' := toNat_le_u64Max o'.lamportTs
        by_contra hne'
        rw [← UInt64.toNat_inj, toNat_saturatingAdd, UInt64.toNat_one] at hne'
        refine hlater ⟨?_, o', ho', ?_⟩
        · rw [UInt64.lt_iff_toNat_lt, u64Max_toNat]
          omega
        · rw [UInt64.le_iff_toNat_le]
          omega
  · rintro (⟨hlt, o, ho, hto⟩ | ⟨h1, hall⟩) rfl
    · have hoo := hto.trans (hle o ho)
      rw [UInt64.lt_iff_toNat_lt, toNat_saturatingAdd, u64Max_toNat, UInt64.toNat_one] at hlt
      rw [UInt64.le_iff_toNat_le, toNat_saturatingAdd, UInt64.toNat_one] at hoo
      omega
    · rcases hmax with rfl | ⟨o, ho, rfl⟩
      · exact h1 hone
      · exact hall o ho rfl

/-! ## The log of a run -/

/-- The log of `peer`: its own operations carry the timestamps of their ids, and all operations of
one id carry one timestamp. -/
structure OneStamp (peer : PeerId) (c : TimelineCrdt) : Prop where
  local_eq : c.localPeerId = peer
  log_seen : ∀ o ∈ c.operationLog, o.opId ∈ c.seen
  log_own : ∀ o ∈ c.operationLog, o.opId.peer = peer → o.opId.lamport = o.lamportTs
  log_eq : ∀ a ∈ c.operationLog, ∀ b ∈ c.operationLog, a.opId = b.opId → a.lamportTs = b.lamportTs

namespace OneStamp

theorem new (peer : PeerId) : OneStamp peer (.new peer) where
  local_eq := rfl
  log_seen _ ho := absurd ho List.not_mem_nil
  log_own _ ho := absurd ho List.not_mem_nil
  log_eq _ ho := absurd ho List.not_mem_nil

/-- An operation is logged that shares its timestamp with those of its id. -/
theorem log (h : OneStamp peer c) {o : TaggedOperation} (hown : o.opId.peer = peer →
    o.opId.lamport = o.lamportTs) (heq : ∀ a ∈ c.operationLog, a.opId = o.opId →
      a.lamportTs = o.lamportTs) (hl : c'.localPeerId = c.localPeerId)
    (hs : c'.seen = insert o.opId c.seen) (hlog : c'.operationLog = c.operationLog ++ [o]) :
    OneStamp peer c' := by
  refine ⟨hl.trans h.local_eq, ?_, ?_, ?_⟩ <;> rw [hlog]
  · intro a ha
    rw [hs]
    rcases List.mem_append.mp ha with ha | ha
    · exact Finset.mem_insert_of_mem (h.log_seen a ha)
    · exact List.mem_singleton.mp ha ▸ Finset.mem_insert_self _ _
  · intro a ha
    rcases List.mem_append.mp ha with ha | ha
    · exact h.log_own a ha
    · exact List.mem_singleton.mp ha ▸ hown
  · intro a ha b hb hab
    rcases List.mem_append.mp ha with ha | ha <;> rcases List.mem_append.mp hb with hb | hb
    · exact h.log_eq a ha b hb hab
    · have hb := List.mem_singleton.mp hb
      exact hb ▸ heq a ha (hb ▸ hab)
    · have ha := List.mem_singleton.mp ha
      exact ha ▸ (heq b hb (ha ▸ hab.symm)).symm
    · rw [List.mem_singleton.mp ha, List.mem_singleton.mp hb]

theorem applyRemote (h : OneStamp peer c) {o : TaggedOperation} (ho : o.opId.peer ≠ peer) :
    OneStamp peer (c.applyRemote o) := by
  by_cases hseen : o.opId ∈ c.seen
  · rwa [applyRemote_of_mem hseen]
  · obtain ⟨att, p, e, he, -⟩ := applyRemote_eq hseen
    rw [he]
    refine h.log (o := o) (fun hp => absurd hp ho) (fun a ha hid => ?_) rfl rfl rfl
    exact absurd (hid ▸ h.log_seen a ha) hseen

theorem deliver {ops : List TaggedOperation} (h : OneStamp peer c)
    (ho : ∀ o ∈ ops, o.opId.peer ≠ peer) : OneStamp peer (c.deliver ops) := by
  induction ops generalizing c with
  | nil => exact h
  | cons o ops ih =>
    exact ih (h.applyRemote (ho o List.mem_cons_self)) fun a ha => ho a (List.mem_cons_of_mem o ha)

theorem stamp (h : OneStamp peer c) (op : TimelineOperation) (inv : Option TimelineOperation) :
    OneStamp peer (c.stamp op inv).2 := by
  obtain ⟨s, p, h₀, he⟩ := stamp_eq c op inv
  rw [he]
  refine h.log (o := c.tagNext op) (fun _ => rfl) (fun a ha hid => ?_) rfl rfl rfl
  have hown := h.log_own a ha ((congrArg OperationId.peer hid).trans h.local_eq)
  exact hown.symm.trans (congrArg OperationId.lamport hid)

theorem compact (h : OneStamp peer c) : OneStamp peer c.compact where
  local_eq := h.local_eq
  log_seen _ ho := List.mem_toFinset.mpr (List.mem_map_of_mem ho)
  log_own o ho := h.log_own o (List.mem_of_mem_filter ho)
  log_eq a ha b hb := h.log_eq a (List.mem_of_mem_filter ha) b (List.mem_of_mem_filter hb)

theorem withHistory (h : OneStamp peer c) (h₀ : History) :
    OneStamp peer { c with history := h₀ } :=
  ⟨h.local_eq, h.log_seen, h.log_own, h.log_eq⟩

theorem maintain (h : OneStamp peer c) {k : Upkeep} (hf : FromOthers peer k)
    (hk : c.maintain k = some c') : OneStamp peer c' := by
  cases k with
  | compact => exact Option.some.inj hk ▸ h.compact
  | call k =>
    rcases call_cases hk with ⟨op, inv, h₀, h₁, -, rfl⟩ | ⟨-, rfl⟩
    · exact ((h.withHistory h₀).stamp op inv).withHistory h₁
    · exact h.deliver fun o ho => (hf o ho).1

end OneStamp

theorem peer_issuedId (h : c.localPeerId = peer) {k : Upkeep} :
    ∀ i ∈ c.issuedId k, i.peer = peer := by
  intro i hi
  cases k with
  | compact => exact absurd hi List.not_mem_nil
  | call k =>
    rw [issuedId] at hi
    split_ifs at hi
    · rcases hk : c.issued k with _ | op <;> rw [hk] at hi
      · exact absurd hi List.not_mem_nil
      · exact List.mem_singleton.mp hi ▸ h
    · exact absurd hi List.not_mem_nil

/-- Along a run the log agrees with the ids, and the ids issued are the peer's. -/
theorem oneStamp_run :
    ∀ {ks : List Upkeep} {c : TimelineCrdt}, OneStamp peer c →
      (∀ k ∈ ks, FromOthers peer k) → (∀ i ∈ issuedIds (some c) ks, i.peer = peer) ∧
        ∀ c', maintained.run (some c) ks = some c' → OneStamp peer c'
  | [], c, h, _ => ⟨by simp [issuedIds], fun c' hc => Option.some.inj hc ▸ h⟩
  | k :: ks, c, h, hf => by
    have hissued := peer_issuedId h.local_eq (k := k)
    have hstep : maintained.step (some c) k = c.maintain k := rfl
    rw [Machine.run_cons, issuedIds, hstep]
    rcases hk : c.maintain k with _ | c₁
    · refine ⟨fun i hi => ?_, fun c' hc => ?_⟩
      · rw [issuedIds, List.append_nil] at hi
        exact hissued i hi
      · rw [Machine.run_fixed fun _ => rfl] at hc
        cases hc
    · have ih := oneStamp_run (h.maintain (hf k List.mem_cons_self) hk) fun a ha =>
        hf a (List.mem_cons_of_mem k ha)
      exact ⟨fun i hi => (List.mem_append.mp hi).elim (hissued i) (ih.1 i), ih.2⟩

/-! ## The next id -/

theorem opId_of_applyLocal {operation : TimelineOperation} {tagged : TaggedOperation}
    (h : c.applyLocal operation = some (tagged, c')) :
    tagged.opId = ⟨saturatingAdd c.lamport.counter 1, c.localPeerId⟩ := by
  obtain ⟨inv, -, h⟩ := Option.map_eq_some_iff.mp h
  have htagged : tagged = (c.stamp operation inv).1 := (congrArg Prod.fst h).symm
  rw [htagged, stamp_fst]
  rfl

theorem applyLocal_insertTrack (c : TimelineCrdt) :
    ∃ r, c.applyLocal (.insertTrack ⟨0⟩ (.new "") 0) = some r := by
  rw [applyLocal, computeInverse]
  split <;> exact ⟨_, rfl⟩

/-- The next id of the rebuilt replica is new exactly if the log passes all timestamps issued by. -/
theorem OneStamp.issuesAnew_iff (h : OneStamp peer c) {ids : List OperationId}
    (hids : ∀ i ∈ ids, i.peer = peer) :
    c.IssuesAnew peer ids ↔ ∀ i ∈ ids, PassesBy c.operationLog i.lamport := by
  have hm : ∀ t, (fromSnapshot c.snapshot peer).lamport.counter ≤ t ↔
      ∀ o ∈ c.operationLog, o.lamportTs ≤ t := fun t => counter_fromSnapshot_le_iff h.log_eq
  have hlocal : (fromSnapshot c.snapshot peer).localPeerId = peer := localPeerId_deliver
  constructor
  · intro hnew i hi
    refine (passesBy_iff hm).mp fun heq => ?_
    obtain ⟨⟨tagged, c'⟩, hr⟩ := applyLocal_insertTrack (fromSnapshot c.snapshot peer)
    refine hnew _ tagged c' hr ?_
    have hid : tagged.opId = i := by
      rw [opId_of_applyLocal hr, hlocal, ← hids i hi]
      exact congrArg (OperationId.mk · i.peer) (hids i hi ▸ heq)
    exact hid ▸ hi
  · intro hall operation tagged c' hr hmem
    refine (passesBy_iff hm).mpr (hall _ hmem) ?_
    rw [opId_of_applyLocal hr]

/-- After every run the next id of the rebuilt replica is new exactly if the log passes all
timestamps the replica has issued by. -/
theorem run_issuesAnew_iff (peer : PeerId) (ks : List Upkeep)
    (hf : ∀ k ∈ ks, FromOthers peer k) {c : TimelineCrdt}
    (hc : maintained.run (some (new peer)) ks = some c) :
    c.IssuesAnew peer (issuedIds (some (new peer)) ks) ↔
      ∀ i ∈ issuedIds (some (new peer)) ks, PassesBy c.operationLog i.lamport :=
  have h := oneStamp_run (.new peer) hf
  (h.2 c hc).issuesAnew_iff h.1

/-- A track, a clip on it, an update of the clip, and a compaction. -/
def updateRun (updates : ClipMetadataUpdate) : List Upkeep :=
  [.call (.applyLocal (.insertTrack ⟨1⟩ (.new "t") 0)),
    .call (.applyLocal (.insertClip ⟨1⟩ ⟨1⟩ (.new "c" 0 100) 0)),
    .call (.applyLocal (.updateClipMetadata ⟨1⟩ updates)), .compact]

theorem mutedRun_issuesAnew :
    ∃ c, maintained.run (some (new ⟨7⟩)) (updateRun { muted := some true }) = some c ∧
      c.IssuesAnew ⟨7⟩ (issuedIds (some (new ⟨7⟩)) (updateRun { muted := some true })) := by
  refine ⟨_, rfl, (run_issuesAnew_iff ⟨7⟩ _ (by simp [updateRun, FromOthers, Call.received])
    rfl).mpr ?_⟩
  decide +kernel

/-- An update of nothing is dropped, so its id is issued again. -/
theorem emptyRun_not_issuesAnew :
    ∃ c, maintained.run (some (new ⟨7⟩)) (updateRun {}) = some c ∧
      ¬c.IssuesAnew ⟨7⟩ (issuedIds (some (new ⟨7⟩)) (updateRun {})) := by
  refine ⟨_, rfl, fun h => h (.insertTrack ⟨2⟩ (.new "t") 0) _ _ rfl ?_⟩
  decide +kernel

end TimelineCrdt

end AvSync
