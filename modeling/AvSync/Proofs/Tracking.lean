import AvSync.Tracking

/-!
# The tracker

What each call does to the entry and to the acknowledgments of one operation. Once it has been
acknowledged an operation is not due again, exactly when nobody had acknowledged its id before it
was tracked, or it cannot be due at all (`ReliabilityManager.run_stopsResending_iff`).
-/

namespace AvSync

namespace Untracked

variable {i : OperationId} {c : TrackerCall} {l : List TrackerCall}

theorem head (h : Untracked i (c :: l)) : Untracked i [c] := fun op now hc =>
  h op now (List.mem_singleton.mp hc ▸ List.mem_cons_self)

theorem tail (h : Untracked i (c :: l)) : Untracked i l := fun op now hc =>
  h op now (List.mem_cons_of_mem c hc)

end Untracked

namespace ReliabilityManager

variable {r : ReliabilityManager} {op o : TaggedOperation} {now t : UInt64} {i j : OperationId}
  {p : PeerId} {entry : PendingEntry}

/-! ## One call -/

theorem pending_track (i : OperationId) : (r.track op now).pending[i]? =
    if op.opId = i then some ⟨op, now, 1, 0⟩ else r.pending[i]? :=
  BTreeMap.getElem?_insert_if ..

theorem pending_onAck (i : OperationId) (p : PeerId) (j : OperationId) :
    (r.onAck i p).2.pending[j]? =
      if i = j ∧ i ∉ r.ackedPeers then none else r.pending[j]? := by
  unfold onAck
  rcases h : r.ackedPeers[i]? with _ | peers
  · simp only [BTreeMap.getElem?_erase_if, BTreeMap.not_mem_iff.mpr h, not_false_eq_true, and_true]
  · have hi : i ∈ r.ackedPeers := BTreeMap.mem_iff.mpr ⟨peers, h⟩
    simp only [hi, not_true, and_false, if_false]
    split_ifs <;> rfl

theorem ackedPeers_onAck_self (i : OperationId) (p : PeerId) :
    ∃ acked, (r.onAck i p).2.ackedPeers[i]? = some acked ∧ p ∈ acked := by
  unfold onAck
  rcases h : r.ackedPeers[i]? with _ | peers
  · refine ⟨[p], ?_, List.mem_cons_self⟩
    simp only [BTreeMap.getElem?_insert_if, if_true]
  · dsimp only
    split_ifs with hp
    · exact ⟨peers, h, hp⟩
    · refine ⟨peers ++ [p], ?_, List.mem_append_right _ List.mem_cons_self⟩
      simp only [BTreeMap.getElem?_insert_if, if_true]

theorem ackedPeers_onAck {acked : List PeerId} (h : r.ackedPeers[j]? = some acked) :
    ∃ acked', (r.onAck i p).2.ackedPeers[j]? = some acked' ∧ ∀ q ∈ acked, q ∈ acked' := by
  unfold onAck
  rcases hi : r.ackedPeers[i]? with _ | peers
  · refine ⟨acked, ?_, fun q hq => hq⟩
    have hij : i ≠ j := by
      rintro rfl
      cases hi.symm.trans h
    simp only [BTreeMap.getElem?_insert_if, if_neg hij, h]
  · dsimp only
    split_ifs with hp
    · exact ⟨acked, h, fun q hq => hq⟩
    · simp only [BTreeMap.getElem?_insert_if]
      split_ifs with hij
      · subst hij
        obtain rfl := Option.some.inj (hi.symm.trans h)
        exact ⟨_, rfl, fun q hq => List.mem_append_left _ hq⟩
      · exact ⟨acked, h, fun q hq => hq⟩

theorem mem_ackedPeers_onAck (h : j ∈ r.ackedPeers) : j ∈ (r.onAck i p).2.ackedPeers := by
  obtain ⟨acked, ha⟩ := BTreeMap.mem_iff.mp h
  obtain ⟨acked', ha', -⟩ := ackedPeers_onAck (i := i) (p := p) ha
  exact BTreeMap.mem_iff.mpr ⟨acked', ha'⟩

theorem onAck_rest (r : ReliabilityManager) (i : OperationId) (p : PeerId) :
    (r.onAck i p).2.givenUp = r.givenUp ∧ (r.onAck i p).2.maxResends = r.maxResends ∧
      (r.onAck i p).2.ackTimeoutMs = r.ackTimeoutMs := by
  unfold onAck
  split
  · split_ifs <;> exact ⟨rfl, rfl, rfl⟩
  · exact ⟨rfl, rfl, rfl⟩

theorem retainEntry_cases (r : ReliabilityManager) (now : UInt64) (entry : PendingEntry) :
    (r.isDue now entry = true ∧ r.isSpent entry = true ∧ r.retainEntry now entry = none) ∨
      ∃ entry', r.retainEntry now entry = some entry' ∧ entry'.op = entry.op ∧
        (entry.attempts.toNat ≤ entry.resends + 1 →
          entry'.attempts.toNat ≤ entry'.resends + 1) := by
  unfold retainEntry
  split_ifs with hdue hspent
  · exact Or.inr ⟨entry, rfl, rfl, id⟩
  · exact Or.inl ⟨by simpa using hdue, hspent, rfl⟩
  · refine Or.inr ⟨_, rfl, rfl, fun ha => ?_⟩
    have : (entry.attempts + 1).toNat ≤ entry.attempts.toNat + 1 := by
      rw [UInt32.toNat_add]
      exact Nat.mod_le _ _
    exact this.trans (Nat.succ_le_succ ha)

theorem pending_due (i : OperationId) : (r.dueForResend now).2.pending[i]? =
    r.pending[i]?.bind (r.retainEntry now) := by
  simp only [dueForResend, Std.ExtTreeMap.getElem?_filterMap']

theorem mem_givenUp_due : entry ∈ (r.dueForResend now).2.givenUp ↔ entry ∈ r.givenUp ∨
    ∃ i : OperationId, r.pending[i]? = some entry ∧ r.isDue now entry = true ∧
      r.isSpent entry = true := by
  simp only [dueForResend, List.mem_append, List.mem_map, List.mem_filter, Prod.exists,
    Std.ExtTreeMap.mem_toList_iff_getElem?_eq_some, and_assoc]
  refine or_congr_right ⟨?_, fun ⟨i, he, hd, hs⟩ => ⟨i, entry, he, hd, hs, rfl⟩⟩
  rintro ⟨i, b, he, hd, hs, rfl⟩
  exact ⟨i, he, hd, hs⟩

theorem mem_due : o ∈ (r.dueForResend now).1 ↔ ∃ (i : OperationId) (entry : PendingEntry),
    r.pending[i]? = some entry ∧ r.isDue now entry = true ∧ r.isSpent entry = false ∧
      entry.op = o := by
  simp only [dueForResend, List.mem_map, List.mem_filter, Prod.exists, Bool.not_eq_true',
    Std.ExtTreeMap.mem_toList_iff_getElem?_eq_some, and_assoc]

/-- An entry that has used up its attempts has been resent as often as allowed. -/
theorem le_resends_of_spent (ha : entry.attempts.toNat ≤ entry.resends + 1)
    (hs : r.isSpent entry = true) : r.maxResends.toNat ≤ entry.resends := by
  have hlt := UInt32.lt_iff_toNat_lt.mp (of_decide_eq_true hs)
  omega

theorem pending_forget (i j : OperationId) : (r.forget i).pending[j]? =
    if i = j then none else r.pending[j]? :=
  BTreeMap.getElem?_erase_if ..

/-! ## Tracked anew -/

/-- Every entry is filed under the id of its operation. -/
def Keyed (r : ReliabilityManager) : Prop :=
  ∀ (i : OperationId) (entry : PendingEntry), r.pending[i]? = some entry → entry.op.opId = i

theorem Keyed.call (h : r.Keyed) (c : TrackerCall) : (r.call c).Keyed := by
  intro i entry he
  cases c with
  | track op now =>
    rw [ReliabilityManager.call, pending_track] at he
    split_ifs at he with hi
    · cases he
      exact hi
    · exact h i entry he
  | onAck j p =>
    rw [ReliabilityManager.call, pending_onAck] at he
    split_ifs at he
    exact h i entry he
  | dueForResend now =>
    rw [ReliabilityManager.call, pending_due, Option.bind_eq_some_iff] at he
    obtain ⟨entry₀, he₀, hr⟩ := he
    rcases retainEntry_cases r now entry₀ with ⟨-, -, hn⟩ | ⟨entry', hs, hop, -⟩
    · cases hn.symm.trans hr
    · obtain rfl := Option.some.inj (hs.symm.trans hr)
      rw [hop, h i entry₀ he₀]
  | forget j =>
    rw [ReliabilityManager.call, pending_forget] at he
    split_ifs at he
    exact h i entry he

theorem keyed_run (ackTimeout : ℕ) (maxResends : UInt32) (l : List TrackerCall) :
    (machine.run (new ackTimeout maxResends) l).Keyed :=
  Machine.run_inv (I := Keyed) (fun _ c _ h => h.call c) fun i entry h => by simp [new] at h

theorem call_config (r : ReliabilityManager) (c : TrackerCall) :
    (r.call c).maxResends = r.maxResends ∧ (r.call c).ackTimeoutMs = r.ackTimeoutMs := by
  cases c with
  | onAck i p => exact (r.onAck_rest i p).2
  | _ => exact ⟨rfl, rfl⟩

/-- The operation is out of the tracker, or nobody has acknowledged it. -/
def Unacked (i : OperationId) (r : ReliabilityManager) : Prop :=
  r.pending[i]? = none ∨ i ∉ r.ackedPeers

theorem pending_call_none (h : r.pending[i]? = none) {c : TrackerCall} (hc : Untracked i [c]) :
    (r.call c).pending[i]? = none := by
  cases c with
  | track op now =>
    rw [call, pending_track, if_neg (hc op now List.mem_cons_self), h]
  | onAck j p =>
    rw [call, pending_onAck, h, ite_self]
  | dueForResend now => rw [call, pending_due, h, Option.bind_none]
  | forget j => rw [call, pending_forget, h, ite_self]

theorem pending_run_none :
    ∀ {l : List TrackerCall} {r : ReliabilityManager}, r.pending[i]? = none → Untracked i l →
      (machine.run r l).pending[i]? = none
  | [], _, h, _ => h
  | _ :: l, _, h, hl => pending_run_none (l := l) (pending_call_none h hl.head) hl.tail

theorem Unacked.call (h : Unacked i r) {c : TrackerCall} (hc : Untracked i [c]) :
    Unacked i (r.call c) := by
  rcases h with h | h
  · exact Or.inl (pending_call_none h hc)
  · cases c with
    | track op now => exact Or.inr h
    | onAck j p =>
      by_cases hj : j = i
      · subst hj
        exact Or.inl (by rw [ReliabilityManager.call, pending_onAck, if_pos ⟨rfl, h⟩])
      · refine Or.inr ?_
        rw [BTreeMap.not_mem_iff] at h ⊢
        rw [ReliabilityManager.call, onAck]
        rcases hr : r.ackedPeers[j]? with _ | peers
        · simp only [BTreeMap.getElem?_insert_if, if_neg hj, h]
        · dsimp only
          split_ifs
          · exact h
          · simp only [BTreeMap.getElem?_insert_if, if_neg hj, h]
    | dueForResend now => exact Or.inr h
    | forget j =>
      refine Or.inr ?_
      rw [BTreeMap.not_mem_iff] at h ⊢
      rw [ReliabilityManager.call, ReliabilityManager.forget, BTreeMap.getElem?_erase_if, h,
        ite_self]

/-- The first acknowledgment ends the tracking. -/
theorem pending_run_acked :
    ∀ {l : List TrackerCall} {r : ReliabilityManager}, Unacked i r → Untracked i l →
      .onAck i p ∈ l → (machine.run r l).pending[i]? = none
  | c :: l, r, h, hl, hp => by
    rcases List.mem_cons.mp hp with rfl | hp
    · refine pending_run_none (l := l) ?_ hl.tail
      rw [show machine.step r (.onAck i p) = (r.onAck i p).2 from rfl, pending_onAck]
      split_ifs with hi
      · rfl
      · exact h.resolve_right fun hn => hi ⟨rfl, hn⟩
    · exact pending_run_acked (l := l) (h.call hl.head) hl.tail hp

/-- An entry that is never due, or that allows for no resend, stays as it is until it is gone. -/
theorem pending_run_idle :
    ∀ {l : List TrackerCall} {r : ReliabilityManager},
      (∀ t, r.isDue t entry = true → r.isSpent entry = true) → Untracked i l →
      (r.pending[i]? = none ∨ r.pending[i]? = some entry) →
      ((machine.run r l).pending[i]? = none ∨ (machine.run r l).pending[i]? = some entry) ∧
        ∀ t, (machine.run r l).isDue t entry = true → (machine.run r l).isSpent entry = true
  | [], _, hidle, _, h => ⟨h, hidle⟩
  | c :: l, r, hidle, hl, h => by
    have hconfig := r.call_config c
    refine pending_run_idle (l := l) (r := r.call c) ?_ hl.tail ?_
    · simp only [isDue, isSpent, hconfig] at hidle ⊢
      exact hidle
    · rcases h with h | h
      · exact Or.inl (pending_call_none h hl.head)
      · cases c with
        | track op now =>
          rw [ReliabilityManager.call, pending_track, if_neg (hl op now List.mem_cons_self)]
          exact Or.inr h
        | onAck j p =>
          rw [ReliabilityManager.call, pending_onAck]
          split_ifs
          · exact Or.inl rfl
          · exact Or.inr h
        | dueForResend now =>
          rw [ReliabilityManager.call, pending_due, h, Option.bind_some, retainEntry]
          split_ifs with hdue hspent
          · exact Or.inr rfl
          · exact Or.inl rfl
          · exact absurd (hidle now (by simpa using hdue)) hspent
        | forget j =>
          rw [ReliabilityManager.call, pending_forget]
          split_ifs
          · exact Or.inl rfl
          · exact Or.inr h

theorem pending_track_self (r : ReliabilityManager) (op : TaggedOperation) (now : UInt64) :
    (r.track op now).pending[op.opId]? = some ⟨op, now, 1, 0⟩ := by
  rw [pending_track, if_pos rfl]

/-- What has been acknowledged before is resent in spite of an acknowledgment. -/
theorem not_stopsResending (hacked : op.opId ∈ r.ackedPeers) (hmax : r.maxResends ≠ 0)
    (htime : now.toNat + r.ackTimeoutMs.toNat ≤ u64Max.toNat) : ¬r.StopsResending op now := by
  intro h
  refine h [⟨0⟩] [.onAck op.opId ⟨0⟩] (by simp) (fun _ _ hc => by simp at hc) (by simp) u64Max op
    (mem_due.mpr ⟨op.opId, ⟨op, now, 1, 0⟩, ?_, ?_, ?_, rfl⟩) rfl
  · rw [Machine.run_cons, Machine.run_nil]
    rw [show machine.step (r.track op now) (.onAck op.opId ⟨0⟩) =
      ((r.track op now).onAck op.opId ⟨0⟩).2 from rfl, pending_onAck, if_neg, pending_track_self]
    exact fun hn => hn.2 hacked
  · have hrest := ((r.track op now).onAck_rest op.opId ⟨0⟩).2.2
    have hle : r.ackTimeoutMs ≤ saturatingSub u64Max now := by
      rw [UInt64.le_iff_toNat_le, toNat_saturatingSub]
      omega
    simp only [isDue, Machine.run_cons, Machine.run_nil, machine, call, hrest, decide_eq_true_eq]
    exact hle
  · have hrest := ((r.track op now).onAck_rest op.opId ⟨0⟩).2.1
    have hle : (1 : UInt32) ≤ r.maxResends := by
      rw [UInt32.le_iff_toNat_le]
      have : r.maxResends.toNat ≠ 0 := fun hz => hmax (UInt32.toNat_inj.mp hz)
      change 1 ≤ r.maxResends.toNat
      omega
    simp only [isSpent, Machine.run_cons, Machine.run_nil, machine, call, hrest,
      decide_eq_false_iff_not]
    exact UInt32.not_lt.mpr hle

/-- An entry that allows for no resend, or is never due, is not resent. -/
theorem isSpent_of_idle (h : r.maxResends = 0 ∨
      u64Max.toNat < now.toNat + r.ackTimeoutMs.toNat) {t : UInt64}
    (ht : (r.track op now).isDue t ⟨op, now, 1, 0⟩ = true) :
    (r.track op now).isSpent ⟨op, now, 1, 0⟩ = true := by
  rcases h with h | h
  · simp only [isSpent, track, h]
    decide
  · have hle := UInt64.le_iff_toNat_le.mp (of_decide_eq_true ht)
    rw [toNat_saturatingSub] at hle
    have ht := toNat_le_u64Max t
    have hnow := toNat_le_u64Max now
    simp only [track, u64Max_toNat] at hle h
    omega

theorem stopsResending_of (hkeyed : r.Keyed) (h : op.opId ∉ r.ackedPeers ∨ r.maxResends = 0 ∨
    u64Max.toNat < now.toNat + r.ackTimeoutMs.toNat) : r.StopsResending op now := by
  intro peers l hpeers hl hacks t o ho he
  obtain ⟨i, entry, hi, hdue, hspent, rfl⟩ := mem_due.mp ho
  have hie := Machine.run_inv (I := Keyed) (fun _ c _ h => h.call c)
    (hkeyed.call (.track op now)) i entry hi
  rw [he] at hie
  subst hie
  rcases h with h | h
  · obtain ⟨p, hp⟩ := List.exists_mem_of_ne_nil peers hpeers
    have := pending_run_acked (p := p) (r := r.track op now) (Or.inr h) hl (hacks p hp)
    cases this.symm.trans hi
  · obtain ⟨hp, hidle⟩ := pending_run_idle (fun t ht => isSpent_of_idle h ht) hl
      (Or.inr (r.pending_track_self op now))
    rcases hp with hp | hp
    · cases hp.symm.trans hi
    · obtain rfl := Option.some.inj (hp.symm.trans hi)
      rw [hidle t hdue] at hspent
      cases hspent

/-- After any calls, an operation that is tracked now is not due again once every peer has
acknowledged it, exactly when nobody has acknowledged its id yet, or no resend is allowed for, or
the clock ends before the timeout. -/
theorem run_stopsResending_iff (ackTimeout : ℕ) (maxResends : UInt32) (calls : List TrackerCall)
    (op : TaggedOperation) (now : UInt64) :
    (machine.run (new ackTimeout maxResends) calls).StopsResending op now ↔
      op.opId ∉ (machine.run (new ackTimeout maxResends) calls).ackedPeers ∨
      (machine.run (new ackTimeout maxResends) calls).maxResends = 0 ∨
      u64Max.toNat < now.toNat +
        (machine.run (new ackTimeout maxResends) calls).ackTimeoutMs.toNat := by
  have hkeyed := keyed_run ackTimeout maxResends calls
  generalize machine.run (new ackTimeout maxResends) calls = r at hkeyed
  refine ⟨fun h => ?_, stopsResending_of hkeyed⟩
  by_contra hno
  simp only [not_or, not_not, not_lt] at hno
  exact not_stopsResending hno.1 hno.2.1 hno.2.2 h

/-- An acknowledgment comes in before the operation is tracked, and is taken for all later ones. -/
theorem earlyAck_resends :
    ¬(machine.run (new 1000 4) [.onAck ⟨1, ⟨1⟩⟩ ⟨2⟩]).StopsResending
      (.of 1 1 (.insertTrack ⟨1⟩ (.new "t") 0)) 0 := by
  intro h
  refine h [⟨2⟩] [.onAck ⟨1, ⟨1⟩⟩ ⟨2⟩] (by simp) (fun _ _ hc => by simp at hc)
    (by simp [TaggedOperation.of]) 1000 (.of 1 1 (.insertTrack ⟨1⟩ (.new "t") 0)) ?_ rfl
  exact List.mem_singleton_self _

end ReliabilityManager

end AvSync
