import AvSync.Playheads
import AvSync.Proofs.Playhead

/-!
# The master's clock and the others'

The position of a follower is computed from the last update of its master, from the clock and from
the skew (`synchronizedPosition_congr`). A response makes no difference to the clock and the skew
exactly when it is ignored (`ignores_iff`), so a run whose follower takes in no other response of a
third peer shows the follower's position as the run without the third peers does
(`run_masterOnly`). Any other response of a third peer can change it (`thirdPeer_takes_over`).
-/

namespace AvSync

variable {K : Type}

/-! ## What a position is computed from -/

namespace PlayheadSync

/-- What an engine tells the others. -/
def told (sync : PlayheadSync K) : PeerId × UInt64 × Bool :=
  (sync.peerId, sync.localPosition, sync.playing)

/-- What the position of a follower of `m` is computed from. -/
def basis (m : PeerId) (sync : PlayheadSync K) : Bool × Option PeerId × UInt32 ×
    ClockSynchronizer K × DriftCompensator K × Option (RemoteTrack K) :=
  (sync.isMaster, sync.masterPeer, sync.sampleRate, sync.clock, sync.drift, sync.remotes[m]?)

variable [Field K] {sync sync' : PlayheadSync K} {m : PeerId}

theorem basis_storeUpdate_of_ne {peer : PeerId} (h : peer ≠ m) (position timestampMs : UInt64)
    (playing : Bool) :
    (sync.storeUpdate peer position timestampMs playing).basis m = sync.basis m := by
  simp only [basis, storeUpdate, BTreeMap.getElem?_insert_if, if_neg h]

theorem basis_takePosition_of_ne {message : PlayheadMessage}
    (h : ∀ update, message = .update update → update.peerId ≠ m) :
    (sync.takePosition message).basis m = sync.basis m := by
  cases message with
  | clockSync message => rfl
  | update update => exact basis_storeUpdate_of_ne (h update rfl) ..

theorem basis_storeUpdate_congr (h : sync.basis m = sync'.basis m) (peer : PeerId)
    (position timestampMs : UInt64) {playing playing' : Bool}
    (hplaying : peer = m → playing = playing') :
    (sync.storeUpdate peer position timestampMs playing).basis m =
      (sync'.storeUpdate peer position timestampMs playing').basis m := by
  by_cases hp : peer = m
  · subst hp
    simp only [basis, Prod.mk.injEq] at h
    obtain ⟨h1, h2, h3, hclock, h5, -⟩ := h
    simp only [basis, storeUpdate, BTreeMap.getElem?_insert_if, hclock, hplaying rfl, h1, h2, h3,
      h5, if_true]
  · rw [basis_storeUpdate_of_ne hp, basis_storeUpdate_of_ne hp, h]

theorem told_takePosition (sync : PlayheadSync K) (message : PlayheadMessage) :
    (sync.takePosition message).told = sync.told := by
  cases message <;> rfl

theorem basis_takePosition (h : sync.basis m = sync'.basis m) (message : PlayheadMessage) :
    (sync.takePosition message).basis m = (sync'.takePosition message).basis m := by
  cases message with
  | clockSync message => exact h
  | update update =>
    refine basis_storeUpdate_congr h _ _ _ fun hp => ?_
    simp only [basis, Prod.mk.injEq] at h
    rw [hp, h.2.2.2.2.2]

variable [LinearOrder K] [FloorRing K]

theorem synchronizedPosition_congr (hlocal : sync.localPosition = sync'.localPosition)
    (h : sync.basis m = sync'.basis m) (hmaster : sync.masterPeer = some m) (now : K) :
    sync.synchronizedPosition now = sync'.synchronizedPosition now := by
  simp only [basis, Prod.mk.injEq] at h
  obtain ⟨h1, h2, h3, -, h5, h6⟩ := h
  simp only [synchronizedPosition, ← h1, ← h2, ← h3, ← h5, ← hlocal, hmaster, h6]

theorem generateUpdate_congr (h : sync.told = sync'.told) (now : K) :
    sync.generateUpdate now = sync'.generateUpdate now := by
  simp only [told, Prod.mk.injEq] at h
  obtain ⟨h1, h2, h3⟩ := h
  simp only [generateUpdate, h1, h2, h3]

theorem sendClockSyncRequest_congr (h : sync.told = sync'.told) (peer : PeerId) (now : K) :
    sync.sendClockSyncRequest peer now = sync'.sendClockSyncRequest peer now := by
  simp only [told, Prod.mk.injEq] at h
  simp only [sendClockSyncRequest, h.1]

/-! ## Calls and messages -/

theorem told_processClockSync (message : ClockSyncMessage) (now : K) :
    (sync.processClockSync message now).2.told = sync.told := by
  rcases sync.processClockSync_cases message now with ⟨-, hself⟩ | ⟨htype, offset, rtt, hm⟩
  · rw [hself]
  · rw [processClockSync_response htype hm]
    rfl

theorem told_take (sync : PlayheadSync K) (message : PlayheadMessage) (t4 : Option UInt64)
    (now : K) : (sync.take message t4 now).2.told = sync.told := by
  cases message with
  | clockSync message => exact told_processClockSync _ now
  | update update => rfl

/-- Who is asked replies the same, whatever it knows. -/
theorem take_reply (sync sync' : PlayheadSync K) (message : PlayheadMessage) (t4 : Option UInt64)
    (now : K) : (sync.take message t4 now).1 = (sync'.take message t4 now).1 := by
  cases message with
  | clockSync message =>
    simp only [take, processClockSync]
    split
    · rfl
    · split_ifs <;> rfl
  | update update => rfl

theorem told_call (h : sync.told = sync'.told) (c : Call K) :
    (sync.call c).told = (sync'.call c).told := by
  have h' := h
  simp only [told, Prod.mk.injEq] at h'
  obtain ⟨h1, h2, h3⟩ := h'
  cases c with
  | processClockSync message now =>
    simp only [call, told_processClockSync, h]
  | setLocalPosition position => simp only [call, told, setLocalPosition, h1, h3]
  | setPlaying playing => simp only [call, told, setPlaying, h1, h2]
  | _ => exact h

theorem peerId_call (sync : PlayheadSync K) (c : Call K) : (sync.call c).peerId = sync.peerId := by
  cases c with
  | processClockSync message now => exact congrArg Prod.fst (told_processClockSync message now)
  | _ => rfl

theorem basis_call (htold : sync.told = sync'.told) (h : sync.basis m = sync'.basis m) {c : Call K}
    (hc : c.IsLocal) : (sync.call c).basis m = (sync'.call c).basis m := by
  have hid : sync.peerId = sync'.peerId := congrArg Prod.fst htold
  simp only [basis, Prod.mk.injEq] at h ⊢
  obtain ⟨h1, h2, h3, h4, h5, h6⟩ := h
  cases c with
  | receivePlayheadUpdate | receiveUpdate | processClockSync => exact hc.elim
  | _ =>
    simp only [call, setLocalPosition, setPlaying, setMaster, followMaster, observeClockSample,
      hid, h1, h2, h3, h4, h5, h6, and_self]

theorem basis_processClockSync (h : sync.basis m = sync'.basis m) (message : ClockSyncMessage)
    (now : K) :
    (sync.processClockSync message now).2.basis m =
      (sync'.processClockSync message now).2.basis m := by
  have h' := h
  simp only [basis, Prod.mk.injEq] at h'
  obtain ⟨h1, h2, h3, h4, h5, h6⟩ := h'
  unfold processClockSync
  split
  · exact h
  · dsimp only
    rw [h4]
    split_ifs <;> simp only [basis, h1, h2, h3, h5, h6]

theorem basis_take (h : sync.basis m = sync'.basis m) (message : PlayheadMessage)
    (t4 : Option UInt64) (now : K) :
    (sync.take message t4 now).2.basis m = (sync'.take message t4 now).2.basis m := by
  cases message with
  | clockSync message => exact basis_processClockSync h _ now
  | update update => exact basis_storeUpdate_congr h _ _ _ fun _ => rfl

end PlayheadSync

/-! ## Ignored responses -/

section Ignored

variable [LinearOrder K]

theorem ClockSynchronizer.observe_eq_iff (clock : ClockSynchronizer K) (offset rtt : K) :
    clock.observe offset rtt = clock ↔ clock.hasSample = true ∧ clock.bestRttMs ≤ rtt := by
  unfold observe
  split_ifs with hb
  · constructor
    · intro h
      rw [← h]
      exact ⟨rfl, le_rfl⟩
    · rintro ⟨hs, hle⟩
      rcases hb with hb | hb
      · exact absurd (hs.symm.trans hb) (by simp)
      · exact absurd hle hb.not_ge
  · rw [not_or, Bool.not_eq_false, not_lt] at hb
    refine iff_of_true ?_ hb
    rw [← hb.1]

variable [Field K]

theorem DriftCompensator.onOffsetSample_eq_iff {drift : DriftCompensator K} {offset now : K} :
    drift.onOffsetSample offset now = drift ↔
      drift.lastOffsetMs = some offset ∧ drift.lastTimeMs = some now := by
  constructor
  · intro h
    rw [← h]
    exact ⟨rfl, rfl⟩
  · rintro ⟨hoffset, htime⟩
    simp only [onOffsetSample, hoffset, htime, sub_self, lt_irrefl, if_false]
    rw [← hoffset, ← htime]

namespace PlayheadSync

variable [FloorRing K] {sync : PlayheadSync K} {message : ClockSyncMessage} {now : K}

theorem ignores_iff_of_measure {offset rtt : K}
    (hm : (message.completed (nowMsU64 now)).measure = some (offset, rtt)) :
    sync.Ignores message now ↔
      sync.clock.hasSample = true ∧ sync.clock.bestRttMs ≤ rtt ∧
        sync.drift.lastOffsetMs = some sync.clock.bestOffsetMs ∧
        sync.drift.lastTimeMs = some now := by
  rw [Ignores, hm]
  simp only [Option.mem_some_iff, forall_eq']

/-- The responses that leave the clock and the skew as they are. -/
theorem ignores_iff (htype : message.messageType = .response) :
    sync.Ignores message now ↔
      (sync.processClockSync message now).2.clock = sync.clock ∧
        (sync.processClockSync message now).2.drift = sync.drift := by
  rcases sync.processClockSync_cases message now with ⟨hm, hself⟩ | ⟨-, offset, rtt, hm⟩
  · rw [Ignores, hm htype, hself]
    exact iff_of_true (fun sample h => absurd h (by simp)) ⟨rfl, rfl⟩
  · rw [ignores_iff_of_measure hm, processClockSync_response htype hm, ← and_assoc,
      ← sync.clock.observe_eq_iff offset rtt]
    refine and_congr_right fun hclock => ?_
    dsimp only
    rw [hclock, DriftCompensator.onOffsetSample_eq_iff]
    rfl

theorem basis_processClockSync_of_ignores (m : PeerId)
    (h : message.messageType = .response → sync.Ignores message now) :
    (sync.processClockSync message now).2.basis m = sync.basis m := by
  rcases sync.processClockSync_cases message now with ⟨-, hself⟩ | ⟨htype, offset, rtt, hm⟩
  · rw [hself]
  · obtain ⟨hclock, hdrift⟩ := (ignores_iff htype).mp (h htype)
    rw [processClockSync_response htype hm] at hclock hdrift ⊢
    dsimp only at hclock hdrift
    rw [hclock] at hdrift
    simp only [basis, hclock, hdrift]

theorem messageType_stamped (message : ClockSyncMessage) (t4 : Option UInt64) :
    (stamped message t4).messageType = message.messageType := by
  cases t4 <;> rfl

theorem basis_take_of_ignores {m : PeerId} {message : PlayheadMessage} {t4 : Option UInt64}
    (hupdate : ∀ update, message = .update update → update.peerId ≠ m)
    (hresponse : ∀ response, message = .clockSync response → response.messageType = .response →
      sync.Ignores (stamped response t4) now) :
    (sync.take message t4 now).2.basis m = sync.basis m := by
  cases message with
  | clockSync response =>
    refine basis_processClockSync_of_ignores m fun htype => ?_
    rw [messageType_stamped] at htype
    exact hresponse response rfl htype
  | update update => exact basis_storeUpdate_of_ne (hupdate update rfl) ..

end PlayheadSync

end Ignored

/-! ## Two runs -/

theorem PlayheadPacket.Outside.source_ne {a m : PeerId} {packet : PlayheadPacket}
    (h : packet.Outside a m) (htarget : packet.target = a) : packet.source ≠ m := by
  rcases h with ⟨hsource, hne⟩ | ⟨-, hne⟩
  · rwa [hsource, ← htarget]
  · exact hne

namespace Playheads

/-- The left run has been through more than the right one, and what the position of `a` is computed
from is the same while it follows `m`. -/
structure Alike (a m : PeerId) (s t : Playheads K) : Prop where
  own : ∀ peer, (s.engine peer).peerId = peer
  told : ∀ peer, (s.engine peer).told = (t.engine peer).told
  basis : (s.engine a).basis m = (t.engine a).basis m
  sent : ∀ packet ∈ s.sent, ¬packet.Outside a m → packet ∈ t.sent
  signed : ∀ packet ∈ s.sent, ∀ update, packet.message = .update update →
    update.peerId = packet.source

theorem alike_new [Field K] [LinearOrder K] (a m : PeerId) (rates : PeerId → UInt32) :
    (new (K := K) rates).Alike a m (new rates) :=
  ⟨fun _ => rfl, fun _ => rfl, rfl, fun _ h => absurd h List.not_mem_nil,
    fun _ h => absurd h List.not_mem_nil⟩

namespace Alike

variable {a m : PeerId} {s t : Playheads K}

theorem setEngine (h : s.Alike a m t) {peer : PeerId} {sync sync' : PlayheadSync K}
    (hid : sync.peerId = peer) (htold : sync.told = sync'.told)
    (hbasis : peer = a → sync.basis m = sync'.basis m) :
    (s.setEngine peer sync).Alike a m (t.setEngine peer sync') where
  own p := by
    by_cases hp : p = peer
    · subst hp
      simp only [Playheads.setEngine, Function.update_self, hid]
    · simp only [Playheads.setEngine, Function.update_of_ne hp, h.own]
  told p := by
    by_cases hp : p = peer
    · subst hp
      simp only [Playheads.setEngine, Function.update_self, htold]
    · simp only [Playheads.setEngine, Function.update_of_ne hp, h.told]
  basis := by
    by_cases hp : a = peer
    · subst hp
      simp only [Playheads.setEngine, Function.update_self, hbasis rfl]
    · simp only [Playheads.setEngine, Function.update_of_ne hp, h.basis]
  sent := h.sent
  signed := h.signed

theorem setEngine_left (h : s.Alike a m t) {peer : PeerId} {sync : PlayheadSync K}
    (htold : sync.told = (s.engine peer).told)
    (hbasis : peer = a → sync.basis m = (s.engine peer).basis m) :
    (s.setEngine peer sync).Alike a m t := by
  have ht : t.setEngine peer (t.engine peer) = t := by
    rw [Playheads.setEngine, Function.update_eq_self]
  rw [← ht]
  refine h.setEngine ?_ (htold.trans (h.told peer)) fun hp => ?_
  · exact (congrArg Prod.fst htold).trans (h.own peer)
  · rw [hbasis hp, hp, h.basis]

theorem send (h : s.Alike a m t) {p q : List PlayheadPacket}
    (hin : ∀ packet ∈ p, packet.Outside a m ∨ packet ∈ q)
    (hsigned : ∀ packet ∈ p, ∀ update, packet.message = .update update →
      update.peerId = packet.source) :
    (s.send p).Alike a m (t.send q) where
  own := h.own
  told := h.told
  basis := h.basis
  sent packet hp hkept := by
    rcases List.mem_append.mp hp with hp | hp
    · exact List.mem_append_left _ ((hin packet hp).resolve_left hkept)
    · exact List.mem_append_right _ (h.sent packet hp hkept)
  signed packet hp := by
    rcases List.mem_append.mp hp with hp | hp
    · exact hsigned packet hp
    · exact h.signed packet hp

theorem send_left (h : s.Alike a m t) {p : List PlayheadPacket}
    (hout : ∀ packet ∈ p, packet.Outside a m)
    (hsigned : ∀ packet ∈ p, ∀ update, packet.message = .update update →
      update.peerId = packet.source) :
    (s.send p).Alike a m t :=
  h.send (q := []) (fun packet hp => Or.inl (hout packet hp)) hsigned

end Alike

variable [Field K] [LinearOrder K] [FloorRing K] {a m : PeerId} {s t : Playheads K}

theorem signed_updatePacket (h : s.Alike a m t) (source target : PeerId) (now : K) :
    ∀ update, (s.updatePacket source target now).message = .update update →
      update.peerId = (s.updatePacket source target now).source := by
  rintro update hu
  obtain rfl := PlayheadMessage.update.inj hu
  exact h.own source

omit [Field K] [LinearOrder K] [FloorRing K] in
theorem mem_replies {packet r : PlayheadPacket} {reply : Option ClockSyncMessage}
    (h : r ∈ replies packet reply) :
    r.source = packet.target ∧ r.target = packet.source ∧
      ∃ message, r.message = .clockSync message := by
  obtain ⟨message, -, rfl⟩ := List.mem_map.mp h
  exact ⟨rfl, rfl, message, rfl⟩

theorem outside_reply {packet r : PlayheadPacket} {reply : Option ClockSyncMessage}
    (h : r ∈ replies packet reply) : r.Outside a m ↔ packet.Outside a m := by
  obtain ⟨hsource, htarget, -⟩ := mem_replies h
  rw [PlayheadPacket.Outside, PlayheadPacket.Outside, hsource, htarget, or_comm]

theorem signed_reply {packet r : PlayheadPacket} {reply : Option ClockSyncMessage}
    (h : r ∈ replies packet reply) (update : PlayheadUpdate) (hu : r.message = .update update) :
    update.peerId = r.source := by
  obtain ⟨-, -, message, hm⟩ := mem_replies h
  exact absurd (hm.symm.trans hu) (by simp)

/-- An event that is left out changes nothing that the position is computed from. -/
theorem alike_left {e : PlayheadEvent K} (h : s.Alike a m t) (he : s.Enabled e)
    (hm : MasterOnly a m s e) (hout : e.Outside a m) : (step s e).Alike a m t := by
  cases e with
  | call peer c => exact hout.elim
  | request source target now =>
    refine h.send_left (List.forall_mem_singleton.mpr hout) ?_
    simp [requestPacket]
  | update source target now =>
    refine h.send_left (List.forall_mem_singleton.mpr hout) ?_
    exact List.forall_mem_singleton.mpr (signed_updatePacket h source target now)
  | deliver packet t4 now =>
    refine (h.setEngine_left (PlayheadSync.told_take ..) fun hp => ?_).send_left
      (fun r hr => (outside_reply hr).mpr hout) fun r hr => signed_reply hr
    have hne : packet.source ≠ m := hout.source_ne hp
    refine PlayheadSync.basis_take_of_ignores (fun update hu => ?_) fun response hr htype => ?_
    · rw [h.signed packet he update hu]
      exact hne
    · obtain ⟨source, target, message⟩ := packet
      obtain rfl : target = a := hp
      obtain rfl : message = .clockSync response := hr
      exact hm rfl hne htype
  | deliverPosition packet =>
    refine h.setEngine_left (PlayheadSync.told_takePosition ..) fun hp =>
      PlayheadSync.basis_takePosition_of_ne fun update hu => ?_
    rw [h.signed packet he update hu]
    exact hout.source_ne hp

/-- An event that is kept can happen on the right too, with the same effect. -/
theorem alike_kept {e : PlayheadEvent K} (h : s.Alike a m t) (he : s.Enabled e)
    (hkept : ¬e.Outside a m) : t.Enabled e ∧ (step s e).Alike a m (step t e) := by
  cases e with
  | call peer c =>
    refine ⟨he, h.setEngine ?_ (PlayheadSync.told_call (h.told peer) c) fun hp => ?_⟩
    · rw [PlayheadSync.peerId_call, h.own]
    · subst hp
      exact PlayheadSync.basis_call (h.told peer) h.basis he
  | request source target now =>
    have hp : s.requestPacket source target now = t.requestPacket source target now := by
      rw [requestPacket, requestPacket, PlayheadSync.sendClockSyncRequest_congr (h.told source)]
    refine ⟨trivial, h.send ?_ ?_⟩
    · simp [hp]
    · simp [requestPacket]
  | update source target now =>
    have hp : s.updatePacket source target now = t.updatePacket source target now := by
      rw [updatePacket, updatePacket, PlayheadSync.generateUpdate_congr (h.told source)]
    refine ⟨trivial, h.send ?_ ?_⟩
    · simp [hp]
    · exact List.forall_mem_singleton.mpr (signed_updatePacket h source target now)
  | deliver packet t4 now =>
    have htold := (s.engine packet.target).told_take packet.message t4 now
    have hreplies := congrArg (replies packet) (PlayheadSync.take_reply
      (s.engine packet.target) (t.engine packet.target) packet.message t4 now)
    refine ⟨h.sent packet he hkept, (h.setEngine ?_ ?_ fun hp => ?_).send (fun r hr => ?_)
      fun r hr => signed_reply hr⟩
    · exact (congrArg Prod.fst htold).trans (h.own packet.target)
    · exact htold.trans ((h.told packet.target).trans (PlayheadSync.told_take ..).symm)
    · subst hp
      exact PlayheadSync.basis_take h.basis ..
    · exact Or.inr (hreplies ▸ hr)
  | deliverPosition packet =>
    have htold := (s.engine packet.target).told_takePosition packet.message
    refine ⟨h.sent packet he hkept, h.setEngine ?_ ?_ fun hp => ?_⟩
    · exact (congrArg Prod.fst htold).trans (h.own packet.target)
    · rw [htold, PlayheadSync.told_takePosition, h.told]
    · subst hp
      exact PlayheadSync.basis_takePosition h.basis _

/-- In a run whose follower takes in no response of a third peer, except ignored ones, what the
follower exchanges with third peers makes no difference to its position. -/
theorem run_masterOnly (rates : PeerId → UInt32) (a m : PeerId) {l : List (PlayheadEvent K)}
    (hv : machine.Valid (new rates) l) (hm : machine.Along (MasterOnly a m) (new rates) l) :
    ∀ l', l' <+: l →
      machine.Valid (new rates) (l'.filter fun e => ¬e.Outside a m) ∧
      (((machine.run (new rates) l').engine a).masterPeer = some m → ∀ now,
        ((machine.run (new rates) l').engine a).synchronizedPosition now =
          ((machine.run (new rates)
            (l'.filter fun e => ¬e.Outside a m)).engine a).synchronizedPosition now) := by
  rintro l' ⟨rest, rfl⟩
  obtain ⟨hvalid, halike⟩ := Machine.run_filter (P := MasterOnly a m) (R := Alike a m)
    (q := fun e => ¬e.Outside a m)
    (fun h he _ hk => alike_kept h he (of_decide_eq_true hk))
    (fun h he hp hk => alike_left h he hp (by simpa using hk))
    (Machine.valid_append.mp hv).1 (Machine.along_append.mp hm).1 (alike_new a m rates)
  refine ⟨hvalid, fun hmaster now => ?_⟩
  have hlocal := congrArg (fun told => told.2.1) (halike.told a)
  exact PlayheadSync.synchronizedPosition_congr hlocal halike.basis hmaster now

/-- Peer 1 asks a peer for the time at `t1`, is answered at `t2` of the peer's clock, and has the
answer at `t4`. -/
def exchange (peer : PeerId) (t1 t2 t4 : UInt64) : List (PlayheadEvent ℚ) :=
  [.request ⟨1⟩ peer (asF64 t1),
    .deliver ⟨⟨1⟩, peer, .clockSync (.request ⟨1⟩ t1)⟩ none (asF64 t2),
    .deliver ⟨peer, ⟨1⟩, .clockSync ((ClockSyncMessage.request ⟨1⟩ t1).respond t2)⟩ none
      (asF64 t4)]

/-- Peer 1 follows peer 2, which plays from the first second on, and says so at `now`. -/
def follow (now : UInt64) : List (PlayheadEvent ℚ) :=
  [.call ⟨1⟩ (.followMaster ⟨2⟩), .call ⟨2⟩ (.setPlaying true),
    .call ⟨2⟩ (.setLocalPosition 48000), .update ⟨2⟩ ⟨1⟩ (asF64 now),
    .deliver ⟨⟨2⟩, ⟨1⟩, .update ⟨⟨2⟩, 48000, now, true⟩⟩ none (asF64 now)]

/-- A third peer, a second ahead, that is heard together with the master and no faster. -/
def slowThird : List (PlayheadEvent ℚ) :=
  exchange ⟨2⟩ 0 5 10 ++ exchange ⟨3⟩ 0 1005 10 ++ follow 10

/-- The position is the same as without the third peer. -/
theorem slowThird_position :
    ((machine.run (new fun _ => 48000) slowThird).engine ⟨1⟩).synchronizedPosition 20 =
      ((machine.run (new fun _ => 48000)
        (slowThird.filter fun e => ¬e.Outside ⟨1⟩ ⟨2⟩)).engine ⟨1⟩).synchronizedPosition 20 :=
  (run_masterOnly (fun _ => 48000) ⟨1⟩ ⟨2⟩ (by decide +kernel) (by decide +kernel)
    slowThird (List.prefix_refl _)).2 (by decide +kernel) 20

/-- A third peer, a second ahead, that answers faster than the master. -/
def fastThird : List (PlayheadEvent ℚ) :=
  exchange ⟨2⟩ 0 5 10 ++ exchange ⟨3⟩ 20 1022 24 ++ follow 24

/-- The master's position is extrapolated by the second that the third peer is ahead. -/
theorem thirdPeer_takes_over :
    let kept := fastThird.filter fun e => ¬e.Outside ⟨1⟩ ⟨2⟩
    machine.Valid (new fun _ => 48000) fastThird ∧ machine.Valid (new fun _ => 48000) kept ∧
      ((machine.run (new fun _ => 48000) fastThird).engine ⟨1⟩).masterPeer = some ⟨2⟩ ∧
      ((machine.run (new fun _ => 48000) fastThird).engine ⟨1⟩).synchronizedPosition 24 = 96000 ∧
      ((machine.run (new fun _ => 48000) kept).engine ⟨1⟩).synchronizedPosition 24 = 48000 := by
  decide +kernel

end Playheads

end AvSync
