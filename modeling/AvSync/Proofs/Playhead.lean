import AvSync.Playhead
import Mathlib.Data.List.MinMax

/-!
# Clock samples and the followed playhead

The synchronizer retains the offset of the least round trip (`retains_feed`). A response that is
not an improvement feeds the latency and drift estimators the retained sample instead of its own
(`estimators_eq_iff`). The skew stays within bounds (`skewPpm_feed`), so a followed playhead does
not run backwards (`follower_advances`).
-/

namespace AvSync

open Measures

variable {K : Type} [Field K] [LinearOrder K]

/-! ## The retained sample -/

/-- What `m` says of its exchange, with a remote clock that is `θ` ahead: the ways and the
processing take no negative time. -/
structure Exchange (θ : K) (m : ClockSyncMessage) : Prop where
  response : m.messageType = .response
  delays : ∃ (t2 t3 t4 : UInt64) (outbound processing back : K), m.t2 = some t2 ∧
    m.t3 = some t3 ∧ m.t4 = some t4 ∧ 0 ≤ outbound ∧ 0 ≤ processing ∧ 0 ≤ back ∧
    asF64 t2 = asF64 m.t1 + outbound + θ ∧ asF64 t3 = asF64 t2 + processing ∧
    asF64 t4 = asF64 t3 - θ + back

/-- A remote that answers at once. -/
theorem exchange_respond {θ : K} (outbound back : K) {peer : PeerId} {t1 t2 t4 : UInt64}
    (hout : 0 ≤ outbound) (hback : 0 ≤ back) (h2 : asF64 t2 = asF64 t1 + outbound + θ)
    (h4 : asF64 t4 = asF64 t2 - θ + back) :
    Exchange θ (((ClockSyncMessage.request peer t1).respond t2).withT4 t4) :=
  ⟨rfl, t2, t2, t4, outbound, 0, back, rfl, rfl, rfl, hout, le_rfl, hback, h2,
    (add_zero _).symm, h4⟩

variable [IsStrictOrderedRing K] in
/-- The measured round trip is not negative, and the error of the offset half of it at most. -/
theorem Exchange.measure {θ : K} {m : ClockSyncMessage} (h : Exchange θ m) :
    ∃ offset rtt : K, m.measure = some (offset, rtt) ∧ |offset - θ| ≤ rtt / 2 := by
  obtain ⟨t2, t3, t4, outbound, processing, back, h2, h3, h4, hout, -, hback, e2, -, e4⟩ :=
    h.delays
  have hto : asF64 m.t1 + θ ≤ asF64 t2 := by
    rw [e2]
    linarith
  have hfrom : asF64 t3 ≤ asF64 t4 + θ := by
    rw [e4]
    linarith
  refine ⟨_, _, by simp only [ClockSyncMessage.measure, h2, h3, h4]; rfl, ?_⟩
  rw [max_eq_left (rtt_nonneg hto hfrom)]
  exact abs_offset_sub_le hto hfrom

namespace ClockSynchronizer

/-- The responses with the times at which they are processed, fed to a new synchronizer. -/
def feed (responses : List (ClockSyncMessage × UInt64)) : ClockSynchronizer K :=
  responses.foldl (fun clock r => (clock.processResponse r.1 r.2).2) new

/-- The round trips measured by the responses. -/
def roundTrips (responses : List (ClockSyncMessage × UInt64)) : List K :=
  responses.filterMap fun r => (r.1.completed r.2).measure.map Prod.snd

/-- The round trip is the least one, and its offset is as good as that. -/
structure Retains (θ : K) (rtts : List K) (clock : ClockSynchronizer K) : Prop where
  least : clock.bestRttMs = rtts.minimum
  sampled : clock.hasSample = false → rtts = []
  error : ∀ rtt : K, clock.bestRttMs = rtt → |clock.bestOffsetMs - θ| ≤ rtt / 2

theorem Retains.observe {θ offset rtt : K} {rtts : List K} {clock : ClockSynchronizer K}
    (h : clock.Retains θ rtts) (herror : |offset - θ| ≤ rtt / 2) :
    (clock.observe offset rtt).Retains θ (rtts ++ [rtt]) := by
  unfold ClockSynchronizer.observe
  split_ifs with hbetter
  · refine ⟨?_, fun hs => absurd hs (by simp), fun r hr => ?_⟩
    · rw [List.minimum_concat, ← h.least]
      refine (min_eq_right ?_).symm
      rcases hbetter with hs | hlt
      · rw [h.least, h.sampled hs]
        exact le_top
      · exact hlt.le
    · obtain rfl := WithTop.coe_inj.mp hr
      exact herror
  · rw [not_or, not_lt] at hbetter
    refine ⟨?_, fun hs => absurd hs (by simp), h.error⟩
    rw [List.minimum_concat, ← h.least]
    exact (min_eq_left hbetter.2).symm

theorem completed_messageType (m : ClockSyncMessage) (nowMs : UInt64) :
    (m.completed nowMs).messageType = m.messageType := by
  unfold ClockSyncMessage.completed
  split_ifs <;> rfl

variable [IsStrictOrderedRing K]

theorem retains_feed {θ : K} {responses : List (ClockSyncMessage × UInt64)}
    (h : ∀ r ∈ responses, Exchange θ (r.1.completed r.2)) :
    (feed responses).Retains θ (roundTrips responses) := by
  induction responses using List.reverseRecOn with
  | nil => exact ⟨rfl, fun _ => rfl, fun rtt hr => absurd hr WithTop.top_ne_coe⟩
  | append_singleton responses r ih =>
    have hr := h r (by simp)
    have hprev := ih fun x hx => h x (List.mem_append_left _ hx)
    obtain ⟨offset, rtt, hm, herror⟩ := hr.measure
    have htype : r.1.messageType = .response :=
      (completed_messageType r.1 r.2).symm.trans hr.response
    have hfeed : feed (responses ++ [r]) = (feed (K := K) responses).observe offset rtt := by
      simp only [feed, List.foldl_append, List.foldl_cons, List.foldl_nil, processResponse, htype,
        hm]
    have htrips : roundTrips (responses ++ [r]) = roundTrips (K := K) responses ++ [rtt] := by
      simp only [roundTrips, List.filterMap_append, List.filterMap_cons, hm, Option.map_some,
        List.filterMap_nil]
    rw [hfeed, htrips]
    exact hprev.observe herror

/-- After any exchanges with one remote, the round trip is the least of the measured ones, and the
offset is wrong by half of it at most. -/
theorem offset_error_le (θ : K) (responses : List (ClockSyncMessage × UInt64))
    (hne : responses ≠ []) (h : ∀ r ∈ responses, Exchange θ (r.1.completed r.2)) :
    ∃ rtt : K, (feed (K := K) responses).rttMs = rtt ∧
      (roundTrips (K := K) responses).minimum = rtt ∧
      |(feed responses).offsetMs - θ| ≤ rtt / 2 := by
  have hr := retains_feed h
  have htrips : roundTrips (K := K) responses ≠ [] := by
    obtain ⟨r, hmem⟩ := List.exists_mem_of_ne_nil responses hne
    obtain ⟨offset, rtt, hm, -⟩ := (h r hmem).measure
    refine List.ne_nil_of_mem (a := rtt) (List.mem_filterMap.mpr ⟨r, hmem, ?_⟩)
    rw [hm, Option.map_some]
  obtain ⟨rtt, hrtt⟩ := WithTop.ne_top_iff_exists.mp (List.minimum_ne_top_of_ne_nil htrips)
  exact ⟨rtt, hr.least.trans hrtt.symm, hrtt.symm, hr.error rtt (hr.least.trans hrtt.symm)⟩

/-- Two exchanges with a remote that is ten milliseconds ahead. -/
theorem twoExchanges_error :
    ∃ rtt : ℚ, (feed (K := ℚ) [((ClockSyncMessage.request ⟨1⟩ 0).respond 15, 20),
        ((ClockSyncMessage.request ⟨1⟩ 100).respond 112, 103)]).rttMs = rtt ∧
      (roundTrips (K := ℚ) [((ClockSyncMessage.request ⟨1⟩ 0).respond 15, 20),
        ((ClockSyncMessage.request ⟨1⟩ 100).respond 112, 103)]).minimum = rtt ∧
      |(feed [((ClockSyncMessage.request ⟨1⟩ 0).respond 15, 20),
        ((ClockSyncMessage.request ⟨1⟩ 100).respond 112, 103)]).offsetMs - 10| ≤ rtt / 2 := by
  refine offset_error_le 10 _ (by simp) fun r hr => ?_
  rcases List.mem_pair.mp hr with rfl | rfl
  · exact exchange_respond 5 15 (by norm_num) (by norm_num)
      (by decide +kernel) (by decide +kernel)
  · exact exchange_respond 2 1 (by norm_num) (by norm_num)
      (by decide +kernel) (by decide +kernel)

end ClockSynchronizer

/-! ## Two ways to feed a sample -/

namespace PlayheadSync

/-- What samples are fed to. -/
def estimators (sync : PlayheadSync K) :
    ClockSynchronizer K × LatencyEstimator K × DriftCompensator K :=
  (sync.clock, sync.latency, sync.drift)

variable {sync : PlayheadSync K} {m : ClockSyncMessage} {offset rtt now : K}

/-- The latency estimator smooths, and the synchronizer that has a sample retains it. -/
structure Sampled (sync : PlayheadSync K) : Prop where
  smooths : sync.latency.alpha = clamp (1 / 4) 0 1
  retains : sync.clock.hasSample = true → ∃ best : K, sync.clock.bestRttMs = best

theorem Sampled.of_eq {sync' : PlayheadSync K} (h : sync.Sampled)
    (hclock : sync'.clock = sync.clock) (hlatency : sync'.latency = sync.latency) :
    sync'.Sampled :=
  ⟨hlatency ▸ h.smooths, hclock ▸ h.retains⟩

theorem retains_observe (h : sync.Sampled) (offset rtt : K) :
    ∃ best : K, (sync.clock.observe offset rtt).bestRttMs = best := by
  unfold ClockSynchronizer.observe
  split_ifs with hb
  · exact ⟨rtt, rfl⟩
  · exact h.retains (by simpa using (not_or.mp hb).1)

theorem onOffsetSample_lastOffset (drift : DriftCompensator K) (offset now : K) :
    (drift.onOffsetSample offset now).lastOffsetMs = some offset := rfl

variable [IsStrictOrderedRing K] in
theorem clamp_quarter_ne_zero : clamp (1 / 4 : K) 0 1 ≠ 0 := by
  have h₁ : ¬(1 / 4 : K) < 0 := by norm_num
  have h₂ : ¬(1 : K) < 1 / 4 := by norm_num
  rw [clamp, if_neg h₁, if_neg h₂]
  norm_num

omit [LinearOrder K] in
/-- An estimator that smooths tells two round trips apart. -/
theorem onRttSample_injective {latency : LatencyEstimator K} (h : latency.alpha ≠ 0) {a b : K}
    (he : latency.onRttSample a = latency.onRttSample b) : a = b := by
  have hewma := congrArg LatencyEstimator.ewmaRttMs he
  simp only [LatencyEstimator.onRttSample] at hewma
  split_ifs at hewma
  · exact hewma
  · exact sub_left_injective (mul_left_cancel₀ h (add_left_cancel hewma))

variable [FloorRing K]

/-- A complete response feeds the retained sample. -/
theorem processClockSync_response (htype : m.messageType = .response)
    (hm : (m.completed (nowMsU64 now)).measure = some (offset, rtt)) :
    (sync.processClockSync m now).2 =
      { sync with
        clock := sync.clock.observe offset rtt
        latency := sync.latency.onRttSample ((sync.clock.observe offset rtt).rttMs.untopD 0)
        drift := sync.drift.onOffsetSample (sync.clock.observe offset rtt).offsetMs now
        lastOffsetSampleAt := some now } := by
  simp only [processClockSync, ClockSynchronizer.processResponse, htype, hm, if_true]

/-- A message that is not a complete response leaves the engine as it is. -/
theorem processClockSync_cases (sync : PlayheadSync K) (m : ClockSyncMessage) (now : K) :
    (m.messageType = .response → (m.completed (nowMsU64 now)).measure (K := K) = none) ∧
        (sync.processClockSync m now).2 = sync ∨
      m.messageType = .response ∧
        ∃ offset rtt : K, (m.completed (nowMsU64 now)).measure = some (offset, rtt) := by
  rcases htype : m.messageType with _ | _
  · refine .inl ⟨fun h => absurd h (by simp), ?_⟩
    simp only [processClockSync, htype]
  · rcases hm : (m.completed (nowMsU64 now)).measure (K := K) with _ | ⟨offset, rtt⟩
    · refine .inl ⟨fun _ => rfl, ?_⟩
      simp only [processClockSync, ClockSynchronizer.processResponse, htype, hm,
        Bool.false_eq_true, if_false]
    · exact .inr ⟨rfl, offset, rtt, rfl⟩

theorem Sampled.processClockSync (h : sync.Sampled) (m : ClockSyncMessage) (now : K) :
    (sync.processClockSync m now).2.Sampled := by
  rcases sync.processClockSync_cases m now with ⟨-, hself⟩ | ⟨htype, offset, rtt, hm⟩
  · rw [hself]
    exact h
  · rw [processClockSync_response htype hm]
    exact ⟨h.smooths, fun _ => retains_observe h offset rtt⟩

theorem run_concat (peerId : PeerId) (sampleRate : UInt32) (calls : List (Call K)) (c : Call K) :
    run peerId sampleRate (calls ++ [c]) = (run peerId sampleRate calls).call c := by
  simp only [run, List.foldl_append, List.foldl_cons, List.foldl_nil]

theorem sampled_run (peerId : PeerId) (sampleRate : UInt32) (calls : List (Call K)) :
    (run peerId sampleRate calls).Sampled := by
  induction calls using List.reverseRecOn with
  | nil => exact ⟨rfl, fun h => absurd h (by simp [run, withClock, ClockSynchronizer.new])⟩
  | append_singleton calls c ih =>
    rw [run_concat]
    cases c with
    | processClockSync m now => exact ih.processClockSync m now
    | observeClockSample offset rtt sampledAt =>
      exact ⟨ih.smooths, fun _ => retains_observe ih offset rtt⟩
    | _ => exact ih.of_eq rfl rfl

variable [IsStrictOrderedRing K] in
/-- A complete response leaves the estimators as its own sample would, fed at the same time, if and
only if it is the first sample, has a lower round trip than the retained one, or is the retained
one. -/
theorem estimators_eq_iff (peerId : PeerId) (sampleRate : UInt32) (calls : List (Call K))
    (m : ClockSyncMessage) (now offset rtt : K) (htype : m.messageType = .response)
    (hm : (m.completed (nowMsU64 now)).measure = some (offset, rtt)) :
    ((run peerId sampleRate calls).processClockSync m now).2.estimators =
        ((run peerId sampleRate calls).observeClockSample offset rtt now).estimators ↔
      ((run peerId sampleRate calls).clock.hasSample = false ∨
        (rtt : WithTop K) < (run peerId sampleRate calls).clock.bestRttMs ∨
        (run peerId sampleRate calls).clock.bestRttMs = rtt ∧
          (run peerId sampleRate calls).clock.bestOffsetMs = offset) := by
  have hs := sampled_run peerId sampleRate calls
  generalize run peerId sampleRate calls = sync at hs
  rw [processClockSync_response htype hm]
  by_cases hfresh : sync.clock.hasSample = false ∨ (rtt : WithTop K) < sync.clock.bestRttMs
  · have hobserve : sync.clock.observe offset rtt = ⟨rtt, offset, true⟩ := if_pos hfresh
    rw [← or_assoc]
    simp only [estimators, observeClockSample, hobserve, ClockSynchronizer.rttMs,
      ClockSynchronizer.offsetMs, WithTop.untopD_coe, hfresh, true_or]
  · have hobserve : sync.clock.observe offset rtt = { sync.clock with hasSample := true } :=
      if_neg hfresh
    rw [← or_assoc, or_iff_right hfresh]
    obtain ⟨best, hbest⟩ := hs.retains (by simpa using (not_or.mp hfresh).1)
    simp only [estimators, observeClockSample, hobserve, ClockSynchronizer.rttMs,
      ClockSynchronizer.offsetMs, hbest, WithTop.untopD_coe, Prod.mk.injEq, true_and,
      WithTop.coe_inj]
    constructor
    · rintro ⟨hlatency, hdrift⟩
      have hlast := congrArg DriftCompensator.lastOffsetMs hdrift
      rw [onOffsetSample_lastOffset, onOffsetSample_lastOffset] at hlast
      exact ⟨onRttSample_injective (hs.smooths ▸ clamp_quarter_ne_zero) hlatency,
        Option.some.inj hlast⟩
    · rintro ⟨rfl, rfl⟩
      exact ⟨rfl, rfl⟩

/-- A response with a shorter round trip than the retained one is fed in the same way by both
paths. -/
theorem fasterSample_agrees :
    ((run ⟨1⟩ 48000 [.observeClockSample 0 30 0]).processClockSync
        (((ClockSyncMessage.request ⟨1⟩ 0).respond 15).withT4 20) (1000 : ℚ)).2.estimators =
      ((run ⟨1⟩ 48000 [.observeClockSample 0 30 0]).observeClockSample 5 20
        (1000 : ℚ)).estimators :=
  (estimators_eq_iff ⟨1⟩ 48000 [.observeClockSample 0 30 0]
    (((ClockSyncMessage.request ⟨1⟩ 0).respond 15).withT4 20) (1000 : ℚ) 5 20 rfl
    (by decide +kernel)).mpr (Or.inr (Or.inl (by decide +kernel)))

/-- A response with a longer round trip than the retained one feeds the drift estimator the old
offset. -/
theorem slowerSample_differs :
    ((run ⟨1⟩ 48000 [.observeClockSample 0 10 0]).processClockSync
        (((ClockSyncMessage.request ⟨1⟩ 0).respond 15).withT4 20) (1000 : ℚ)).2.estimators ≠
      ((run ⟨1⟩ 48000 [.observeClockSample 0 10 0]).observeClockSample 5 20
        (1000 : ℚ)).estimators := by
  intro h
  have hlast := congrArg (fun e => e.2.2.lastOffsetMs) h
  revert hlast
  decide +kernel

end PlayheadSync

/-! ## The followed playhead -/

namespace DriftCompensator

/-- Offset samples with their times, fed to a new compensator. -/
def feed (alpha : K) (samples : List (K × K)) : DriftCompensator K :=
  samples.foldl (fun drift sample => drift.onOffsetSample sample.1 sample.2) (new alpha)

/-- The skew is within the bounds of a rate, and the smoothing factor is one. -/
structure Bounded (drift : DriftCompensator K) : Prop where
  skew : drift.skewPpm ∈ Set.Ioo (-10000) 10000
  smooths : drift.alpha ∈ Set.Icc 0 1

variable [IsStrictOrderedRing K] {drift : DriftCompensator K}

theorem Bounded.onRate (h : drift.Bounded) (ppm : K) : (drift.onRate ppm).Bounded := by
  unfold DriftCompensator.onRate
  split_ifs with hppm hfirst
  · exact ⟨abs_lt.mp hppm, h.smooths⟩
  · exact ⟨smooth_mem_Ioo h.skew (abs_lt.mp hppm) h.smooths, h.smooths⟩
  · exact h

theorem Bounded.onOffsetSample (h : drift.Bounded) (offset now : K) :
    (drift.onOffsetSample offset now).Bounded := by
  unfold DriftCompensator.onOffsetSample
  dsimp only
  split
  · split_ifs
    · have hr := h.onRate
      exact ⟨(hr _).skew, (hr _).smooths⟩
    · exact ⟨h.skew, h.smooths⟩
  · exact ⟨h.skew, h.smooths⟩

theorem bounded_new (alpha : K) : (new alpha).Bounded :=
  ⟨⟨by norm_num [new], by norm_num [new]⟩, clamp_mem_Icc alpha zero_le_one⟩

theorem bounded_feed (alpha : K) (samples : List (K × K)) : (feed alpha samples).Bounded := by
  induction samples using List.reverseRecOn with
  | nil => exact bounded_new alpha
  | append_singleton samples sample ih =>
    have hfeed : feed alpha (samples ++ [sample]) =
        (feed alpha samples).onOffsetSample sample.1 sample.2 := by
      simp only [feed, List.foldl_append, List.foldl_cons, List.foldl_nil]
    rw [hfeed]
    exact ih.onOffsetSample sample.1 sample.2

/-- Time that passes on the local clock passes on the remote one. -/
theorem Bounded.factor_pos (h : drift.Bounded) : 0 < 1 + drift.skewPpm / 1000000 := by
  have := h.skew.1
  linarith

theorem Bounded.correctElapsedMs_mono (h : drift.Bounded) : Monotone drift.correctElapsedMs :=
  fun _ _ hle => mul_le_mul_of_nonneg_right hle h.factor_pos.le

end DriftCompensator

theorem asU64_mono : Monotone asU64 := by
  intro a b h
  rw [asU64, asU64, UInt64.le_iff_toNat_le, UInt64.toNat_ofNat', UInt64.toNat_ofNat', u64Max_toNat]
  omega

theorem saturatingAdd_mono (a : UInt64) : Monotone (saturatingAdd a) := by
  intro b c h
  rw [UInt64.le_iff_toNat_le] at h ⊢
  rw [toNat_saturatingAdd, toNat_saturatingAdd]
  omega

theorem le_saturatingAdd (a b : UInt64) : a ≤ saturatingAdd a b := by
  have := toNat_le_u64Max a
  rw [UInt64.le_iff_toNat_le, toNat_saturatingAdd]
  omega

namespace PlayheadSync

/-- The engine follows a playing master, whose last update is `track`. -/
def Follows (sync : PlayheadSync K) (track : RemoteTrack K) : Prop :=
  sync.isMaster = false ∧ track.playing = true ∧
    ∃ master, sync.masterPeer = some master ∧ sync.remotes[master]? = some track

variable [FloorRing K] {sync : PlayheadSync K} {track : RemoteTrack K}

theorem synchronizedPosition_of_follows (h : sync.Follows track) (now : K) :
    sync.synchronizedPosition now = saturatingAdd track.position (asU64 (roundAway
      (sync.drift.correctElapsedMs (max (now - track.atLocalMs) 0) * (sync.sampleRate.toNat : K) /
        1000))) := by
  obtain ⟨hmaster, hplaying, master, hfollows, htrack⟩ := h
  simp only [synchronizedPosition, hmaster, hfollows, htrack, hplaying, Bool.false_eq_true,
    if_false, if_true]

variable [IsStrictOrderedRing K]

theorem advances_of_bounded (hdrift : sync.drift.Bounded) (h : sync.Follows track) :
    (∀ now, track.position ≤ sync.synchronizedPosition now) ∧
      Monotone sync.synchronizedPosition := by
  refine ⟨fun now => ?_, fun now later hle => ?_⟩
  · rw [synchronizedPosition_of_follows h]
    exact le_saturatingAdd _ _
  · rw [synchronizedPosition_of_follows h, synchronizedPosition_of_follows h]
    have helapsed : max (now - track.atLocalMs) 0 ≤ max (later - track.atLocalMs) 0 :=
      max_le_max_right 0 (sub_le_sub_right hle _)
    have hrate : (0 : K) ≤ sync.sampleRate.toNat := Nat.cast_nonneg _
    have hframes := mul_le_mul_of_nonneg_right (hdrift.correctElapsedMs_mono helapsed) hrate
    have hadvance := div_le_div_of_nonneg_right hframes (show (0 : K) ≤ 1000 by norm_num)
    exact saturatingAdd_mono _ (asU64_mono (roundAway_mono hadvance))

/-- Whatever has been called, the skew of an engine is bounded. -/
theorem bounded_run (peerId : PeerId) (sampleRate : UInt32) (calls : List (Call K)) :
    (run peerId sampleRate calls).drift.Bounded := by
  induction calls using List.reverseRecOn with
  | nil => exact DriftCompensator.bounded_new _
  | append_singleton calls c ih =>
    rw [run_concat]
    cases c with
    | processClockSync m now =>
      rcases processClockSync_cases _ m now with ⟨-, hself⟩ | ⟨htype, offset, rtt, hm⟩
      · rw [call, hself]
        exact ih
      · rw [call, processClockSync_response htype hm]
        exact ih.onOffsetSample _ now
    | observeClockSample offset rtt sampledAt => exact ih.onOffsetSample offset sampledAt
    | _ => exact ih

/-- An engine that follows a playing master is never behind the last update, and does not run
backwards until the next one. -/
theorem advances_run {peerId : PeerId} {sampleRate : UInt32} {calls : List (Call K)}
    (h : (run peerId sampleRate calls).Follows track) :
    (∀ now, track.position ≤ (run peerId sampleRate calls).synchronizedPosition now) ∧
      Monotone (run peerId sampleRate calls).synchronizedPosition :=
  advances_of_bounded (bounded_run peerId sampleRate calls) h

/-- For every smoothing factor and all samples the skew is between -10000 and 10000 ppm, and an
engine with that skew that follows a playing master does not run backwards. -/
theorem follower_advances (alpha : K) (samples : List (K × K)) :
    (-10000 < (DriftCompensator.feed alpha samples).skewPpm ∧
      (DriftCompensator.feed alpha samples).skewPpm < 10000) ∧
    ∀ (sync : PlayheadSync K) (track : RemoteTrack K),
      sync.drift = DriftCompensator.feed alpha samples → sync.Follows track →
        (∀ now, track.position ≤ sync.synchronizedPosition now) ∧
          Monotone sync.synchronizedPosition := by
  have hdrift := DriftCompensator.bounded_feed alpha samples
  refine ⟨hdrift.skew, fun sync track h hf => advances_of_bounded ?_ hf⟩
  rw [h]
  exact hdrift

/-- An engine that follows peer 2, with two samples of its clock. -/
theorem followedPlayhead_advances :
    (∀ now, 100 ≤ (run ⟨1⟩ 48000 [.followMaster ⟨2⟩, .receiveUpdate ⟨⟨2⟩, 100, 5, true⟩,
        .observeClockSample 10 20 0, .observeClockSample 11 20 (1000 : ℚ)]).synchronizedPosition
          now) ∧
      Monotone (run ⟨1⟩ 48000 [.followMaster ⟨2⟩, .receiveUpdate ⟨⟨2⟩, 100, 5, true⟩,
        .observeClockSample 10 20 0,
        .observeClockSample 11 20 (1000 : ℚ)]).synchronizedPosition :=
  (follower_advances (1 / 5) [(10, 0), (11, (1000 : ℚ))]).2 _ ⟨100, 5, true⟩ rfl
    ⟨rfl, rfl, ⟨2⟩, rfl, by decide +kernel⟩

end PlayheadSync

end AvSync
