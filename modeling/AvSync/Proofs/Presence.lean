import AvSync.Presence

/-!
# Departed users

An update and a reported leave mark who departs as offline; a tick computes every presence from the
last activity again, so it leaves the departed offline exactly when they have been inactive for
long enough (`gone_tick_iff`).
-/

namespace AvSync

theorem IdleConfig.presenceAt_eq_offline {config : IdleConfig} {nowMs lastActiveMs : UInt64} :
    config.presenceAt nowMs lastActiveMs = .offline ↔
      config.offlineAfterMs ≤ saturatingSub nowMs lastActiveMs := by
  unfold presenceAt
  dsimp only
  split_ifs <;> simp_all

namespace PresenceManager

variable {manager : PresenceManager} {peer p : PeerId}

/-- A peer shows no cursor while it is offline. -/
theorem not_mem_remoteCursors
    (h : ∀ user, manager.remoteUser peer = some user → user.info.presence = .offline)
    (cursor : CursorState) : (peer, cursor) ∉ manager.remoteCursors := by
  intro hmem
  obtain ⟨entry, hentry, hcursor⟩ := List.mem_filterMap.mp hmem
  obtain ⟨hin, hshown⟩ := List.mem_filter.mp hentry
  obtain ⟨_, -, he⟩ := Option.map_eq_some_iff.mp hcursor
  obtain rfl : entry.1 = peer := congrArg Prod.fst he
  have huser := Std.ExtTreeMap.mem_toList_iff_getElem?_eq_some.mp hin
  simp [h entry.2 huser] at hshown

theorem remoteUser_receiveUpdate (update : PresenceUpdate) :
    (manager.receiveUpdate update).remoteUser p =
      if update.peerId = p then
        some ⟨if update.leaving then { update.user with presence := .offline } else update.user,
          update.cursor <|> (manager.remoteUser p).bind RemoteUser.cursor⟩
      else manager.remoteUser p := by
  unfold receiveUpdate remoteUser
  rw [BTreeMap.getElem?_insert_if]
  by_cases h : update.peerId = p
  · rw [if_pos h, if_pos h, h]
    rcases manager.remotes[p]? with _ | user <;> rfl
  · rw [if_neg h, if_neg h]

theorem remoteUser_handlePeerLeave (peer : PeerId) :
    (manager.handlePeerLeave peer).remoteUser p =
      if peer = p then (manager.remoteUser p).map fun entry =>
        { entry with info := { entry.info with presence := .offline } }
      else manager.remoteUser p := by
  unfold handlePeerLeave remoteUser
  rw [BTreeMap.getElem?_modify_if]

theorem remoteUser_tick (nowMs : UInt64) :
    (manager.tick nowMs).remoteUser p = (manager.remoteUser p).map fun entry =>
      { entry with info := { entry.info with
          presence := manager.tracker.config.presenceAt nowMs entry.info.lastActiveMs } } := by
  unfold tick remoteUser
  exact Std.ExtTreeMap.getElem?_map

end PresenceManager

namespace Audience

variable {s : Audience}

theorem gone_iff :
    s.Gone ↔ ∀ peer, s.departed peer = true →
      ∀ user, s.manager.remoteUser peer = some user → user.info.presence = .offline :=
  forall₂_congr fun _ _ =>
    ⟨fun h => h.1, fun h => ⟨h, PresenceManager.not_mem_remoteCursors h⟩⟩

theorem gone_receiveUpdate (h : s.Gone) (update : PresenceUpdate) :
    (machine.step s (.receiveUpdate update)).Gone := by
  rw [gone_iff] at h ⊢
  intro peer hdeparted user huser
  simp only [machine, departedAfter, PresenceManager.call] at hdeparted huser
  rw [PresenceManager.remoteUser_receiveUpdate] at huser
  by_cases hp : update.peerId = peer
  · subst hp
    rw [Function.update_self] at hdeparted
    rw [if_pos rfl, if_pos hdeparted] at huser
    cases huser
    rfl
  · rw [Function.update_of_ne (Ne.symm hp)] at hdeparted
    rw [if_neg hp] at huser
    exact h peer hdeparted user huser

theorem gone_handlePeerLeave (h : s.Gone) (gone : PeerId) :
    (machine.step s (.handlePeerLeave gone)).Gone := by
  rw [gone_iff] at h ⊢
  intro peer hdeparted user huser
  simp only [machine, departedAfter, PresenceManager.call] at hdeparted huser
  rw [PresenceManager.remoteUser_handlePeerLeave] at huser
  by_cases hp : gone = peer
  · rw [if_pos hp] at huser
    obtain ⟨entry, -, rfl⟩ := Option.map_eq_some_iff.mp huser
    rfl
  · rw [Function.update_of_ne (Ne.symm hp)] at hdeparted
    rw [if_neg hp] at huser
    exact h peer hdeparted user huser

/-- A tick leaves the departed offline exactly when they have aged out. -/
theorem gone_tick_iff (nowMs : UInt64) :
    (machine.step s (.tick nowMs)).Gone ↔ s.AgesOut (.tick nowMs) := by
  rw [gone_iff]
  simp only [machine, departedAfter, PresenceManager.call, AgesOut,
    PresenceManager.remoteUser_tick, Option.map_eq_some_iff]
  refine forall₂_congr fun peer _ => ⟨fun h user huser => ?_, ?_⟩
  · exact IdleConfig.presenceAt_eq_offline.mp (h _ ⟨user, huser, rfl⟩)
  · rintro h _ ⟨user, huser, rfl⟩
    exact IdleConfig.presenceAt_eq_offline.mpr (h user huser)

/-- A call that is neither leaves the departed as they are. -/
theorem gone_of_remotes {s s' : Audience} (hdeparted : s'.departed = s.departed)
    (hremotes : s'.manager.remotes = s.manager.remotes) (h : s.Gone) : s'.Gone := by
  rw [gone_iff] at h ⊢
  unfold PresenceManager.remoteUser at h ⊢
  rw [hdeparted, hremotes]
  exact h

/-- All along the calls to a presence manager a departed user is offline and shows no cursor, until
it is heard of again, if and only if at each tick the departed have been inactive for long enough
to count as offline. -/
theorem gone_iff_agesOut (localUser : UserInfo) (idleConfig : IdleConfig)
    (calls : List PresenceCall) :
    (∀ before, before <+: calls → (machine.run (.new localUser idleConfig) before).Gone) ↔
      machine.Along AgesOut (.new localUser idleConfig) calls := by
  refine Machine.forall_prefix_iff_along (I := fun _ => True) (fun _ _ _ _ => trivial) ?_ trivial ?_
  · intro s call _ hs
    cases call with
    | receiveUpdate update => exact ⟨fun _ => trivial, fun _ => gone_receiveUpdate hs update⟩
    | handlePeerLeave peer => exact ⟨fun _ => trivial, fun _ => gone_handlePeerLeave hs peer⟩
    | tick nowMs => exact gone_tick_iff nowMs
    | _ => exact ⟨fun _ => trivial, fun _ => gone_of_remotes rfl rfl hs⟩
  · intro peer h
    cases h

/-- A peer leaves, and the next tick comes when it has been inactive for five minutes. -/
theorem lateTick_gone :
    ∀ before, before <+: [PresenceCall.receiveUpdate ⟨⟨2⟩, .online ⟨2⟩ "b" 1000, none, false⟩,
        .handlePeerLeave ⟨2⟩, .tick 301000] →
      (machine.run (.new (.online ⟨1⟩ "a" 0) .default) before).Gone := by
  refine (gone_iff_agesOut (.online ⟨1⟩ "a" 0) .default _).mpr ⟨trivial, trivial, ?_, trivial⟩
  intro peer hdeparted user huser
  have hpeer : peer = ⟨2⟩ := by
    by_contra hne
    simp [machine, departedAfter, Function.update_of_ne hne, new] at hdeparted
  subst hpeer
  have hactive : ((machine.run (.new (.online ⟨1⟩ "a" 0) .default)
      [.receiveUpdate ⟨⟨2⟩, .online ⟨2⟩ "b" 1000, none, false⟩,
        .handlePeerLeave ⟨2⟩]).manager.remoteUser ⟨2⟩).map (·.info.lastActiveMs) =
          some 1000 := by decide +kernel
  simp only [Machine.run_cons, Machine.run_nil] at hactive
  rw [huser] at hactive
  rw [show user.info.lastActiveMs = 1000 from Option.some.inj hactive]
  decide +kernel

/-- A peer that leaves a second after it was active is online again at the next tick. -/
theorem earlyTick_revives :
    ¬∀ before, before <+: [PresenceCall.receiveUpdate ⟨⟨2⟩, .online ⟨2⟩ "b" 1000, none, true⟩,
        .tick 2000] →
      (machine.run (.new (.online ⟨1⟩ "a" 0) .default) before).Gone := by
  intro h
  have hgone := gone_iff.mp (h _ (List.prefix_refl _)) ⟨2⟩ (by decide +kernel)
  have honline : ((machine.run (.new (.online ⟨1⟩ "a" 0) .default)
      [.receiveUpdate ⟨⟨2⟩, .online ⟨2⟩ "b" 1000, none, true⟩,
        .tick 2000]).manager.remoteUser ⟨2⟩).map (·.info.presence) = some .online := by
    decide +kernel
  obtain ⟨user, huser, honline⟩ := Option.map_eq_some_iff.mp honline
  cases honline.symm.trans (hgone user huser)

end Audience

end AvSync
