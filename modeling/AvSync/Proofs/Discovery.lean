import AvSync.Discovery

/-!
# Who is discovered

The table of discovery is soft state, so after any polls exactly the peers are listed whose last
beacon has been within the time to live at every poll since (`run_listed_iff`).
-/

namespace AvSync

namespace DiscoveryCore

open SoftState (Poll)

variable {codec : BeaconCodec} {core : DiscoveryCore} {r : Reception} {rs : List Reception}
  {p : PeerId} {a : PeerAdvertisement}

/-- What a poll hears. -/
def announced (codec : BeaconCodec) (core : DiscoveryCore) (r : Reception) :
    Poll PeerId PeerAdvertisement UInt64 where
  announced := (r.datagrams.filterMap (core.heard codec r.nowMs)).map fun a => (a.peerId, a)
  now := r.nowMs

theorem heard_some {d : IpAddr × List UInt8} {now : UInt64}
    (h : core.heard codec now d = some a) : a.peerId ≠ core.localId ∧ a.lastSeenMs = now := by
  unfold heard at h
  split at h
  · split_ifs at h with hp
    obtain rfl := Option.some.inj h
    exact ⟨hp, rfl⟩
  · cases h

/-- Another peer's beacon is heard as it was sent, from where it was sent. -/
theorem heard_advertise {other : DiscoveryCore} {ip : IpAddr} {now : UInt64}
    (hcodec : codec.decode ((other.advertise codec).take bufferLength) = some other.packet)
    (hne : other.localId ≠ core.localId) :
    core.heard codec now (ip, other.advertise codec) =
      some ⟨other.localId, other.name, other.session, (ip, other.listenPort), now⟩ := by
  rw [heard, hcodec]
  exact if_neg hne

theorem lastHeard_eq :
    core.lastHeard codec p r = SoftState.lastOf p (core.announced codec r).announced := by
  rw [lastHeard, SoftState.lastOf, announced, ← List.map_reverse, List.find?_map]
  simp [Function.comp_def]

theorem lastHeard_some (h : core.lastHeard codec p r = some a) :
    a.peerId = p ∧ a.peerId ≠ core.localId ∧ a.lastSeenMs = r.nowMs := by
  unfold lastHeard at h
  obtain ⟨d, -, hd⟩ := List.mem_filterMap.mp (List.mem_reverse.mp (List.mem_of_find?_eq_some h))
  have hp := List.find?_some h
  exact ⟨of_decide_eq_true hp, heard_some hd⟩

/-! ## One poll -/

theorem receive_all (core : DiscoveryCore) {now : UInt64} :
    ∀ (ds : List (IpAddr × List UInt8)) (known : BTreeMap PeerId (PeerAdvertisement × UInt64)),
    ds.foldl (fun core d => core.receive codec now d) { core with known := known } =
      { core with known := ((ds.filterMap (core.heard codec now)).map fun a =>
          (a.peerId, a)).foldl (SoftState.note now) known }
  | [], _ => rfl
  | d :: ds, known => by
    have hheard : ({ core with known := known } : DiscoveryCore).heard codec now d =
        core.heard codec now d := rfl
    rw [List.foldl_cons, receive, hheard]
    rcases hd : core.heard codec now d with _ | a
    · rw [List.filterMap_cons_none hd]
      exact receive_all core ds known
    · rw [List.filterMap_cons_some hd]
      exact receive_all core ds _

theorem poll_eq : core.poll codec r = { core with
    known := SoftState.poll (fresh core.ttlMs) core.known (core.announced codec r) } := by
  rw [poll, receive_all core r.datagrams core.known]
  rfl

theorem polls_eq : core.polls codec rs = { core with
    known := SoftState.polls (fresh core.ttlMs) core.known (rs.map (core.announced codec)) } := by
  induction rs generalizing core with
  | nil => rfl
  | cons r rs ih =>
    rw [polls, List.foldl_cons, poll_eq]
    exact ih

/-! ## Runs -/

theorem fresh_self {ttlMs now : UInt64} : fresh ttlMs now now = true := by
  refine decide_eq_true ?_
  rw [UInt64.le_iff_toNat_le, toNat_saturatingSub, Nat.sub_self]
  exact Nat.zero_le _

/-- What stands in the table is what stands, under its own peer and since it was seen. -/
theorem stands_iff {seen : UInt64} :
    SoftState.Stands (fresh core.ttlMs) p a seen (rs.map (core.announced codec)) ↔
      a.peerId = p ∧ a.lastSeenMs = seen ∧ core.Stands codec rs a := by
  constructor
  · rintro ⟨before, q, after, heq, hlast, rfl, hnone, hfresh⟩
    obtain ⟨before, rest, rfl, rfl, hrest⟩ := List.map_eq_append_iff.mp heq
    obtain ⟨r, after, rfl, rfl, rfl⟩ := List.map_eq_cons_iff.mp hrest
    rw [← lastHeard_eq] at hlast
    obtain ⟨rfl, -, hseen⟩ := lastHeard_some hlast
    refine ⟨rfl, hseen, before, r, after, rfl, hlast, fun q hq => ⟨?_, ?_⟩⟩
    · rw [lastHeard_eq]
      exact hnone _ (List.mem_map_of_mem hq)
    · exact of_decide_eq_true (hfresh _ (List.mem_cons_of_mem _ (List.mem_map_of_mem hq)))
  · rintro ⟨rfl, rfl, before, r, after, rfl, hlast, hafter⟩
    have hseen := (lastHeard_some hlast).2.2
    rw [lastHeard_eq] at hlast
    refine ⟨before.map (core.announced codec), core.announced codec r,
      after.map (core.announced codec), by simp, hlast, hseen.symm, fun q hq => ?_, fun q hq => ?_⟩
    · obtain ⟨q', hq', rfl⟩ := List.mem_map.mp hq
      rw [← lastHeard_eq]
      exact (hafter q' hq').1
    · rcases List.mem_cons.mp hq with rfl | hq
      · rw [hseen]
        exact fresh_self
      · obtain ⟨q', hq', rfl⟩ := List.mem_map.mp hq
        rw [hseen]
        exact decide_eq_true (hafter q' hq').2

theorem mem_listed :
    a ∈ core.listed ↔ ∃ (p : PeerId) (seen : UInt64), core.known[p]? = some (a, seen) := by
  rw [listed, List.mem_map]
  constructor
  · rintro ⟨⟨p, b, seen⟩, hmem, rfl⟩
    exact ⟨p, seen, Std.ExtTreeMap.mem_toList_iff_getElem?_eq_some.mp hmem⟩
  · rintro ⟨p, seen, hp⟩
    exact ⟨(p, a, seen), Std.ExtTreeMap.mem_toList_iff_getElem?_eq_some.mpr hp, rfl⟩

/-- After any polls, of each other peer the last beacon is listed, if it has been within the time to
live at every poll since. -/
theorem run_listed_iff {localId : PeerId} {name : String} {session : Option String}
    {listenPort : UInt16} {ttlMs : UInt64} :
    a ∈ ((bind localId name session listenPort ttlMs).polls codec rs).listed ↔
      (bind localId name session listenPort ttlMs).Stands codec rs a := by
  rw [mem_listed, polls_eq]
  constructor
  · rintro ⟨p, seen, hp⟩
    exact (stands_iff.mp (SoftState.getElem?_polls_iff.mp hp)).2.2
  · intro h
    exact ⟨a.peerId, a.lastSeenMs, SoftState.getElem?_polls_iff.mpr (stands_iff.mpr ⟨rfl, rfl, h⟩)⟩

end DiscoveryCore

end AvSync
