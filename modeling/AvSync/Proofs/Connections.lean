import AvSync.Connections

/-!
# Stale connections

A registration makes its connection the one that is used (`serves_insertConnection`). A reader that
ends takes its peer out of the map whatever connection is there, which is harmless exactly when no
other connection of the peer is live (`serves_endReader_iff`).
-/

namespace AvSync

namespace Connections

variable {s : Connections} {peer : PeerId} {connection : ℕ}

theorem Live.lt_length (h : s.Live peer connection) : connection < s.readers.length :=
  (List.getElem?_eq_some_iff.mp h).1

/-- A peer that has a live connection has a newest one. -/
theorem Live.exists_newest (h : s.Live peer connection) : ∃ newest, s.Newest peer newest := by
  have hbound : ∀ c, s.Live peer c → c ≤ s.readers.length := fun c hc => hc.lt_length.le
  refine ⟨Nat.findGreatest (s.Live peer) s.readers.length, ?_, fun later hlt hlive => ?_⟩
  · exact Nat.findGreatest_spec (hbound connection h) h
  · exact absurd (Nat.le_findGreatest (hbound later hlive) hlive) (not_le.mpr hlt)

theorem mem_peerIds : peer ∈ s.peerIds ↔ ∃ c, s.peers[peer]? = some c := by
  rw [peerIds, Std.ExtTreeMap.mem_keys, BTreeMap.mem_iff]

theorem sendFrame_eq_ok : s.sendFrame peer = .ok connection ↔ s.peers[peer]? = some connection := by
  unfold sendFrame
  rcases s.peers[peer]? with _ | c <;> simp

theorem serves_iff :
    s.Serves ↔ ∀ peer connection, s.Newest peer connection → s.peers[peer]? = some connection := by
  refine forall₃_congr fun peer connection _ => ?_
  rw [sendFrame_eq_ok, mem_peerIds]
  exact ⟨fun h => h.2, fun h => ⟨⟨connection, h⟩, h⟩⟩

/-! ## Registrations -/

theorem live_insertConnection {p : PeerId} :
    (s.insertConnection p).Live peer connection ↔
      s.Live peer connection ∨ peer = p ∧ connection = s.readers.length := by
  unfold Live insertConnection
  rw [List.getElem?_append]
  split_ifs with hlt
  · simp [hlt.ne]
  · rw [List.getElem?_eq_none (not_lt.mp hlt), List.getElem?_singleton]
    have : connection - s.readers.length = 0 ↔ connection = s.readers.length := by omega
    simp [this, and_comm, eq_comm]

theorem serves_insertConnection (h : s.Serves) (p : PeerId) : (s.insertConnection p).Serves := by
  rw [serves_iff] at h ⊢
  intro peer connection hnew
  have hlive := live_insertConnection.mp hnew.1
  unfold insertConnection
  rw [BTreeMap.getElem?_insert_if]
  split_ifs with hp
  · -- the new connection is live, and there is none behind it
    subst hp
    rcases hlive with hlive | ⟨-, rfl⟩
    · exact absurd (live_insertConnection.mpr (Or.inr ⟨rfl, rfl⟩)) (hnew.2 _ hlive.lt_length)
    · rfl
  · have hold : s.Live peer connection := hlive.resolve_right fun hn => hp hn.1.symm
    exact h peer connection
      ⟨hold, fun later hlt hl => hnew.2 later hlt (live_insertConnection.mpr (Or.inl hl))⟩

/-! ## Readers that end -/

/-- The reader of a connection that is not live has ended before. -/
theorem endReader_of_not_live (h : ∀ peer, ¬s.Live peer connection) :
    s.endReader connection = s := by
  unfold endReader
  split
  · rename_i p hr
    exact absurd hr (h p)
  · rfl

theorem endReader_of_live (h : s.Live peer connection) :
    s.endReader connection =
      { peers := s.peers.erase peer, readers := s.readers.set connection ⟨peer, false⟩ } := by
  unfold Live at h
  unfold endReader
  rw [h]

theorem live_endReader {p : PeerId} {c : ℕ} (h : s.Live peer connection) :
    (s.endReader connection).Live p c ↔ s.Live p c ∧ c ≠ connection := by
  rw [endReader_of_live h]
  unfold Live
  rw [List.getElem?_set]
  by_cases hc : connection = c
  · subst hc
    simp [h.lt_length]
  · simp [hc, Ne.symm hc]

theorem live_peer_unique {p : PeerId} (h : s.Live peer connection) (h' : s.Live p connection) :
    p = peer := by
  unfold Live at h h'
  rw [h] at h'
  simpa using h'.symm

/-- A reader that ends leaves the peers reached exactly when no other connection of its peer is
live. -/
theorem serves_endReader_iff (hs : s.Serves) :
    (s.endReader connection).Serves ↔ s.EndsAlone (.readerExit connection) := by
  by_cases hlive : ∃ peer, s.Live peer connection
  · obtain ⟨peer, hlive⟩ := hlive
    rw [serves_iff] at hs ⊢
    constructor
    · intro h p hp other hother
      obtain rfl := live_peer_unique hlive hp
      by_contra hne
      obtain ⟨newest, hnew⟩ := Live.exists_newest ((live_endReader hlive).mpr ⟨hother, hne⟩)
      have hmap := h p newest hnew
      rw [endReader_of_live hlive, BTreeMap.getElem?_erase_if, if_pos rfl] at hmap
      cases hmap
    · intro h p c hnew
      obtain ⟨hold, hne⟩ := (live_endReader hlive).mp hnew.1
      have hp : peer ≠ p := by
        rintro rfl
        exact hne (h peer hlive c hold)
      rw [endReader_of_live hlive, BTreeMap.getElem?_erase_if, if_neg hp]
      refine hs p c ⟨hold, fun later hlt hl => hnew.2 later hlt ?_⟩
      refine (live_endReader hlive).mpr ⟨hl, ?_⟩
      rintro rfl
      exact hp (live_peer_unique hl hlive)
  · have hnone : ∀ peer, ¬s.Live peer connection := not_exists.mp hlive
    rw [endReader_of_not_live hnone]
    exact ⟨fun _ peer hp => absurd hp (hnone peer), fun _ => hs⟩

end Connections

open Connections

theorem FramingTransport.step_register (transport : FramingTransport) (s : Connections)
    (peer : PeerId) : transport.machine.step s (.register peer) = s.insertConnection peer := by
  cases transport <;> rfl

theorem FramingTransport.step_readerExit (transport : FramingTransport) (s : Connections)
    (connection : ℕ) :
    transport.machine.step s (.readerExit connection) = s.endReader connection := by
  cases transport <;> rfl

/-- All along a run the peers with a live connection are reached by their newest one, if and only
if each reader that ends does so while no other connection of its peer is live. -/
theorem FramingTransport.serves_iff_endsAlone (transport : FramingTransport)
    (events : List ConnectionEvent) :
    (∀ before, before <+: events → (transport.machine.run .new before).Serves) ↔
      transport.machine.Along EndsAlone .new events := by
  refine Machine.forall_prefix_iff_along (I := fun _ => True) (fun _ _ _ _ => trivial) ?_ trivial ?_
  · intro s event _ hs
    cases event with
    | register peer =>
      rw [transport.step_register]
      exact ⟨fun _ => trivial, fun _ => serves_insertConnection hs peer⟩
    | readerExit connection =>
      rw [transport.step_readerExit]
      exact serves_endReader_iff hs
  · intro peer connection h
    exact absurd h.1.lt_length (Nat.not_lt_zero _)

/-- A peer that reconnects once its reader has ended. -/
theorem reconnectAfterExit_serves :
    ∀ before, before <+: [.register ⟨1⟩, .readerExit 0, .register ⟨1⟩] →
      (FramingTransport.tcp.machine.run .new before).Serves := by
  refine (FramingTransport.serves_iff_endsAlone .tcp _).mpr ⟨trivial, ?_, trivial, trivial⟩
  intro peer _ other hother
  have := hother.lt_length
  exact Nat.lt_one_iff.mp this

/-- A peer that reconnects before its first reader has ended is not listed afterwards. -/
theorem lateExit_unregisters :
    ¬∀ before, before <+: [.register ⟨1⟩, .register ⟨1⟩, .readerExit 0] →
      (FramingTransport.tcp.machine.run .new before).Serves := by
  intro h
  have hlive : (FramingTransport.tcp.machine.run .new
      [.register ⟨1⟩, .register ⟨1⟩, .readerExit 0]).Live ⟨1⟩ 1 := by decide +kernel
  obtain ⟨newest, hnew⟩ := hlive.exists_newest
  have hsend := (h _ (List.prefix_refl _) ⟨1⟩ newest hnew).1
  revert hsend
  decide +kernel

end AvSync
