import AvSync.Proofs.Forest

/-!
# What a view shows

The clips of a view are the visible ones among the resolved clips, each once
(`mem_clips_of_materialize`, `nodup_clips_of_materialize`).
-/

namespace AvSync

namespace Session

variable {s : Session} {v : SessionView}

theorem mem_of_mapM {α β : Type} {f : α → Option β} {b : β} :
    ∀ {l : List α} {r : List β}, l.mapM f = some r → (b ∈ r ↔ ∃ a ∈ l, f a = some b)
  | [], r, h => by
    obtain rfl : [] = r := by simpa using h
    simp
  | a :: l, r, h => by
    rw [List.mapM_cons] at h
    simp only [Option.bind_eq_bind, Option.bind_eq_some_iff, Option.pure_def] at h
    obtain ⟨b', hb, t, ht, hbt⟩ := h
    obtain rfl := Option.some.inj hbt
    simp only [List.mem_cons, mem_of_mapM ht, exists_eq_or_imp, hb, Option.some.injEq,
      eq_comm (a := b)]

/-- The record a visible clip shows. -/
def ResolvedClip.view (r : ResolvedClip) : ClipView :=
  ⟨r.clipId, r.values, r.startFrame, r.durationFrames⟩

/-- The clip `x` with given values and geometry. -/
def resolved (s : Session) (x : ClipId) (c : ClipCrdt) (a : Inherited)
    (g : Option (UInt64 × UInt64)) : ResolvedClip where
  clipId := x
  values := a
  startFrame := (g.getD (0, 0)).1
  durationFrames := (g.getD (0, 0)).2
  visible := c.alive.value && g.isSome && (s.tracks[a.trackId]?.map (·.alive.value)).getD false &&
    decide (0 < (g.getD (0, 0)).2)

theorem resolveClip_eq_some {x : ClipId} {r : ResolvedClip} :
    s.resolveClip x = some (some r) ↔ ∃ c a g, s.clips[x]? = some c ∧
      s.inheritLoop s.fuel c (.own c) = some a ∧ s.resolveGeometry s.fuel c = some g ∧
      r = s.resolved x c a g := by
  unfold resolveClip resolveClipIn
  rcases hx : s.clips[x]? with _ | c
  · simp
  · simp only [Option.bind_eq_bind, Option.bind_eq_some_iff, Option.pure_def, Option.some.injEq,
      exists_and_left, exists_eq_left', eq_comm (b := r)]
    rfl

theorem resolveClip_clipId {x : ClipId} {r : ResolvedClip}
    (h : s.resolveClip x = some (some r)) : r.clipId = x := by
  obtain ⟨c, a, g, -, -, -, rfl⟩ := resolveClip_eq_some.mp h
  rfl

theorem mem_of_resolveClip {x : ClipId} {r : ResolvedClip}
    (h : s.resolveClip x = some (some r)) : x ∈ s.clips := by
  obtain ⟨c, -, -, hx, -⟩ := resolveClip_eq_some.mp h
  exact BTreeMap.mem_iff.mpr ⟨c, hx⟩

theorem clips_of_materialize (h : s.materialize = some v) :
    ∃ l, s.clips.keys.mapM s.resolveClip = some l ∧
      v.clips.Perm ((l.reduceOption.filter (·.visible)).map ResolvedClip.view) := by
  simp only [materialize, materializeIn, Option.bind_eq_bind, Option.bind_eq_some_iff,
    Option.pure_def, Option.some.injEq] at h
  obtain ⟨l, hl, rfl⟩ := h
  exact ⟨l, hl, List.perm_insertionSort _ _⟩

theorem mem_clips_of_materialize (h : s.materialize = some v) {c : ClipView} :
    c ∈ v.clips ↔ ∃ r, s.resolveClip c.clipId = some (some r) ∧ r.visible = true ∧ r.view = c := by
  obtain ⟨l, hl, hperm⟩ := clips_of_materialize h
  rw [hperm.mem_iff]
  simp only [List.mem_map, List.mem_filter, List.reduceOption_mem_iff, mem_of_mapM hl]
  constructor
  · rintro ⟨r, ⟨⟨x, -, hr⟩, hv⟩, rfl⟩
    refine ⟨r, ?_, hv, rfl⟩
    have : r.view.clipId = x := resolveClip_clipId hr
    rw [this, hr]
  · rintro ⟨r, hr, hv, rfl⟩
    exact ⟨r, ⟨⟨_, Std.ExtTreeMap.mem_keys.mpr (mem_of_resolveClip hr), hr⟩, hv⟩, rfl⟩

theorem clipIds_sublist :
    ∀ {keys : List ClipId} {l : List (Option ResolvedClip)}, keys.mapM s.resolveClip = some l →
      (l.reduceOption.map (·.clipId)).Sublist keys
  | [], l, h => by
    obtain rfl : [] = l := by simpa using h
    exact .slnil
  | x :: keys, l, h => by
    rw [List.mapM_cons] at h
    simp only [Option.bind_eq_bind, Option.bind_eq_some_iff, Option.pure_def] at h
    obtain ⟨r, hr, t, ht, hbt⟩ := h
    obtain rfl := Option.some.inj hbt
    rcases r with _ | r
    · rw [List.reduceOption_cons_of_none]
      exact (clipIds_sublist ht).cons _
    · rw [List.reduceOption_cons_of_some, List.map_cons, resolveClip_clipId hr]
      exact (clipIds_sublist ht).cons_cons _

theorem nodup_clips_of_materialize (h : s.materialize = some v) :
    (v.clips.map (·.clipId)).Nodup := by
  obtain ⟨l, hl, hperm⟩ := clips_of_materialize h
  have hkeys : s.clips.keys.Nodup := s.clips.keys_pairwise_lt.imp fun h => h.ne
  rw [(hperm.map _).nodup_iff, List.map_map]
  exact ((List.filter_sublist.map _).trans (clipIds_sublist hl)).nodup hkeys

end Session

end AvSync
