import AvSync.Proofs.Persistence
import AvSync.StoreRuns

/-!
# Log rotation

The two files of a room hold the operations since the last rotation and those between the last
rotation but one and the last (`Window`). An append and a reopened store keep that
(`Window.append`, `Window.reopen`), so whatever happens to the log it reads back the newest
operations in order, in segments that keep the limits (`keepsNewest_run`).
-/

namespace AvSync.Persistence

open Framing

variable {C : WireCodec} {room : String} {limits : StoreLimits}

/-! ## A rotation -/

namespace SessionStore

variable {store : SessionStore} {op : TaggedOperation}

theorem current_rotate : (store.rotate room).dir[pathFor room]? = none := by
  unfold rotate
  simp only [BTreeMap.getElem?_erase_if, if_neg (pathFor_ne_rotatedPathFor room room).symm]
  split
  · rw [BTreeMap.getElem?_insert_if, if_neg (pathFor_ne_rotatedPathFor room room).symm,
      BTreeMap.getElem?_erase_if, if_pos rfl]
  · rw [BTreeMap.getElem?_erase_if, if_neg (pathFor_ne_rotatedPathFor room room).symm]
    assumption

theorem rotated_rotate :
    (store.rotate room).dir[rotatedPathFor room]? = store.dir[pathFor room]? := by
  unfold rotate
  simp only [BTreeMap.getElem?_erase_if, if_neg (pathFor_ne_rotatedPathFor room room).symm]
  rcases store.dir[pathFor room]? with _ | bytes
  · simp only [BTreeMap.getElem?_erase_if, if_true]
  · simp only [BTreeMap.getElem?_insert_if, if_true]

theorem rotates_of_limits (hl : store.limits = some limits) :
    store.rotates C room op = store.isFull room limits (C.record op) := by
  simp only [rotates, hl]

/-- An append that rotates the log starts the new segment with its record. -/
theorem appendOp_full (hl : store.limits = some limits) (hop : C.Encodes (2 ^ 32) op)
    (hfull : store.isFull room limits (C.record op) = true) :
    (store.appendOp C room op).dir[pathFor room]? = some (C.record op) ∧
      (store.appendOp C room op).dir[rotatedPathFor room]? = store.dir[pathFor room]? ∧
      (store.appendOp C room op).counts[room]? = some 1 := by
  obtain ⟨bytes, he, -⟩ := hop
  rw [C.record_of_encode he] at hfull ⊢
  have hroom : store.makeRoom room (frame bytes) =
      { store.rotate room with counts := store.counts.insert room 1 } := by
    simp only [makeRoom, hl, hfull, if_true]
  simp only [appendOp, he, hroom, BTreeMap.getElem?_insert_if, current_rotate, rotated_rotate,
    if_neg (pathFor_ne_rotatedPathFor room room), if_true, Option.getD_none, List.nil_append,
    and_self]

/-- One that does not writes its record behind the segment, and counts it. -/
theorem appendOp_room (hl : store.limits = some limits) (hop : C.Encodes (2 ^ 32) op)
    (hfull : store.isFull room limits (C.record op) = false) :
    (store.appendOp C room op).dir[pathFor room]? =
        some (store.dir[pathFor room]?.getD [] ++ C.record op) ∧
      (store.appendOp C room op).dir[rotatedPathFor room]? = store.dir[rotatedPathFor room]? ∧
      (store.appendOp C room op).counts[room]? = some (store.count room + 1) := by
  obtain ⟨bytes, he, -⟩ := hop
  rw [C.record_of_encode he] at hfull ⊢
  have hroom : store.makeRoom room (frame bytes) =
      { store with counts := store.counts.insert room (store.count room + 1) } := by
    simp only [makeRoom, hl, hfull, Bool.false_eq_true, if_false]
  simp only [appendOp, he, hroom, BTreeMap.getElem?_insert_if,
    if_neg (pathFor_ne_rotatedPathFor room room), if_true, and_self]

theorem isFull_eq_false {framed : List UInt8} :
    store.isFull room limits framed = false ↔
      (store.count room).toNat < limits.maxOpsPerRoom.toNat ∧
        (store.dir[pathFor room]?.getD []).length + framed.length ≤
          limits.maxBytesPerRoom.toNat := by
  have hlen : (store.dir[pathFor room]?.map List.length).getD 0 =
      (store.dir[pathFor room]?.getD []).length := by
    rcases store.dir[pathFor room]? with _ | bytes <;> rfl
  simp only [isFull, hlen, Bool.or_eq_false_iff, decide_eq_false_iff_not, not_lt,
    UInt32.le_iff_toNat_le, not_le]

end SessionStore

open Persistence.SessionStore

/-! ## The two segments -/

/-- The operations make a segment within the limits. -/
def Fits (C : WireCodec) (limits : StoreLimits) (ops : List TaggedOperation) : Prop :=
  ops.length ≤ limits.maxOpsPerRoom.toNat ∧
    ((C.log ops).length ≤ limits.maxBytesPerRoom.toNat ∨ ops.length = 1)

/-- The files hold two segments of the history, and the count is that of the current one. -/
structure Window (C : WireCodec) (room : String) (limits : StoreLimits) (s : LoggedRoom)
    (old cur : List TaggedOperation) : Prop where
  limited : s.store.limits = some limits
  encodes : ∀ op ∈ old ++ cur, C.Encodes (2 ^ 32) op
  current : s.store.dir[pathFor room]?.getD [] = C.log cur
  rotated : s.store.dir[rotatedPathFor room]?.getD [] = C.log old
  counted : ∀ n, s.store.counts[room]? = some n → n.toNat = cur.length
  last : s.sinceLast = cur
  lastButOne : s.sinceLastButOne = old ++ cur
  before : ∀ n ∈ s.rotatedAt, n < s.appended.length
  fits_old : Fits C limits old
  fits_cur : Fits C limits cur

variable {s : LoggedRoom} {old cur ops : List TaggedOperation} {op : TaggedOperation}

theorem length_payloads_log (h : ∀ op ∈ ops, C.Encodes (2 ^ 32) op) :
    (payloads (C.log ops)).length = ops.length := by
  have hread := congrArg List.length (C.decode_encodings h)
  rw [C.log_eq_frames, payloads_frames (C.encodings_lt h)]
  have hle := List.length_filterMap_le C.decode (C.encodings ops)
  have hge := List.length_filterMap_le C.encode ops
  unfold WireCodec.encodings at *
  omega

theorem readFrames_of_getD {file : Option (List UInt8)} (h : ∀ op ∈ ops, C.Encodes (2 ^ 32) op)
    (hf : file.getD [] = C.log ops) : readFrames C file = ops := by
  have := readFrames_log h []
  unfold readFrames at this ⊢
  rw [hf]
  simpa using this

theorem Fits.keeps {file : List UInt8} (h : Fits C limits ops)
    (hops : ∀ op ∈ ops, C.Encodes (2 ^ 32) op) (hf : file = C.log ops) : limits.Keeps file := by
  unfold StoreLimits.Keeps
  rw [hf, length_payloads_log hops]
  exact h

namespace Window

theorem encodes_old (w : Window C room limits s old cur) : ∀ op ∈ old, C.Encodes (2 ^ 32) op :=
  fun op hop => w.encodes op (List.mem_append_left cur hop)

theorem encodes_cur (w : Window C room limits s old cur) : ∀ op ∈ cur, C.Encodes (2 ^ 32) op :=
  fun op hop => w.encodes op (List.mem_append_right old hop)

/-- The count is right whether it is in memory or taken from the file. -/
theorem count_eq (w : Window C room limits s old cur) :
    (s.store.count room).toNat = cur.length := by
  unfold count
  rcases hc : s.store.counts[room]? with _ | n
  · have hn : (countFrames s.store.dir[pathFor room]?).getD 0 =
        UInt32.ofNat (payloads (s.store.dir[pathFor room]?.getD [])).length := by
      rcases s.store.dir[pathFor room]? with _ | bytes <;> rfl
    have hlt := limits.maxOpsPerRoom.toNat_lt
    have hle := w.fits_cur.1
    rw [Option.getD_none, hn, w.current, length_payloads_log w.encodes_cur, UInt32.toNat_ofNat']
    exact Nat.mod_eq_of_lt (by omega)
  · exact w.counted n hc

theorem reopen (w : Window C room limits s old cur) :
    Window C room limits (s.step C room .reopen) old cur :=
  { w with counted := by simp [LoggedRoom.step, SessionStore.reopen, openInner] }

/-- After an append that rotates the log the segment before is the old one. -/
theorem append_full (w : Window C room limits s old cur) (hmax : 1 ≤ limits.maxOpsPerRoom)
    (hop : C.Encodes (2 ^ 32) op) (hfull : s.store.isFull room limits (C.record op) = true) :
    Window C room limits (s.step C room (.append op)) cur [op] := by
  obtain ⟨h₁, h₂, h₃⟩ := appendOp_full w.limited hop hfull
  have hrot : s.store.rotates C room op = true := (rotates_of_limits w.limited).trans hfull
  have hlast := w.last
  unfold LoggedRoom.sinceLast at hlast
  have hpos : s.rotatedAt.getD 0 0 ≤ s.appended.length := by
    rcases hr : s.rotatedAt with _ | ⟨n, l⟩
    · exact Nat.zero_le _
    · exact (w.before n (by rw [hr]; exact List.mem_cons_self)).le
  simp only [LoggedRoom.step, hrot, if_true]
  refine ⟨limits_appendOp.trans w.limited, ?_, ?_, ?_, ?_, ?_, ?_, ?_, w.fits_cur, ?_⟩
  · intro o ho
    rcases List.mem_append.mp ho with ho | ho
    · exact w.encodes_cur o ho
    · exact List.mem_singleton.mp ho ▸ hop
  · rw [h₁]
    simp
  · rw [h₂]
    exact w.current
  · intro n hn
    obtain rfl := Option.some.inj (h₃.symm.trans hn)
    rfl
  · simp [LoggedRoom.sinceLast]
  · simp only [LoggedRoom.sinceLastButOne, List.getD_cons_succ]
    rw [List.drop_append_of_le_length hpos, hlast]
  · intro n hn
    rw [List.length_append, List.length_singleton]
    rcases List.mem_cons.mp hn with rfl | hn
    · omega
    · have := w.before n hn
      omega
  · exact ⟨UInt32.le_iff_toNat_le.mp hmax, Or.inr rfl⟩

theorem append_room (w : Window C room limits s old cur) (hop : C.Encodes (2 ^ 32) op)
    (hfull : s.store.isFull room limits (C.record op) = false) :
    Window C room limits (s.step C room (.append op)) old (cur ++ [op]) := by
  obtain ⟨h₁, h₂, h₃⟩ := appendOp_room w.limited hop hfull
  obtain ⟨hcount, hbytes⟩ := isFull_eq_false.mp hfull
  rw [w.current] at hbytes h₁
  rw [w.count_eq] at hcount
  have hlog : C.log (cur ++ [op]) = C.log cur ++ C.record op := by
    simp [WireCodec.log]
  have hrot : s.store.rotates C room op = false := (rotates_of_limits w.limited).trans hfull
  have hpos : ∀ i, s.rotatedAt.getD i 0 ≤ s.appended.length := by
    intro i
    rw [List.getD_eq_getElem?_getD]
    rcases hr : s.rotatedAt[i]? with _ | n
    · exact Nat.zero_le _
    · exact (w.before n (List.mem_of_getElem? hr)).le
  have hlast := w.last
  have hprev := w.lastButOne
  unfold LoggedRoom.sinceLast at hlast
  unfold LoggedRoom.sinceLastButOne at hprev
  simp only [LoggedRoom.step, hrot, Bool.false_eq_true, if_false]
  refine ⟨limits_appendOp.trans w.limited, ?_, ?_, ?_, ?_, ?_, ?_, ?_, w.fits_old, ?_⟩
  · intro o ho
    rw [← List.append_assoc] at ho
    rcases List.mem_append.mp ho with ho | ho
    · exact w.encodes o ho
    · exact List.mem_singleton.mp ho ▸ hop
  · rw [h₁, hlog]
    rfl
  · rw [h₂]
    exact w.rotated
  · intro n hn
    obtain rfl := Option.some.inj (h₃.symm.trans hn)
    have hlt := limits.maxOpsPerRoom.toNat_lt
    rw [UInt32.toNat_add, w.count_eq, List.length_append, List.length_singleton]
    exact Nat.mod_eq_of_lt (by simp; omega)
  · simp only [LoggedRoom.sinceLast]
    rw [List.drop_append_of_le_length (hpos 0), hlast]
  · simp only [LoggedRoom.sinceLastButOne]
    rw [List.drop_append_of_le_length (hpos 1), hprev, List.append_assoc]
  · intro n hn
    have := w.before n hn
    rw [List.length_append, List.length_singleton]
    omega
  · unfold Fits
    rw [hlog, List.length_append, List.length_append, List.length_singleton]
    exact ⟨hcount, Or.inl hbytes⟩

/-- An append leaves two segments of the history in the files. -/
theorem append (w : Window C room limits s old cur) (hmax : 1 ≤ limits.maxOpsPerRoom)
    (hop : C.Encodes (2 ^ 32) op) :
    ∃ old' cur', Window C room limits (s.step C room (.append op)) old' cur' := by
  rcases hfull : s.store.isFull room limits (C.record op) with _ | _
  · exact ⟨old, cur ++ [op], w.append_room hop hfull⟩
  · exact ⟨cur, [op], w.append_full hmax hop hfull⟩

theorem keepsNewest (w : Window C room limits s old cur) : s.KeepsNewest C room limits := by
  have hload : s.store.loadOps C room = s.sinceLastButOne := by
    rw [loadOps, readFrames_of_getD w.encodes_old w.rotated,
      readFrames_of_getD w.encodes_cur w.current, w.lastButOne]
  refine ⟨hload, ?_, ?_, ?_⟩
  · rw [hload]
    exact List.drop_suffix _ _
  · rw [hload, LoggedRoom.sinceLastButOne, List.getLast?_drop]
    split_ifs with hle
    · have hnil : s.appended = [] := by
        rw [List.getD_eq_getElem?_getD] at hle
        rcases hr : s.rotatedAt[1]? with _ | n <;> rw [hr] at hle
        · exact List.length_eq_zero_iff.mp (Nat.le_zero.mp hle)
        · have := w.before n (List.mem_of_getElem? hr)
          exact absurd hle (by simpa using this)
      rw [hnil]
      rfl
    · rfl
  · rintro file (hf | hf)
    · exact w.fits_cur.keeps w.encodes_cur (by rw [← w.current, hf]; rfl)
    · exact w.fits_old.keeps w.encodes_old (by rw [← w.rotated, hf]; rfl)

end Window

/-! ## The whole life of a log -/

theorem window_opened (limits : StoreLimits) :
    Window C room limits (.opened limits) [] [] := by
  refine ⟨rfl, ?_, rfl, rfl, ?_, rfl, rfl, ?_, ?_, ?_⟩
  · simp
  · simp [LoggedRoom.opened, openInner]
  · simp [LoggedRoom.opened]
  · exact ⟨Nat.zero_le _, Or.inl (Nat.zero_le _)⟩
  · exact ⟨Nat.zero_le _, Or.inl (Nat.zero_le _)⟩

theorem window_run (hmax : 1 ≤ limits.maxOpsPerRoom) (events : List LogEvent)
    (w : Window C room limits s old cur) (h : ∀ op, .append op ∈ events → C.Encodes (2 ^ 32) op) :
    ∃ old' cur', Window C room limits (s.run C room events) old' cur' := by
  induction events generalizing s old cur with
  | nil => exact ⟨old, cur, w⟩
  | cons event events ih =>
    have hrest : ∀ op, .append op ∈ events → C.Encodes (2 ^ 32) op :=
      fun op ho => h op (List.mem_cons_of_mem _ ho)
    cases event with
    | append op =>
      obtain ⟨old', cur', w'⟩ := w.append hmax (h op List.mem_cons_self)
      exact ih w' hrest
    | reopen => exact ih w.reopen hrest

/-- Whatever is appended to a room's log, and however often the store is opened again, the log
holds the newest operations. -/
theorem keepsNewest_run (room : String) (hmax : 1 ≤ limits.maxOpsPerRoom)
    (events : List LogEvent) (h : ∀ op, .append op ∈ events → C.Encodes (2 ^ 32) op) :
    ((LoggedRoom.opened limits).run C room events).KeepsNewest C room limits := by
  obtain ⟨old, cur, w⟩ := window_run hmax events (window_opened limits) h
  exact w.keepsNewest

/-- Two operations to a segment, with the store opened again when one is full. -/
theorem threeAppends_keepNewest :
    ((LoggedRoom.opened ⟨1000, 2⟩).run namedTrackCodec "r"
      [.append (namedTrack 1), .append (namedTrack 2), .reopen,
        .append (namedTrack 3)]).KeepsNewest namedTrackCodec "r" ⟨1000, 2⟩ := by
  refine keepsNewest_run "r" (by decide) _ fun op hop => ?_
  simp only [List.mem_cons, LogEvent.append.injEq, reduceCtorEq, List.not_mem_nil, or_false,
    false_or] at hop
  rcases hop with rfl | rfl | rfl <;>
    exact encodes_namedTrack (by norm_num) _ List.mem_cons_self

end AvSync.Persistence
