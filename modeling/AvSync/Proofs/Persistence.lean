import AvSync.Persistence
import AvSync.Replay

/-!
# Torn writes

While its log does not rotate, a store reads back what was appended (`loadOps_appendOps`), and so
represents the record store of the relay (`Represents.appendOp`). A log that has been cut at the
end of a record takes further appends; one that has been cut within a record does not: the reader
takes the first bytes appended for the rest of the torn record (`loadOps_torn_iff`).
-/

namespace AvSync

open Framing

namespace WireCodec

variable {C : WireCodec} {op : TaggedOperation} {ops : List TaggedOperation} {k : ℕ}

/-- The encodings of a list of operations. -/
def encodings (C : WireCodec) (ops : List TaggedOperation) : List (List UInt8) :=
  ops.filterMap C.encode

theorem record_of_encode {bytes : List UInt8} (h : C.encode op = some bytes) :
    C.record op = frame bytes := by
  simp only [record, h]

@[simp] theorem log_nil : C.log [] = [] := rfl

@[simp] theorem log_cons (op : TaggedOperation) (ops : List TaggedOperation) :
    C.log (op :: ops) = C.record op ++ C.log ops := rfl

theorem log_eq_frames (C : WireCodec) :
    ∀ ops : List TaggedOperation, C.log ops = frames (C.encodings ops)
  | [] => rfl
  | op :: ops => by
    have ih := log_eq_frames C ops
    simp only [log_cons, encodings, List.filterMap_cons, record, ih]
    rcases C.encode op with _ | bytes <;> rfl

theorem encodings_lt {n : ℕ} (h : ∀ op ∈ ops, C.Encodes n op) :
    ∀ bytes ∈ C.encodings ops, bytes.length < n := by
  intro bytes hb
  obtain ⟨op, hop, he⟩ := List.mem_filterMap.mp hb
  obtain ⟨bytes', he', hlt⟩ := h op hop
  exact Option.some.inj (he.symm.trans he') ▸ hlt

theorem Encodes.mono {m n : ℕ} (h : C.Encodes m op) (hmn : m ≤ n) : C.Encodes n op := by
  obtain ⟨bytes, he, hlt⟩ := h
  exact ⟨bytes, he, hlt.trans_le hmn⟩

theorem decode_encodings :
    ∀ {ops : List TaggedOperation} {n : ℕ}, (∀ op ∈ ops, C.Encodes n op) →
      (C.encodings ops).filterMap C.decode = ops
  | [], _, _ => rfl
  | op :: ops, n, h => by
    obtain ⟨⟨bytes, he, -⟩, hops⟩ := List.forall_mem_cons.mp h
    rw [encodings, List.filterMap_cons, he]
    simp only [List.filterMap_cons, C.decode_encode he]
    exact congrArg (op :: ·) (decode_encodings hops)

theorem complete_sublist :
    ∀ (ops : List TaggedOperation) (k : ℕ), (C.complete ops k).Sublist ops
  | [], _ => .slnil
  | op :: ops, k => by
    rw [complete]
    split_ifs
    · exact (complete_sublist ops _).cons_cons op
    · exact List.nil_sublist _

/-- A log that is cut keeps its complete records, and the first bytes of the next one if the cut is
not at its end. -/
theorem take_log {n : ℕ} :
    ∀ {ops : List TaggedOperation} {k : ℕ}, (∀ op ∈ ops, C.Encodes n op) → k ≤ (C.log ops).length →
      ((C.log ops).take k = C.log (C.complete ops k) ∧ (C.log (C.complete ops k)).length = k) ∨
        ∃ bytes j, bytes.length < n ∧ 0 < j ∧ j < (frame bytes).length ∧
          (C.log ops).take k = C.log (C.complete ops k) ++ (frame bytes).take j ∧
          (C.log (C.complete ops k)).length ≠ k
  | [], k, _, hk => by
    obtain rfl : k = 0 := Nat.le_zero.mp hk
    exact Or.inl ⟨rfl, rfl⟩
  | op :: ops, k, h, hk => by
    obtain ⟨⟨bytes, he, hlt⟩, hops⟩ := List.forall_mem_cons.mp h
    have hlog : ∀ l, C.log (op :: l) = frame bytes ++ C.log l := fun l => by
      rw [log_cons, record_of_encode he]
    rw [complete, record_of_encode he]
    split_ifs with hle
    · rw [hlog, hlog, List.length_append] at *
      rcases take_log hops (k := k - (frame bytes).length) (by omega) with
        ⟨ht, hl⟩ | ⟨b, j, hb, h0, hj, ht, hl⟩
      · refine Or.inl ⟨?_, by omega⟩
        rw [List.take_append, List.take_of_length_le hle, ht]
      · refine Or.inr ⟨b, j, hb, h0, hj, ?_, by omega⟩
        rw [List.take_append, List.take_of_length_le hle, ht, List.append_assoc]
    · rcases Nat.eq_zero_or_pos k with rfl | hpos
      · exact Or.inl ⟨rfl, rfl⟩
      · refine Or.inr ⟨bytes, k, hlt, hpos, not_le.mp hle, ?_, hpos.ne⟩
        rw [hlog, List.take_append_of_le_length (not_le.mp hle).le]
        rfl

/-- Behind a torn record the reader does not find the next one, if it is long. -/
theorem decode_torn (hs : C.Shortest) {torn bytes : List UInt8} {j : ℕ}
    (htorn : torn.length < 2 ^ 32 - 2 ^ 24) (h0 : 0 < j) (hj : j < (frame torn).length)
    (he : C.encode op = some bytes) (hlong : bytes.length = 2 ^ 32 - 1) :
    (payloads ((frame torn).take j ++ frame bytes)).filterMap C.decode ≠ [op] := by
  rcases hsplit : splitFrame ((frame torn).take j ++ frame bytes) with _ | ⟨payload, rest⟩
  · rw [payloads_of_none hsplit]
    exact (List.cons_ne_nil op []).symm
  · obtain ⟨hshort, hreach⟩ := length_splitFrame_cut htorn hlong h0 hj hsplit
    have hlen := length_of_splitFrame hsplit
    rw [List.length_append, List.length_take, Nat.min_eq_left hj.le, length_frame] at hlen
    rw [payloads_of_some hsplit, List.filterMap_cons]
    intro hread
    rcases hdec : C.decode payload with _ | op' <;> simp only [hdec] at hread
    · -- the operation would have to be in the rest, which is too short for it
      have hmem : op ∈ (payloads rest).filterMap C.decode := hread ▸ List.mem_cons_self
      obtain ⟨p, hp, hdecp⟩ := List.mem_filterMap.mp hmem
      have hle := hs hdecp he
      have hfit := length_of_mem_payloads le_rfl hp
      omega
    · obtain ⟨rfl, -⟩ := List.cons_eq_cons.mp hread
      have := hs hdec he
      omega

end WireCodec

namespace Persistence

variable {C : WireCodec}

theorem readFrames_log {ops : List TaggedOperation} (h : ∀ op ∈ ops, C.Encodes (2 ^ 32) op)
    (rest : List UInt8) : readFrames C (some (C.log ops ++ rest)) =
      ops ++ (payloads rest).filterMap C.decode := by
  rw [readFrames, Option.getD_some, C.log_eq_frames, payloads_frames_append (C.encodings_lt h),
    List.filterMap_append, C.decode_encodings h]

namespace SessionStore

variable {store : SessionStore} {room r : String} {op : TaggedOperation}
  {ops : List TaggedOperation}

/-! ## Names of the files -/

theorem pathFor_ne_rotatedPathFor (room r : String) : pathFor room ≠ rotatedPathFor r := by
  intro h
  have := congrArg (fun s => s.toList.getLast?) h
  simp [pathFor, rotatedPathFor] at this

theorem pathFor_eq_iff :
    pathFor r = pathFor room ↔
      AvSync.SessionStore.stemFor r = AvSync.SessionStore.stemFor room := by
  simp [pathFor]

/-! ## Appends -/

theorem limits_appendOp : (store.appendOp C room op).limits = store.limits := by
  unfold appendOp
  rcases C.encode op with _ | bytes
  · rfl
  · dsimp only [makeRoom, rotate]
    split
    · rfl
    · split_ifs
      · split <;> rfl
      · rfl

/-- An append that does not rotate the log writes one record behind it. -/
theorem dir_appendOp
    (h : ∀ limits, store.limits = some limits → store.isFull room limits (C.record op) = false)
    (hop : C.Encodes (2 ^ 32) op) :
    (store.appendOp C room op).dir = store.dir.insert (pathFor room)
      (store.dir[pathFor room]?.getD [] ++ C.record op) := by
  obtain ⟨bytes, he, -⟩ := hop
  have hroom : (store.makeRoom room (frame bytes)).dir = store.dir := by
    unfold makeRoom
    rcases hl : store.limits with _ | limits
    · rfl
    · rw [C.record_of_encode he] at h
      simp only [h limits hl, Bool.false_eq_true, if_false]
  simp only [appendOp, he, hroom, C.record_of_encode he]

/-- Appends that do not rotate the log write their records behind it, and leave the rotated
generation. -/
theorem dir_appendOps :
    ∀ {ops : List TaggedOperation} {store : SessionStore}, store.KeepsSegment C room ops →
      (∀ op ∈ ops, C.Encodes (2 ^ 32) op) →
      (store.appendOps C room ops).dir[pathFor room]?.getD [] =
          store.dir[pathFor room]?.getD [] ++ C.log ops ∧
        (store.appendOps C room ops).dir[rotatedPathFor room]? =
          store.dir[rotatedPathFor room]? ∧
        (store.appendOps C room ops).limits = store.limits
  | [], _, _, _ => ⟨(List.append_nil _).symm, rfl, rfl⟩
  | op :: ops, store, hkeep, h => by
    obtain ⟨hop, hops⟩ := List.forall_mem_cons.mp h
    have hkeep' : (store.appendOp C room op).KeepsSegment C room ops := hkeep.2
    obtain ⟨h₁, h₂, h₃⟩ := dir_appendOps hkeep' hops
    have hdir := dir_appendOp hkeep.1 hop
    rw [hdir, BTreeMap.getElem?_insert_if, if_pos rfl, Option.getD_some] at h₁
    rw [hdir, BTreeMap.getElem?_insert_if, if_neg (pathFor_ne_rotatedPathFor room room)] at h₂
    refine ⟨?_, h₂, h₃.trans limits_appendOp⟩
    rw [WireCodec.log_cons, ← List.append_assoc]
    exact h₁

theorem keepsSegment_of_unbounded :
    ∀ {ops : List TaggedOperation} {store : SessionStore}, store.limits = none →
      store.KeepsSegment C room ops
  | [], _, _ => trivial
  | _ :: _, _, h =>
    ⟨fun _ hl => absurd (h.symm.trans hl) nofun,
      keepsSegment_of_unbounded (limits_appendOp.trans h)⟩

/-- What has been appended to a new log is read back. -/
theorem loadOps_appendOps (hnew : store.dir[pathFor room]? = none)
    (hrotated : store.dir[rotatedPathFor room]? = none) (hkeep : store.KeepsSegment C room ops)
    (h : ∀ op ∈ ops, C.Encodes (2 ^ 32) op) :
    (store.appendOps C room ops).loadOps C room = ops := by
  obtain ⟨h₁, h₂, -⟩ := dir_appendOps hkeep h
  rw [hnew, Option.getD_none, List.nil_append] at h₁
  have := readFrames_log h []
  rw [loadOps, h₂, hrotated]
  unfold readFrames at this ⊢
  rw [Option.getD_none, h₁]
  simpa using this

/-! ## Torn logs -/

theorem dir_tear (store : SessionStore) (room : String) (k : ℕ) :
    (store.tear room k).dir[pathFor room]?.getD [] =
      (store.dir[pathFor room]?.getD []).take k ∧
    (store.tear room k).dir[rotatedPathFor room]? = store.dir[rotatedPathFor room]? := by
  unfold tear openInner
  constructor
  · rw [BTreeMap.getElem?_modify_if, if_pos rfl]
    rcases store.dir[pathFor room]? with _ | bytes
    · exact List.take_nil.symm
    · rfl
  · rw [BTreeMap.getElem?_modify_if, if_neg (pathFor_ne_rotatedPathFor room room)]

variable {before later : List TaggedOperation} {k : ℕ}

/-- What the store reads once the log has been cut and operations have been appended to it. -/
theorem loadOps_tear (hnew : store.dir[pathFor room]? = none)
    (hrotated : store.dir[rotatedPathFor room]? = none)
    (hbefore : store.KeepsSegment C room before) (hb : ∀ op ∈ before, C.Encodes (2 ^ 32) op)
    (hlater : ((store.appendOps C room before).tear room k).KeepsSegment C room later)
    (hl : ∀ op ∈ later, C.Encodes (2 ^ 32) op) :
    (((store.appendOps C room before).tear room k).appendOps C room later).loadOps C room =
      readFrames C (some ((C.log before).take k ++ C.log later)) := by
  obtain ⟨h₁, h₂, -⟩ := dir_appendOps hbefore hb
  obtain ⟨h₃, h₄, -⟩ := dir_appendOps hlater hl
  obtain ⟨h₅, h₆⟩ := (store.appendOps C room before).dir_tear room k
  rw [h₅, h₁, hnew, Option.getD_none, List.nil_append] at h₃
  rw [loadOps, h₄, h₆, h₂, hrotated]
  simp only [readFrames, h₃, Option.getD_none, Option.getD_some, payloads_nil, List.filterMap_nil,
    List.nil_append]

/-- A log that is cut at the end of a record, or to which nothing is appended, costs the torn
record and no other: with limits too, as long as the log does not rotate. -/
theorem loadOps_of_boundary (hnew : store.dir[pathFor room]? = none)
    (hrotated : store.dir[rotatedPathFor room]? = none)
    (hbefore : store.KeepsSegment C room before) (hb : ∀ op ∈ before, C.Encodes (2 ^ 32) op)
    (hk : k ≤ (C.log before).length)
    (hlater : ((store.appendOps C room before).tear room k).KeepsSegment C room later)
    (hl : ∀ op ∈ later, C.Encodes (2 ^ 32) op)
    (hcut : (C.log (C.complete before k)).length = k ∨ later = []) :
    (((store.appendOps C room before).tear room k).appendOps C room later).loadOps C room =
      C.complete before k ++ later := by
  have hdone : ∀ op ∈ C.complete before k, C.Encodes (2 ^ 32) op := fun op hop =>
    hb op ((C.complete_sublist before k).subset hop)
  rw [loadOps_tear hnew hrotated hbefore hb hlater hl]
  rcases C.take_log hb hk with ⟨ht, -⟩ | ⟨bytes, j, hlt, -, hj, ht, hne⟩
  · rw [ht, readFrames_log hdone, C.log_eq_frames later, payloads_frames (C.encodings_lt hl),
      C.decode_encodings hl]
  · obtain rfl := hcut.resolve_left hne
    rw [ht, WireCodec.log_nil, List.append_nil, readFrames_log hdone,
      payloads_of_none (splitFrame_cut hlt hj), List.filterMap_nil]

/-- In an unbounded store a cut costs the torn record and no other, whatever is appended
afterwards, exactly when it falls on the end of a record. -/
theorem loadOps_torn_iff (hs : C.Shortest) (hu : C.Unbounded) (hlimits : store.limits = none)
    (hnew : store.dir[pathFor room]? = none) (hrotated : store.dir[rotatedPathFor room]? = none)
    (hbefore : ∀ op ∈ before, C.Encodes (2 ^ 32 - 2 ^ 24) op) (hk : k ≤ (C.log before).length) :
    (∀ later : List TaggedOperation, (∀ op ∈ later, C.Encodes (2 ^ 32) op) →
      (((store.appendOps C room before).tear room k).appendOps C room later).loadOps C room =
        C.complete before k ++ later) ↔
      (C.log (C.complete before k)).length = k := by
  have hb : ∀ op ∈ before, C.Encodes (2 ^ 32) op := fun op hop => (hbefore op hop).mono (by omega)
  have hkeep : store.KeepsSegment C room before := keepsSegment_of_unbounded hlimits
  have hunbounded : ((store.appendOps C room before).tear room k).limits = none :=
    (dir_appendOps hkeep hb).2.2.trans hlimits
  constructor
  · intro hall
    by_contra hcut
    obtain ⟨-, hne⟩ | ⟨torn, j, hlt, h0, hj, ht, -⟩ := C.take_log hbefore hk
    · exact hcut hne
    obtain ⟨op, bytes, he, hle, hlt'⟩ := hu (2 ^ 32 - 1) (by omega)
    have hl : ∀ o ∈ [op], C.Encodes (2 ^ 32) o := by
      intro o ho
      obtain rfl := List.mem_singleton.mp ho
      exact ⟨bytes, he, hlt'⟩
    have hread := hall [op] hl
    have hdone : ∀ op ∈ C.complete before k, C.Encodes (2 ^ 32) op := fun op hop =>
      hb op ((C.complete_sublist before k).subset hop)
    rw [loadOps_tear hnew hrotated hkeep hb (keepsSegment_of_unbounded hunbounded) hl, ht,
      List.append_assoc, readFrames_log hdone, List.append_cancel_left_eq] at hread
    refine C.decode_torn hs hlt h0 hj he (by omega) ?_
    simpa [C.record_of_encode he] using hread
  · exact fun hcut later hl => loadOps_of_boundary hnew hrotated hkeep hb hk
      (keepsSegment_of_unbounded hunbounded) hl (Or.inl hcut)

/-! ## A torn record -/

/-- The insert of a track whose name has the given length. -/
def namedTrack (n : ℕ) : TaggedOperation :=
  .of 1 1 (.insertTrack ⟨1⟩ (.new (String.ofList (List.replicate n 'a'))) 0)

/-- The bytes of a `u64`, the least significant first. -/
def leU64 (n : ℕ) : List UInt8 := (List.range 8).map fun i => UInt8.ofNat (n >>> (8 * i))

/-- The wire format of `namedTrack`, stamped at the epoch. -/
def namedTrackBytes (n : ℕ) : List UInt8 :=
  leU64 1 ++ leU64 1 ++ [6, 0, 0, 0] ++ leU64 1 ++ leU64 n ++ List.replicate n 97 ++
    [0, 0, 0, 0] ++ [0, 0, 0, 0] ++ [0] ++ [0] ++ leU64 0 ++
    leU64 1 ++ leU64 0 ++ leU64 1 ++ leU64 0 ++ [0, 0, 0, 0]

theorem length_namedTrackBytes (n : ℕ) : (namedTrackBytes n).length = 90 + n := by
  simp only [namedTrackBytes, leU64, List.length_append, List.length_map, List.length_range,
    List.length_cons, List.length_nil, List.length_replicate]
  omega

theorem namedTrack_injective : Function.Injective namedTrack := by
  intro m n h
  have hname : String.ofList (List.replicate m 'a') = String.ofList (List.replicate n 'a') := by
    simpa only [namedTrack, TaggedOperation.of, TaggedOperation.mk.injEq, true_and, and_true,
      TimelineOperation.insertTrack.injEq, TrackData.new, TrackData.mk.injEq] using h
  simpa using congrArg String.length hname

open Classical in
/-- The wire codec, on `namedTrack`. -/
noncomputable def namedTrackCodec : WireCodec where
  encode op := if h : ∃ n, namedTrack n = op then some (namedTrackBytes h.choose) else none
  decode bytes :=
    if bytes = namedTrackBytes (bytes.length - 90) then some (namedTrack (bytes.length - 90))
    else none
  decode_encode {op bytes} h := by
    obtain ⟨hop, he⟩ := Option.dite_none_right_eq_some.mp h
    obtain rfl := Option.some.inj he
    rw [length_namedTrackBytes, Nat.add_sub_cancel_left, if_pos rfl, hop.choose_spec]

theorem encode_namedTrack (n : ℕ) :
    namedTrackCodec.encode (namedTrack n) = some (namedTrackBytes n) := by
  have h : ∃ m, namedTrack m = namedTrack n := ⟨n, rfl⟩
  simp only [namedTrackCodec, dif_pos h, namedTrack_injective h.choose_spec]

theorem decode_namedTrackCodec {bytes : List UInt8} {op : TaggedOperation}
    (h : namedTrackCodec.decode bytes = some op) :
    ∃ n, op = namedTrack n ∧ bytes = namedTrackBytes n := by
  simp only [namedTrackCodec, Option.ite_none_right_eq_some, Option.some.injEq] at h
  exact ⟨_, h.2.symm, h.1⟩

theorem shortest_namedTrackCodec : namedTrackCodec.Shortest := by
  intro op bytes bytes' hd he
  obtain ⟨n, rfl, rfl⟩ := decode_namedTrackCodec hd
  rw [encode_namedTrack] at he
  cases he
  exact le_rfl

theorem unbounded_namedTrackCodec : namedTrackCodec.Unbounded := by
  intro n hn
  refine ⟨namedTrack (n - 90), _, encode_namedTrack _, ?_, ?_⟩ <;>
    rw [length_namedTrackBytes] <;> omega

theorem encodes_namedTrack {n m : ℕ} (h : 90 + n < m) :
    ∀ op ∈ [namedTrack n], namedTrackCodec.Encodes m op := by
  intro op hop
  obtain rfl := List.mem_singleton.mp hop
  exact ⟨_, encode_namedTrack n, by rwa [length_namedTrackBytes]⟩

/-- A log that is not cut takes further appends. -/
theorem wholeLog_reads :
    ((((openInner ∅ none).appendOps namedTrackCodec "r" [namedTrack 1]).tear "r"
        (namedTrackCodec.log [namedTrack 1]).length).appendOps namedTrackCodec "r"
          [namedTrack 2]).loadOps namedTrackCodec "r" =
      namedTrackCodec.complete [namedTrack 1] (namedTrackCodec.log [namedTrack 1]).length ++
        [namedTrack 2] := by
  have hwhole : (namedTrackCodec.log (namedTrackCodec.complete [namedTrack 1]
      (namedTrackCodec.log [namedTrack 1]).length)).length =
        (namedTrackCodec.log [namedTrack 1]).length := by
    rw [WireCodec.complete, if_pos (by simp), WireCodec.complete]
  exact (loadOps_torn_iff shortest_namedTrackCodec unbounded_namedTrackCodec rfl rfl rfl
    (encodes_namedTrack (by norm_num)) le_rfl).mpr hwhole [namedTrack 2]
    (encodes_namedTrack (by norm_num))

/-- A log of one record is cut after ten bytes, and the operation appended afterwards is lost. -/
theorem tornLog_loses :
    ((((openInner ∅ none).appendOps namedTrackCodec "r" [namedTrack 1]).tear "r" 10).appendOps
        namedTrackCodec "r" [namedTrack 2]).loadOps namedTrackCodec "r" ≠
      namedTrackCodec.complete [namedTrack 1] 10 ++ [namedTrack 2] := by
  have henc := encodes_namedTrack (n := 1) (m := 2 ^ 32) (by norm_num)
  have henc' := encodes_namedTrack (n := 2) (m := 2 ^ 32) (by norm_num)
  have hkeep : (openInner ∅ none).KeepsSegment namedTrackCodec "r" [namedTrack 1] :=
    keepsSegment_of_unbounded rfl
  rw [loadOps_tear rfl rfl hkeep henc
    (keepsSegment_of_unbounded (dir_appendOps hkeep henc).2.2) henc']
  simp only [WireCodec.log_cons, WireCodec.log_nil,
    WireCodec.record_of_encode (encode_namedTrack _),
    List.append_nil]
  have hread : (readFrames namedTrackCodec
      (some ((frame (namedTrackBytes 1)).take 10 ++ frame (namedTrackBytes 2)))).length = 0 := by
    decide +kernel
  rw [List.length_eq_zero_iff.mp hread]
  exact (List.append_ne_nil_of_right_ne_nil _ (List.cons_ne_nil _ _)).symm

end SessionStore

end Persistence

end AvSync
