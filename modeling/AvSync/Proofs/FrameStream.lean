import AvSync.FrameStream
import AvSync.Proofs.Persistence

/-!
# The reader of a TCP stream

A frame that is written is read back exactly when its encoding is within the reader's limit, which
is not the writer's (`readFrames_streamOf_iff`). Timeouts that fall between frames are not noticed;
one that falls within a frame takes the bytes before it from the reader, so of a stream of messages
something is missing (`delivered_eq_iff`).
-/

namespace AvSync

namespace TcpTransport

open Framing

variable {C : Crypto} {codec : FrameCodec C}

/-! ## Arrivals -/

@[simp] theorem bytesOf_nil : bytesOf [] = [] := rfl

@[simp] theorem bytesOf_byte (b : UInt8) (l : List Arrival) :
    bytesOf (.byte b :: l) = b :: bytesOf l := rfl

@[simp] theorem bytesOf_timeout (l : List Arrival) : bytesOf (.timeout :: l) = bytesOf l := rfl

@[simp] theorem bytesOf_append (l m : List Arrival) : bytesOf (l ++ m) = bytesOf l ++ bytesOf m :=
  List.filterMap_append

@[simp] theorem bytesOf_map_byte (p : List UInt8) : bytesOf (p.map .byte) = p := by
  induction p with
  | nil => rfl
  | cons b p ih => rw [List.map_cons, bytesOf_byte, ih]

theorem timeout_not_mem_map_byte (p : List UInt8) : Arrival.timeout ∉ p.map Arrival.byte := by
  simp

/-- A timeout behind a run of bytes. -/
theorem eq_append_of_timeout {p : List UInt8} {rest before after : List Arrival}
    (h : p.map .byte ++ rest = before ++ .timeout :: after) :
    ∃ before', before = p.map .byte ++ before' ∧ rest = before' ++ .timeout :: after := by
  rcases List.append_eq_append_iff.mp h with ⟨l, hb, hr⟩ | ⟨l, hp, ha⟩
  · exact ⟨l, hb, hr⟩
  · rcases l with _ | ⟨x, l⟩
    · exact ⟨[], by simpa using hp.symm, by simpa using ha.symm⟩
    · obtain ⟨rfl, -⟩ := List.cons_eq_cons.mp ha
      exact absurd (hp ▸ by simp) (timeout_not_mem_map_byte p)

/-- Bytes with no timeout among them arrive in one run. -/
theorem eq_map_byte_append :
    ∀ {p q : List UInt8} {arrivals : List Arrival}, bytesOf arrivals = p ++ q →
      (∀ before after, arrivals = before ++ .timeout :: after →
        p.length ≤ (bytesOf before).length) →
      ∃ rest, arrivals = p.map .byte ++ rest ∧ bytesOf rest = q
  | [], _, arrivals, h, _ => ⟨arrivals, rfl, h⟩
  | b :: p, q, [], h, _ => by simp at h
  | b :: p, q, .timeout :: arrivals, _, hbefore => by
    have := hbefore [] arrivals rfl
    simp at this
  | b :: p, q, .byte c :: arrivals, h, hbefore => by
    rw [bytesOf_byte, List.cons_append, List.cons_eq_cons] at h
    obtain ⟨rfl, h⟩ := h
    obtain ⟨rest, rfl, hr⟩ := eq_map_byte_append h fun before after ha => by
      have := hbefore (.byte c :: before) after (by rw [ha, List.cons_append])
      simpa using this
    exact ⟨rest, rfl, hr⟩

/-! ## Reading one frame -/

theorem readExact_bytes (p : List UInt8) (rest : List Arrival) :
    readExact p.length (p.map .byte ++ rest) = (.ok p, rest) := by
  induction p with
  | nil => rfl
  | cons b p ih =>
    simp only [List.length_cons, List.map_cons, List.cons_append, readExact, ih]
    rfl

/-- What a read takes: a full buffer, or all that came before the timeout or the end. -/
theorem readExact_cases :
    ∀ (n : ℕ) (arrivals : List Arrival),
      (∃ (p : List UInt8) (rest : List Arrival), p.length = n ∧ arrivals = p.map .byte ++ rest ∧
          readExact n arrivals = (.ok p, rest)) ∨
        (∃ (p : List UInt8) (rest : List Arrival), p.length < n ∧
          arrivals = p.map .byte ++ .timeout :: rest ∧
          readExact n arrivals = (.error .timedOut, rest)) ∨
        ∃ p : List UInt8, p.length < n ∧ arrivals = p.map .byte ∧
          readExact n arrivals = (.error .unexpectedEof, [])
  | 0, arrivals => Or.inl ⟨[], arrivals, rfl, rfl, rfl⟩
  | n + 1, [] => Or.inr (Or.inr ⟨[], Nat.zero_lt_succ n, rfl, rfl⟩)
  | n + 1, .timeout :: rest => Or.inr (Or.inl ⟨[], rest, Nat.zero_lt_succ n, rfl, rfl⟩)
  | n + 1, .byte b :: arrivals => by
    unfold readExact
    rcases readExact_cases n arrivals with ⟨p, rest, hp, ha, hr⟩ | ⟨p, rest, hp, ha, hr⟩ |
      ⟨p, hp, ha, hr⟩
    · refine Or.inl ⟨b :: p, rest, by rw [List.length_cons, hp], by rw [ha]; rfl, ?_⟩
      rw [hr]
      rfl
    · refine Or.inr (Or.inl ⟨b :: p, rest, by rw [List.length_cons]; omega, by rw [ha]; rfl, ?_⟩)
      rw [hr]
      rfl
    · refine Or.inr (Or.inr ⟨b :: p, by rw [List.length_cons]; omega, by rw [ha]; rfl, ?_⟩)
      rw [hr]
      rfl

variable {frame : WireFrame C} {frames : List (WireFrame C)} {msg : SyncMessage}
  {msgs : List SyncMessage} {arrivals rest : List Arrival} {bytes : List UInt8}

theorem writeFrame_eq_ok (h : writeFrame codec frame = .ok bytes) :
    ∃ payload, codec.encode frame = .ok payload ∧ payload.length < 2 ^ 32 ∧
      bytes = beU32 payload.length ++ payload := by
  unfold writeFrame at h
  split at h
  · cases h
  · rename_i payload hp
    split at h
    · cases h
    · cases h
      exact ⟨payload, hp, by omega, rfl⟩

theorem length_beU32 (n : ℕ) : (beU32 n).length = 4 := rfl

theorem ofBeBuf_beU32 {n : ℕ} (h : n < 2 ^ 32) : ofBeBuf (beU32 n) = n := ofBeU32_beU32 h

/-- The bytes of a frame that has been written are those of its encoding, framed. -/
theorem Written.wireBytes_eq (h : Written codec frame) :
    ∃ payload, codec.encode frame = .ok payload ∧ payload.length < 2 ^ 32 ∧
      wireBytes codec frame = beU32 payload.length ++ payload := by
  obtain ⟨bytes, hb⟩ := h
  obtain ⟨payload, he, hlt, rfl⟩ := writeFrame_eq_ok hb
  exact ⟨payload, he, hlt, by simp only [wireBytes, hb]⟩

theorem Written.four_le (h : Written codec frame) : 4 ≤ (wireBytes codec frame).length := by
  obtain ⟨payload, -, -, hw⟩ := h.wireBytes_eq
  rw [hw, List.length_append, length_beU32]
  omega

/-- A frame within the limit is read back, whatever follows it. -/
theorem readFrame_wireBytes (hw : Written codec frame) (ha : Accepted codec frame)
    (rest : List Arrival) :
    readFrame codec ((wireBytes codec frame).map .byte ++ rest) = (.ok (some frame), rest) := by
  obtain ⟨payload, he, hlt, hb⟩ := hw.wireBytes_eq
  unfold Accepted at ha
  rw [hb, List.length_append, length_beU32] at ha
  have hle : ¬maxFrameBytes < payload.length := by omega
  have hlen := readExact_bytes (beU32 payload.length) (payload.map .byte ++ rest)
  rw [length_beU32] at hlen
  rw [hb, List.map_append, List.append_assoc]
  simp only [readFrame, hlen, ofBeBuf_beU32 hlt, if_neg hle, readExact_bytes, boundedDecode,
    codec.decode_encode he]

/-- One that is longer ends the stream: its length is all that is read of it. -/
theorem readFrame_tooLong (hw : Written codec frame) (ha : ¬Accepted codec frame)
    (rest : List Arrival) :
    ∃ text, readFrame codec (((wireBytes codec frame).take 4).map .byte ++ rest) =
      (.error (.transport text), rest) := by
  obtain ⟨payload, he, hlt, hb⟩ := hw.wireBytes_eq
  unfold Accepted at ha
  rw [hb, List.length_append, length_beU32] at ha
  have hle : maxFrameBytes < payload.length := by omega
  have hlen := readExact_bytes (beU32 payload.length) rest
  rw [length_beU32] at hlen
  rw [hb, List.take_left' (length_beU32 _)]
  simp only [readFrame, hlen, ofBeBuf_beU32 hlt, if_pos hle]
  exact ⟨_, rfl⟩

/-! ## What is written is read back -/

theorem streamOf_cons (codec : FrameCodec C) (frame : WireFrame C) (frames : List (WireFrame C)) :
    streamOf codec (frame :: frames) = wireBytes codec frame ++ streamOf codec frames := rfl

/-- Frames that have been written are read back in full, whatever follows them, exactly when each
is within the reader's limit. -/
theorem readFrames_streamOf_iff (codec : FrameCodec C) (frames : List (WireFrame C))
    (hw : ∀ frame ∈ frames, Written codec frame) :
    (∀ rest, readFrames codec frames.length ((streamOf codec frames).map .byte ++ rest) =
      (.ok frames, rest)) ↔ ∀ frame ∈ frames, Accepted codec frame := by
  induction frames with
  | nil => simp [streamOf, readFrames]
  | cons frame frames ih =>
    obtain ⟨hf, hfs⟩ := List.forall_mem_cons.mp hw
    rw [List.forall_mem_cons, ← ih hfs]
    simp only [streamOf_cons, List.map_append, List.append_assoc, List.length_cons, readFrames]
    by_cases ha : Accepted codec frame
    · simp only [readFrame_wireBytes hf ha, ha, true_and]
      refine forall_congr' fun rest => ?_
      generalize readFrames codec frames.length ((streamOf codec frames).map .byte ++ rest) = r
      rcases r with ⟨_ | fs, left⟩ <;> simp [Except.map]
    · simp only [ha, false_and, iff_false, not_forall]
      refine ⟨[], ?_⟩
      rw [← List.take_append_drop 4 (wireBytes codec frame), List.map_append, List.append_assoc]
      obtain ⟨text, ht⟩ := readFrame_tooLong hf ha
        (((wireBytes codec frame).drop 4).map .byte ++ ((streamOf codec frames).map .byte ++ []))
      rw [ht]
      simp

/-! ## The reader loop -/

/-- What `read_frame` does: it takes a whole frame, it runs into a timeout within the length, or it
ends the loop. -/
theorem readFrame_cases (codec : FrameCodec C) (arrivals : List Arrival) :
    (∃ (p payload : List UInt8) (rest : List Arrival) (frame : WireFrame C),
        p.length = 4 + payload.length ∧ arrivals = p.map .byte ++ rest ∧
        codec.decode payload = .ok frame ∧
        readFrame codec arrivals = (.ok (some frame), rest)) ∨
      (∃ (p : List UInt8) (rest : List Arrival), p.length < 4 ∧
        arrivals = p.map .byte ++ .timeout :: rest ∧
        readFrame codec arrivals = (.error .timeout, rest)) ∨
      (∃ rest, readFrame codec arrivals = (.ok none, rest)) ∨
      ∃ error rest, error ≠ .timeout ∧ readFrame codec arrivals = (.error error, rest) := by
  unfold readFrame
  rcases readExact_cases 4 arrivals with ⟨p, rest, hp, ha, hr⟩ | ⟨p, rest, hp, ha, hr⟩ |
    ⟨p, hp, ha, hr⟩
  · rw [hr]
    dsimp only
    split_ifs with hlong
    · exact Or.inr (Or.inr (Or.inr ⟨.transport _, _, by simp, rfl⟩))
    rcases readExact_cases (ofBeBuf p) rest with ⟨q, rest, hq, hb, hr⟩ | ⟨q, rest, hq, hb, hr⟩ |
      ⟨q, hq, hb, hr⟩
    · rw [hr]
      dsimp only
      rcases hd : boundedDecode codec q maxFrameBytes with text | frame
      · exact Or.inr (Or.inr (Or.inr ⟨.serialization _, _, by simp, rfl⟩))
      · refine Or.inl ⟨p ++ q, q, rest, frame, ?_, ?_, ?_, rfl⟩
        · rw [List.length_append, hp]
        · rw [ha, hb, List.map_append, List.append_assoc]
        · unfold boundedDecode at hd
          split_ifs at hd
          exact hd
    · rw [hr]
      exact Or.inr (Or.inr (Or.inr ⟨.transport _, _, by simp, rfl⟩))
    · rw [hr]
      exact Or.inr (Or.inr (Or.inr ⟨.transport _, _, by simp, rfl⟩))
  · rw [hr]
    exact Or.inr (Or.inl ⟨p, rest, hp, ha, rfl⟩)
  · rw [hr]
    exact Or.inr (Or.inr (Or.inl ⟨_, rfl⟩))

/-- The messages before the end of a stream that is read without a timeout. -/
def received (codec : FrameCodec C) : List (WireFrame C) → List SyncMessage
  | [] => []
  | frame :: frames =>
    if ¬Accepted codec frame then []
    else
      match frame with
      | .message msg => msg :: received codec frames
      | .goodbye => []
      | .hello _ _ _ | .challenge _ | .challengeResponse _ => received codec frames

theorem readLoop_timeout {fuel : ℕ}
    (h : readFrame codec arrivals = (.error .timeout, rest)) :
    readLoop codec (fuel + 1) arrivals = readLoop codec fuel rest := by
  simp only [readLoop, h]

theorem readLoop_none {fuel : ℕ} (h : readFrame codec arrivals = (.ok none, rest)) :
    readLoop codec (fuel + 1) arrivals = [] := by
  simp only [readLoop, h]

theorem readLoop_error {fuel : ℕ} {error : SyncError} (hne : error ≠ .timeout)
    (h : readFrame codec arrivals = (.error error, rest)) :
    readLoop codec (fuel + 1) arrivals = [] := by
  unfold readLoop
  rw [h]
  cases error <;> first | rfl | exact absurd rfl hne

/-- More fuel than arrivals reads no more. -/
theorem readLoop_eq_of_lt :
    ∀ {n m : ℕ} {arrivals : List Arrival}, arrivals.length < n → n ≤ m →
      readLoop codec m arrivals = readLoop codec n arrivals
  | 0, _, _, hn, _ => absurd hn (Nat.not_lt_zero _)
  | n + 1, 0, _, _, hm => absurd hm (by omega)
  | n + 1, m + 1, arrivals, hn, hm => by
    have ih : ∀ {rest : List Arrival}, rest.length < arrivals.length →
        readLoop codec m rest = readLoop codec n rest :=
      fun h => readLoop_eq_of_lt (by omega) (by omega)
    rcases readFrame_cases codec arrivals with ⟨p, payload, rest, frame, hp, ha, -, hr⟩ |
      ⟨p, rest, -, ha, hr⟩ | ⟨rest, hr⟩ | ⟨error, rest, hne, hr⟩
    · have hlt : rest.length < arrivals.length := by
        rw [ha, List.length_append, List.length_map]
        omega
      simp only [readLoop, hr]
      cases frame <;> simp only [ih hlt]
    · have hlt : rest.length < arrivals.length := by
        rw [ha, List.length_append, List.length_cons]
        omega
      rw [readLoop_timeout hr, readLoop_timeout hr, ih hlt]
    · rw [readLoop_none hr, readLoop_none hr]
    · rw [readLoop_error hne hr, readLoop_error hne hr]

theorem delivered_eq {fuel : ℕ} (h : arrivals.length < fuel) :
    readLoop codec fuel arrivals = delivered codec arrivals :=
  readLoop_eq_of_lt (Nat.lt_succ_self _) h

theorem delivered_timeout (codec : FrameCodec C) (rest : List Arrival) :
    delivered codec (.timeout :: rest) = delivered codec rest := by
  have h : readFrame codec (.timeout :: rest) = (.error .timeout, rest) := rfl
  rw [delivered, readLoop_timeout h, delivered_eq (by simp)]

/-- A frame is delivered if it is a message, and ends the loop if it is a goodbye. -/
theorem delivered_frame (hw : Written codec frame) (ha : Accepted codec frame)
    (rest : List Arrival) :
    delivered codec ((wireBytes codec frame).map .byte ++ rest) =
      match frame with
      | .message msg => msg :: delivered codec rest
      | .goodbye => []
      | .hello _ _ _ | .challenge _ | .challengeResponse _ => delivered codec rest := by
  have h4 := hw.four_le
  have hrest : ∀ fuel, fuel = ((wireBytes codec frame).map Arrival.byte ++ rest).length →
      readLoop codec fuel rest = delivered codec rest := by
    rintro fuel rfl
    refine delivered_eq ?_
    rw [List.length_append, List.length_map]
    omega
  unfold delivered
  rw [readLoop, readFrame_wireBytes hw ha]
  cases frame <;> simp only [hrest _ rfl] <;> rfl

/-! ## Timeouts between frames -/

theorem delivered_of_no_bytes :
    ∀ {arrivals : List Arrival}, bytesOf arrivals = [] → delivered codec arrivals = []
  | [], _ => rfl
  | .timeout :: rest, h => by
    rw [delivered_timeout]
    exact delivered_of_no_bytes h
  | .byte _ :: _, h => by simp at h

/-- Timeouts between frames are not noticed. -/
theorem delivered_of_betweenFrames (hw : ∀ frame ∈ frames, Written codec frame)
    (hb : bytesOf arrivals = streamOf codec frames)
    (hbetween : BetweenFrames codec frames arrivals) :
    delivered codec arrivals = received codec frames := by
  induction frames generalizing arrivals with
  | nil => exact delivered_of_no_bytes hb
  | cons frame frames ih =>
    obtain ⟨hf, hfs⟩ := List.forall_mem_cons.mp hw
    have h4 := hf.four_le
    induction arrivals with
    | nil =>
      have := congrArg List.length hb
      rw [streamOf_cons, List.length_append] at this
      simp only [bytesOf_nil, List.length_nil] at this
      omega
    | cons arrival arrivals ih' =>
    cases arrival with
    | timeout =>
      rw [delivered_timeout]
      exact ih' hb fun before after h => hbetween (.timeout :: before) after (by rw [h]; rfl)
    | byte b =>
    -- no timeout falls on the start of the frame, so the others are behind what is read of it
    have hbehind : ∀ n ≤ (wireBytes codec frame).length, n ≤ readLength codec (frame :: frames) →
        ∀ before after, .byte b :: arrivals = before ++ Arrival.timeout :: after →
          n ≤ (bytesOf before).length := by
      intro n hn hread before after h
      rcases hbetween before after h with ⟨read, unread, hsplit, hlen⟩ | hlen
      · rcases before with _ | ⟨x, before⟩
        · cases h
        obtain ⟨rfl, -⟩ := List.cons_eq_cons.mp h
        rcases read with _ | ⟨f, read⟩
        · simp [streamOf] at hlen
        · obtain ⟨rfl, -⟩ := List.cons_eq_cons.mp hsplit
          rw [hlen, streamOf_cons, List.length_append]
          omega
      · omega
    by_cases ha : Accepted codec frame
    · have hread : (wireBytes codec frame).length ≤ readLength codec (frame :: frames) := by
        cases frame <;> simp [readLength, ha]
      obtain ⟨rest, he, hr⟩ := eq_map_byte_append hb (hbehind _ le_rfl hread)
      rw [he, delivered_frame hf ha]
      have hbetween' : readLength codec (frame :: frames) =
          (wireBytes codec frame).length + readLength codec frames →
          BetweenFrames codec frames rest := by
        intro hsum before after h
        have hall := hbetween ((wireBytes codec frame).map .byte ++ before) after
          (by rw [he, h, List.append_assoc])
        rw [bytesOf_append, bytesOf_map_byte, List.length_append, hsum] at hall
        rcases hall with ⟨read, unread, hsplit, hlen⟩ | hlen
        · rcases read with _ | ⟨f, read⟩
          · rw [show streamOf codec [] = [] from rfl, List.length_nil] at hlen
            omega
          · obtain ⟨rfl, htail⟩ := List.cons_eq_cons.mp hsplit
            rw [streamOf_cons, List.length_append] at hlen
            exact Or.inl ⟨read, unread, htail, by omega⟩
        · exact Or.inr (by omega)
      cases frame <;> simp only [received, ha, not_true_eq_false, if_false] <;>
        rw [ih hfs hr (hbetween' (by simp [readLength, ha]))]
    · have hread : readLength codec (frame :: frames) = 4 := by
        simp [readLength, ha]
      have hbytes : bytesOf (.byte b :: arrivals) = (wireBytes codec frame).take 4 ++
          ((wireBytes codec frame).drop 4 ++ streamOf codec frames) := by
        rw [hb, streamOf_cons, ← List.append_assoc, List.take_append_drop]
      obtain ⟨rest, he, -⟩ := eq_map_byte_append hbytes
        (hbehind _ (List.length_take_le' _ _) (by rw [hread]; exact List.length_take_le _ _))
      obtain ⟨text, ht⟩ := readFrame_tooLong hf ha rest
      rw [he, delivered, readLoop_error (by simp) ht]
      simp [received, ha]

/-! ## Timeouts within a frame -/

theorem length_wireBytes_le (hs : codec.Shortest) (h : codec.decode bytes = .ok frame) :
    (wireBytes codec frame).length ≤ 4 + bytes.length := by
  by_cases hw : Written codec frame
  · obtain ⟨payload, he, -, hb⟩ := hw.wireBytes_eq
    have := hs h he
    rw [hb, List.length_append, length_beU32]
    omega
  · unfold wireBytes
    split
    · rename_i b hb
      exact absurd ⟨b, hb⟩ hw
    · exact Nat.zero_le _

theorem streamOf_map_cons (codec : FrameCodec C) (msg : SyncMessage) (msgs : List SyncMessage) :
    streamOf codec ((msg :: msgs).map .message) =
      wireBytes codec (.message msg) ++ streamOf codec (msgs.map .message) := rfl

/-- What is delivered takes no more bytes than have arrived. -/
theorem length_delivered_le (hs : codec.Shortest) (fuel : ℕ) (arrivals : List Arrival) :
    (streamOf codec ((readLoop codec fuel arrivals).map .message)).length ≤
      (bytesOf arrivals).length := by
  induction fuel generalizing arrivals with
  | zero => exact Nat.zero_le _
  | succ fuel ih =>
    rcases readFrame_cases codec arrivals with ⟨p, payload, rest, frame, hp, ha, hd, hr⟩ |
      ⟨p, rest, -, ha, hr⟩ | ⟨rest, hr⟩ | ⟨error, rest, hne, hr⟩
    · have hle := ih rest
      have hw := length_wireBytes_le hs hd
      have hbytes : (bytesOf arrivals).length = p.length + (bytesOf rest).length := by
        rw [ha, bytesOf_append, bytesOf_map_byte, List.length_append]
      simp only [readLoop, hr]
      cases frame with
      | message msg =>
        simp only [streamOf_map_cons, List.length_append]
        omega
      | goodbye => exact Nat.zero_le _
      | _ =>
        dsimp only
        omega
    · have hle := ih rest
      rw [readLoop_timeout hr, ha, bytesOf_append, bytesOf_timeout, List.length_append]
      omega
    · rw [readLoop_none hr]
      exact Nat.zero_le _
    · rw [readLoop_error hne hr]
      exact Nat.zero_le _

/-- If what is delivered takes all the bytes, every timeout falls between two of the messages. -/
theorem between_of_length_eq (hs : codec.Shortest) {fuel : ℕ} (hfuel : arrivals.length < fuel)
    (hread : readLoop codec fuel arrivals = msgs)
    (hlen : (streamOf codec (msgs.map .message)).length = (bytesOf arrivals).length)
    {before after : List Arrival} (h : arrivals = before ++ .timeout :: after) :
    ∃ read unread, msgs.map WireFrame.message = read ++ unread ∧
      (bytesOf before).length = (streamOf codec read).length := by
  induction fuel generalizing arrivals msgs before with
  | zero => exact absurd hfuel (Nat.not_lt_zero _)
  | succ fuel ih =>
    -- where the loop ends nothing has arrived but timeouts
    have hend : msgs = [] → ∃ read unread, msgs.map WireFrame.message = read ++ unread ∧
        (bytesOf before).length = (streamOf codec read).length := by
      rintro rfl
      refine ⟨[], [], rfl, ?_⟩
      rw [h, bytesOf_append, List.length_append] at hlen
      simp only [List.map_nil, streamOf, List.flatMap_nil, List.length_nil] at hlen ⊢
      omega
    rcases readFrame_cases codec arrivals with ⟨p, payload, rest, frame, hp, ha, hd, hr⟩ |
      ⟨p, rest, -, ha, hr⟩ | ⟨rest, hr⟩ | ⟨error, rest, hne, hr⟩
    · have hle := length_delivered_le hs fuel rest
      have hw := length_wireBytes_le hs hd
      rw [ha, List.length_append, List.length_map] at hfuel
      rw [ha, bytesOf_append, bytesOf_map_byte, List.length_append] at hlen
      simp only [readLoop, hr] at hread
      cases frame with
      | message msg =>
        subst hread
        rw [streamOf_map_cons, List.length_append] at hlen
        obtain ⟨before', rfl, hrest⟩ := eq_append_of_timeout (ha ▸ h)
        obtain ⟨read, unread, hsplit, hpos⟩ := ih (by omega) rfl (by omega) hrest
        refine ⟨.message msg :: read, unread, by rw [List.map_cons, hsplit]; rfl, ?_⟩
        rw [bytesOf_append, bytesOf_map_byte, List.length_append, hpos, streamOf_cons,
          List.length_append]
        omega
      | goodbye => exact hend hread.symm
      | _ =>
        dsimp only at hread
        rw [hread] at hle
        omega
    · rw [readLoop_timeout hr] at hread
      have hle := length_delivered_le hs fuel rest
      rw [hread] at hle
      rw [ha, bytesOf_append, bytesOf_map_byte, List.length_append, bytesOf_timeout] at hlen
      obtain rfl := List.length_eq_zero_iff.mp (show p.length = 0 by omega)
      rcases before with _ | ⟨x, before⟩
      · exact ⟨[], _, rfl, rfl⟩
      · obtain ⟨rfl, hrest⟩ := List.cons_eq_cons.mp (ha.symm.trans h)
        rw [ha, List.map_nil, List.nil_append, List.length_cons] at hfuel
        rw [List.length_nil] at hlen
        rw [bytesOf_timeout]
        exact ih (by omega) hread (by omega) hrest
    · rw [readLoop_none hr] at hread
      exact hend hread.symm
    · rw [readLoop_error hne hr] at hread
      exact hend hread.symm

theorem received_messages (hm : ∀ frame ∈ frames, ∃ msg, frame = .message msg)
    (ha : ∀ frame ∈ frames, Accepted codec frame) :
    (received codec frames).map WireFrame.message = frames := by
  induction frames with
  | nil => rfl
  | cons frame frames ih =>
    obtain ⟨⟨msg, rfl⟩, hms⟩ := List.forall_mem_cons.mp hm
    obtain ⟨hf, hfs⟩ := List.forall_mem_cons.mp ha
    simp only [received, hf, not_true_eq_false, if_false, List.map_cons, ih hms hfs]

theorem betweenFrames_bytes (codec : FrameCodec C) (frames : List (WireFrame C)) :
    BetweenFrames codec frames ((streamOf codec frames).map .byte) :=
  fun _ _ h => absurd (h ▸ by simp) (timeout_not_mem_map_byte (streamOf codec frames))

/-- Timeouts between frames leave what is delivered as it is. Of a stream of messages that the
reader accepts, a timeout within a frame takes something away. -/
theorem delivered_eq_iff (codec : FrameCodec C) (frames : List (WireFrame C))
    (arrivals : List Arrival) (hw : ∀ frame ∈ frames, Written codec frame)
    (hb : bytesOf arrivals = streamOf codec frames) :
    (BetweenFrames codec frames arrivals →
      delivered codec arrivals = delivered codec ((streamOf codec frames).map .byte)) ∧
    (codec.Shortest → (∀ frame ∈ frames, ∃ msg, frame = .message msg) →
      (∀ frame ∈ frames, Accepted codec frame) →
      delivered codec arrivals = delivered codec ((streamOf codec frames).map .byte) →
        BetweenFrames codec frames arrivals) := by
  have hstream : delivered codec ((streamOf codec frames).map .byte) = received codec frames :=
    delivered_of_betweenFrames hw (bytesOf_map_byte _) (betweenFrames_bytes codec frames)
  rw [hstream]
  refine ⟨delivered_of_betweenFrames hw hb, fun hs hm ha hread before after h => Or.inl ?_⟩
  have hmsgs := received_messages hm ha
  obtain ⟨read, unread, hsplit, hlen⟩ := between_of_length_eq hs (Nat.lt_succ_self _) hread
    (by rw [hmsgs, hb]) h
  exact ⟨read, unread, hmsgs.symm.trans hsplit, hlen⟩

/-! ## Two messages of the wire format -/

/-- The wire codec, on requests for a snapshot and on goodbyes. -/
def requestCodec : FrameCodec Crypto.symbolic where
  encode frame :=
    match frame with
    | .message .requestSnapshot => .ok [3, 0, 0, 0, 2, 0, 0, 0]
    | .goodbye => .ok [4, 0, 0, 0]
    | _ => .error "unsupported"
  decode bytes :=
    if bytes = [3, 0, 0, 0, 2, 0, 0, 0] then .ok (.message .requestSnapshot)
    else if bytes = [4, 0, 0, 0] then .ok .goodbye
    else .error "unexpected variant"
  decode_encode {frame bytes} h := by
    split at h
    · cases h
      rfl
    · cases h
      rfl
    · cases h

theorem shortest_requestCodec : requestCodec.Shortest := by
  intro frame bytes bytes' hd he
  simp only [requestCodec] at hd
  split_ifs at hd with h₁ h₂
  · cases hd
    cases he
    rw [h₁]
  · cases hd
    cases he
    rw [h₂]

/-- A request is delivered with a timeout before it, and where it is delivered no timeout comes within
it. -/
theorem requestTimeout_delivers :
    delivered requestCodec (.timeout ::
        (streamOf requestCodec [.message .requestSnapshot]).map .byte) =
      delivered requestCodec ((streamOf requestCodec [.message .requestSnapshot]).map .byte) ∧
    ∀ arrivals, bytesOf arrivals = streamOf requestCodec [.message .requestSnapshot] →
      delivered requestCodec arrivals =
        delivered requestCodec ((streamOf requestCodec [.message .requestSnapshot]).map .byte) →
      BetweenFrames requestCodec [.message .requestSnapshot] arrivals := by
  have hw : ∀ frame ∈ [WireFrame.message .requestSnapshot], Written requestCodec frame := by
    intro frame hframe
    obtain rfl := List.mem_singleton.mp hframe
    exact ⟨_, rfl⟩
  refine ⟨(delivered_eq_iff requestCodec _ _ hw rfl).1 fun before after h => Or.inl ?_,
    fun arrivals hb => (delivered_eq_iff requestCodec _ arrivals hw hb).2 shortest_requestCodec
      (fun frame hframe => ⟨_, List.mem_singleton.mp hframe⟩) fun frame hframe => ?_⟩
  · refine ⟨[], _, rfl, ?_⟩
    rcases before with _ | ⟨x, before⟩
    · rfl
    · obtain ⟨-, htail⟩ := List.cons_eq_cons.mp h
      have hmem : Arrival.timeout ∈ before.append (.timeout :: after) := by simp
      exact absurd (htail ▸ hmem) (timeout_not_mem_map_byte _)
  · obtain rfl := List.mem_singleton.mp hframe
    unfold Accepted
    decide +kernel

/-- One that is read with a timeout behind its first byte is not delivered. -/
theorem splitPrefix_loses :
    delivered requestCodec (.byte 0 :: .timeout ::
        ((streamOf requestCodec [.message .requestSnapshot]).drop 1).map .byte) ≠
      delivered requestCodec ((streamOf requestCodec [.message .requestSnapshot]).map .byte) := by
  intro h
  have := congrArg List.length h
  revert this
  decide +kernel

/-- A request and a goodbye are read back. -/
theorem request_readBack :
    readFrames requestCodec 2 ((streamOf requestCodec [.message .requestSnapshot, .goodbye]).map
        .byte ++ []) = (.ok [.message .requestSnapshot, .goodbye], []) := by
  refine (readFrames_streamOf_iff requestCodec [.message .requestSnapshot, .goodbye] ?_).mpr ?_ []
  · intro frame hframe
    rcases List.mem_pair.mp hframe with rfl | rfl <;> exact ⟨_, rfl⟩
  · decide +kernel

open Persistence.SessionStore in
/-- The wire codec, on the messages with the insert of a track. -/
noncomputable def trackCodec : FrameCodec Crypto.symbolic where
  encode frame :=
    match frame with
    | .message (.operation op) =>
      match namedTrackCodec.encode op with
      | some bytes => .ok ([3, 0, 0, 0, 0, 0, 0, 0] ++ bytes)
      | none => .error "unsupported"
    | _ => .error "unsupported"
  decode bytes :=
    if bytes.take 8 = [3, 0, 0, 0, 0, 0, 0, 0] then
      match namedTrackCodec.decode (bytes.drop 8) with
      | some op => .ok (.message (.operation op))
      | none => .error "unexpected end of file"
    else .error "unexpected variant"
  decode_encode {frame bytes} h := by
    split at h
    · split at h
      · rename_i op payload he
        cases h
        simp [namedTrackCodec.decode_encode he]
      · cases h
    · cases h

open Persistence.SessionStore in
/-- A track whose name has 64 MiB is written and not read. -/
theorem longTrack_refused :
    Written trackCodec (.message (.operation (namedTrack maxFrameBytes))) ∧
      readFrames trackCodec 1 ((streamOf trackCodec
          [.message (.operation (namedTrack maxFrameBytes))]).map .byte ++ []) ≠
        (.ok [.message (.operation (namedTrack maxFrameBytes))], []) := by
  have henc : trackCodec.encode (.message (.operation (namedTrack maxFrameBytes))) =
      .ok ([3, 0, 0, 0, 0, 0, 0, 0] ++ namedTrackBytes maxFrameBytes) := by
    simp only [trackCodec, encode_namedTrack]
  have hlen : ([3, 0, 0, 0, 0, 0, 0, 0] ++ namedTrackBytes maxFrameBytes).length =
      98 + maxFrameBytes := by
    rw [List.length_append, length_namedTrackBytes]
    simp only [List.length_cons, List.length_nil]
    omega
  have hw : Written trackCodec (.message (.operation (namedTrack maxFrameBytes))) := by
    have hfits : ¬2 ^ 32 ≤ ([3, 0, 0, 0, 0, 0, 0, 0] ++ namedTrackBytes maxFrameBytes).length := by
      rw [hlen, maxFrameBytes]
      omega
    unfold Written
    simp only [writeFrame, henc, if_neg hfits]
    exact ⟨_, rfl⟩
  refine ⟨hw, ?_⟩
  obtain ⟨payload, he, -, hb⟩ := hw.wireBytes_eq
  have hpayload : payload = [3, 0, 0, 0, 0, 0, 0, 0] ++ namedTrackBytes maxFrameBytes :=
    Except.ok.inj (he.symm.trans henc)
  have hlong : ¬Accepted trackCodec (.message (.operation (namedTrack maxFrameBytes))) := by
    unfold Accepted
    rw [hb, List.length_append, length_beU32, hpayload, hlen]
    omega
  intro h
  rw [streamOf_cons, ← List.take_append_drop 4 (wireBytes _ _), List.append_assoc,
    List.map_append, List.append_assoc] at h
  obtain ⟨text, ht⟩ := readFrame_tooLong hw hlong
    (((wireBytes trackCodec (.message (.operation (namedTrack maxFrameBytes)))).drop 4 ++
      streamOf trackCodec []).map .byte ++ [])
  simp only [readFrames, ht] at h
  cases h

end TcpTransport

end AvSync
