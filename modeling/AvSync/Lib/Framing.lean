import Mathlib.Data.List.Basic
import Mathlib.Tactic.Linarith

/-!
# Length-prefixed frames

A payload is framed by its length in four bytes, the most significant first. A stream is read frame
by frame until what is left is no complete frame (`payloads`): complete frames are read as they
were written, whatever follows them (`payloads_frames_append`), and a frame that is cut is no
complete frame (`splitFrame_cut`).
-/

namespace AvSync

namespace Framing

/-- The bytes of a `u32`, the most significant first. -/
def beU32 (n : ℕ) : List UInt8 :=
  [UInt8.ofNat (n / 2 ^ 24), UInt8.ofNat (n / 2 ^ 16), UInt8.ofNat (n / 2 ^ 8), UInt8.ofNat n]

/-- The `u32` with the given bytes. -/
def ofBeU32 (a b c d : UInt8) : ℕ :=
  a.toNat * 2 ^ 24 + b.toNat * 2 ^ 16 + c.toNat * 2 ^ 8 + d.toNat

/-- A payload behind its length, which is cut to 32 bits. -/
def frame (payload : List UInt8) : List UInt8 := beU32 payload.length ++ payload

/-- The first frame of a stream and what follows it, if the frame is complete. -/
def splitFrame : List UInt8 → Option (List UInt8 × List UInt8)
  | a :: b :: c :: d :: rest =>
    let n := ofBeU32 a b c d
    if n ≤ rest.length then some (rest.take n, rest.drop n) else none
  | _ => none

/-- The payloads of the first frames of a stream, at most `fuel` of them. -/
def scan : ℕ → List UInt8 → List (List UInt8)
  | 0, _ => []
  | fuel + 1, bytes =>
    match splitFrame bytes with
    | none => []
    | some (payload, rest) => payload :: scan fuel rest

/-- The payloads of the complete frames of a stream. A frame takes four bytes at least, so the
bound is not reached. -/
def payloads (bytes : List UInt8) : List (List UInt8) := scan bytes.length bytes

/-- The payloads one behind the other, framed. -/
def frames (l : List (List UInt8)) : List UInt8 := l.flatMap frame

variable {p q bytes rest : List UInt8} {l : List (List UInt8)}

theorem ofBeU32_beU32 {n : ℕ} (h : n < 2 ^ 32) :
    ofBeU32 (UInt8.ofNat (n / 2 ^ 24)) (UInt8.ofNat (n / 2 ^ 16)) (UInt8.ofNat (n / 2 ^ 8))
      (UInt8.ofNat n) = n := by
  simp only [ofBeU32, UInt8.toNat_ofNat']
  omega

@[simp] theorem length_frame (p : List UInt8) : (frame p).length = 4 + p.length := by
  simp only [frame, beU32, List.length_append, List.length_cons, List.length_nil]

@[simp] theorem frames_nil : frames [] = [] := rfl

@[simp] theorem frames_cons : frames (p :: l) = frame p ++ frames l := rfl

theorem splitFrame_frame_append (h : p.length < 2 ^ 32) (rest : List UInt8) :
    splitFrame (frame p ++ rest) = some (p, rest) := by
  simp only [frame, beU32, List.cons_append, List.nil_append, splitFrame, ofBeU32_beU32 h,
    List.length_append, Nat.le_add_right, if_true, List.take_left, List.drop_left]

/-- What is split off is a frame's worth. -/
theorem length_of_splitFrame (h : splitFrame bytes = some (p, rest)) :
    bytes.length = 4 + p.length + rest.length := by
  unfold splitFrame at h
  split at h
  · simp only [Option.ite_none_right_eq_some, Option.some.injEq, Prod.mk.injEq] at h
    obtain ⟨hle, rfl, rfl⟩ := h
    simp only [List.length_cons, List.length_take, List.length_drop]
    omega
  · cases h

/-- More fuel than bytes reads no more. -/
theorem scan_eq_of_le :
    ∀ {n m : ℕ} {bytes : List UInt8}, bytes.length ≤ n → n ≤ m → scan m bytes = scan n bytes
  | 0, m, bytes, hn, _ => by
    obtain rfl := List.length_eq_zero_iff.mp (Nat.le_zero.mp hn)
    rcases m with _ | m <;> rfl
  | n + 1, 0, _, _, hm => absurd hm (by omega)
  | n + 1, m + 1, bytes, hn, hm => by
    unfold scan
    rcases h : splitFrame bytes with _ | ⟨p, rest⟩
    · rfl
    · have hlen := length_of_splitFrame h
      exact congrArg (p :: ·) (scan_eq_of_le (by omega) (by omega))

theorem payloads_of_none (h : splitFrame bytes = none) : payloads bytes = [] := by
  unfold payloads
  rcases bytes.length with _ | n
  · rfl
  · simp only [scan, h]

theorem payloads_of_some (h : splitFrame bytes = some (p, rest)) :
    payloads bytes = p :: payloads rest := by
  have hlen := length_of_splitFrame h
  unfold payloads
  rw [show bytes.length = (3 + p.length + rest.length) + 1 by omega, scan, h]
  exact congrArg (p :: ·) (scan_eq_of_le le_rfl (by omega))

@[simp] theorem payloads_nil : payloads [] = [] := rfl

/-- Complete frames are read as they were written. -/
theorem payloads_frames_append :
    ∀ {l : List (List UInt8)}, (∀ p ∈ l, p.length < 2 ^ 32) → ∀ rest : List UInt8,
      payloads (frames l ++ rest) = l ++ payloads rest
  | [], _, _ => rfl
  | p :: l, h, rest => by
    obtain ⟨hp, hl⟩ := List.forall_mem_cons.mp h
    rw [frames_cons, List.append_assoc, payloads_of_some (splitFrame_frame_append hp _),
      payloads_frames_append hl, List.cons_append]

theorem payloads_frames (h : ∀ p ∈ l, p.length < 2 ^ 32) : payloads (frames l) = l := by
  have := payloads_frames_append h []
  rwa [List.append_nil, payloads_nil, List.append_nil] at this

/-- What is left of a frame that is cut is no frame. -/
theorem splitFrame_cut (h : p.length < 2 ^ 32) {k : ℕ} (hk : k < (frame p).length) :
    splitFrame ((frame p).take k) = none := by
  rw [length_frame] at hk
  simp only [frame, beU32, List.cons_append, List.nil_append]
  match k with
  | 0 | 1 | 2 | 3 => rfl
  | k + 4 =>
    simp only [List.take_succ_cons, splitFrame, ofBeU32_beU32 h, List.length_take]
    rw [if_neg (by omega)]

theorem length_of_mem_payloads :
    ∀ {n : ℕ} {bytes : List UInt8}, bytes.length ≤ n → p ∈ payloads bytes →
      4 + p.length ≤ bytes.length
  | 0, bytes, hn, h => by
    obtain rfl := List.length_eq_zero_iff.mp (Nat.le_zero.mp hn)
    exact absurd h List.not_mem_nil
  | n + 1, bytes, hn, h => by
    rcases hs : splitFrame bytes with _ | ⟨q, rest⟩
    · rw [payloads_of_none hs] at h
      exact absurd h List.not_mem_nil
    · have hlen := length_of_splitFrame hs
      rw [payloads_of_some hs] at h
      rcases List.mem_cons.mp h with rfl | h
      · omega
      · have := length_of_mem_payloads (n := n) (by omega) h
        omega

/-! ## Out of step -/

/-- The frame a reader finds in a cut frame with a long frame behind it: it reaches beyond the cut,
and it is shorter than the long one. -/
theorem length_splitFrame_cut (hp : p.length < 2 ^ 32 - 2 ^ 24) (hq : q.length = 2 ^ 32 - 1) {k : ℕ}
    (h0 : 0 < k) (hk : k < (frame p).length) {payload : List UInt8}
    (h : splitFrame ((frame p).take k ++ frame q) = some (payload, rest)) :
    payload.length < q.length ∧ k < 4 + payload.length := by
  rw [length_frame] at hk
  have hlen : ∀ {a b c d : UInt8} {tail : List UInt8},
      splitFrame (a :: b :: c :: d :: tail) = some (payload, rest) →
        payload.length = ofBeU32 a b c d := by
    intro a b c d tail he
    simp only [splitFrame, Option.ite_none_right_eq_some, Option.some.injEq, Prod.mk.injEq] at he
    obtain ⟨hle, rfl, -⟩ := he
    rw [List.length_take, Nat.min_eq_left hle]
  simp only [frame, beU32, List.cons_append, List.nil_append] at h
  match k with
  | 0 => omega
  | 1 | 2 | 3 =>
    have := hlen h
    simp only [ofBeU32, UInt8.toNat_ofNat'] at this
    omega
  | k + 4 =>
    simp only [List.take_succ_cons, List.cons_append] at h
    have := hlen h
    rw [ofBeU32_beU32 (by omega)] at this
    omega

end Framing

end AvSync
