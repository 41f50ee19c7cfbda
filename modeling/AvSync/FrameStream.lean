import AvSync.Lib.Framing
import AvSync.Wire

/-!
# Frames on a TCP stream

`write_frame`, `read_frame` and the reader loop of `Inner::register`. A reader sees bytes, and read
timeouts between any two of them; behind the last byte the stream has ended. The wire codec is a
parameter.
-/

namespace AvSync

open Framing

/-- The wire codec of the outermost frames: it decodes what it encoded. Failures are texts. -/
structure FrameCodec (C : Crypto) where
  encode : WireFrame C → Except String (List UInt8)
  decode : List UInt8 → Except String (WireFrame C)
  decode_encode : ∀ {f bytes}, encode f = .ok bytes → decode bytes = .ok f

/-- Nothing decodes to a frame that is shorter than its encoding. -/
def FrameCodec.Shortest {C : Crypto} (codec : FrameCodec C) : Prop :=
  ∀ {f bytes bytes'}, codec.decode bytes = .ok f → codec.encode f = .ok bytes' →
    bytes'.length ≤ bytes.length

namespace TcpTransport

/-- What a reader of the stream meets next. -/
inductive Arrival where
  | byte (b : UInt8)
  | timeout
  deriving DecidableEq

/-- The bytes among what arrives. -/
def bytesOf (arrivals : List Arrival) : List UInt8 :=
  arrivals.filterMap fun arrival =>
    match arrival with
    | .byte b => some b
    | .timeout => none

inductive IoErrorKind where
  | unexpectedEof
  | timedOut
  deriving DecidableEq

def IoErrorKind.display : IoErrorKind → String
  | .unexpectedEof => "failed to fill whole buffer"
  | .timedOut => "Resource temporarily unavailable (os error 11)"

/-- Largest accepted frame. -/
def maxFrameBytes : ℕ := 64 * 1024 * 1024

/-- Fills a buffer of `n` bytes. What it has read before an error is lost. -/
def readExact : ℕ → List Arrival → Except IoErrorKind (List UInt8) × List Arrival
  | 0, arrivals => (.ok [], arrivals)
  | _ + 1, [] => (.error .unexpectedEof, [])
  | _ + 1, .timeout :: rest => (.error .timedOut, rest)
  | n + 1, .byte b :: rest => ((readExact n rest).1.map (b :: ·), (readExact n rest).2)

/-- `u32::from_be_bytes` -/
def ofBeBuf : List UInt8 → ℕ
  | [a, b, c, d] => ofBeU32 a b c d
  | _ => 0

variable {C : Crypto} (codec : FrameCodec C)

def boundedDecode (bytes : List UInt8) (maxBytes : ℕ) : Except String (WireFrame C) :=
  if maxBytes < bytes.length then
    .error ("message of " ++ toString bytes.length ++ " bytes exceeds the " ++ toString maxBytes ++
      " byte limit")
  else codec.decode bytes

/-- What is put on the stream for a frame. -/
def writeFrame (frame : WireFrame C) : Except SyncError (List UInt8) :=
  match codec.encode frame with
  | .error text => .error (.serialization ("serialization error: " ++ text))
  | .ok bytes =>
    if 2 ^ 32 ≤ bytes.length then .error (.transport "frame too large")
    else .ok (beU32 bytes.length ++ bytes)

def readFrame (arrivals : List Arrival) :
    Except SyncError (Option (WireFrame C)) × List Arrival :=
  match readExact 4 arrivals with
  | (.error .unexpectedEof, rest) => (.ok none, rest)
  | (.error .timedOut, rest) => (.error .timeout, rest)
  | (.ok lenBuf, rest) =>
    let len := ofBeBuf lenBuf
    if maxFrameBytes < len then
      (.error (.transport ("frame of " ++ toString len ++ " bytes exceeds limit")), rest)
    else
      match readExact len rest with
      | (.error kind, rest) => (.error (.transport kind.display), rest)
      | (.ok buf, rest) =>
        match boundedDecode codec buf maxFrameBytes with
        | .error text => (.error (.serialization ("serialization error: " ++ text)), rest)
        | .ok frame => (.ok (some frame), rest)

/-- The messages that the reader of a connection hands to the inbox, in at most `fuel` rounds. -/
def readLoop : ℕ → List Arrival → List SyncMessage
  | 0, _ => []
  | fuel + 1, arrivals =>
    match readFrame codec arrivals with
    | (.ok (some (.message msg)), rest) => msg :: readLoop fuel rest
    | (.ok (some .goodbye), _) | (.ok none, _) => []
    | (.ok (some (.hello _ _ _)), rest) | (.ok (some (.challenge _)), rest)
    | (.ok (some (.challengeResponse _)), rest) => readLoop fuel rest
    | (.error .timeout, rest) => readLoop fuel rest
    | (.error _, _) => []

/-- What the reader delivers. A round takes one arrival at least, so the bound is not reached. -/
def delivered (arrivals : List Arrival) : List SyncMessage :=
  readLoop codec (arrivals.length + 1) arrivals

/-- Reads `n` frames, one after the other. -/
def readFrames : ℕ → List Arrival → Except SyncError (List (WireFrame C)) × List Arrival
  | 0, arrivals => (.ok [], arrivals)
  | n + 1, arrivals =>
    match readFrame codec arrivals with
    | (.error error, rest) => (.error error, rest)
    | (.ok none, rest) => (.error .disconnected, rest)
    | (.ok (some frame), rest) => ((readFrames n rest).1.map (frame :: ·), (readFrames n rest).2)

/-! ## Frames written and read -/

/-- The frame has been written. -/
def Written (frame : WireFrame C) : Prop := ∃ bytes, writeFrame codec frame = .ok bytes

/-- The bytes of one frame on the stream. -/
def wireBytes (frame : WireFrame C) : List UInt8 :=
  match writeFrame codec frame with
  | .ok bytes => bytes
  | .error _ => []

/-- The bytes of frames written one after the other. -/
def streamOf (frames : List (WireFrame C)) : List UInt8 := frames.flatMap (wireBytes codec)

/-- The encoding of the frame is within the reader's limit. -/
def Accepted (frame : WireFrame C) : Prop := (wireBytes codec frame).length ≤ 4 + maxFrameBytes

instance (frame : WireFrame C) : Decidable (Accepted codec frame) :=
  inferInstanceAs (Decidable (_ ≤ _))

/-- How many bytes of the stream a reader takes that meets no timeout: it stops after the length of
a frame that is too long, and after a goodbye. -/
def readLength : List (WireFrame C) → ℕ
  | [] => 0
  | frame :: frames =>
    if ¬Accepted codec frame then 4
    else
      match frame with
      | .goodbye => (wireBytes codec .goodbye).length
      | frame => (wireBytes codec frame).length + readLength frames

/-- Every timeout falls between two frames, or behind what the reader takes. -/
def BetweenFrames (frames : List (WireFrame C)) (arrivals : List Arrival) : Prop :=
  ∀ before after, arrivals = before ++ .timeout :: after →
    (∃ read unread, frames = read ++ unread ∧
      (bytesOf before).length = (streamOf codec read).length) ∨
    readLength codec frames ≤ (bytesOf before).length

end TcpTransport

end AvSync
