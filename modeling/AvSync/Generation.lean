import AvSync.Lib.Mixing
import AvSync.Operation

/-!
# Generated ids

Peers, clips and tracks get their ids from one generator, which mixes the wall clock, the process
id and a counter of the process. The clock is read once in a call, and its value, in nanoseconds
since the epoch, is an argument of the call.
-/

namespace AvSync

open Mixing

/-- SplitMix64 finalizer -/
def mix64 (z : UInt64) : UInt64 :=
  let z := (z ^^^ (z >>> 30)) * 0xbf58476d1ce4e5b9
  let z := (z ^^^ (z >>> 27)) * 0x94d049bb133111eb
  z ^^^ (z >>> 31)

/-- A process, with `PEER_COUNTER`. -/
structure Process where
  id : UInt32
  peerCounter : UInt64

variable (process : Process) (nanos : UInt64)

def Process.rawGeneratedU64 : UInt64 × Process :=
  let counter := process.peerCounter
  let pid := process.id.toUInt64
  (mix64 (nanos ^^^ rotateLeft pid 32 ^^^ rotateLeft (counter <<< 1) 17),
    { process with peerCounter := counter + 1 })

/-- The same text once more, with the same counter. -/
def PeerId.generate : PeerId × Process :=
  let counter := process.peerCounter
  let pid := process.id.toUInt64
  (⟨mix64 (nanos ^^^ rotateLeft pid 32 ^^^ rotateLeft (counter <<< 1) 17)⟩,
    { process with peerCounter := counter + 1 })

def ClipId.generate : ClipId × Process :=
  (⟨(process.rawGeneratedU64 nanos).1⟩, (process.rawGeneratedU64 nanos).2)

def TrackId.generate : TrackId × Process :=
  (⟨(process.rawGeneratedU64 nanos).1⟩, (process.rawGeneratedU64 nanos).2)

/-- What an id is generated for. -/
inductive IdKind where
  | peer
  | clip
  | track

/-- The raw value of a generated id, and the process after the call. -/
def IdKind.generate : IdKind → UInt64 × Process
  | peer => ((PeerId.generate process nanos).1.raw, (PeerId.generate process nanos).2)
  | clip => ((ClipId.generate process nanos).1.raw, (ClipId.generate process nanos).2)
  | track => ((TrackId.generate process nanos).1.raw, (TrackId.generate process nanos).2)

/-- The ids a process generates in a sequence of calls, each with the reading of its clock. -/
def Process.generateAll (process : Process) : List (IdKind × UInt64) → List UInt64
  | [] => []
  | (kind, nanos) :: calls =>
    (kind.generate process nanos).1 :: (kind.generate process nanos).2.generateAll calls

end AvSync
