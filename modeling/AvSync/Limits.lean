import AvSync.Base
import AvSync.Lib.Machine

/-!
# Admission control

The connection caps and the frame rate limit that the relay and the signaling server share. An
admission holds the lock on the per-address counts from start to end and is one step. A lease is
dropped in two: the global counter first, without the lock, and then the count of the address.

Time is in seconds and tokens are numbers of an ordered field, so refilling is exact. The clock is
read once in a call, and its value is an argument of the call.
-/

namespace AvSync

/-- The connection caps of a server. -/
structure ServerLimits where
  maxConnections : UInt64
  maxConnectionsPerIp : UInt64

/-- An address, as its bits. -/
inductive IpAddr where
  | v4 (bits : UInt32)
  | v6 (high low : UInt64)

namespace IpAddr

def key : IpAddr → UInt64 ×ₗ UInt64 ×ₗ UInt64
  | v4 bits => toLex (0, toLex (0, bits.toUInt64))
  | v6 high low => toLex (1, toLex (high, low))

theorem key_injective : Function.Injective key := by
  rintro (a | ⟨a, b⟩) (c | ⟨c, d⟩) h <;> simp [key] at h ⊢
  · exact UInt32.toUInt64_inj.mp h
  · exact h

instance : LinearOrder IpAddr := LinearOrder.lift' key key_injective

end IpAddr

/-! ## Connections -/

/-- Tracks live connections globally and for each address. -/
structure ConnectionGuard where
  limits : ServerLimits
  total : UInt64
  perIp : BTreeMap IpAddr UInt64

/-- An admitted connection. -/
structure ConnectionLease where
  ip : IpAddr
  closed : Bool
  deriving DecidableEq

namespace ConnectionGuard

def new (limits : ServerLimits) : ConnectionGuard := ⟨limits, 0, ∅⟩

variable (guard : ConnectionGuard) (ip : IpAddr)

/-- The count of an address. -/
def countOf : UInt64 := guard.perIp[ip]?.getD 0

/-- Admits a connection, unless one of the caps is reached. -/
def tryAdmit : Option ConnectionLease × ConnectionGuard :=
  if guard.limits.maxConnections ≤ guard.total then (none, guard)
  else if guard.limits.maxConnectionsPerIp ≤ guard.countOf ip then (none, guard)
  else
    (some ⟨ip, false⟩, { guard with
      total := guard.total + 1
      perIp := guard.perIp.insert ip (guard.countOf ip + 1) })

/-- The first half of a drop: `fetch_sub`, which wraps. -/
def releaseTotal : ConnectionGuard := { guard with total := guard.total - 1 }

/-- The second half of a drop. -/
def releaseIp : ConnectionGuard :=
  match guard.perIp[ip]? with
  | none => guard
  | some count =>
    let count := saturatingSub count 1
    { guard with
      perIp := if count = 0 then guard.perIp.erase ip else guard.perIp.insert ip count }

end ConnectionGuard

/-- A guard, and the leases that have not been dropped to the end: those that are closed have
released the global counter. -/
structure Admissions where
  guard : ConnectionGuard
  leases : Multiset ConnectionLease

namespace Admissions

/-- A server that starts. -/
def new (limits : ServerLimits) : Admissions := ⟨.new limits, 0⟩

/-- The steps of the connection tasks. Leases of one address are alike. -/
inductive Event where
  | tryAdmit (ip : IpAddr)
  | dropTotal (ip : IpAddr)
  | dropIp (ip : IpAddr)

variable (s : Admissions)

def step : Event → Admissions
  | .tryAdmit ip =>
    match s.guard.tryAdmit ip with
    | (none, guard) => { s with guard := guard }
    | (some lease, guard) => ⟨guard, lease ::ₘ s.leases⟩
  | .dropTotal ip =>
    ⟨s.guard.releaseTotal, ⟨ip, true⟩ ::ₘ s.leases.erase ⟨ip, false⟩⟩
  | .dropIp ip => ⟨s.guard.releaseIp ip, s.leases.erase ⟨ip, true⟩⟩

/-- A drop needs a lease at that point of it. -/
def Enabled : Event → Prop
  | .tryAdmit _ => True
  | .dropTotal ip => ⟨ip, false⟩ ∈ s.leases
  | .dropIp ip => ⟨ip, true⟩ ∈ s.leases

instance : ∀ e, Decidable (s.Enabled e)
  | .tryAdmit _ => inferInstanceAs (Decidable True)
  | .dropTotal ip => inferInstanceAs (Decidable (⟨ip, false⟩ ∈ s.leases))
  | .dropIp ip => inferInstanceAs (Decidable (⟨ip, true⟩ ∈ s.leases))

/-- The connection tasks of a server, which take their steps in any order. -/
def machine : Machine Admissions Event := ⟨step, Enabled⟩

/-- No drop is half done. -/
def AllOpen : Prop := ∀ lease ∈ s.leases, lease.closed = false

end Admissions

/-! ## Rates -/

section

variable (K : Type) [Field K] [LinearOrder K]

/-- A token bucket over the frames of one connection. -/
structure TokenBucket where
  tokens : K
  capacity : K
  refillPerSec : K
  lastRefill : K

end

namespace TokenBucket

variable {K : Type} [Field K] [LinearOrder K]

/-- A bucket that starts full. -/
def new (capacity refillPerSec : UInt32) (now : K) : TokenBucket K :=
  ⟨capacity.toNat, capacity.toNat, refillPerSec.toNat, now⟩

/-- Refills by the elapsed time and takes one token, if there is one. -/
def tryTake (bucket : TokenBucket K) (now : K) : Bool × TokenBucket K :=
  let elapsed := max (now - bucket.lastRefill) 0
  let tokens := min (bucket.tokens + elapsed * bucket.refillPerSec) bucket.capacity
  if 1 ≤ tokens then (true, { bucket with tokens := tokens - 1, lastRefill := now })
  else (false, { bucket with tokens := tokens, lastRefill := now })

/-- The calls made at given times, each with its time and its answer. -/
def calls (bucket : TokenBucket K) : List K → List (K × Bool)
  | [] => []
  | now :: times => (now, (bucket.tryTake now).1) :: (bucket.tryTake now).2.calls times

/-- The number of accepted calls between `s` and `t`. -/
def accepted (bucket : TokenBucket K) (times : List K) (s t : K) : ℕ :=
  (bucket.calls times).countP fun c => c.2 ∧ s ≤ c.1 ∧ c.1 ≤ t

end TokenBucket

end AvSync
