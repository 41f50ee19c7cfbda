import AvSync.Lib.Metering
import AvSync.Limits

/-!
# Caps and rates hold

In every state of the connection tasks the global counter counts the leases that are open, and the
count of an address its leases that have not been dropped to the end (`Admissions.Counts`). Both
are below their caps, and they agree with the leases when no drop is half done
(`Admissions.run_within_caps`). A token bucket pays for the calls it accepts
(`TokenBucket.covered_payments`), so what it accepts within a window is bounded
(`TokenBucket.accepted_le`).
-/

namespace AvSync

namespace ConnectionGuard

variable {guard : ConnectionGuard} {ip a : IpAddr}

theorem countOf_insert (total n : UInt64) : countOf
    { guard with total := total, perIp := guard.perIp.insert ip n } a =
      if ip = a then n else guard.countOf a := by
  rw [countOf, BTreeMap.getElem?_insert_if]
  split_ifs <;> rfl

/-- The cleared entry of an address counts as zero. -/
theorem countOf_releaseIp : (guard.releaseIp ip).countOf a =
    if ip = a then saturatingSub (guard.countOf ip) 1 else guard.countOf a := by
  unfold releaseIp
  rcases hcount : guard.perIp[ip]? with _ | count
  · have hzero : guard.countOf ip = 0 := by rw [countOf, hcount, Option.getD_none]
    split_ifs with ha
    · rw [← ha, hzero]
      decide
    · rfl
  · have hval : guard.countOf ip = count := by rw [countOf, hcount, Option.getD_some]
    rw [hval]
    by_cases hlast : saturatingSub count 1 = 0
    · simp only [hlast, if_true, countOf, BTreeMap.getElem?_erase_if]
      split_ifs <;> rfl
    · simp only [hlast, if_false, countOf, BTreeMap.getElem?_insert_if]
      split_ifs <;> rfl

theorem releaseIp_total : (guard.releaseIp ip).total = guard.total := by
  unfold releaseIp
  split <;> rfl

theorem releaseIp_limits : (guard.releaseIp ip).limits = guard.limits := by
  unfold releaseIp
  split <;> rfl

theorem tryAdmit_cases (guard : ConnectionGuard) (ip : IpAddr) :
    guard.tryAdmit ip = (none, guard) ∨
      guard.total < guard.limits.maxConnections ∧
        guard.countOf ip < guard.limits.maxConnectionsPerIp ∧
        guard.tryAdmit ip = (some ⟨ip, false⟩, { guard with
          total := guard.total + 1
          perIp := guard.perIp.insert ip (guard.countOf ip + 1) }) := by
  unfold tryAdmit
  split_ifs with htotal hip
  · exact .inl rfl
  · exact .inl rfl
  · exact .inr ⟨not_le.mp htotal, not_le.mp hip, rfl⟩

end ConnectionGuard

theorem toNat_add_one {a b : UInt64} (h : a < b) : (a + 1).toNat = a.toNat + 1 := by
  rw [UInt64.lt_iff_toNat_lt] at h
  have := b.toNat_lt
  rw [UInt64.toNat_add, UInt64.toNat_one]
  omega

theorem add_one_le {a b : UInt64} (h : a < b) : a + 1 ≤ b := by
  rw [UInt64.le_iff_toNat_le, toNat_add_one h]
  exact UInt64.lt_iff_toNat_lt.mp h

theorem toNat_sub_one {a : UInt64} (h : 0 < a.toNat) : (a - 1).toNat = a.toNat - 1 :=
  UInt64.toNat_sub_of_le _ _ (UInt64.le_iff_toNat_le.mpr h)

/-! ## Connections -/

namespace Admissions

open ConnectionGuard

variable {limits : ServerLimits} {s : Admissions} {ip : IpAddr}

/-- The counts are those of the leases, and within the caps. -/
structure Counts (limits : ServerLimits) (s : Admissions) : Prop where
  config : s.guard.limits = limits
  total : s.guard.total.toNat = s.leases.countP fun lease => lease.closed = false
  perIp : ∀ ip, (s.guard.countOf ip).toNat = s.leases.countP fun lease => lease.ip = ip
  totalCap : s.guard.total ≤ limits.maxConnections
  ipCap : ∀ ip, s.guard.countOf ip ≤ limits.maxConnectionsPerIp

theorem counts_new (limits : ServerLimits) : Counts limits (new limits) where
  config := rfl
  total := rfl
  perIp _ := rfl
  totalCap := UInt64.le_iff_toNat_le.mpr (Nat.zero_le _)
  ipCap _ := UInt64.le_iff_toNat_le.mpr (Nat.zero_le _)

theorem Counts.tryAdmit (h : Counts limits s) (ip : IpAddr) :
    Counts limits (s.step (.tryAdmit ip)) := by
  rcases s.guard.tryAdmit_cases ip with hnone | ⟨htotal, hip, hsome⟩
  · simp only [step, hnone]
    exact ⟨h.config, h.total, h.perIp, h.totalCap, h.ipCap⟩
  · simp only [step, hsome]
    refine ⟨h.config, ?_, fun a => ?_, ?_, fun a => ?_⟩
    · rw [toNat_add_one htotal, h.total, Multiset.countP_cons, if_pos rfl]
    · rw [countOf_insert, Multiset.countP_cons, ← h.perIp]
      split_ifs with ha
      · rw [toNat_add_one hip, ha]
      · rfl
    · exact h.config ▸ add_one_le htotal
    · rw [countOf_insert]
      split_ifs
      · exact h.config ▸ add_one_le hip
      · exact h.ipCap a

theorem Counts.dropTotal (h : Counts limits s) (hopen : ⟨ip, false⟩ ∈ s.leases) :
    Counts limits (s.step (.dropTotal ip)) := by
  obtain ⟨rest, hrest⟩ := Multiset.exists_cons_of_mem hopen
  have htotal := h.total
  rw [hrest, Multiset.countP_cons, if_pos rfl] at htotal
  have hsub := toNat_sub_one (a := s.guard.total) (by omega)
  simp only [step, releaseTotal, hrest, Multiset.erase_cons_head]
  refine ⟨h.config, ?_, fun a => ?_, ?_, h.ipCap⟩
  · rw [hsub, Multiset.countP_cons, if_neg (by simp), htotal, Nat.add_sub_cancel, Nat.add_zero]
  · -- the closed lease is still one of its address
    refine (h.perIp a).trans ?_
    rw [hrest, Multiset.countP_cons, Multiset.countP_cons]
  · refine le_trans (UInt64.le_iff_toNat_le.mpr ?_) h.totalCap
    rw [hsub]
    exact Nat.sub_le _ _

theorem Counts.dropIp (h : Counts limits s) (hclosed : ⟨ip, true⟩ ∈ s.leases) :
    Counts limits (s.step (.dropIp ip)) := by
  obtain ⟨rest, hrest⟩ := Multiset.exists_cons_of_mem hclosed
  simp only [step, hrest, Multiset.erase_cons_head]
  refine ⟨releaseIp_limits.trans h.config, ?_, fun a => ?_, ?_, fun a => ?_⟩
  · rw [releaseIp_total, h.total, hrest, Multiset.countP_cons, if_neg (by simp), Nat.add_zero]
  · have hcount := h.perIp a
    rw [hrest, Multiset.countP_cons] at hcount
    rw [countOf_releaseIp]
    split_ifs at hcount ⊢ with ha
    · rw [toNat_saturatingSub, ha, hcount]
      exact Nat.add_sub_cancel _ _
    · exact hcount
  · rw [releaseIp_total]
    exact h.totalCap
  · rw [countOf_releaseIp]
    split_ifs with ha
    · refine le_trans (UInt64.le_iff_toNat_le.mpr ?_) (h.ipCap a)
      rw [toNat_saturatingSub, ha]
      exact Nat.sub_le _ _
    · exact h.ipCap a

theorem Counts.step (h : Counts limits s) {e : Event} (he : s.Enabled e) :
    Counts limits (s.step e) := by
  cases e with
  | tryAdmit ip => exact h.tryAdmit ip
  | dropTotal ip => exact h.dropTotal he
  | dropIp ip => exact h.dropIp he

theorem counts_run {events : List Event} (h : machine.Valid (new limits) events) :
    Counts limits (machine.run (new limits) events) :=
  Machine.Along.run_inv (fun _ _ _ hs he => hs.step he) h (counts_new limits)

/-- In every interleaving of admissions and halves of drops the caps hold, a drop finds the global
counter above zero, and when no drop is half done the counts are those of the leases. -/
theorem run_within_caps (limits : ServerLimits) (events : List Event)
    (h : machine.Valid (new limits) events) :
    let s := machine.run (new limits) events
    s.guard.total ≤ limits.maxConnections ∧
      (∀ ip, s.Enabled (.dropTotal ip) → 0 < s.guard.total) ∧
      (∀ ip, s.guard.countOf ip ≤ limits.maxConnectionsPerIp) ∧
      (s.AllOpen → s.guard.total.toNat = Multiset.card s.leases ∧
        ∀ ip, (s.guard.countOf ip).toNat = s.leases.countP fun lease => lease.ip = ip) := by
  intro s
  have hs : Counts limits s := counts_run h
  refine ⟨hs.totalCap, fun ip hip => ?_, hs.ipCap, fun hopen => ⟨?_, hs.perIp⟩⟩
  · rw [UInt64.lt_iff_toNat_lt, hs.total]
    exact Multiset.countP_pos.mpr ⟨_, hip, rfl⟩
  · rw [hs.total, Multiset.countP_eq_card]
    exact hopen

/-- Two connections of one address, of which the first is half dropped when another is admitted. -/
def halfDropped : List Event :=
  [.tryAdmit (.v4 1), .tryAdmit (.v4 1), .tryAdmit (.v4 1), .dropTotal (.v4 1), .tryAdmit (.v4 2),
    .dropIp (.v4 1)]

theorem halfDropped_within_caps :
    let s := machine.run (new ⟨2, 2⟩) halfDropped
    s.guard.total ≤ 2 ∧
      (∀ ip, s.Enabled (.dropTotal ip) → 0 < s.guard.total) ∧
      (∀ ip, s.guard.countOf ip ≤ 2) ∧
      (s.AllOpen → s.guard.total.toNat = Multiset.card s.leases ∧
        ∀ ip, (s.guard.countOf ip).toNat = s.leases.countP fun lease => lease.ip = ip) :=
  run_within_caps ⟨2, 2⟩ halfDropped <| by
    refine ⟨trivial, trivial, trivial, ?_, trivial, ?_, trivial⟩
    · change Enabled _ (.dropTotal (.v4 1))
      decide +kernel
    · change Enabled _ (.dropIp (.v4 1))
      decide +kernel

end Admissions

/-! ## Rates -/

namespace TokenBucket

open Metering

variable {K : Type} [Field K] [LinearOrder K] {bucket : TokenBucket K}

/-- The payments that calls make: a token for each that is accepted. -/
def payments (calls : List (K × Bool)) : List (K × K) :=
  calls.map fun c => (c.1, if c.2 then 1 else 0)

theorem map_fst_payments (bucket : TokenBucket K) (times : List K) :
    (payments (bucket.calls times)).map Prod.fst = times := by
  induction times generalizing bucket with
  | nil => rfl
  | cons now times ih =>
    exact congrArg (now :: ·) (ih (bucket.tryTake now).2)

/-- The accepted calls of a window are what is paid in it. -/
theorem cast_accepted (bucket : TokenBucket K) (times : List K) (s t : K) :
    (bucket.accepted times s t : K) = spent s t (payments (bucket.calls times)) := by
  unfold accepted
  induction bucket.calls times with
  | nil => exact Nat.cast_zero
  | cons c calls ih =>
    have hcons : payments (c :: calls) = (c.1, if c.2 then 1 else 0) :: payments calls := rfl
    rw [hcons, List.countP_cons, Nat.cast_add, ih]
    by_cases hw : s ≤ c.1 ∧ c.1 ≤ t
    · rw [spent_cons_of_mem hw.1 hw.2]
      rcases c with ⟨now, _ | _⟩
      · simp
      · simp [hw.1, hw.2, add_comm]
    · rw [spent_cons_of_not_mem hw]
      simp [hw]

/-- What a call leaves in the bucket, together with the token it takes, is what the bucket has
earned by then, up to the capacity. -/
theorem tryTake_balance (bucket : TokenBucket K) (now : K) :
    (bucket.tryTake now).2.tokens + (if (bucket.tryTake now).1 then 1 else 0) =
      min (bucket.tokens + max (now - bucket.lastRefill) 0 * bucket.refillPerSec)
        bucket.capacity := by
  unfold tryTake
  dsimp only
  split
  · rw [if_pos rfl]
    exact sub_add_cancel _ _
  · rw [if_neg Bool.false_ne_true]
    exact add_zero _

theorem tryTake_settings (bucket : TokenBucket K) (now : K) :
    (bucket.tryTake now).2.capacity = bucket.capacity ∧
      (bucket.tryTake now).2.refillPerSec = bucket.refillPerSec ∧
      (bucket.tryTake now).2.lastRefill = now := by
  unfold tryTake
  dsimp only
  split_ifs <;> exact ⟨rfl, rfl, rfl⟩

/-- A bucket holds no debt, and it does not leak. -/
structure Sound (bucket : TokenBucket K) : Prop where
  tokens : 0 ≤ bucket.tokens
  capacity : 0 ≤ bucket.capacity
  refill : 0 ≤ bucket.refillPerSec

variable [IsStrictOrderedRing K]

theorem sound_new (capacity refillPerSec : UInt32) (now : K) :
    (new capacity refillPerSec now).Sound :=
  ⟨Nat.cast_nonneg _, Nat.cast_nonneg _, Nat.cast_nonneg _⟩

theorem Sound.tryTake (h : bucket.Sound) (now : K) : (bucket.tryTake now).2.Sound := by
  have hearned : 0 ≤ bucket.tokens + max (now - bucket.lastRefill) 0 * bucket.refillPerSec :=
    add_nonneg h.tokens (mul_nonneg (le_max_right _ _) h.refill)
  unfold TokenBucket.tryTake
  dsimp only
  split_ifs with hone
  · exact ⟨sub_nonneg.mpr hone, h.capacity, h.refill⟩
  · exact ⟨le_min hearned h.capacity, h.capacity, h.refill⟩

/-- The bucket covers the calls it accepts. -/
theorem Sound.covered_payments (h : bucket.Sound) (times : List K) :
    Covered bucket.capacity bucket.refillPerSec bucket.tokens bucket.lastRefill
      (payments (bucket.calls times)) := by
  induction times generalizing bucket with
  | nil => trivial
  | cons now times ih =>
    have hnext := h.tryTake now
    have htail := ih hnext
    obtain ⟨hcapacity, hrefill, hlast⟩ := tryTake_settings bucket now
    rw [hcapacity, hrefill, hlast] at htail
    have hbalance := tryTake_balance bucket now
    exact ⟨_, hnext.tokens, hbalance.trans_le (min_le_right _ _),
      hbalance.trans_le (min_le_left _ _), htail⟩

/-- Of calls at times that do not decrease, a new bucket accepts within a window no more than its
capacity and what it is refilled with in the window. -/
theorem accepted_le (capacity refillPerSec : UInt32) (start : K) (times : List K)
    (htimes : times.Pairwise (· ≤ ·)) {s t : K} (hst : s ≤ t) :
    ((new capacity refillPerSec start).accepted times s t : K) ≤
      capacity.toNat + refillPerSec.toNat * (t - s) := by
  have hsound := sound_new capacity refillPerSec start
  rw [cast_accepted]
  refine spent_le hsound.capacity hsound.refill hst (hsound.covered_payments times) ?_
  rwa [map_fst_payments]

/-- A burst of five calls, and one that comes a twentieth of a second later. -/
theorem burst_accepted_le :
    ((new 4 1 (0 : ℚ)).accepted [0, 0, 0, 0, 0, 1 / 20] 0 (1 / 20) : ℚ) ≤
      (4 : UInt32).toNat + (1 : UInt32).toNat * (1 / 20 - 0) :=
  accepted_le 4 1 0 [0, 0, 0, 0, 0, 1 / 20] (by decide +kernel) (by norm_num)

end TokenBucket

end AvSync
