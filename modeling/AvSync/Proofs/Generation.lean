import AvSync.Generation

/-!
# When generated ids differ

The mixer is injective, so two ids are equal exactly when the words that are mixed are. The
readings of the clock and the counter share the bits of these words from bit 18 on, and a clock
that has run on may undo what the counter has changed (`Process.generateAll_nodup_iff`).
-/

namespace AvSync

open Mixing

theorem mix64_injective : Function.Injective mix64 := by
  have h₁ := xorShift_injective (k := 30) (by decide)
  have h₂ := mul_injective (m := 0xbf58476d1ce4e5b9) (i := 0x96de1b173f119089) (by decide)
  have h₃ := xorShift_injective (k := 27) (by decide)
  have h₄ := mul_injective (m := 0x94d049bb133111eb) (i := 0x319642b2d24d8ec3) (by decide)
  have h₅ := xorShift_injective (k := 31) (by decide)
  exact h₅.comp (h₄.comp (h₃.comp (h₂.comp h₁)))

/-- The word that is mixed. -/
def seed (pid : UInt32) (counter nanos : UInt64) : UInt64 :=
  nanos ^^^ rotateLeft pid.toUInt64 32 ^^^ rotateLeft (counter <<< 1) 17

theorem IdKind.generate_eq (kind : IdKind) (process : Process) (nanos : UInt64) :
    kind.generate process nanos = (mix64 (seed process.id process.peerCounter nanos),
      { process with peerCounter := process.peerCounter + 1 }) := by
  rcases kind with _ | _ | _ <;> rfl

/-- The process id cancels out. -/
theorem seed_eq_iff {pid : UInt32} {c d m n : UInt64} :
    seed pid c m = seed pid d n ↔ m ^^^ n = rotateLeft ((c ^^^ d) <<< 1) 17 := by
  rw [UInt64.shiftLeft_xor, rotateLeft_xor, ← UInt64.xor_eq_zero_iff]
  have hpid : seed pid c m ^^^ seed pid d n =
      m ^^^ n ^^^ (rotateLeft (c <<< 1) 17 ^^^ rotateLeft (d <<< 1) 17) ^^^
        (rotateLeft pid.toUInt64 32 ^^^ rotateLeft pid.toUInt64 32) := by
    simp only [seed]
    ac_rfl
  rw [hpid, UInt64.xor_self, UInt64.xor_zero, UInt64.xor_eq_zero_iff]

/-- The counter takes the bits from 18 on. -/
theorem toNat_rotateLeft_counter {i : ℕ} (hi : i < 2 ^ 46) :
    (rotateLeft (UInt64.ofNat i <<< 1) 17).toNat = i * 2 ^ 18 := by
  have hshift : (UInt64.ofNat i <<< 1).toNat = i * 2 := by
    rw [UInt64.toNat_shiftLeft, UInt64.toNat_ofNat', Nat.shiftLeft_eq]
    have h1 : UInt64.toNat 1 % 64 = 1 := rfl
    rw [h1]
    omega
  rw [toNat_rotateLeft (by omega) (by omega), hshift]
  omega

theorem ofNat_xor_ofNat {i j : ℕ} (hi : i < 2 ^ 46) (hj : j < 2 ^ 46) :
    UInt64.ofNat i ^^^ UInt64.ofNat j = UInt64.ofNat (i ^^^ j) := by
  have hij : i ^^^ j < 2 ^ 46 := Nat.xor_lt_two_pow hi hj
  refine UInt64.toNat_inj.mp ?_
  rw [UInt64.toNat_xor, UInt64.toNat_ofNat', UInt64.toNat_ofNat', UInt64.toNat_ofNat',
    Nat.mod_eq_of_lt (by omega), Nat.mod_eq_of_lt (by omega), Nat.mod_eq_of_lt (by omega)]

namespace Process

theorem generateAll_eq (pid : UInt32) (calls : List (IdKind × UInt64)) (n : ℕ) :
    generateAll ⟨pid, UInt64.ofNat n⟩ calls =
      calls.mapIdx fun i call => mix64 (seed pid (UInt64.ofNat (n + i)) call.2) := by
  induction calls generalizing n with
  | nil => rfl
  | cons call calls ih =>
    have hnext : UInt64.ofNat n + 1 = UInt64.ofNat (n + 1) := (UInt64.ofNat_add n 1).symm
    rw [generateAll, IdKind.generate_eq, List.mapIdx_cons]
    simp only [hnext, ih, Nat.add_zero, Nat.add_assoc, Nat.add_comm 1]

/-- The ids that a process generates, in fewer than `2 ^ 46` calls, are distinct exactly when no
two of its clock readings differ as the numbers of their calls do, 18 bits further up. -/
theorem generateAll_nodup_iff (pid : UInt32) (calls : List (IdKind × UInt64))
    (h : calls.length < 2 ^ 46) :
    (generateAll ⟨pid, 0⟩ calls).Nodup ↔
      ∀ (i j : ℕ) (hi : i < calls.length) (hj : j < calls.length), i < j →
        (calls[i].2 ^^^ calls[j].2).toNat ≠ (i ^^^ j) * 2 ^ 18 := by
  have heq := generateAll_eq pid calls 0
  simp only [Nat.zero_add] at heq
  rw [show (0 : UInt64) = UInt64.ofNat 0 from rfl, heq, List.Nodup, List.pairwise_iff_getElem]
  simp only [List.length_mapIdx, List.getElem_mapIdx]
  refine forall₅_congr fun i j hi hj hij => not_congr ?_
  have hi' : i < 2 ^ 46 := hi.trans h
  have hj' : j < 2 ^ 46 := hj.trans h
  rw [mix64_injective.eq_iff, seed_eq_iff, ofNat_xor_ofNat hi' hj', ← UInt64.toNat_inj,
    toNat_rotateLeft_counter (Nat.xor_lt_two_pow hi' hj')]

/-- Three calls within a microsecond. -/
theorem quickCalls_nodup :
    (generateAll ⟨4242, 0⟩ [(.peer, 1700000000000000000), (.clip, 1700000000000000100),
      (.track, 1700000000000000900)]).Nodup :=
  (generateAll_nodup_iff 4242 _ (by decide)).mpr <| by
    intro i j hi hj hij
    simp only [List.length_cons, List.length_nil] at hi hj
    interval_cases j <;> interval_cases i <;> decide +revert

/-- Two calls `2 ^ 18` nanoseconds apart. -/
theorem spacedCalls_collide :
    (1700000000000000000 : UInt64) ≤ 1700000000000262144 ∧
      ¬(generateAll ⟨4242, 0⟩ [(.clip, 1700000000000000000),
        (.clip, 1700000000000262144)]).Nodup := by
  decide +kernel

end Process

end AvSync
