import Mathlib

/-!
# Mixing machine words

The steps of a bit mixer lose nothing: a word xored with its own upper bits (`xorShift_injective`),
and a word multiplied with one that has an inverse (`mul_injective`). Rotating the bits of two words
rotates their difference (`rotateLeft_xor`).
-/

namespace AvSync

namespace Mixing

/-- `u64::rotate_left` -/
def rotateLeft (z : UInt64) (n : ℕ) : UInt64 := ⟨z.toBitVec.rotateLeft n⟩

/-- A word that is its own upper part is zero. -/
theorem eq_zero_of_shiftRight_eq {d k : UInt64} (hk : 0 < k.toNat % 64) (h : d >>> k = d) :
    d = 0 := by
  have hnat := congrArg UInt64.toNat h
  rw [UInt64.toNat_shiftRight, Nat.shiftRight_eq_div_pow] at hnat
  refine UInt64.toNat_inj.mp (Nat.eq_zero_of_not_pos fun hpos => ?_)
  exact absurd hnat (Nat.div_lt_self hpos (Nat.one_lt_two_pow hk.ne')).ne

theorem xorShift_injective {k : UInt64} (hk : 0 < k.toNat % 64) :
    Function.Injective fun z : UInt64 => z ^^^ (z >>> k) := by
  intro a b hab
  have hab : a ^^^ (a >>> k) = b ^^^ (b >>> k) := hab
  refine UInt64.xor_eq_zero_iff.mp (eq_zero_of_shiftRight_eq hk ?_)
  calc (a ^^^ b) >>> k
      = (a ^^^ (a ^^^ (a >>> k))) ^^^ (b >>> k) := by
        rw [UInt64.shiftRight_xor, ← UInt64.xor_assoc a a, UInt64.xor_self, UInt64.zero_xor]
    _ = a ^^^ ((b ^^^ (b >>> k)) ^^^ (b >>> k)) := by rw [hab, UInt64.xor_assoc]
    _ = a ^^^ b := by rw [UInt64.xor_assoc, UInt64.xor_self, UInt64.xor_zero]

theorem mul_injective {m i : UInt64} (h : m * i = 1) :
    Function.Injective fun z : UInt64 => z * m := by
  intro a b hab
  have hab : a * m * i = b * m * i := congrArg (· * i) hab
  rwa [UInt64.mul_assoc, UInt64.mul_assoc, h, UInt64.mul_one, UInt64.mul_one] at hab

theorem rotateLeft_xor (a b : UInt64) (n : ℕ) :
    rotateLeft (a ^^^ b) n = rotateLeft a n ^^^ rotateLeft b n := by
  refine UInt64.toBitVec_inj.mp (BitVec.eq_of_getLsbD_eq fun i hi => ?_)
  simp only [rotateLeft, UInt64.toBitVec_xor, BitVec.getLsbD_xor, BitVec.getLsbD_rotateLeft, hi,
    decide_true, Bool.true_and]
  rcases decide (i < n % 64) with _ | _ <;> rfl

/-- Where the rotated bits do not come around, a rotation is a multiplication. -/
theorem toNat_rotateLeft {z : UInt64} {n : ℕ} (hn : n < 64) (h : z.toNat < 2 ^ (64 - n)) :
    (rotateLeft z n).toNat = z.toNat * 2 ^ n := by
  have hfits : z.toNat * 2 ^ n < 2 ^ 64 := by
    calc z.toNat * 2 ^ n < 2 ^ (64 - n) * 2 ^ n := Nat.mul_lt_mul_of_pos_right h (by positivity)
      _ = 2 ^ 64 := by rw [← pow_add, Nat.sub_add_cancel hn.le]
  have hmod : n % 64 = n := Nat.mod_eq_of_lt hn
  change (z.toBitVec.rotateLeft n).toNat = _
  rw [BitVec.toNat_rotateLeft, hmod, UInt64.toNat_toBitVec, Nat.shiftRight_eq_div_pow,
    Nat.div_eq_of_lt h, Nat.or_zero, Nat.shiftLeft_eq, Nat.mod_eq_of_lt hfits]

end Mixing

end AvSync
