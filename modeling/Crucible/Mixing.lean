import Crucible.Types
import Mathlib.Data.Nat.ModEq

/-! # The mixing primitive

`fmix64` is the finalizer that every fold of the runtime ends a step with, and
`combine_ids` is the accumulator step of a fold.  Each step of `fmix64` is undone by
one of the same kind, so every word is the image of another.
-/
namespace Crucible

/-- The golden-ratio constant that seeds and displaces the folds. -/
def goldenRatio : Nat := 0x9E3779B97F4A7C15

/-- `detail::fmix64`. -/
def fmix64 (k : Nat) : Nat :=
  let k := k ^^^ (k >>> 33)
  let k := wrap64 (k * 0xff51afd7ed558ccd)
  let k := k ^^^ (k >>> 33)
  let k := wrap64 (k * 0xc4ceb9fe1a85ec53)
  k ^^^ (k >>> 33)

/-- `detail::combine_ids`. -/
def combineIds (a b : Nat) : Nat :=
  fmix64 (a ^^^ wrap64 (b + goldenRatio + wrap64 (a <<< 6) + a >>> 2))

/-- The inverse of `fmix64` on 64-bit words. -/
def unmix64 (k : Nat) : Nat :=
  let k := k ^^^ (k >>> 33)
  let k := wrap64 (k * 0x9cb4b2f8129337db)
  let k := k ^^^ (k >>> 33)
  let k := wrap64 (k * 0x4f74430c22a54005)
  k ^^^ (k >>> 33)

theorem xorShift_lt {k : Nat} (h : k < 2 ^ 64) : k ^^^ (k >>> 33) < 2 ^ 64 := by
  refine Nat.xor_lt_two_pow h (lt_of_le_of_lt ?_ h)
  exact Nat.shiftRight_le k 33

theorem xorShift_self {k : Nat} (h : k < 2 ^ 64) :
    (k ^^^ (k >>> 33)) ^^^ ((k ^^^ (k >>> 33)) >>> 33) = k := by
  have hzero : k >>> 33 >>> 33 = 0 := by
    rw [← Nat.shiftRight_add, Nat.shiftRight_eq_div_pow]
    exact Nat.div_eq_of_lt (h.trans (by decide))
  rw [Nat.shiftRight_xor_distrib, hzero, Nat.xor_zero, Nat.xor_assoc, Nat.xor_self, Nat.xor_zero]

theorem wrap64_mul_inverse {k c c' : Nat} (h : k < 2 ^ 64) (hunit : wrap64 (c' * c) = 1) :
    wrap64 (wrap64 (k * c') * c) = k := by
  have hmul : wrap64 (k * c') * c ≡ k * c' * c [MOD 2 ^ 64] := (Nat.mod_modEq _ _).mul_right c
  have hone : k * (c' * c) ≡ k * 1 [MOD 2 ^ 64] := Nat.ModEq.mul_left k hunit
  rw [mul_assoc] at hmul
  rw [mul_one] at hone
  exact Eq.trans (hmul.trans hone) (wrap64_of_lt h)

theorem fmix64_unmix64 {k : Nat} (h : k < 2 ^ 64) : fmix64 (unmix64 k) = k := by
  simp only [fmix64, unmix64]
  rw [xorShift_self (wrap64_lt _), wrap64_mul_inverse (xorShift_lt (wrap64_lt _)) (by decide),
    xorShift_self (wrap64_lt _), wrap64_mul_inverse (xorShift_lt h) (by decide), xorShift_self h]

end Crucible
