import Mathlib.Data.Nat.ModEq

/-! # Polynomial prefix hashes

The hash of the first `n` keys of a sequence is built key by key, modulo `m`.  The hash
of a stretch of keys is a difference of two prefix hashes (`prefixHash_add`), so it
depends on the keys of the stretch only.
-/
namespace Crucible

/-- The hash of the first `n` keys. -/
def prefixHash (base m : Nat) (key : Nat → Nat) : Nat → Nat
  | 0 => 0
  | n + 1 => (prefixHash base m key n * base + key n) % m

variable {base m : Nat} {key key' : Nat → Nat}

theorem prefixHash_lt (hm : 0 < m) (base : Nat) (key : Nat → Nat) (n : Nat) :
    prefixHash base m key n < m := by
  cases n with
  | zero => exact hm
  | succ n => exact Nat.mod_lt _ hm

theorem prefixHash_congr {n : Nat} (h : ∀ i, i < n → key i = key' i) :
    prefixHash base m key n = prefixHash base m key' n := by
  induction n with
  | zero => rfl
  | succ n ih =>
    rw [prefixHash, prefixHash, ih fun i hi => h i (Nat.lt_succ_of_lt hi), h n (Nat.lt_succ_self n)]

/-- The hash of the `len` keys from `start` on. -/
def stretchHash (base m : Nat) (key : Nat → Nat) (start len : Nat) : Nat :=
  prefixHash base m (fun i => key (start + i)) len

/-- **A prefix is an earlier prefix and the stretch after it.** -/
theorem prefixHash_add (base m : Nat) (key : Nat → Nat) (start len : Nat) :
    prefixHash base m key (start + len) ≡
      prefixHash base m key start * base ^ len + stretchHash base m key start len [MOD m] := by
  induction len with
  | zero =>
    rw [pow_zero, mul_one]
    exact Nat.ModEq.refl _
  | succ len ih =>
    have hstep : prefixHash base m key (start + len) * base + key (start + len) ≡
        prefixHash base m key start * base ^ (len + 1) +
          (stretchHash base m key start len * base + key (start + len)) [MOD m] := by
      refine ((ih.mul_right base).add_right (key (start + len))).trans ?_
      rw [add_mul, mul_assoc, ← pow_succ, add_assoc]
    exact (Nat.mod_modEq _ _).trans (hstep.trans ((Nat.mod_modEq _ _).symm.add_left _))

/-- The sum of the first `n` powers of the base. -/
def geometric (base : Nat) : Nat → Nat
  | 0 => 0
  | n + 1 => geometric base n * base + 1

theorem prefixHash_shift (base m : Nat) (key : Nat → Nat) (c n : Nat) :
    prefixHash base m (fun i => c + key i) n ≡
      c * geometric base n + prefixHash base m key n [MOD m] := by
  induction n with
  | zero => exact Nat.ModEq.refl _
  | succ n ih =>
    have hstep : prefixHash base m (fun i => c + key i) n * base + (c + key n) ≡
        c * geometric base (n + 1) + (prefixHash base m key n * base + key n) [MOD m] := by
      refine ((ih.mul_right base).add_right (c + key n)).trans ?_
      have hsum : (c * geometric base n + prefixHash base m key n) * base + (c + key n) =
          c * geometric base (n + 1) + (prefixHash base m key n * base + key n) := by
        rw [geometric, mul_add, add_mul, mul_assoc]
        omega
      rw [hsum]
    exact (Nat.mod_modEq _ _).trans (hstep.trans ((Nat.mod_modEq _ _).symm.add_left _))

end Crucible
