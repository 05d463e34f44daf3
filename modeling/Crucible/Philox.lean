import Mathlib.Data.Finite.Prod
import Mathlib.Data.Fintype.EquivFin

/-! # Counter-based random streams

Philox turns a counter and a key into four words, in ten rounds.  A round multiplies two of the
words by odd constants and mixes the high halves of the products into the other two, so it can be
undone.  The key of an operation is a fold over the bytes of three numbers.
-/
namespace Crucible.Philox
open Function

abbrev Ctr := BitVec 32 × BitVec 32 × BitVec 32 × BitVec 32

abbrev Key := BitVec 32 × BitVec 32

def m0 : BitVec 32 := 0xD2511F53

def m1 : BitVec 32 := 0xCD9E8D57

def mulhi (a b : BitVec 32) : BitVec 32 := ((a.setWidth 64 * b.setWidth 64) >>> 32).setWidth 32

/-- The counter after one pass of the loop. -/
def round (key : Key) : Ctr → Ctr
  | (c0, c1, c2, c3) =>
    (mulhi m1 c2 ^^^ c1 ^^^ key.1, c2 * m1, mulhi m0 c0 ^^^ c3 ^^^ key.2, c0 * m0)

/-- The key after one pass of the loop. -/
def bumpKey (key : Key) : Key := (key.1 + 0x9E3779B9, key.2 + 0xBB67AE85)

def rounds : Nat → Key → Ctr → Ctr
  | 0, _ => id
  | n + 1, key => rounds n (bumpKey key) ∘ round key

def generate (ctr : Ctr) (key : Key) : Ctr := rounds 10 key ctr

/-- The low and the high half of a word. -/
def halves (x : BitVec 64) : Key := (x.setWidth 32, (x >>> 32).setWidth 32)

/-- `generate`, for an offset. -/
def generateAt (offset key : BitVec 64) : Ctr :=
  generate ((halves offset).1, (halves offset).2, 0, 0) (halves key)

theorem eq_of_mul_eq {w : Nat} {m n x y : BitVec w} (hinv : m * n = 1#w) (h : x * m = y * m) :
    x = y := by
  have hmul := congrArg (· * n) h
  simpa only [BitVec.mul_assoc, hinv, BitVec.mul_one] using hmul

theorem round_injective (key : Key) : Injective (round key) := by
  rintro ⟨c0, c1, c2, c3⟩ ⟨c0', c1', c2', c3'⟩ h
  simp only [round, Prod.mk.injEq] at h
  obtain ⟨hleft, hlo1, hright, hlo0⟩ := h
  obtain rfl := eq_of_mul_eq (n := 0x6D7CAE67) (by decide) hlo1
  obtain rfl := eq_of_mul_eq (n := 0x991A7CDB) (by decide) hlo0
  rw [BitVec.xor_left_inj, BitVec.xor_right_inj] at hleft hright
  rw [hleft, hright]

theorem rounds_bijective (n : Nat) (key : Key) : Bijective (rounds n key) := by
  have : Finite (BitVec 32) := .of_injective BitVec.toFin fun _ _ => BitVec.toFin_inj.mp
  induction n generalizing key with
  | zero => exact bijective_id
  | succ n ih => exact (ih _).comp (Finite.injective_iff_bijective.mp (round_injective key))

theorem halves_injective : Injective halves := by
  intro x y h
  obtain ⟨hlo, hhi⟩ := Prod.mk.inj h
  have hlo := congrArg BitVec.toNat hlo
  have hhi := congrArg BitVec.toNat hhi
  simp only [BitVec.toNat_setWidth, BitVec.toNat_ushiftRight, Nat.shiftRight_eq_div_pow] at hlo hhi
  exact BitVec.eq_of_toNat_eq (by omega)

theorem generate_bijective (key : Key) : Bijective fun ctr => generate ctr key := by
  have heq : (fun ctr => generate ctr key) = rounds 10 key := by
    funext ctr
    rw [generate]
  rw [heq]
  exact rounds_bijective 10 key

/-- **Philox is a permutation for every key**, so the blocks of two offsets differ. -/
theorem generate_permutes (key : BitVec 64) : (Bijective fun ctr => generate ctr (halves key)) ∧
    Injective fun offset => generateAt offset key := by
  refine ⟨generate_bijective _, fun x y h => halves_injective ?_⟩
  simp only [generateAt] at h
  have hwords := (generate_bijective (halves key)).1 h
  simp only [Prod.mk.injEq, and_true] at hwords
  exact Prod.ext hwords.1 hwords.2

/-! ### Keys -/

/-- The byte at `i`. -/
def byteAt (v : BitVec 64) (i : Nat) : BitVec 64 := (v >>> (i * 8)) &&& 0xFF

/-- The loop of `fnv_mix_` over the first `n` bytes. -/
def fnvBytes (h v : BitVec 64) : Nat → BitVec 64
  | 0 => h
  | n + 1 => (fnvBytes h v n ^^^ byteAt v n) * 0x100000001b3

def fnvMix (h v : BitVec 64) : BitVec 64 := fnvBytes h v 8

/-- `op_key_bytes_`, which `op_key_det` returns. -/
def opKey (masterCounter : BitVec 64) (opIndex : BitVec 32) (contentHash : BitVec 64) :
    BitVec 64 :=
  fnvMix (fnvMix (fnvMix 0xcbf29ce484222325 masterCounter) (opIndex.setWidth 64)) contentHash

variable {h h' v v' : BitVec 64} {n : Nat}

theorem xor_eq_of_fnvBytes (heq : fnvBytes h v (n + 1) = fnvBytes h' v' (n + 1)) :
    fnvBytes h v n ^^^ byteAt v n = fnvBytes h' v' n ^^^ byteAt v' n :=
  eq_of_mul_eq (n := 0xce965057aff6957b) (by decide) heq

theorem fnvBytes_inj {k : Nat} (hbytes : ∀ i < k, byteAt v (n + i) = byteAt v' (n + i))
    (heq : fnvBytes h v (n + k) = fnvBytes h' v' (n + k)) : fnvBytes h v n = fnvBytes h' v' n := by
  induction k with
  | zero => exact heq
  | succ k ih =>
    have hxor : fnvBytes h v (n + k) ^^^ byteAt v (n + k) = _ := xor_eq_of_fnvBytes heq
    rw [hbytes k k.lt_succ_self, BitVec.xor_left_inj] at hxor
    exact ih (fun i hi => hbytes i (hi.trans k.lt_succ_self)) hxor

theorem fnvMix_inj (heq : fnvMix h v = fnvMix h' v) : h = h' :=
  fnvBytes_inj (n := 0) (k := 8) (fun _ _ => rfl) heq

theorem toNat_byteAt (v : BitVec 64) (i : Nat) :
    (byteAt v i).toNat = v.toNat / 2 ^ (i * 8) % 256 := by
  rw [byteAt, BitVec.toNat_and, BitVec.toNat_ushiftRight, Nat.shiftRight_eq_div_pow]
  exact Nat.and_two_pow_sub_one_eq_mod _ 8

theorem xor_byte (h v : BitVec 64) (i : Nat) :
    (h ^^^ byteAt v i).toNat / 256 = h.toNat / 256 := by
  have hdiv := Nat.xor_div_two_pow (a := h.toNat) (b := (byteAt v i).toNat) (n := 8)
  rw [BitVec.toNat_xor, hdiv, toNat_byteAt, Nat.div_eq_of_lt (Nat.mod_lt _ (by decide)),
    Nat.xor_zero]

theorem sub_of_low {p q r s : Nat} (hp : p / 256 = r * 1099511628211 % 2 ^ 64 / 256)
    (hq : q / 256 = s * 1099511628211 % 2 ^ 64 / 256) :
    ∃ e k : Int, (-510 ≤ e ∧ e ≤ 510) ∧
      (p - q : Int) = (r - s) * 1099511628211 + e + 2 ^ 64 * k := by
  have hr := Nat.div_add_mod (r * 1099511628211) (2 ^ 64)
  have hs := Nat.div_add_mod (s * 1099511628211) (2 ^ 64)
  generalize r * 1099511628211 % 2 ^ 64 = r', r * 1099511628211 / 2 ^ 64 = k at hp hr
  generalize s * 1099511628211 % 2 ^ 64 = s', s * 1099511628211 / 2 ^ 64 = l at hq hs
  refine ⟨p - r' - (q - s'), l - k, ?_, ?_⟩ <;> omega

/-- The prime is `2 ^ 40 + 435`, so small multiples of its powers do not cancel. -/
theorem difference_zero {d d' d'' e e' e'' k k' k'' : Int} (hd : -255 ≤ d ∧ d ≤ 255)
    (he : -510 ≤ e ∧ e ≤ 510) (he' : -510 ≤ e' ∧ e' ≤ 510) (he'' : -510 ≤ e'' ∧ e'' ≤ 510)
    (h : d' = d * 1099511628211 + e + 2 ^ 64 * k) (h' : d'' = d' * 1099511628211 + e' + 2 ^ 64 * k')
    (h'' : 0 = d'' * 1099511628211 + e'' + 2 ^ 64 * k'') : d = 0 := by
  obtain ⟨x, hx⟩ : ∃ x, x = 189225 * d + 435 * e + e' := ⟨_, rfl⟩
  have hlow : 435 * x + e'' = 0 := by omega
  have hhigh : (435 * (870 * d + e) + x) % 2 ^ 24 = 0 := by omega
  have hsmall : x = -1 ∨ x = 0 ∨ x = 1 := by omega
  have hnone : 870 * d + e = 0 := by
    clear h h' h'' hlow hx
    rcases hsmall with rfl | rfl | rfl <;> omega
  omega

/-- How far two states are apart once a byte is mixed in. -/
def apart (h v v' : BitVec 64) (n : Nat) : Int :=
  (fnvBytes h v n ^^^ byteAt v n).toNat - (fnvBytes h v' n ^^^ byteAt v' n).toNat

theorem apart_succ (h v v' : BitVec 64) (n : Nat) : ∃ e k : Int, (-510 ≤ e ∧ e ≤ 510) ∧
    apart h v v' (n + 1) = apart h v v' n * 1099511628211 + e + 2 ^ 64 * k := by
  have hstep : ∀ v : BitVec 64, (fnvBytes h v (n + 1) ^^^ byteAt v (n + 1)).toNat / 256 =
      (fnvBytes h v n ^^^ byteAt v n).toNat * 1099511628211 % 2 ^ 64 / 256 := by
    intro v
    rw [xor_byte, fnvBytes, BitVec.toNat_mul]
    rfl
  exact sub_of_low (hstep v) (hstep v')

/-- **A difference in the first of four bytes is never undone.** -/
theorem byteAt_eq (hsame : fnvBytes h v n = fnvBytes h v' n)
    (heq : fnvBytes h v (n + 4) = fnvBytes h v' (n + 4)) : byteAt v n = byteAt v' n := by
  obtain ⟨e, k, he, hd⟩ := apart_succ h v v' n
  obtain ⟨e', k', he', hd'⟩ := apart_succ h v v' (n + 1)
  obtain ⟨e'', k'', he'', hd''⟩ := apart_succ h v v' (n + 2)
  have hlast : apart h v v' (n + 3) = 0 := by
    rw [apart, xor_eq_of_fnvBytes heq, sub_self]
  have hfirst : -255 ≤ apart h v v' n ∧ apart h v v' n ≤ 255 := by
    have hx := xor_byte (fnvBytes h v n) v n
    have hy := xor_byte (fnvBytes h v n) v' n
    rw [apart, ← hsame]
    omega
  rw [hlast] at hd''
  have hzero := difference_zero hfirst he he' he'' hd hd' hd''
  rw [apart, ← hsame, sub_eq_zero, Int.natCast_inj] at hzero
  exact (BitVec.xor_right_inj _).mp (BitVec.eq_of_toNat_eq hzero)

theorem eq_of_fnvMix (hhigh : v >>> 32 = v' >>> 32) (heq : fnvMix h v = fnvMix h v') : v = v' := by
  have hupper : ∀ i, byteAt v (4 + i) = byteAt v' (4 + i) := by
    intro i
    rw [byteAt, byteAt, Nat.add_mul, BitVec.shiftRight_add, BitVec.shiftRight_add, hhigh]
  have hend : ∀ n ≤ 4, fnvBytes h v (n + 4) = fnvBytes h v' (n + 4) := by
    intro n hn
    refine fnvBytes_inj (k := 4 - n) (fun i _ => ?_) ?_
    · rw [Nat.add_comm n, Nat.add_assoc, hupper]
    · rw [show n + 4 + (4 - n) = 8 by omega]
      exact heq
  have hlower : ∀ n ≤ 4, fnvBytes h v n = fnvBytes h v' n ∧ ∀ i < n, byteAt v i = byteAt v' i := by
    intro n hn
    induction n with
    | zero => exact ⟨rfl, nofun⟩
    | succ n ih =>
      obtain ⟨hsame, hbytes⟩ := ih (by omega)
      have hbyte := byteAt_eq hsame (hend n (by omega))
      refine ⟨by rw [fnvBytes, fnvBytes, hsame, hbyte], fun i hi => ?_⟩
      rcases Nat.lt_succ_iff_lt_or_eq.mp hi with hlt | rfl
      · exact hbytes i hlt
      · exact hbyte
  have hbyte : ∀ i < 4, v.toNat / 2 ^ (i * 8) % 256 = v'.toNat / 2 ^ (i * 8) % 256 := by
    intro i hi
    rw [← toNat_byteAt, ← toNat_byteAt, (hlower 4 le_rfl).2 i hi]
  have hhalf := congrArg BitVec.toNat hhigh
  rw [BitVec.toNat_ushiftRight, BitVec.toNat_ushiftRight, Nat.shiftRight_eq_div_pow,
    Nat.shiftRight_eq_div_pow] at hhalf
  have h0 := hbyte 0 (by decide)
  have h1 := hbyte 1 (by decide)
  have h2 := hbyte 2 (by decide)
  have h3 := hbyte 3 (by decide)
  exact BitVec.eq_of_toNat_eq (by omega)

/-- **The streams of an iteration have different keys**: an operation's index and the low half of
the counter decide the key. -/
theorem opKey_distinct (contentHash : BitVec 64) :
    (∀ masterCounter, Injective fun opIndex => opKey masterCounter opIndex contentHash) ∧
    ∀ opIndex, ∀ masterCounter masterCounter' : BitVec 64, masterCounter ≠ masterCounter' →
      masterCounter >>> 32 = masterCounter' >>> 32 →
      opKey masterCounter opIndex contentHash ≠ opKey masterCounter' opIndex contentHash := by
  refine ⟨fun masterCounter i i' h => ?_, fun opIndex m m' hne hhigh h => ?_⟩
  · have hzero : ∀ i : BitVec 32, (i.setWidth 64) >>> 32 = 0#64 := by
      intro i
      have hlt := i.isLt
      apply BitVec.eq_of_toNat_eq
      simp only [BitVec.toNat_ushiftRight, BitVec.toNat_setWidth, Nat.shiftRight_eq_div_pow,
        BitVec.toNat_zero]
      omega
    have hwide := eq_of_fnvMix ((hzero i).trans (hzero i').symm) (fnvMix_inj h)
    simpa using congrArg (BitVec.setWidth 32) hwide
  · exact hne (eq_of_fnvMix hhigh (fnvMix_inj (fnvMix_inj h)))

end Crucible.Philox
