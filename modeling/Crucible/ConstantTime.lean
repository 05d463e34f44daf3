import Mathlib.Data.Nat.Digits.Lemmas

/-! # Comparisons without a branch

`less`, `is_zero` and `eq` compute an order, a zero test and an equality with bitwise operations
and shifts alone.  The order comes from the borrow of a subtraction, rebuilt from the operands and
the difference.
-/
namespace Crucible.ConstantTime
open List

section Words
variable {w : Nat} (a b x : BitVec (w + 1))

def isZero : BitVec (w + 1) := ((0#(w + 1) - x) ||| x) >>> w ^^^ 1#(w + 1)

def less : BitVec (w + 1) :=
  let diff := a - b
  let lt := (~~~a &&& b) ||| ((~~~a ||| b) &&& diff)
  lt >>> w &&& 1#(w + 1)

variable {x} in
theorem msb_iff : x.msb = true ↔ 2 ^ w ≤ x.toNat := by
  rw [BitVec.msb_eq_decide, decide_eq_true_eq, Nat.add_sub_cancel]

theorem shift_eq : x >>> w = if x.msb then 1#(w + 1) else 0#(w + 1) := by
  have hlt := x.isLt
  rw [Nat.pow_succ] at hlt
  apply BitVec.eq_of_toNat_eq
  rw [BitVec.toNat_ushiftRight, Nat.shiftRight_eq_div_pow]
  split_ifs with hmsb
  · rw [msb_iff] at hmsb
    rw [Nat.div_eq_of_lt_le (k := 1) (by omega) (by omega), BitVec.toNat_ofNat,
      Nat.mod_eq_of_lt (Nat.one_lt_two_pow w.succ_ne_zero)]
  · rw [msb_iff, not_le] at hmsb
    rw [Nat.div_eq_of_lt hmsb, BitVec.toNat_zero]

theorem isZero_eq : isZero x = if x = 0#(w + 1) then 1#(w + 1) else 0#(w + 1) := by
  have hlt := x.isLt
  have hpos := Nat.two_pow_pos w
  have hmsb : ((0#(w + 1) - x) ||| x).msb = true ↔ x ≠ 0#(w + 1) := by
    rw [BitVec.msb_or, Bool.or_eq_true, msb_iff, msb_iff, BitVec.toNat_sub, BitVec.toNat_zero,
      Nat.add_zero, ne_eq, ← BitVec.toNat_inj, BitVec.toNat_zero]
    rw [Nat.pow_succ] at hlt ⊢
    rcases Nat.eq_zero_or_pos x.toNat with hx | hx
    · rw [hx, Nat.sub_zero, Nat.mod_self]
      omega
    · rw [Nat.mod_eq_of_lt (by omega)]
      omega
  rw [isZero, shift_eq]
  simp only [hmsb]
  by_cases hx : x = 0#(w + 1) <;> simp [hx]

theorem less_eq : less a b = if a < b then 1#(w + 1) else 0#(w + 1) := by
  have ha := a.isLt
  have hb := b.isLt
  have hmsb : ((~~~a &&& b) ||| ((~~~a ||| b) &&& (a - b))).msb = true ↔ a < b := by
    simp only [BitVec.msb_or, BitVec.msb_and, BitVec.msb_not, Bool.or_eq_true, Bool.and_eq_true,
      Bool.not_eq_true', ← Bool.not_eq_true, msb_iff, BitVec.toNat_sub, BitVec.lt_def,
      Nat.zero_lt_succ, decide_true, true_and]
    rw [Nat.pow_succ] at ha hb ⊢
    rcases Nat.lt_or_ge a.toNat b.toNat with hab | hab
    · rw [Nat.mod_eq_of_lt (by omega)]
      omega
    · rw [show 2 ^ w * 2 - b.toNat + a.toNat = a.toNat - b.toNat + 2 ^ w * 2 by omega,
        Nat.add_mod_right, Nat.mod_eq_of_lt (by omega)]
      omega
  rw [less, shift_eq]
  simp only [hmsb]
  by_cases hlt : a < b <;> simp [hlt]

end Words

/-! ### Arrays -/

/-- `eq`, for a length that is known at run time. -/
def eqDynamic (n : Nat) (a b : Nat → BitVec 8) : Bool :=
  isZero ((range n).foldl (fun acc i => acc ||| (a i ^^^ b i)) 0#8) != 0#8

/-- The word of eight bytes at index `k`, least significant byte first. -/
def wordAt (a : Nat → BitVec 8) (k : Nat) : BitVec 64 :=
  .ofNat 64 (Nat.ofDigits 256 ((range 8).map fun i => (a (k * 8 + i)).toNat))

/-- `eq`, for a length that is part of the type. -/
def eqStatic (isConsteval : Bool) (n : Nat) (a b : Nat → BitVec 8) : Bool :=
  let acc : BitVec 64 :=
    if isConsteval then
      (range n).foldl (fun acc i => acc ||| (a i ^^^ b i).setWidth 64) 0#64
    else
      let words := n / 8
      (range (n % 8)).foldl
        (fun acc i => acc ||| (a (words * 8 + i) ^^^ b (words * 8 + i)).setWidth 64)
        ((range words).foldl (fun acc k => acc ||| (wordAt a k ^^^ wordAt b k)) 0#64)
  isZero acc != 0#64

theorem foldl_or_eq_zero {w : Nat} {f : Nat → BitVec w} {l : List Nat} {acc : BitVec w} :
    l.foldl (fun acc i => acc ||| f i) acc = 0#w ↔ acc = 0#w ∧ ∀ i ∈ l, f i = 0#w := by
  induction l generalizing acc with
  | nil => simp
  | cons i l ih => rw [foldl_cons, ih, BitVec.or_eq_zero_iff, forall_mem_cons, and_assoc]

theorem isZero_ne_zero {w : Nat} {x : BitVec (w + 1)} :
    (isZero x != 0#(w + 1)) = true ↔ x = 0#(w + 1) := by
  rw [isZero_eq, bne_iff_ne]
  by_cases hx : x = 0#(w + 1) <;> simp [hx]

theorem xor_bytes {x y : BitVec 8} : (x ^^^ y).setWidth 64 = 0#64 ↔ x = y := by
  rw [← BitVec.toNat_inj, BitVec.toNat_setWidth, BitVec.toNat_zero, Nat.mod_eq_of_lt (by omega),
    ← BitVec.xor_eq_zero_iff, ← BitVec.toNat_inj, BitVec.toNat_zero]

variable {n : Nat} {a b : Nat → BitVec 8}

theorem wordAt_eq {k : Nat} :
    wordAt a k = wordAt b k ↔ ∀ i < 8, a (k * 8 + i) = b (k * 8 + i) := by
  have hlt : ∀ a : Nat → BitVec 8,
      ∀ d ∈ (range 8).map fun i => (a (k * 8 + i)).toNat, d < 256 := by
    simp only [mem_map]
    rintro a _ ⟨i, -, rfl⟩
    exact (a _).isLt
  have hval : ∀ a : Nat → BitVec 8, (wordAt a k).toNat =
      Nat.ofDigits 256 ((range 8).map fun i => (a (k * 8 + i)).toNat) := by
    intro a
    have hword := Nat.ofDigits_lt_base_pow_length (by decide) (hlt a)
    rw [length_map, length_range] at hword
    rw [wordAt, BitVec.toNat_ofNat]
    exact Nat.mod_eq_of_lt (hword.trans_eq (by norm_num))
  rw [← BitVec.toNat_inj, hval, hval]
  constructor
  · intro h i hi
    have hdigits := Nat.ofDigits_inj_of_len_eq (by decide) (by simp) (hlt a) (hlt b) h
    exact BitVec.eq_of_toNat_eq (map_inj_left.mp hdigits i (mem_range.mpr hi))
  · intro h
    rw [map_inj_left.mpr fun i hi => congrArg BitVec.toNat (h i (mem_range.mp hi))]

/-- **The branch-free primitives compute what they claim.** -/
theorem primitives_exact :
    (∀ (w : Nat) (a b : BitVec (w + 1)), less a b = if a < b then 1#(w + 1) else 0#(w + 1)) ∧
    (∀ (w : Nat) (a : BitVec (w + 1)), isZero a = if a = 0#(w + 1) then 1#(w + 1) else 0#(w + 1)) ∧
    ∀ (n : Nat) (a b : Nat → BitVec 8), (eqDynamic n a b = true ↔ ∀ i < n, a i = b i) ∧
      ∀ isConsteval, eqStatic isConsteval n a b = true ↔ ∀ i < n, a i = b i := by
  refine ⟨fun w => less_eq, fun w => isZero_eq, fun n a b => ⟨?_, fun isConsteval => ?_⟩⟩
  · rw [eqDynamic, isZero_ne_zero, foldl_or_eq_zero]
    simp
  · cases isConsteval with
    | true =>
      rw [eqStatic, if_pos rfl, isZero_ne_zero, foldl_or_eq_zero]
      simp only [xor_bytes, mem_range, true_and]
    | false =>
      rw [eqStatic, if_neg Bool.false_ne_true, isZero_ne_zero, foldl_or_eq_zero, foldl_or_eq_zero]
      simp only [xor_bytes, BitVec.xor_eq_zero_iff, wordAt_eq, mem_range, true_and]
      refine ⟨fun ⟨hwords, htail⟩ i hi => ?_,
        fun h => ⟨fun k hk i hi => h _ (by omega), fun i hi => h _ (by omega)⟩⟩
      rcases Nat.lt_or_ge (i / 8) (n / 8) with hlt | hge
      · have := hwords _ hlt (i % 8) (Nat.mod_lt _ (by decide))
        rwa [Nat.div_add_mod'] at this
      · have := htail (i - n / 8 * 8) (by omega)
        rwa [Nat.add_sub_cancel' (by omega)] at this

end Crucible.ConstantTime
