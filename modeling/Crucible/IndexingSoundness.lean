import Crucible.DivisionSoundness
import Mathlib.Algebra.BigOperators.Group.List.Lemmas
import Mathlib.Algebra.BigOperators.Ring.List

/-! # Modular indexing and remainders

`modular_indexing` returns the quotient rounded down, reduced by the modulus, if the divisor and
the modulus are positive and no constant is at the edge of the type.  `mod` returns the
remainder of a division that truncates, `python_mod` that of one that rounds down.
-/
namespace Crucible
open List
open Saturating

/-! ### Arithmetic -/

variable {a k m : Int}

theorem fmod_add_mul (hm : 0 < m) : (a + k * m).fmod m = a.fmod m := by
  rw [Int.fmod_eq_emod_of_nonneg _ (Int.le_of_lt hm),
    Int.fmod_eq_emod_of_nonneg _ (Int.le_of_lt hm),
    Int.add_mul_emod_self_right]

theorem index_add_mul {d : Int} (hd : 0 < d) (hm : 0 < m) :
    ((a + k * (m * d)).fdiv d).fmod m = (a.fdiv d).fmod m := by
  rw [← Int.mul_assoc, Int.add_mul_fdiv_right _ _ (Int.ne_of_gt hd), fmod_add_mul hm]

theorem fmod_eq_of_pos (a : Int) (hm : 0 < m) :
    a.fmod m = if a.tmod m < 0 then a.tmod m + m else a.tmod m := by
  obtain ⟨hlow, hhigh⟩ := tmod_abs_lt a hm
  have hmul := Int.mul_tdiv_add_tmod a m
  rw [Int.fmod_eq_emod_of_nonneg _ (Int.le_of_lt hm)]
  split_ifs with hneg
  · refine ((Int.ediv_emod_unique (q := a.tdiv m - 1) hm).mpr ⟨?_, by omega, by omega⟩).2
    rw [Int.mul_sub]
    omega
  · exact ((Int.ediv_emod_unique (q := a.tdiv m) hm).mpr ⟨by omega, by omega, hhigh⟩).2

theorem tmod_between (a m : Int) :
    (0 ≤ a → 0 ≤ a.tmod m ∧ a.tmod m ≤ a) ∧ (a ≤ 0 → a ≤ a.tmod m ∧ a.tmod m ≤ 0) := by
  have hle : (a.tmod m).natAbs ≤ a.natAbs := by
    rw [Int.natAbs_tmod]
    exact Nat.mod_le _ _
  refine ⟨fun hpos => ?_, fun hneg => ?_⟩
  · have := Int.tmod_nonneg m hpos
    omega
  · have := Int.tmod_nonneg m (show 0 ≤ -a by omega)
    rw [Int.neg_tmod] at this
    omega

theorem tmod_eq_or_half (ha : InRange a) (m : Int) : a.tmod m = a ∨ (a.tmod m).natAbs ≤ 2 ^ 62 := by
  have hbet := tmod_between a m
  have habs := Int.natAbs_tmod a m
  rw [InRange] at ha
  by_cases hlt : a.natAbs < m.natAbs
  · rw [Nat.mod_eq_of_lt hlt] at habs
    exact .inl (by omega)
  · by_cases hm : m.natAbs = 0
    · rw [hm, Nat.mod_zero] at habs
      exact .inl (by omega)
    · have hspl := Nat.div_add_mod a.natAbs m.natAbs
      have hpos := Nat.pos_of_ne_zero hm
      have hq : 1 ≤ a.natAbs / m.natAbs := (Nat.one_le_div_iff hpos).mpr (by omega)
      have hle := Nat.mul_le_mul_left m.natAbs hq
      have hlt := Nat.mod_lt a.natAbs hpos
      exact .inr (by omega)

theorem fmod_bounds (a : Int) (hm : 0 < m) : 0 ≤ a.fmod m ∧ a.fmod m < m :=
  ⟨Int.fmod_nonneg_of_pos a hm, Int.fmod_lt_of_pos a hm⟩

section Indexing
variable {env : ExprEnv} {P : Int → Prop}

theorem coefficient_dvd_intOf (σ : Assignment) (e : Expr) : integerCoefficient e ∣ σ.intOf e := by
  rcases integerCoefficient_cases e with ⟨hint, hc⟩ | hc | ⟨a, ha, hmul, hint, hc⟩ <;> rw [hc]
  · rw [σ.intOf_of_integer hint]
  · exact Int.one_dvd _
  · rw [σ.intOf_mul hmul, ← σ.intOf_of_integer hint]
    exact dvd_prod (mem_map_of_mem ha)

/-- A property of nodes that rules out what `modular_indexing` does not expect as well: the
constants at the edge of the type. -/
structure TameIndex (P : Int → Prop) (σ : Assignment) (p : Expr → Prop) : Prop
    extends Tame P σ p where
  inside : ∀ e, p e → e.op = .integer → e.payload.natAbs < 2 ^ 63 - 1

theorem TameIndex.coefficient_lt {σ : Assignment} {p : Expr → Prop} (h : TameIndex P σ p)
    {e : Expr} (he : Everywhere p e) : (integerCoefficient e).natAbs < 2 ^ 63 - 1 := by
  rcases integerCoefficient_cases e with ⟨hint, hc⟩ | hc | ⟨a, ha, -, hint, hc⟩ <;> rw [hc]
  · exact h.inside e he.here hint
  · decide
  · exact h.inside a (he.arg ha).here hint

def indexNode (base div modulus : Expr) : Expr :=
  .mk .modularIndexing (Flags.isInteger ||| .isNonnegative) 0 0 [base, div, modulus]

/-- A constructor that returns, and that returns the index if the divisors and the modulus are
positive. -/
def Indexes (env : ExprEnv) (P : Int → Prop) (base div modulus : Expr) (x : Building Expr) : Prop :=
  Fold.Yields P x (WellFormed env) fun e =>
    ∀ σ p, TameIndex P σ p → Everywhere p base → Everywhere p div → 0 < σ.intOf div →
      0 < σ.intOf modulus → σ.intOf e = ((σ.intOf base).fdiv (σ.intOf div)).fmod (σ.intOf modulus) ∧
          ((∀ b d, 0 < σ.intOf d → p (indexNode b d modulus)) → Everywhere p modulus →
            Everywhere p e)

section Rules
variable (hP : ∀ v, P v → InRange v) {base div modulus : Expr} (hb : WellFormed env base)
variable (hd : WellFormed env div)

theorem intOf_indexNode (σ : Assignment) (base div modulus : Expr) :
    σ.intOf (indexNode base div modulus) =
      ((σ.intOf base).fdiv (σ.intOf div)).fmod (σ.intOf modulus) := by
  rfl

include hb hd in
theorem wellFormed_indexNode (hm : WellFormed env modulus) :
    WellFormed env (indexNode base div modulus) := by
  exact .plain (by decide) (show 3 ≤ maxArgs by decide)
    (forall_mem_cons.mpr ⟨hb, pair_wellFormed hd hm⟩)

theorem everywhere_triple {p : Expr → Prop} {a b c : Expr} (ha : Everywhere p a)
    (hb : Everywhere p b) (hc : Everywhere p c) : ∀ i ∈ [a, b, c], Everywhere p i :=
  forall_mem_cons.mpr ⟨ha, everywhere_pair hb hc⟩

include hP hb

theorem indexes_constants (hintb : base.op = .integer) (hintd : div.op = .integer)
    (hintm : modulus.op = .integer) (hhalf : ∀ v : Int, v.natAbs ≤ 2 ^ 62 → P v)
    (hfold : isFoldableDivision base.payload div.payload = true) {v : Int}
    (hv : (floorQuotient base.payload div.payload).tmod modulus.payload = v) :
    Indexes env P base div modulus
      (if v < 0 then do
        let v ← addSat v modulus.payload
        pure (.integer v)
      else pure (.integer v)) := by
  have hran := (hb.integer_eq hintb).2
  have hq := inRange_floorQuotient hfold hran
  have hval : ∀ σ : Assignment, 0 < σ.intOf div → 0 < σ.intOf modulus →
      ((σ.intOf base).fdiv (σ.intOf div)).fmod (σ.intOf modulus) =
        if v < 0 then v + modulus.payload else v := by
    intro σ hposd hposm
    rw [σ.intOf_of_integer hintd] at hposd ⊢
    rw [σ.intOf_of_integer hintm] at hposm ⊢
    rw [σ.intOf_of_integer hintb, ← hv, floorQuotient_eq _ hposd, fmod_eq_of_pos _ hposm]
  split_ifs with hneg
  · refine (Fold.Yields.folded _).bind fun v hv => ?_
    subst hv
    refine .pure (.integer (clamp_inRange _)) fun hfol σ p htame _ _ hposd hposm => ?_
    rw [clamp_of_inRange (hP _ hfol), σ.intOf_integer, hval σ hposd hposm, if_pos hneg]
    exact ⟨rfl, fun _ _ => .integer (htame.integer _ hfol)⟩
  · have hle := tmod_between (floorQuotient base.payload div.payload) modulus.payload
    have hran' : InRange v := by
      rw [InRange] at hq ⊢
      omega
    refine .pure (.integer hran') fun σ p htame hpb hpd hposd hposm => ?_
    rw [σ.intOf_integer, hval σ hposd hposm, if_neg hneg]
    refine ⟨rfl, fun _ _ => ?_⟩
    rw [σ.intOf_of_integer hintd] at hposd
    subst hv
    -- a remainder that is a large constant is the dividend itself
    rcases tmod_eq_or_half hq modulus.payload with hsame | hhal
    · rw [hsame, floorQuotient_eq _ hposd]
      by_cases hone : div.payload = 1
      · rw [hone, Int.fdiv_one, ← (hb.integer_eq hintb).1]
        exact hpb
      · exact .integer (htame.integer _ (hhalf _ (natAbs_fdiv_le (natAbs_le_of_inRange hran)
          (by omega))))
    · exact .integer (htame.integer _ (hhalf _ hhal))

variable {next : Expr → Building Expr}

omit hP hb in
theorem dropped_dvd {σ : Assignment} {p : Expr → Prop} (htame : TameIndex P σ p) {a : Expr}
    (hpa : Everywhere p a) {m d : Int} (hm : 0 < m) (hd : 0 < d)
    (hne : integerCoefficient a ≠ 0) (hmod : (integerCoefficient a).tmod (clamp (m * d)) = 0) :
    m * d ∣ σ.intOf a := by
  have hdvd := Int.dvd_of_tmod_eq_zero hmod
  have hpos : 0 < m * d := Int.mul_pos hm hd
  refine Int.dvd_trans ?_ (coefficient_dvd_intOf σ a)
  by_cases hran : InRange (m * d)
  · rw [clamp_of_inRange hran] at hdvd
    exact hdvd
  · -- a clamped product divides no coefficient
    exfalso
    have hclamp : clamp (m * d) = 2 ^ 63 - 1 := by
      rw [InRange] at hran
      rw [clamp]
      omega
    have hsmall := htame.coefficient_lt hpa
    have hle := Int.le_of_dvd (Int.natAbs_pos.mpr hne |> Int.natCast_pos.mpr)
      (Int.dvd_natAbs.mpr hdvd)
    omega

theorem indexes_drop (hadd : base.op = .add) (hintm : modulus.op = .integer)
    (hintd : div.op = .integer) {isDropped : Expr → Bool}
    (hdropp : ∀ a, isDropped a = true → integerCoefficient a ≠ 0 ∧
      (integerCoefficient a).tmod (clamp (modulus.payload * div.payload)) = 0)
    (hsome : base.args.any isDropped = true)
    (hnext : ∀ b, WellFormed env b → weight b < weight base →
      Indexes env P b div modulus (next b)) :
    Indexes env P base div modulus
      (if base.args.filter (fun a => !isDropped a) = [] then pure (.integer 0)
      else do
        let reduced ← env.sumOf (base.args.filter fun a => !isDropped a)
        next reduced) := by
  have hmem : ∀ a ∈ base.args.filter (fun a => !isDropped a), a ∈ base.args :=
    fun a ha => (mem_filter.mp ha).1
  have hlig : weightAll (base.args.filter fun a => !isDropped a) < weight base := by
    obtain ⟨a, ha, hdrop⟩ := any_eq_true.mp hsome
    exact weightAll_filter_lt hb hadd (ne_nil_of_mem (mem_filter.mpr ⟨ha, hdrop⟩))
  -- the dropped terms are a multiple of both
  have hvalue : ∀ σ p, TameIndex P σ p → Everywhere p base → 0 < σ.intOf div →
      0 < σ.intOf modulus → ∃ k, σ.intOf base =
        ((base.args.filter fun a => !isDropped a).map σ.intOf).sum +
          k * (σ.intOf modulus * σ.intOf div) := by
    intro σ p htame hpb hposd hposm
    rw [σ.intOf_of_integer hintd] at hposd ⊢
    rw [σ.intOf_of_integer hintm] at hposm ⊢
    have hdvd : modulus.payload * div.payload ∣ ((base.args.filter isDropped).map σ.intOf).sum := by
      refine dvd_sum fun v hv => ?_
      obtain ⟨a, ha, rfl⟩ := mem_map.mp hv
      obtain ⟨ha, hdrop⟩ := mem_filter.mp ha
      obtain ⟨hne, hmod⟩ := hdropp a hdrop
      exact dropped_dvd htame (hpb.arg ha) hposm hposd hne hmod
    obtain ⟨k, hk⟩ := hdvd
    refine ⟨k, ?_⟩
    rw [σ.intOf_add hadd, sum_filter_split σ isDropped, hk, Int.add_comm, Int.mul_comm k]
  split_ifs with hnone
  · refine .pure (.integer (by decide)) fun σ p htame hpb _ hposd hposm => ?_
    obtain ⟨k, hk⟩ := hvalue σ p htame hpb hposd hposm
    rw [hk, index_add_mul hposd hposm, hnone, map_nil, sum_nil, Int.zero_fdiv,
      Int.zero_fmod, σ.intOf_integer]
    exact ⟨rfl, fun _ _ => .integer htame.zero⟩
  · refine (sumOf_computes hP hnone (le_trans (length_filter_le _ _) hb.arity)
      fun t ht => hb.arg (hmem t ht)).bind fun reduced hred => ?_
    refine (hnext reduced hred.1 (by omega)).weaken ?_
    intro e _ hQ hQr σ p htame hpb hpd hposd hposm
    have hpr := hQr.2 p htame.toClosed fun t ht => hpb.arg (hmem t ht)
    obtain ⟨hval, hpe⟩ := hQ σ p htame hpr hpd hposd hposm
    obtain ⟨k, hk⟩ := hvalue σ p htame hpb hposd hposm
    have hvalr := hQr.1 σ
    refine ⟨?_, hpe⟩
    rw [hval, hvalr, hk, index_add_mul hposd hposm]

end Rules

variable {base div modulus l r : Expr}

theorem modularIndexingCalls_indexes (hP : ∀ v, P v → InRange v)
    (hhalf : ∀ v : Int, v.natAbs ≤ 2 ^ 62 → P v) {calls : Nat}
    (hb : WellFormed env base) (hd : WellFormed env div) (hm : WellFormed env modulus)
    (hcal : weight base < calls) :
    Indexes env P base div modulus (env.modularIndexingCalls calls base div modulus) := by
  induction calls generalizing base div with
  | zero => omega
  | succ calls ih =>
    rw [ExprEnv.modularIndexingCalls]
    by_cases hzero : base.isZeroInt ∨ modulus.isOne
    · rw [if_pos hzero]
      refine .pure (.integer (by decide)) fun σ p htame _ _ hposd hposm =>
        ⟨?_, fun _ _ => .integer htame.zero⟩
      rw [σ.intOf_integer]
      rcases hzero with hzero | hone
      · rw [intOf_isZeroInt σ hzero, Int.zero_fdiv, Int.zero_fmod]
      · rw [intOf_isOne σ hone, Int.fmod_one]
    rw [if_neg hzero]
    by_cases hints : base.op = .integer ∧ div.op = .integer ∧ modulus.op = .integer ∧
        isFoldableDivision base.payload div.payload ∧
        isFoldableDivision (floorQuotient base.payload div.payload) modulus.payload
    · rw [if_pos hints]
      exact indexes_constants hP hb hints.1 hints.2.1 hints.2.2.1 hhalf hints.2.2.2.1 rfl
    rw [if_neg hints]
    have hzero' : base.isZeroInt = false := by
      simpa using fun h => hzero (.inl h)
    by_cases hcom : ¬ (div.op = .integer ∧ div.payload = 1) ∧
        1 < gcdOf (integerFactor base) (integerFactor div)
    · rw [if_pos hcom]
      refine (divideCommon_yields hP hb hd hhalf hzero' hcom.2
        fun b d hb' hd' hlt => ih hb' hd' (by omega)).weaken ?_
      rintro e - ⟨b, d, hQ, hsame⟩ σ p htame hpb hpd hposd hposm
      obtain ⟨⟨hpb', hpd'⟩, hposd', hval⟩ := hsame σ p htame.toTame hpb hpd
      rw [hval]
      exact hQ σ p htame hpb' hpd' (hposd' hposd) hposm
    rw [if_neg hcom]
    by_cases hdrop : base.op = .add ∧ modulus.op = .integer ∧ div.op = .integer ∧
        0 < clamp (modulus.payload * div.payload) ∧ base.args.any (fun a =>
          integerCoefficient a ≠ 0 &&
            (integerCoefficient a).tmod (clamp (modulus.payload * div.payload)) = 0)
    · rw [if_pos hdrop]
      obtain ⟨hadd, hintm, hintd, -, hsome⟩ := hdrop
      refine indexes_drop hP hb hadd hintm hintd ?_ hsome fun b hb' hlt => ih hb' hd (by omega)
      intro a ha
      simpa using ha
    rw [if_neg hdrop]
    split_ifs with hquot
    · obtain ⟨x, c, hargs, hx, hc, hlt⟩ := hb.quotient_parts hquot
      have hwfx : WellFormed env x := hb.arg (by simp [hargs])
      rw [hx, Fold.pure_then, hc, Fold.pure_then]
      refine (nested_yields hP hb hd hquot hargs fun d hd' => ih hwfx hd' (by omega)).weaken ?_
      rintro e - ⟨d, hQ, hsame⟩ σ p htame hpb hpd hposd hposm
      obtain ⟨⟨hpx, hpd'⟩, hposd', hval⟩ := hsame σ p htame.toTame hpb hpd hposd
      rw [hval]
      exact hQ σ p htame hpx hpd' hposd' hposm
    · refine .pure (wellFormed_indexNode hb hd hm) fun σ p _ hpb hpd hposd _ => ⟨?_, ?_⟩
      · exact intOf_indexNode σ base div modulus
      · intro hnode hpm
        exact .node (hnode base div hposd) (everywhere_triple hpb hpd hpm)

/-- **`modular_indexing` returns, and returns the index under positive divisors.** -/
theorem modularIndexing_indexes (hP : ∀ v, P v → InRange v)
    (hhalf : ∀ v : Int, v.natAbs ≤ 2 ^ 62 → P v)
    (hb : WellFormed env base) (hd : WellFormed env div) (hm : WellFormed env modulus) :
    Indexes env P base div modulus (env.modularIndexing base div modulus) :=
  modularIndexingCalls_indexes hP hhalf hb hd hm (lt_add_one _)

/-! ### Remainders -/

def Parity (σ : Assignment) (e : Expr) : Prop :=
  (e.has .isEven = true → σ.intOf e % 2 = 0) ∧ (e.has .isOdd = true → σ.intOf e % 2 = 1)

theorem parity_spec {v : Int} (h : ExprEnv.parity l r = some v) :
    (v = 0 ∨ v = 1) ∧ ∀ σ : Assignment, Parity σ l → σ.intOf r = 2 ∧ σ.intOf l % 2 = v := by
  rw [ExprEnv.parity] at h
  split_ifs at h with htwo heven hodd
  · cases h
    refine ⟨.inl rfl, fun σ hpar => ⟨?_, hpar.1 heven⟩⟩
    rw [σ.intOf_of_integer htwo.1, htwo.2]
  · cases h
    refine ⟨.inr rfl, fun σ hpar => ⟨?_, hpar.2 hodd⟩⟩
    rw [σ.intOf_of_integer htwo.1, htwo.2]

theorem zero_remainder (env : ExprEnv) (σ : Assignment) (h : l.isZeroInt ∨ env.same l r ∨ r.isOne) :
    (σ.intOf l).tmod (σ.intOf r) = 0 ∧ (σ.intOf l).fmod (σ.intOf r) = 0 := by
  rcases h with h | h | h
  · rw [intOf_isZeroInt σ h]
    exact ⟨Int.zero_tmod _, Int.zero_fmod _⟩
  · obtain rfl := (env.same_iff l r).mp h
    exact ⟨Int.tmod_self, Int.fmod_self⟩
  · rw [intOf_isOne σ h]
    exact ⟨Int.tmod_one _, Int.fmod_one _⟩

theorem inRange_tmod {a : Int} (ha : InRange a) (m : Int) : InRange (a.tmod m) := by
  have := tmod_between a m
  rw [InRange] at ha ⊢
  omega

theorem inRange_of_small {v : Int} (h : v = 0 ∨ v = 1) : InRange v := by
  rw [InRange]
  omega

theorem everywhere_tmod {p : Expr → Prop} (hp : Closed P p)
    (hhalf : ∀ v : Int, v.natAbs ≤ 2 ^ 62 → P v) (hl : WellFormed env l)
    (hint : l.op = .integer) (hpl : Everywhere p l) (m : Int) :
    Everywhere p (.integer (l.payload.tmod m)) := by
  obtain ⟨heq, hran⟩ := hl.integer_eq hint
  rcases tmod_eq_or_half hran m with hsame | hhal
  · rw [hsame, ← heq]
    exact hpl
  · exact .integer (hp.integer _ (hhalf _ hhal))

def modNode (l r : Expr) : Expr := .mk .mod (Flags.isInteger ||| .isNonnegative) 0 0 [l, r]

def pythonModNode (l r : Expr) : Expr := .mk .pythonMod .isInteger 0 0 [l, r]

/-- **`mod` returns the truncated remainder of a non-negative dividend.** -/
theorem mod_spec (hhalf : ∀ v : Int, v.natAbs ≤ 2 ^ 62 → P v)
    (hl : WellFormed env l) (hr : WellFormed env r) :
    WellFormed env (env.mod l r) ∧ ∀ σ : Assignment, Parity σ l → 0 ≤ σ.intOf l → 0 < σ.intOf r →
        σ.intOf (env.mod l r) = (σ.intOf l).tmod (σ.intOf r) ∧
          ∀ p, Closed P p → p (modNode l r) → (∀ i ∈ [l, r], Everywhere p i) →
            Everywhere p (env.mod l r) := by
  rw [ExprEnv.mod]
  split_ifs with hints hzero
  · refine ⟨.integer (inRange_tmod (hl.integer_eq hints.1).2 _), fun σ _ _ _ => ⟨?_, ?_⟩⟩
    · rw [σ.intOf_integer, σ.intOf_of_integer hints.1, σ.intOf_of_integer hints.2.1]
    · intro p hp _ hin
      exact everywhere_tmod hp hhalf hl hints.1 (hin l mem_cons_self) _
  · refine ⟨.integer (by decide), fun σ _ _ _ => ⟨?_, fun p hp _ _ => .integer hp.zero⟩⟩
    rw [σ.intOf_integer, (zero_remainder env σ hzero).1]
  · cases hpar : ExprEnv.parity l r with
    | some v =>
      obtain ⟨hsmall, hval⟩ := parity_spec hpar
      refine ⟨.integer (inRange_of_small hsmall), fun σ hpari hpos _ => ⟨?_, fun p hp _ _ => ?_⟩⟩
      · obtain ⟨htwo, hmod⟩ := hval σ hpari
        rw [σ.intOf_integer, htwo, Int.tmod_eq_emod_of_nonneg hpos, hmod]
      · exact .integer (hp.small v (by omega) (by omega))
    | none =>
      refine ⟨.plain (by decide) two_le_maxArgs (pair_wellFormed hl hr), fun σ _ _ _ => ⟨?_, ?_⟩⟩
      · rw [Assignment.intOf, σ.eval_mk]
        rfl
      · intro p _ hnode hin
        exact .node hnode hin

/-- **`python_mod` returns the remainder that rounds down.** -/
theorem pythonMod_yields (hP : ∀ v, P v → InRange v) (hhalf : ∀ v : Int, v.natAbs ≤ 2 ^ 62 → P v)
    (hl : WellFormed env l) (hr : WellFormed env r) :
    Fold.Yields P (env.pythonMod l r) (WellFormed env) fun e =>
      ∀ σ : Assignment, Parity σ l → 0 < σ.intOf r → σ.intOf e = (σ.intOf l).fmod (σ.intOf r) ∧
          ∀ p, Closed P p → p (pythonModNode l r) → (∀ i ∈ [l, r], Everywhere p i) →
            Everywhere p e := by
  rw [ExprEnv.pythonMod]
  by_cases hints : l.op = .integer ∧ r.op = .integer ∧ isFoldableDivision l.payload r.payload
  · rw [if_pos hints]
    have hvalue : ∀ σ : Assignment, 0 < σ.intOf r → 0 < r.payload ∧
        (σ.intOf l).fmod (σ.intOf r) = if l.payload.tmod r.payload < 0 then
          l.payload.tmod r.payload + r.payload else l.payload.tmod r.payload := by
      intro σ hpos
      rw [σ.intOf_of_integer hints.2.1] at hpos ⊢
      rw [σ.intOf_of_integer hints.1]
      exact ⟨hpos, fmod_eq_of_pos _ hpos⟩
    dsimp only
    split_ifs with hadj
    · refine (Fold.Yields.folded _).bind fun v hv => ?_
      subst hv
      refine .pure (.integer (clamp_inRange _)) fun hfol σ _ hpos => ⟨?_, fun p hp _ _ => ?_⟩
      · obtain ⟨hposr, hval⟩ := hvalue σ hpos
        rw [clamp_of_inRange (hP _ hfol), σ.intOf_integer, hval, if_pos (by omega)]
      · rw [clamp_of_inRange (hP _ hfol)]
        exact .integer (hp.integer _ hfol)
    · refine .pure (.integer (inRange_tmod (hl.integer_eq hints.1).2 _)) fun σ _ hpos =>
        ⟨?_, fun p hp _ hin => everywhere_tmod hp hhalf hl hints.1 (hin l mem_cons_self) _⟩
      obtain ⟨hposr, hval⟩ := hvalue σ hpos
      rw [σ.intOf_integer, hval, if_neg (by omega)]
  split_ifs with hzero
  · refine .pure (.integer (by decide)) fun σ _ _ => ⟨?_, fun p hp _ _ => .integer hp.zero⟩
    rw [σ.intOf_integer, (zero_remainder env σ hzero).2]
  · cases hpar : ExprEnv.parity l r with
    | some v =>
      obtain ⟨hsmall, hval⟩ := parity_spec hpar
      refine .pure (.integer (inRange_of_small hsmall)) fun σ hpari _ => ⟨?_, fun p hp _ _ => ?_⟩
      · obtain ⟨htwo, hmod⟩ := hval σ hpari
        rw [σ.intOf_integer, htwo, Int.fmod_eq_emod_of_nonneg _ (by decide), hmod]
      · exact .integer (hp.small v (by omega) (by omega))
    | none =>
      refine .pure (.plain (by decide) two_le_maxArgs (pair_wellFormed hl hr)) fun σ _ _ => ⟨?_, ?_⟩
      · rw [Assignment.intOf, σ.eval_mk]
        rfl
      · intro p _ hnode hin
        exact .node hnode hin

end Indexing
end Crucible
