import Crucible.ExprDivide
import Crucible.RingSoundness

/-! # Division by positive divisors

`floor_div` returns the quotient rounded down if the divisor is positive, if the divisors of
the quotients inside the dividend are, and if no constant is the least integer of the type.
The recursion always ends: every call has a lighter dividend.
-/
namespace Crucible
open List
open Saturating ExprEnv

/-! ### Constants -/

variable {a b q c v acc d : Int}

theorem fdiv_eq_of_pos {r : Int} (hb : 0 < b) (h : b * q + r = a) (hr : 0 ≤ r)
    (hlt : r < b) : a.fdiv b = q := by
  rw [Int.fdiv_eq_ediv_of_nonneg _ (Int.le_of_lt hb)]
  exact ((Int.ediv_emod_unique hb).mpr ⟨by omega, hr, hlt⟩).1

theorem tmod_abs_lt (a : Int) (hb : 0 < b) : -b < a.tmod b ∧ a.tmod b < b :=
  ⟨Int.lt_tmod_of_pos a hb, Int.tmod_lt_of_pos a hb⟩

theorem floorQuotient_eq (a : Int) (hb : 0 < b) : floorQuotient a b = a.fdiv b := by
  have hmul : b * a.tdiv b + a.tmod b = a := Int.mul_tdiv_add_tmod a b
  obtain ⟨hlow, hhigh⟩ := tmod_abs_lt a hb
  simp only [floorQuotient]
  by_cases hneg : a.tmod b < 0
  · rw [if_pos ⟨by omega, by omega⟩]
    symm
    refine fdiv_eq_of_pos (r := a.tmod b + b) hb ?_ (by omega) (by omega)
    rw [Int.mul_sub]
    omega
  · rw [if_neg (by omega)]
    exact (fdiv_eq_of_pos hb hmul (by omega) hhigh).symm

theorem ceilQuotient_eq (a : Int) (hb : 0 < b) : ceilQuotient a b = (a + (b - 1)).fdiv b := by
  have hmul : b * a.tdiv b + a.tmod b = a := Int.mul_tdiv_add_tmod a b
  obtain ⟨hlow, hhigh⟩ := tmod_abs_lt a hb
  simp only [ceilQuotient]
  symm
  by_cases hpos : 0 < a.tmod b
  · rw [if_pos ⟨by omega, by omega, by omega⟩]
    refine fdiv_eq_of_pos (r := a.tmod b - 1) hb ?_ (by omega) (by omega)
    rw [Int.mul_add]
    omega
  · rw [if_neg (by omega)]
    exact fdiv_eq_of_pos (r := a.tmod b + (b - 1)) hb (by omega) (by omega) (by omega)

theorem add_sub_one_fdiv (hb : 0 < b) : (a + (b - 1)).fdiv b = -(-a).fdiv b := by
  have hmul := Int.mul_fdiv_add_fmod (-a) b
  have hlow := Int.fmod_nonneg_of_pos (-a) hb
  have hhigh := Int.fmod_lt_of_pos (-a) hb
  refine fdiv_eq_of_pos (r := b - 1 - (-a).fmod b) hb ?_ (by omega) (by omega)
  rw [Int.mul_neg]
  omega

theorem fdiv_fdiv (hb : 0 < b) (hc : 0 < c) : (a.fdiv b).fdiv c = a.fdiv (b * c) := by
  have hbc : 0 < b * c := Int.mul_pos hb hc
  rw [Int.fdiv_eq_ediv_of_nonneg _ (Int.le_of_lt hb),
    Int.fdiv_eq_ediv_of_nonneg _ (Int.le_of_lt hc),
    Int.fdiv_eq_ediv_of_nonneg _ (Int.le_of_lt hbc), Int.ediv_ediv_of_nonneg (Int.le_of_lt hb)]

/-! ### Coefficients -/

/-- The coefficients that `integer_factor_` reads. -/
def coefficients (e : Expr) : List Int :=
  if e.op = .add then e.args.map integerCoefficient else [integerCoefficient e]

theorem integerCoefficient_add {e : Expr} (h : e.op = .add) : integerCoefficient e = 1 := by
  rw [integerCoefficient, h]
  rfl

theorem product_coefficient {e : Expr} (hop : e.op = .mul) :
    (e.args.findIdx? (fun a => a.op = .integer) = none ∧ integerCoefficient e = 1) ∨
      ∃ before a after, e.args = before ++ a :: after ∧ a.op = .integer ∧
        e.args.findIdx? (fun a => a.op = .integer) = some before.length ∧
        integerCoefficient e = a.payload := by
  have hfind : integerCoefficient e =
      (e.args.find? fun a => a.op = .integer).elim 1 Expr.payload := by
    rw [integerCoefficient, if_neg (by rw [hop]; rintro ⟨⟩), if_pos hop]
    cases e.args.find? fun a => a.op = .integer <;> rfl
  cases hsome : e.args.find? fun a => a.op = .integer with
  | none =>
    rw [hsome] at hfind
    refine .inl ⟨findIdx?_eq_none_iff.mpr fun x hx => ?_, hfind⟩
    simpa using find?_eq_none.mp hsome x hx
  | some a =>
    rw [hsome] at hfind
    obtain ⟨ha, before, after, heq, hbef⟩ := find?_eq_some_iff_append.mp hsome
    have hnone : before.findIdx? (fun a => a.op = .integer) = none :=
      findIdx?_eq_none_iff.mpr fun x hx => by simpa using hbef x hx
    refine .inr ⟨before, a, after, heq, of_decide_eq_true ha, ?_, hfind⟩
    rw [heq, findIdx?_append, hnone, findIdx?_cons, if_pos ha]
    simp

/-- A coefficient is that of a constant, one, or an integer factor of a product. -/
theorem integerCoefficient_cases (e : Expr) :
    (e.op = .integer ∧ integerCoefficient e = e.payload) ∨ integerCoefficient e = 1 ∨
      ∃ a ∈ e.args, e.op = .mul ∧ a.op = .integer ∧ integerCoefficient e = a.payload := by
  by_cases hint : e.op = .integer
  · exact .inl ⟨hint, if_pos hint⟩
  · refine .inr ?_
    by_cases hmul : e.op = .mul
    · rcases product_coefficient hmul with ⟨-, hone⟩ | ⟨before, a, after, hargs, ha, -, hc⟩
      · exact .inl hone
      · exact .inr ⟨a, by simp [hargs], hmul, ha, hc⟩
    · exact .inl (by rw [integerCoefficient, if_neg hint, if_neg hmul])

section Coefficients
variable {env : ExprEnv} {e : Expr}

theorem WellFormed.coefficient_ne_zero (hwf : WellFormed env e) (hzero : e.isZeroInt = false) :
    integerCoefficient e ≠ 0 := by
  rcases integerCoefficient_cases e with ⟨hint, h⟩ | h | ⟨a, ha, hmul, hint, h⟩ <;> rw [h]
  · intro hv
    rw [e.isZeroInt_iff.mpr ⟨hint, hv⟩] at hzero
    cases hzero
  · decide
  · exact ((hwf.product_eq hmul).2.integer_ne _ (mem_integersOf.mpr ⟨a, ha, hint, rfl⟩)).1

theorem WellFormed.coefficients_ne_zero (h : WellFormed env e) (hzero : e.isZeroInt = false) :
    ∀ c ∈ coefficients e, c ≠ 0 := by
  intro c hc
  rw [coefficients] at hc
  split at hc
  case isTrue hadd =>
    obtain ⟨a, ha, rfl⟩ := mem_map.mp hc
    refine (h.arg ha).coefficient_ne_zero ?_
    by_contra hno
    obtain ⟨hop, hv⟩ := a.isZeroInt_iff.mp (by simpa using hno)
    exact ((h.sum_eq hadd).2.integer_ne _ (mem_integersOf.mpr ⟨a, ha, hop, rfl⟩)).1 hv
  case isFalse =>
    rw [mem_singleton.mp hc]
    exact h.coefficient_ne_zero hzero

end Coefficients

theorem safeAbs_spec (v : Int) : 0 ≤ safeAbs v ∧ safeAbs v ≤ v.natAbs ∧ (v ≠ 0 → 0 < safeAbs v) ∧
    (v ≠ int64Min → safeAbs v = v.natAbs) := by
  rw [safeAbs, int64Min, int64Max]
  split_ifs <;> omega

theorem safeAbs_of_ne_min (h : v ≠ int64Min) : safeAbs v = v.natAbs :=
  (safeAbs_spec v).2.2.2 h

theorem gcdOf_eq (ha : 0 ≤ a) (hb : 0 ≤ b) : gcdOf a b = Int.gcd a b := by
  have hsame : ∀ {v : Int}, 0 ≤ v → safeAbs v = v := by
    intro v hv
    rw [safeAbs_of_ne_min (by rw [int64Min]; omega), Int.natAbs_of_nonneg hv]
  rw [gcdOf, hsame ha, hsame hb]
  congr 2 <;> omega

theorem factorStep_eq (hacc : 0 ≤ acc) (e : Expr) :
    factorStep acc e = Int.gcd acc (safeAbs (integerCoefficient e)) := by
  have hnon := (safeAbs_spec (integerCoefficient e)).1
  simp only [factorStep]
  split_ifs with hzero
  · rw [hzero, Int.gcd_zero_left, Int.natAbs_of_nonneg hnon]
  · exact gcdOf_eq hacc hnon

theorem dvd_foldl_factorStep (l : List Expr) (hacc : 0 ≤ acc) : 0 ≤ l.foldl factorStep acc ∧
    ∀ d, d ∣ l.foldl factorStep acc ↔ d ∣ acc ∧ ∀ e ∈ l, d ∣ safeAbs (integerCoefficient e) := by
  induction l generalizing acc with
  | nil => simp [hacc]
  | cons e l ih =>
    have hstep := factorStep_eq hacc e
    obtain ⟨hnon, hdvd⟩ := ih (hstep ▸ Int.natCast_nonneg _)
    refine ⟨hnon, fun d => ?_⟩
    rw [foldl_cons, hdvd, hstep, Int.dvd_coe_gcd_iff, and_assoc, forall_mem_cons]

theorem integerFactor_dvd (e : Expr) :
    0 ≤ integerFactor e ∧ ∀ c ∈ coefficients e, integerFactor e ∣ safeAbs c := by
  rw [integerFactor, coefficients]
  by_cases hadd : e.op = .add
  · rw [if_pos hadd, if_pos hadd, forall_mem_map]
    obtain ⟨hnon, hdvd⟩ := dvd_foldl_factorStep e.args (Int.le_refl 0)
    by_cases hzero : e.args.foldl factorStep 0 = 0
    · rw [if_pos hzero]
      exact ⟨by decide, fun c _ => Int.one_dvd _⟩
    · rw [if_neg hzero]
      exact ⟨hnon, ((hdvd _).mp (Int.dvd_refl _)).2⟩
  · rw [if_neg hadd, if_neg hadd]
    refine ⟨(safeAbs_spec _).1, fun c hc => ?_⟩
    rw [mem_singleton.mp hc]

theorem common_dvd (l r : Expr) :
    (∀ c ∈ coefficients l, gcdOf (integerFactor l) (integerFactor r) ∣ safeAbs c) ∧
      ∀ c ∈ coefficients r, gcdOf (integerFactor l) (integerFactor r) ∣ safeAbs c := by
  obtain ⟨hl, hdvdl⟩ := integerFactor_dvd l
  obtain ⟨hr, hdvdr⟩ := integerFactor_dvd r
  rw [gcdOf_eq hl hr]
  exact ⟨fun c hc => Int.dvd_trans (Int.gcd_dvd_left ..) (hdvdl c hc),
    fun c hc => Int.dvd_trans (Int.gcd_dvd_right ..) (hdvdr c hc)⟩

/-! ### Dividing the coefficients -/

theorem bits_tdiv_le (c d : Int) : bits (c.tdiv d) ≤ bits c := by
  apply bits_mono
  rw [Int.natAbs_tdiv]
  exact Nat.div_le_self _ _

theorem bits_tdiv_lt (hd : 1 < d) (hle : d ≤ c.natAbs) : bits (c.tdiv d) < bits c := by
  have htwo : 2 ≤ c.natAbs := by omega
  have hhalf : (c.tdiv d).natAbs ≤ c.natAbs / 2 := by
    rw [Int.natAbs_tdiv]
    exact Nat.div_le_div_left (by omega) (by decide)
  have hlog : c.natAbs.log2 = (c.natAbs / 2).log2 + 1 := by
    rw [Nat.log2_def, if_pos htwo]
  rw [bits, bits]
  have hmono := bits_mono (v := c.tdiv d) (w := ((c.natAbs / 2 : Nat) : Int)) hhalf
  rw [bits, bits, Int.natAbs_natCast] at hmono
  omega

theorem natAbs_le_of_inRange (hc : InRange c) : c.natAbs ≤ 2 ^ 63 := by
  rw [InRange] at hc
  omega

theorem natAbs_tdiv_le_half (hc : InRange c) (hd : 2 ≤ d.natAbs) : (c.tdiv d).natAbs ≤ 2 ^ 62 := by
  have habs := natAbs_le_of_inRange hc
  rw [Int.natAbs_tdiv]
  refine le_trans (Nat.div_le_div_left hd (by decide)) ?_
  omega

theorem inRange_tdiv (hc : InRange c) (hd : 1 < d) : InRange (c.tdiv d) := by
  have := natAbs_tdiv_le_half hc (show 2 ≤ d.natAbs by omega)
  rw [InRange]
  omega

section Divide
variable {env : ExprEnv} {P : Int → Prop}

/-- A constructor that divides an expression by `d`: the result is no heavier, and lighter if
all the coefficients are at least `d`; it is exact if `d` divides all the coefficients. -/
def DividedBy (env : ExprEnv) (P : Int → Prop) (d : Int) (e : Expr) (x : Building Expr) : Prop :=
  Fold.Yields P x
    (fun e' => WellFormed env e' ∧ weight e' ≤ weight e ∧
      ((∀ c ∈ coefficients e, d ≤ c.natAbs) → weight e' < weight e))
    fun e' => (∀ c ∈ coefficients e, d ∣ c) → (∀ σ : Assignment, σ.intOf e = d * σ.intOf e') ∧
        ∀ p, Closed P p → Everywhere p e → Everywhere p e'

variable {e : Expr}

theorem coefficients_of_ne (h : e.op ≠ .add) :
    coefficients e = [integerCoefficient e] := by rw [coefficients, if_neg h]

theorem arg_eq {a : Expr} {i : Nat} (h : e.args[i]? = some a) : e.arg i = pure a := by
  rw [Expr.arg, h]

variable {d : Int}

theorem dividedBy_self (hd : 1 < d) (hwf : WellFormed env e)
    (hadd : e.op ≠ .add) (hone : integerCoefficient e = 1) : DividedBy env P d e (pure e) := by
  refine .pure ⟨hwf, le_rfl, fun hle => ?_⟩ fun hdvd => ?_
  · rw [coefficients_of_ne hadd, hone] at hle
    have := hle 1 mem_cons_self
    omega
  · rw [coefficients_of_ne hadd, hone] at hdvd
    have := Int.le_of_dvd (by decide) (hdvd 1 mem_cons_self)
    omega

theorem divideProduct_yields (hP : ∀ v, P v → InRange v)
    (hhalf : ∀ v : Int, v.natAbs ≤ 2 ^ 62 → P v) (hd : 1 < d)
    (hwf : WellFormed env e) (hop : e.op = .mul) :
    DividedBy env P d e (env.divideProduct d e) := by
  have hadd : e.op ≠ .add := by
    rw [hop]
    nofun
  rcases product_coefficient hop with ⟨hidx, hone⟩ | ⟨before, a, after, hargs, ha, hidx, hc⟩
  · rw [divideProduct, hidx]
    exact dividedBy_self hd hwf hadd hone
  · have hmem : a ∈ e.args := by simp [hargs]
    have hran := ((hwf.arg hmem).integer_eq ha).2
    have hat : e.args[before.length]? = some a := by
      rw [hargs, getElem?_append_right le_rfl, Nat.sub_self]
      rfl
    have hweight : weight e = weightAll before + (bits a.payload + weightAll after) := by
      rw [Combines.mul.weight_eq hop, hargs, weightAll_append, weightAll, weight_of_integer ha]
    have hvalue : ∀ σ : Assignment, σ.intOf e =
        (before.map σ.intOf).prod * (a.payload * (after.map σ.intOf).prod) := by
      intro σ
      rw [σ.intOf_mul hop, hargs, map_append, prod_append, map_cons, prod_cons,
        σ.intOf_of_integer ha]
    have hexact : d ∣ a.payload → d * a.payload.tdiv d = a.payload := Int.mul_tdiv_cancel'
    have hfir : coefficients e = [a.payload] := by rw [coefficients_of_ne hadd, hc]
    have hself : a.payload ∈ coefficients e := hfir ▸ mem_cons_self
    rw [divideProduct, hidx]
    simp only [arg_eq hat, Fold.pure_then]
    split_ifs with hone
    · -- the other one of two factors is left
      obtain ⟨hquot, htwo⟩ := hone
      have hlens : before.length + (after.length + 1) = 2 := by
        rw [← htwo, hargs, length_append, length_cons]
      obtain ⟨b, hb, hrest⟩ : ∃ b, e.args[1 - before.length]? = some b ∧ before ++ after = [b] := by
        cases before with
        | nil =>
          obtain ⟨b, rfl⟩ : ∃ b, after = [b] :=
            length_eq_one_iff.mp (by rw [length_nil] at hlens; omega)
          exact ⟨b, by rw [hargs]; rfl, rfl⟩
        | cons b before =>
          rw [length_cons] at hlens
          obtain rfl : before = [] := length_eq_zero_iff.mp (by omega)
          obtain rfl : after = [] := length_eq_zero_iff.mp (by omega)
          exact ⟨b, by rw [hargs]; rfl, rfl⟩
      have hmemb : b ∈ e.args := mem_of_getElem? hb
      have hweig : weightAll before + weightAll after = weight b := by
        rw [← weightAll_append, hrest]
        rfl
      have hvalu : ∀ σ : Assignment,
          (before.map σ.intOf).prod * (after.map σ.intOf).prod = σ.intOf b := by
        intro σ
        rw [← prod_append, ← map_append, hrest, map_singleton, prod_singleton]
      have hpos := one_le_bits a.payload
      rw [arg_eq hb]
      refine .pure ⟨hwf.arg hmemb, by omega, fun _ => by omega⟩ fun hdvd => ⟨fun σ => ?_, ?_⟩
      · have := hexact (hdvd _ hself)
        rw [hquot] at this
        rw [hvalue, ← hvalu σ, ← this]
        ring
      · exact fun p _ hall => hall.arg hmemb
    · have hset : e.args.set before.length (.integer (a.payload.tdiv d)) =
          before ++ .integer (a.payload.tdiv d) :: after := by
        rw [hargs, set_append_right _ _ le_rfl, Nat.sub_self]
        rfl
      have hpar : ∀ q : Expr → Prop, q (.integer (a.payload.tdiv d)) → (∀ i ∈ e.args, q i) →
          ∀ i ∈ before ++ .integer (a.payload.tdiv d) :: after, q i := by
        intro q hnew hq
        rw [hargs, forall_mem_append, forall_mem_cons] at hq
        exact forall_mem_append.mpr ⟨hq.1, forall_mem_cons.mpr ⟨hnew, hq.2.2⟩⟩
      have hwf' := hpar _ (.integer (inRange_tdiv hran hd)) fun i hi => hwf.arg hi
      have hlen : (before ++ Expr.integer (a.payload.tdiv d) :: after).length ≤ maxArgs := by
        rw [← hset, length_set]
        exact hwf.arity
      rw [hset]
      refine (mulN_computes hP hlen hwf').imp ?_ ?_
      · rintro e' ⟨hwfe, hle⟩
        rw [weightAll_append, weightAll, weight_integer] at hle
        have hbits := bits_tdiv_le a.payload d
        have hpos := one_le_bits (a.payload.tdiv d)
        refine ⟨hwfe, by omega, fun hcoeff => ?_⟩
        have := bits_tdiv_lt hd (hcoeff _ hself)
        omega
      · rintro e' - ⟨hval, hall⟩ hdvd
        refine ⟨fun σ => ?_, fun p hp hpe => hall p hp (hpar _ (.integer ?_) fun i hi =>
          hpe.arg hi)⟩
        · have hdiv := hexact (hdvd _ hself)
          have hprod := hval σ
          simp only [map_append, prod_append, map_cons, prod_cons, σ.intOf_integer] at hprod
          rw [hprod, hvalue]
          generalize a.payload.tdiv d = q at hdiv ⊢
          rw [← hdiv]
          ring
        · exact hp.integer _ (hhalf _ (natAbs_tdiv_le_half hran (by omega)))

theorem divideCoefficients_eq (hd : 1 < d) (e : Expr) : env.divideCoefficients d e =
      if e.op = .integer then pure (.integer (e.payload.tdiv d))
      else if e.op = .mul then env.divideProduct d e
      else if e.op = .add then (do let terms ← env.divideAll d e.args; env.addN terms)
      else pure e := by
  obtain ⟨op, flags, s, payload, args⟩ := e
  rw [divideCoefficients.eq_def]
  simp only [if_neg (show ¬ d ≤ 1 by omega)]
  cases op <;> rfl

theorem divideAll_yields (hd : 1 < d) {l : List Expr}
    (hl : ∀ a ∈ l, DividedBy env P d a (env.divideCoefficients d a)) :
    Fold.Yields P (env.divideAll d l)
      (fun out => out.length = l.length ∧ (∀ t ∈ out, WellFormed env t) ∧
        weightAll out ≤ weightAll l ∧
        ((∀ a ∈ l, d ≤ (integerCoefficient a).natAbs) → l ≠ [] → weightAll out < weightAll l))
      fun out => (∀ a ∈ l, d ∣ integerCoefficient a) →
        (∀ σ : Assignment, (l.map σ.intOf).sum = d * (out.map σ.intOf).sum) ∧
          ∀ p, Closed P p → (∀ a ∈ l, Everywhere p a) → ∀ t ∈ out, Everywhere p t := by
  induction l with
  | nil =>
    exact .pure ⟨rfl, nofun, le_rfl, fun _ h => absurd rfl h⟩
      fun _ => ⟨fun σ => by simp, fun _ _ _ => nofun⟩
  | cons a l ih =>
    -- a sum inside a sum has the coefficient one, so it is neither large nor divisible
    have hsum : ∀ q : Int → Prop, ¬ q 1 → q (integerCoefficient a) → ∀ c ∈ coefficients a, q c := by
      intro q hone hq c hc
      by_cases hadd : a.op = .add
      · rw [integerCoefficient_add hadd] at hq
        exact absurd hq hone
      · rw [coefficients_of_ne hadd, mem_singleton] at hc
        rwa [hc]
    have hlar := hsum (fun c => d ≤ c.natAbs) (by simpa using hd)
    have hdiv := hsum (d ∣ ·) fun h => absurd (Int.le_of_dvd (by decide) h) (by omega)
    refine (hl a mem_cons_self).bind fun t ht => ?_
    refine (ih fun a' ha' => hl a' (mem_cons_of_mem _ ha')).bind fun out hout => ?_
    obtain ⟨hwft, hlet, hltt⟩ := ht
    obtain ⟨hlen, hwfo, hleo, -⟩ := hout
    refine .pure ⟨?_, ?_, ?_, ?_⟩ fun hQ hQt hdvd => ⟨fun σ => ?_, fun p hp hall => ?_⟩
    · rw [length_cons, length_cons, hlen]
    · exact forall_mem_cons.mpr ⟨hwft, hwfo⟩
    · rw [weightAll, weightAll]
      omega
    · intro hall _
      have := hltt (hlar (hall a mem_cons_self))
      rw [weightAll, weightAll]
      omega
    · rw [forall_mem_cons] at hdvd
      have hhead := (hQt (hdiv hdvd.1)).1 σ
      have htail := (hQ hdvd.2).1 σ
      rw [map_cons, map_cons, sum_cons, sum_cons, hhead, htail, Int.mul_add]
    · rw [forall_mem_cons] at hdvd hall
      exact forall_mem_cons.mpr
        ⟨(hQt (hdiv hdvd.1)).2 p hp hall.1, (hQ hdvd.2).2 p hp hall.2⟩

/-- **`divide_coefficients_` divides.** -/
theorem divideCoefficients_yields (hP : ∀ v, P v → InRange v)
    (hhalf : ∀ v : Int, v.natAbs ≤ 2 ^ 62 → P v) (hd : 1 < d)
    (hwf : WellFormed env e) : DividedBy env P d e (env.divideCoefficients d e) := by
  induction e using Expr.node_induction with
  | node op flags s payload args ih =>
    generalize hgen : Expr.mk op flags s payload args = e at hwf
    have hargs : e.args = args := by rw [← hgen]; rfl
    rw [← hargs] at ih
    rw [divideCoefficients_eq hd]
    split_ifs with hint hmul hadd
    · have hran := (hwf.integer_eq hint).2
      have hcoeff : coefficients e = [e.payload] := by
        rw [coefficients_of_ne (by rw [hint]; nofun), integerCoefficient, if_pos hint]
      have hself : e.payload ∈ coefficients e := hcoeff ▸ mem_cons_self
      have hweig := weight_of_integer hint
      refine .pure ⟨.integer (inRange_tdiv hran hd), ?_, fun hle => ?_⟩
        fun hdvd => ⟨fun σ => ?_, fun p hp _ => .integer ?_⟩
      · rw [hweig]
        exact bits_tdiv_le _ _
      · rw [hweig]
        exact bits_tdiv_lt hd (hle _ hself)
      · rw [σ.intOf_of_integer hint]
        exact (Int.mul_tdiv_cancel' (hdvd _ hself)).symm
      · exact hp.integer _ (hhalf _ (natAbs_tdiv_le_half hran (by omega)))
    · exact divideProduct_yields hP hhalf hd hwf hmul
    · have hne : e.args ≠ [] := by
        intro hnil
        have := (hwf.sum_eq hadd).2.two_le
        rw [hnil] at this
        exact absurd this (by decide)
      have hcoeff : coefficients e = e.args.map integerCoefficient := by
        rw [coefficients, if_pos hadd]
      refine (divideAll_yields hd fun a ha => ih a ha (hwf.arg ha)).bind fun out hout => ?_
      obtain ⟨hlen, hwfo, hle, hlt⟩ := hout
      have harity : out.length ≤ maxArgs := by
        rw [hlen]
        exact hwf.arity
      have hweig : weight e = weightAll e.args := Combines.add.weight_eq hadd
      have htwo := hwf.weight_pos.2 (by rw [hadd]; nofun)
      refine (addN_computes hP harity hwfo).imp ?_ ?_
      · rintro e' ⟨hwfe, hlee⟩
        refine ⟨hwfe, by omega, fun hall => ?_⟩
        have := hlt (fun a ha => hall _ (hcoeff ▸ mem_map_of_mem ha)) hne
        omega
      · rintro e' - ⟨hval, hall⟩ hQ hdvd
        obtain ⟨hsum, hter⟩ := hQ fun a ha => hdvd _ (hcoeff ▸ mem_map_of_mem ha)
        refine ⟨fun σ => ?_, fun p hp hpe => hall p hp ?_⟩
        · rw [hval σ, σ.intOf_add hadd]
          exact hsum σ
        · exact hter p hp fun a ha => hpe.arg ha
    · refine dividedBy_self hd hwf hadd ?_
      rw [integerCoefficient, if_neg hint, if_neg hmul]

theorem sumOf_computes (hP : ∀ v, P v → InRange v) {terms : List Expr} (hne : terms ≠ [])
    (hlen : terms.length ≤ maxArgs) (hwf : ∀ t ∈ terms, WellFormed env t) :
    Computes env P terms (weightAll terms) (fun σ => (terms.map σ.intOf).sum)
      (env.sumOf terms) := by
  match terms, hne with
  | [e], _ =>
    refine .pure ⟨hwf e mem_cons_self, le_self_add⟩
      ⟨fun σ => ?_, fun p _ hall => hall e mem_cons_self⟩
    simp
  | a :: b :: l, _ =>
    refine (addN_computes hP hlen hwf).imp ?_ fun _ _ h => h
    rintro e ⟨hwfe, hle⟩
    have := (hwf a mem_cons_self).weight_pos.1
    refine ⟨hwfe, Nat.le_trans hle (Nat.max_le.mpr ⟨?_, Nat.le_refl _⟩)⟩
    rw [weightAll]
    omega

theorem divideCoefficients_of_le_one (hd : d ≤ 1) (e : Expr) :
    env.divideCoefficients d e = pure e := by
  obtain ⟨op, flags, s, payload, args⟩ := e
  exact if_pos hd

theorem divideAll_of_le_one (hd : d ≤ 1) (l : List Expr) : env.divideAll d l = pure l := by
  induction l with
  | nil => rw [divideAll]
  | cons e l ih =>
    rw [divideAll, divideCoefficients_of_le_one hd, Fold.pure_then, ih, Fold.pure_then]

end Divide

/-! ### Quotients of constants stay in the type -/

theorem isFoldableDivision_iff :
    isFoldableDivision a b = true ↔ b ≠ 0 ∧ ¬ (a = int64Min ∧ b = -1) := by
  simp only [isFoldableDivision, Bool.and_eq_true, decide_eq_true_iff, Bool.not_eq_true',
    Bool.and_eq_false_iff, decide_eq_false_iff_not, not_and_or]

theorem inRange_quotient (hfold : isFoldableDivision a b = true) (ha : InRange a)
    (hq : q = a.tdiv b ∨ a.tmod b ≠ 0 ∧ (q = a.tdiv b - 1 ∨ q = a.tdiv b + 1)) : InRange q := by
  obtain ⟨hzero, hmin⟩ := isFoldableDivision_iff.mp hfold
  have hone : b = 1 ∨ b = -1 ∨ 2 ≤ b.natAbs := by omega
  rw [InRange] at ha ⊢
  rw [int64Min] at hmin
  rcases hone with rfl | rfl | hb
  · rw [Int.tdiv_one, Int.tmod_one] at hq
    omega
  · rw [Int.tdiv_neg, Int.tdiv_one, Int.tmod_neg, Int.tmod_one] at hq
    omega
  · have := natAbs_tdiv_le_half ha hb
    omega

theorem inRange_floorQuotient (hfold : isFoldableDivision a b = true)
    (ha : InRange a) : InRange (floorQuotient a b) := by
  refine inRange_quotient hfold ha ?_
  simp only [floorQuotient]
  split_ifs with h
  · exact .inr ⟨h.1, .inl rfl⟩
  · exact .inl rfl

theorem inRange_ceilQuotient (hfold : isFoldableDivision a b = true)
    (ha : InRange a) : InRange (ceilQuotient a b) := by
  refine inRange_quotient hfold ha ?_
  simp only [ceilQuotient]
  split_ifs with h
  · exact .inr ⟨h.1, .inr rfl⟩
  · exact .inl rfl

theorem natAbs_fdiv_le (ha : a.natAbs ≤ 2 ^ 63) (hb : 2 ≤ b) : (a.fdiv b).natAbs ≤ 2 ^ 62 := by
  rw [Int.fdiv_eq_ediv_of_nonneg _ (by omega)]
  have hlow : -2 ^ 62 ≤ a / b := by
    rw [Int.le_ediv_iff_mul_le (by omega)]
    omega
  have hhigh : a / b ≤ 2 ^ 62 := by
    apply Int.ediv_le_of_le_mul (by omega)
    omega
  omega

/-! ### The rules of `floor_div` -/

/-- A property of nodes that sums and products keep, and that rules out what `floor_div` does
not expect: the least integer, and quotients by divisors that are not positive. -/
structure Tame (P : Int → Prop) (σ : Assignment) (p : Expr → Prop) : Prop extends Closed P p where
  minless : ∀ e, p e → e.op = .integer → e.payload ≠ int64Min
  divisor : ∀ e, p e → (e.op = .floorDiv ∨ e.op = .cleanDiv) → ∀ x c, e.args = [x, c] →
    0 < σ.intOf c
  quotient : ∀ l r, p l → p r → 0 < σ.intOf r → p (quotientNode l r)

section FloorDiv
variable {env : ExprEnv} {P : Int → Prop}

variable {e l r : Expr} {p : Expr → Prop}

theorem Tame.coefficient_ne_min {σ : Assignment} (h : Tame P σ p)
    (he : Everywhere p e) : integerCoefficient e ≠ int64Min := by
  rcases integerCoefficient_cases e with ⟨hint, hc⟩ | hc | ⟨a, ha, -, hint, hc⟩ <;> rw [hc]
  · exact h.minless e he.here hint
  · decide
  · exact h.minless a (he.arg ha).here hint

/-- The common divisor divides the coefficients if none of them is the least integer. -/
theorem Tame.common_dvd_coefficient {σ : Assignment} (h : Tame P σ p) (he : Everywhere p e)
    {g : Int} (hg : ∀ c ∈ coefficients e, g ∣ safeAbs c) :
    ∀ c ∈ coefficients e, g ∣ c := by
  intro c hc
  have hne : c ≠ int64Min := by
    rw [coefficients] at hc
    split at hc
    · obtain ⟨a, ha, rfl⟩ := mem_map.mp hc
      exact h.coefficient_ne_min (he.arg ha)
    · rw [mem_singleton.mp hc]
      exact h.coefficient_ne_min he
  have hdvd := hg c hc
  rw [safeAbs_of_ne_min hne] at hdvd
  exact Int.dvd_natAbs.mp hdvd

theorem intOf_quotient (σ : Assignment) {x c : Expr} (hop : e.op = .floorDiv ∨ e.op = .cleanDiv)
    (hargs : e.args = [x, c]) : σ.intOf e = (σ.intOf x).fdiv (σ.intOf c) := by
  obtain ⟨op, flags, s, payload, args⟩ := e
  obtain rfl : args = [x, c] := hargs
  rcases hop with hop | hop
  · obtain rfl : op = .floorDiv := hop
    rfl
  · obtain rfl : op = .cleanDiv := hop
    rfl

theorem wellFormed_quotientNode (hl : WellFormed env l) (hr : WellFormed env r) :
    WellFormed env (quotientNode l r) :=
  .node
    { arity := two_le_maxArgs
      notFloat := nofun
      integer := nofun
      sum := nofun
      product := nofun
      quotient := fun _ => rfl
      negation := nofun
      choice := nofun } (pair_wellFormed hl hr)

theorem everywhere_pair (hl : Everywhere p l) (hr : Everywhere p r) :
    ∀ i ∈ [l, r], Everywhere p i :=
  forall_mem_cons.mpr ⟨hl, forall_mem_singleton.mpr hr⟩

theorem sum_filter_split (σ : Assignment) (q : Expr → Bool) (l : List Expr) : (l.map σ.intOf).sum =
      ((l.filter q).map σ.intOf).sum + ((l.filter fun a => !q a).map σ.intOf).sum := by
  rw [← sum_append, ← map_append]
  exact ((filter_append_perm q l).map σ.intOf).sum_eq.symm

theorem weightAll_filter_split (q : Expr → Bool) (l : List Expr) :
    weightAll l = weightAll (l.filter q) + weightAll (l.filter fun a => !q a) := by
  rw [← weightAll_append]
  exact (weightAll_perm (filter_append_perm q l)).symm

theorem weightAll_filter_lt (hwf : WellFormed env l) (hadd : l.op = .add) {q : Expr → Bool}
    (hsome : l.args.filter q ≠ []) : weightAll (l.args.filter fun a => !q a) < weight l := by
  have hspl := weightAll_filter_split q l.args
  have hweig : weight l = weightAll l.args := Combines.add.weight_eq hadd
  obtain ⟨a, ha⟩ := exists_mem_of_ne_nil _ hsome
  have hle := weight_le_all ha
  have hpos := (hwf.arg (mem_filter.mp ha).1).weight_pos.1
  omega

theorem WellFormed.quotient_parts (hwf : WellFormed env l)
    (hquot : l.op = .floorDiv ∨ l.op = .cleanDiv) :
    ∃ x c, l.args = [x, c] ∧ l.arg 0 = pure x ∧ l.arg 1 = pure c ∧ weight x < weight l := by
  obtain ⟨x, c, hargs⟩ := length_eq_two.mp (hwf.quotient_length hquot)
  have hweig : weight l = 2 + weightAll l.args := by
    refine weight_of_other ?_ ?_ ?_ <;> rcases hquot with h | h <;> rw [h] <;> nofun
  rw [hargs, weightAll_pair] at hweig
  exact ⟨x, c, hargs, arg_eq (by rw [hargs]; rfl), arg_eq (by rw [hargs]; rfl), by omega⟩

/-- A constructor that returns, and that returns the quotient rounded down if the divisors are
positive. -/
def FloorDivides (env : ExprEnv) (P : Int → Prop) (l r : Expr) (x : Building Expr) : Prop :=
  Fold.Yields P x (WellFormed env) fun e =>
    ∀ σ p, Tame P σ p → Everywhere p l → Everywhere p r → 0 < σ.intOf r →
      σ.intOf e = (σ.intOf l).fdiv (σ.intOf r) ∧ Everywhere p e

section Rules
variable (hP : ∀ v, P v → InRange v) {l r : Expr} (hl : WellFormed env l) (hr : WellFormed env r)
include hP hl hr

variable {next : Expr → Building Expr}

theorem nested_yields {x c : Expr} (hquot : l.op = .floorDiv ∨ l.op = .cleanDiv)
    (hargs : l.args = [x, c]) {Q : Expr → Expr → Prop}
    (hnext : ∀ d, WellFormed env d → Fold.Yields P (next d) (WellFormed env) (Q d)) :
    Fold.Yields P (env.mul c r >>= next) (WellFormed env) fun e => ∃ d, Q d e ∧
      ∀ σ p, Tame P σ p → Everywhere p l → Everywhere p r → 0 < σ.intOf r →
        (Everywhere p x ∧ Everywhere p d) ∧ 0 < σ.intOf d ∧
          (σ.intOf l).fdiv (σ.intOf r) = (σ.intOf x).fdiv (σ.intOf d) := by
  have hx : x ∈ l.args := by simp [hargs]
  have hc : c ∈ l.args := by simp [hargs]
  refine (mul_computes hP (hl.arg hc) hr).bind fun d hd => ?_
  refine (hnext d hd.1).weaken fun e _ hQ hmul => ⟨d, hQ, ?_⟩
  intro σ p htame hpl hpr hpos
  have hposc := htame.divisor l hpl.here hquot x c hargs
  have hval := hmul.1 σ
  have hpd := hmul.2 p htame.toClosed (everywhere_pair (hpl.arg hc) hpr)
  rw [hval, intOf_quotient σ hquot hargs, fdiv_fdiv hposc hpos]
  exact ⟨⟨hpl.arg hx, hpd⟩, Int.mul_pos hposc hpos, rfl⟩

variable (hhalf : ∀ v : Int, v.natAbs ≤ 2 ^ 62 → P v)
include hhalf

omit hP hr in
theorem constants_yields (value : Int → Int → Int) (hintl : l.op = .integer)
    (hintr : r.op = .integer) {q : Int} (hran : InRange q)
    (hval : 0 < r.payload → q = value l.payload r.payload) (hone : r.payload = 1 → q = l.payload)
    (hle : 1 < r.payload → q.natAbs ≤ 2 ^ 62) :
    Fold.Yields P (pure (.integer q) : Building Expr) (WellFormed env) fun e =>
      ∀ σ p, Tame P σ p → Everywhere p l → Everywhere p r → 0 < σ.intOf r →
        σ.intOf e = value (σ.intOf l) (σ.intOf r) ∧ Everywhere p e := by
  refine .pure (.integer hran) fun σ p htame hpl _ hpos => ?_
  rw [σ.intOf_of_integer hintr] at hpos ⊢
  rw [σ.intOf_of_integer hintl, σ.intOf_integer]
  refine ⟨hval hpos, ?_⟩
  by_cases h : r.payload = 1
  · rw [hone h, ← (hl.integer_eq hintl).1]
    exact hpl
  · exact .integer (htame.integer _ (hhalf _ (hle (by omega))))

theorem divideCommon_yields (hzero : l.isZeroInt = false)
    (hcom : 1 < gcdOf (integerFactor l) (integerFactor r))
    {next : Expr → Expr → Building Expr} {Q : Expr → Expr → Expr → Prop}
    (hnext : ∀ l' r', WellFormed env l' → WellFormed env r' → weight l' < weight l →
      Fold.Yields P (next l' r') (WellFormed env) (Q l' r')) :
    Fold.Yields P (do
      let l' ← env.divideCoefficients (gcdOf (integerFactor l) (integerFactor r)) l
      let r' ← env.divideCoefficients (gcdOf (integerFactor l) (integerFactor r)) r
      next l' r') (WellFormed env) fun e => ∃ l' r', Q l' r' e ∧
        ∀ σ p, Tame P σ p → Everywhere p l → Everywhere p r →
          (Everywhere p l' ∧ Everywhere p r') ∧ (0 < σ.intOf r → 0 < σ.intOf r') ∧
            (σ.intOf l).fdiv (σ.intOf r) = (σ.intOf l').fdiv (σ.intOf r') := by
  obtain ⟨hdvdl, hdvdr⟩ := common_dvd l r
  have hlar : ∀ c ∈ coefficients l, gcdOf (integerFactor l) (integerFactor r) ≤ c.natAbs := by
    intro c hc
    obtain ⟨-, hle, hpos, -⟩ := safeAbs_spec c
    exact Int.le_trans (Int.le_of_dvd (hpos (hl.coefficients_ne_zero hzero c hc)) (hdvdl c hc)) hle
  refine (divideCoefficients_yields hP hhalf hcom hl).bind fun l' hl' => ?_
  refine (divideCoefficients_yields hP hhalf hcom hr).bind fun r' hr' => ?_
  refine (hnext l' r' hl'.1 hr'.1 (hl'.2.2 hlar)).weaken ?_
  refine fun e _ hQ hQr hQl => ⟨l', r', hQ, fun σ p htame hpl hpr => ?_⟩
  obtain ⟨hvall, hpl'⟩ := hQl (htame.common_dvd_coefficient hpl hdvdl)
  obtain ⟨hvalr, hpr'⟩ := hQr (htame.common_dvd_coefficient hpr hdvdr)
  have hclos := htame.toClosed
  refine ⟨⟨hpl' p hclos hpl, hpr' p hclos hpr⟩, fun hpos => ?_, ?_⟩
  · rw [hvalr σ] at hpos
    exact Int.pos_of_mul_pos_right hpos (by omega)
  · rw [hvall σ, hvalr σ, Int.mul_fdiv_mul_of_pos _ _ (by omega)]

omit hr in
theorem divideDivisible_yields {d : Int}
    (hone : d ≠ 1) :
    Fold.Yields P (env.divideAll d (l.args.filter (isDivisible d)))
      (fun out => out.length = (l.args.filter (isDivisible d)).length ∧ ∀ t ∈ out, WellFormed env t)
      fun out => 0 < d → (∀ σ : Assignment, ((l.args.filter (isDivisible d)).map σ.intOf).sum =
          d * (out.map σ.intOf).sum) ∧
        ∀ p, Closed P p → Everywhere p l → ∀ t ∈ out, Everywhere p t := by
  have hmem : ∀ a ∈ l.args.filter (isDivisible d), a ∈ l.args :=
    fun a ha => (mem_filter.mp ha).1
  by_cases hd : d ≤ 1
  · rw [divideAll_of_le_one hd]
    refine .pure ⟨rfl, fun t ht => hl.arg (hmem t ht)⟩ fun hpos => ?_
    omega
  · refine (divideAll_yields (by omega) fun a ha => divideCoefficients_yields hP hhalf
      (by omega) (hl.arg (hmem a ha))).imp (fun out h => ⟨h.1, h.2.1⟩) ?_
    intro out _ hQ _
    have hdvd : ∀ a ∈ l.args.filter (isDivisible d), d ∣ integerCoefficient a := by
      intro a ha
      have hdiv := (mem_filter.mp ha).2
      simp only [isDivisible, Bool.and_eq_true, decide_eq_true_iff] at hdiv
      exact Int.dvd_of_tmod_eq_zero hdiv.2
    refine ⟨(hQ hdvd).1, fun p hp hpl => (hQ hdvd).2 p hp fun a ha => ?_⟩
    exact hpl.arg (hmem a ha)

omit hr in
theorem floorDivides_sum (hadd : l.op = .add)
    (hintr : r.op = .integer) (hone : r.payload ≠ 1)
    (hsome : l.args.filter (isDivisible r.payload) ≠ [])
    (hnext : ∀ l', WellFormed env l' → weight l' < weight l → FloorDivides env P l' r (next l')) :
    FloorDivides env P l r (do
      let quotients ← env.divideAll r.payload (l.args.filter (isDivisible r.payload))
      let quotientSum ← env.sumOf quotients
      let remainders := l.args.filter fun a => !isDivisible r.payload a
      if remainders = [] then pure quotientSum
      else do
        let remainderSum ← env.sumOf remainders
        let quotient ← next remainderSum
        env.add quotientSum quotient) := by
  have hmem : ∀ a ∈ l.args.filter (fun a => !isDivisible r.payload a), a ∈ l.args :=
    fun a ha => (mem_filter.mp ha).1
  refine (divideDivisible_yields hP hl hhalf hone).bind fun quotients hq => ?_
  have hqne : quotients ≠ [] := by
    rintro rfl
    exact hsome (length_eq_zero_iff.mp hq.1.symm)
  have hqlen : quotients.length ≤ maxArgs := by
    rw [hq.1]
    exact le_trans (length_filter_le _ _) hl.arity
  refine (sumOf_computes hP hqne hqlen hq.2).bind fun quotientSum hqs => ?_
  have hlig := weightAll_filter_lt hl hadd hsome
  dsimp only
  split_ifs with hnone
  · refine .pure hqs.1 fun hQs hQ σ p htame hpl _ hpos => ?_
    have hclos := htame.toClosed
    rw [σ.intOf_of_integer hintr] at hpos ⊢
    have hall := (hQ hpos).2 p hclos hpl
    refine ⟨?_, hQs.2 p hclos hall⟩
    rw [σ.intOf_add hadd, sum_filter_split σ (isDivisible r.payload), hnone, (hQ hpos).1 σ, hQs.1 σ,
      map_nil, sum_nil, Int.add_zero, Int.mul_fdiv_cancel_left _ (Int.ne_of_gt hpos)]
  · refine (sumOf_computes hP hnone (le_trans (length_filter_le _ _) hl.arity)
      fun t ht => hl.arg (hmem t ht)).bind fun remainderSum hrs => ?_
    refine (hnext remainderSum hrs.1 (by omega)).bind fun quotient hquot => ?_
    refine (add_computes hP hqs.1 hquot).imp (fun _ h => h.1) ?_
    intro e _ hQe hQq hQr hQs hQ σ p htame hpl hpr hpos
    have hclos := htame.toClosed
    have hprem : Everywhere p remainderSum := hQr.2 p hclos fun t ht => hpl.arg (hmem t ht)
    obtain ⟨hvalq, hpq⟩ := hQq σ p htame hprem hpr hpos
    rw [σ.intOf_of_integer hintr] at hpos hvalq ⊢
    have hpqs : Everywhere p quotientSum := hQs.2 p hclos ((hQ hpos).2 p hclos hpl)
    refine ⟨?_, hQe.2 p hclos (everywhere_pair hpqs hpq)⟩
    have hvale := hQe.1 σ
    have hvalr := hQr.1 σ
    have hvals := hQs.1 σ
    simp only at hvale hvalr hvals
    have hspl := sum_filter_split σ (isDivisible r.payload) l.args
    rw [(hQ hpos).1 σ, Int.add_comm, Int.mul_comm] at hspl
    rw [hvale, hvalq, hvalr, hvals, σ.intOf_add hadd, hspl,
      Int.add_mul_fdiv_right _ _ (Int.ne_of_gt hpos), Int.add_comm]

end Rules

variable (hP : ∀ v, P v → InRange v) (hhalf : ∀ v : Int, v.natAbs ≤ 2 ^ 62 → P v)
include hP hhalf

/-- **`floor_div` returns, and rounds down under positive divisors.** -/
theorem floorDivCalls_divides {calls : Nat} (hl : WellFormed env l) (hr : WellFormed env r)
    (hcal : weight l < calls) :
    FloorDivides env P l r (env.floorDivCalls calls l r) := by
  induction calls generalizing l r with
  | zero => omega
  | succ calls ih =>
    rw [floorDivCalls]
    split_ifs with hints hzero hone hneg hsame hquot hsum
    · obtain ⟨hintl, hintr, hfold⟩ := hints
      have hran := (hl.integer_eq hintl).2
      refine constants_yields hl hhalf Int.fdiv hintl hintr (inRange_floorQuotient hfold hran)
        (floorQuotient_eq _) (fun h => ?_) fun h => ?_
      · rw [floorQuotient_eq _ (by omega), h, Int.fdiv_one]
      · rw [floorQuotient_eq _ (by omega)]
        exact natAbs_fdiv_le (natAbs_le_of_inRange hran) (by omega)
    · refine .pure (.integer (by decide)) fun σ p htame _ _ _ => ⟨?_, .integer htame.zero⟩
      rw [intOf_isZeroInt σ hzero, σ.intOf_integer, Int.zero_fdiv]
    · refine .pure hl fun σ p _ hpl _ _ => ⟨?_, hpl⟩
      rw [intOf_isOne σ hone, Int.fdiv_one]
    · refine (neg_computes hP hl).imp (fun _ h => h.1) fun e _ _ σ p _ _ _ hpos => ?_
      obtain ⟨hop, hv⟩ := r.isNegOne_iff.mp hneg
      rw [σ.intOf_of_integer hop, hv] at hpos
      exact absurd hpos (by decide)
    · obtain rfl := (env.same_iff l r).mp hsame
      refine .pure (.integer (by decide)) fun σ p htame _ _ hpos => ⟨?_, .integer htame.one⟩
      rw [σ.intOf_integer, Int.fdiv_self (Int.ne_of_gt hpos)]
    · obtain ⟨x, c, hargs, hx, hc, hlt⟩ := hl.quotient_parts hquot
      have hwfx : WellFormed env x := hl.arg (by simp [hargs])
      rw [hx, Fold.pure_then, hc, Fold.pure_then]
      refine (nested_yields hP hl hr hquot hargs fun d hd => ih hwfx hd (by omega)).weaken ?_
      rintro e - ⟨d, hQ, hsame⟩ σ p htame hpl hpr hpos
      obtain ⟨⟨hpx, hpd⟩, hposd, hval⟩ := hsame σ p htame hpl hpr hpos
      rw [hval]
      exact hQ σ p htame hpx hpd hposd
    · obtain ⟨hadd, hintr, -, hsome⟩ := hsum
      refine floorDivides_sum hP hl hhalf hadd hintr ?_ hsome fun l' hl' hlt =>
        ih hl' hr (by omega)
      exact fun h => hone (r.isOne_iff.mpr ⟨hintr, h⟩)
    · dsimp only
      split_ifs with hcom
      · refine (divideCommon_yields hP hl hr hhalf (by simpa using hzero) hcom
          fun l' r' hl' hr' hlt => ih hl' hr' (by omega)).weaken ?_
        rintro e - ⟨l', r', hQ, hsame⟩ σ p htame hpl hpr hpos
        obtain ⟨⟨hpl', hpr'⟩, hpos', hval⟩ := hsame σ p htame hpl hpr
        rw [hval]
        exact hQ σ p htame hpl' hpr' (hpos' hpos)
      · refine .pure (wellFormed_quotientNode hl hr) fun σ p htame hpl hpr hpos => ⟨?_, ?_⟩
        · exact intOf_quotient σ (.inl rfl) rfl
        · exact .node (htame.quotient l r hpl.here hpr.here hpos) (everywhere_pair hpl hpr)

theorem floorDiv_divides (hl : WellFormed env l) (hr : WellFormed env r) :
    FloorDivides env P l r (env.floorDiv l r) :=
  floorDivCalls_divides hP hhalf hl hr (lt_add_one _)

/-- **`ceil_div` returns, and rounds up under positive divisors.** -/
theorem ceilDiv_yields (hl : WellFormed env l) (hr : WellFormed env r) :
    Fold.Yields P (env.ceilDiv l r) (WellFormed env) fun e =>
      ∀ σ p, Tame P σ p → Everywhere p l → Everywhere p r → 0 < σ.intOf r →
        σ.intOf e = (σ.intOf l + (σ.intOf r - 1)).fdiv (σ.intOf r) ∧ Everywhere p e := by
  rw [ceilDiv]
  split_ifs with hints
  · obtain ⟨hintl, hintr, hfold⟩ := hints
    have hran := (hl.integer_eq hintl).2
    refine constants_yields hl hhalf (fun a b => (a + (b - 1)).fdiv b) hintl hintr
      (inRange_ceilQuotient hfold hran) (ceilQuotient_eq _) (fun h => ?_) fun h => ?_
    · rw [ceilQuotient_eq _ (by omega), h, Int.sub_self, Int.add_zero, Int.fdiv_one]
    · rw [ceilQuotient_eq _ (by omega), add_sub_one_fdiv (by omega), Int.natAbs_neg]
      refine natAbs_fdiv_le ?_ (by omega)
      rw [Int.natAbs_neg]
      exact natAbs_le_of_inRange hran
  · refine (add_computes hP hr (.integer (by decide))).bind fun less hless => ?_
    refine (add_computes hP hl hless.1).bind fun sum hsum => ?_
    refine (floorDiv_divides hP hhalf hsum.1 hr).weaken ?_
    intro e _ hQ hQs hQl σ p htame hpl hpr hpos
    have hclos := htame.toClosed
    have hpless := hQl.2 p hclos
      (everywhere_pair hpr (.integer (hclos.small (-1) (by decide) (by decide))))
    have hpsum := hQs.2 p hclos (everywhere_pair hpl hpless)
    obtain ⟨hval, hpe⟩ := hQ σ p htame hpsum hpr hpos
    refine ⟨?_, hpe⟩
    have hvals := hQs.1 σ
    have hvall := hQl.1 σ
    simp only [σ.intOf_integer] at hvals hvall
    rw [hval, hvals, hvall]
    rfl

end FloorDiv
end Crucible
