import Crucible.ExprMethods

/-! # What the flags of a node say

The sign, zero and parity flags of a node are claims about its value.  Expressions are built by
a sequence of calls over integer symbols; the same sequence is run again with integers in the
place of the symbols.  If every call is within its domain, the flags of each symbolic node are
true of the constant that the second run builds for it.
-/
namespace Crucible
open List Assignment
open Saturating

/-! ### The flags of integers -/

/-- The sign, zero and parity flags that are set are true of the value. -/
def FlagsHold (flags : Flags) (v : Int) : Prop :=
  (flags &&& .isPositive ≠ 0 → 0 < v) ∧ (flags &&& .isNegative ≠ 0 → v < 0) ∧
    (flags &&& .isNonnegative ≠ 0 → 0 ≤ v) ∧ (flags &&& .isNonpositive ≠ 0 → v ≤ 0) ∧
    (flags &&& .isZero ≠ 0 → v = 0) ∧ (flags &&& .isEven ≠ 0 → v % 2 = 0) ∧
    (flags &&& .isOdd ≠ 0 → v % 2 = 1)

instance (flags : Flags) (v : Int) : Decidable (FlagsHold flags v) :=
  inferInstanceAs (Decidable (_ ∧ _))

def valueFlags : List Flags :=
  [.isPositive, .isNegative, .isNonnegative, .isNonpositive, .isZero, .isEven, .isOdd]

variable {flags mask : Flags} {v : Int}

theorem FlagsHold.mono {flags' : Flags} (h : FlagsHold flags v)
    (hsub : ∀ m ∈ valueFlags, flags' &&& m ≠ 0 → flags &&& m ≠ 0) : FlagsHold flags' v := by
  obtain ⟨hpos, hneg, hnon, hnonp, hzero, heven, hodd⟩ := h
  refine ⟨fun hm => hpos ?_, fun hm => hneg ?_, fun hm => hnon ?_, fun hm => hnonp ?_,
    fun hm => hzero ?_, fun hm => heven ?_, fun hm => hodd ?_⟩ <;>
    exact hsub _ (by simp [valueFlags]) hm

theorem flagsHold_zero (v : Int) : FlagsHold 0 v := by
  refine ⟨?_, ?_, ?_, ?_, ?_, ?_, ?_⟩ <;> exact fun h => absurd (by decide) h

def Silent (mask : Flags) : Prop := ∀ m ∈ valueFlags, mask &&& m = 0

theorem silent_iff (mask : Flags) : Silent mask ↔ mask &&& .isPositive = 0 ∧
    mask &&& .isNegative = 0 ∧ mask &&& .isNonnegative = 0 ∧ mask &&& .isNonpositive = 0 ∧
    mask &&& .isZero = 0 ∧ mask &&& .isEven = 0 ∧ mask &&& .isOdd = 0 := by
  simp only [Silent, valueFlags, mem_cons, not_mem_nil, or_false, forall_eq_or_imp, forall_eq]

theorem Silent.hold (h : Silent mask) (v : Int) : FlagsHold mask v :=
  (flagsHold_zero v).mono fun m hm hne => absurd (h m hm) hne

theorem Silent.and_left (h : Silent mask) (flags : Flags) : Silent (flags &&& mask) := by
  intro m hm
  rw [BitVec.and_assoc, h m hm]
  exact BitVec.and_zero

theorem FlagsHold.or_silent (h : FlagsHold flags v)
    (hmask : Silent mask) : FlagsHold (flags ||| mask) v := by
  refine h.mono fun m hm hne hzero => hne ?_
  rw [BitVec.and_comm, BitVec.and_or_distrib_left, BitVec.and_comm m, BitVec.and_comm m, hzero,
    hmask m hm]
  rfl

theorem FlagsHold.and (h : FlagsHold flags v) (mask : Flags) : FlagsHold (flags &&& mask) v := by
  refine h.mono fun m _ hne hzero => hne ?_
  rw [BitVec.and_assoc, BitVec.and_comm mask, ← BitVec.and_assoc, hzero]
  exact BitVec.zero_and

theorem silent_numericFlags : Silent numericFlags := (silent_iff _).mpr (by decide)

theorem silent_isInteger : Silent .isInteger := (silent_iff _).mpr (by decide)

theorem silent_isSymbol : Silent .isSymbol := (silent_iff _).mpr (by decide)

theorem silent_isBoolean : Silent .isBoolean := (silent_iff _).mpr (by decide)

theorem silent_real : Silent (Flags.isReal ||| .isFinite) ∧
    Silent (Flags.isReal ||| .isFinite ||| .isNumber) :=
  ⟨(silent_iff _).mpr (by decide), (silent_iff _).mpr (by decide)⟩

theorem flagsHold_nonnegative (h : 0 ≤ v) : FlagsHold .isNonnegative v :=
  ⟨fun hm => absurd (by decide) hm, fun hm => absurd (by decide) hm, fun _ => h,
    fun hm => absurd (by decide) hm, fun hm => absurd (by decide) hm,
    fun hm => absurd (by decide) hm, fun hm => absurd (by decide) hm⟩

/-- **The flags of a constant are true of it.** -/
theorem flagsHold_integerFlags (v : Int) : FlagsHold (integerFlags v) v := by
  simp only [integerFlags]
  split_ifs with hpos heven heven hneg heven <;>
    refine ⟨?_, ?_, ?_, ?_, ?_, ?_, ?_⟩ <;> intro hm <;>
    first | omega | exact absurd (by decide) hm

/-! ### The flags of nodes -/

/-- The flags of a node are true of its value, and the node is one that the constructors
expect. -/
def FlagSafe (σ : Assignment) (e : Expr) : Prop :=
  FlagsHold e.flags (σ.intOf e) ∧ IndexSafe σ e

section Nodes
variable {σ : Assignment}

theorem flagSafe_of_silent {e : Expr} (hflags : Silent e.flags) (hint : e.op ≠ .integer)
    (hdiv : e.op ≠ .floorDiv) (hclean : e.op ≠ .cleanDiv) : FlagSafe σ e :=
  ⟨hflags.hold _, indexSafe_of_other hint hdiv hclean⟩

theorem flagSafe_integer {v : Int} (h : v.natAbs < 2 ^ 63 - 1) : FlagSafe σ (.integer v) := by
  refine ⟨?_, (tame_indexSafe σ).integer v h⟩
  exact flagsHold_integerFlags v

theorem flagSafe_quotientNode {l r : Expr} (hl : FlagSafe σ l) (hr : FlagSafe σ r)
    (hpos : 0 < σ.intOf r) : FlagSafe σ (ExprEnv.quotientNode l r) := by
  refine ⟨?_, (tame_indexSafe σ).quotient l r hl.2 hr.2 hpos⟩
  simp only [ExprEnv.quotientNode, Expr.flags_mk]
  split_ifs with hsign
  · rw [BitVec.or_comm]
    refine FlagsHold.or_silent (flagsHold_nonnegative ?_) silent_isInteger
    have hnon : 0 ≤ σ.intOf l := hl.1.2.2.1 (by simpa [Expr.has] using hsign.1)
    exact Int.fdiv_nonneg hnon (Int.le_of_lt hpos)
  · exact FlagsHold.or_silent (silent_isInteger.hold _) (fun _ _ => BitVec.zero_and)

theorem tame_flagSafe (σ : Assignment) :
    TameIndex (fun v => v.natAbs < 2 ^ 63 - 1) σ (FlagSafe σ) where
  composite := by
    rintro op args (rfl | rfl) <;>
      exact flagSafe_of_silent (silent_numericFlags.and_left _) nofun nofun nofun
  power := fun args => flagSafe_of_silent (silent_real.1.and_left _) nofun nofun nofun
  integer := fun v hv => flagSafe_integer hv
  small := fun v hlow hhigh => flagSafe_integer (by omega)
  minless := fun e he => (tame_indexSafe σ).minless e he.2
  divisor := fun e he => (tame_indexSafe σ).divisor e he.2
  quotient := fun l r hl hr hpos => flagSafe_quotientNode hl hr hpos
  inside := fun e he => (tame_indexSafe σ).inside e he.2

theorem closedLogic_flagSafe (σ : Assignment) : ClosedLogic (FlagSafe σ) where
  truth := by
    intro op args hop
    refine flagSafe_of_silent silent_isBoolean ?_ ?_ ?_ <;> rintro rfl <;>
      exact absurd hop (by decide)
  choice := by
    rintro op args (rfl | rfl) <;>
      exact flagSafe_of_silent (silent_numericFlags.and_left _) nofun nofun nofun
  either := by
    intro cond a b ha hb
    refine ⟨?_, indexSafe_of_other nofun nofun nofun⟩
    have hval : σ.intOf (.mk .whereOp (a.flags &&& b.flags) 0 0 [cond, a, b]) =
        if σ.boolOf cond then σ.intOf a else σ.intOf b := by
      show (if σ.boolOf cond then σ.eval a else σ.eval b).int = _
      split <;> rfl
    rw [hval, Expr.flags_mk]
    split
    · exact ha.1.and _
    · rw [BitVec.and_comm]
      exact hb.1.and _

theorem flagSafe_symbol {id : BitVec 32} {flags : Flags} {name : Int}
    (h : FlagsHold flags (σ.int id)) : FlagSafe σ (.symbol id flags name) := by
  refine ⟨?_, indexSafe_of_other nofun nofun nofun⟩
  exact h.or_silent silent_isSymbol

theorem flagSafe_of_nonnegative {e : Expr} (hflags : e.flags = .isInteger ||| .isNonnegative)
    (hval : 0 ≤ σ.intOf e) (hint : e.op ≠ .integer) (hdiv : e.op ≠ .floorDiv)
    (hclean : e.op ≠ .cleanDiv) : FlagSafe σ e := by
  refine ⟨?_, indexSafe_of_other hint hdiv hclean⟩
  rw [hflags, BitVec.or_comm]
  exact (flagsHold_nonnegative hval).or_silent silent_isInteger

theorem flagSafe_parity {e : Expr} (h : FlagSafe σ e) : Parity σ e := by
  obtain ⟨-, -, -, -, -, heven, hodd⟩ := h.1
  exact ⟨fun hm => heven (by simpa [Expr.has] using hm),
    fun hm => hodd (by simpa [Expr.has] using hm)⟩

theorem unnamed_cases {op : Op} {n : Nat} (hnone : Ctor.named op n = none)
    (hacc : (Ctor.make op).Accepts n) :
    op = .identity ∨ op = .abs ∨ ∀ args, Silent (compositeFlags op args) := by
  have hband : (opArityBand op).1 ≤ (opArityBand op).2 := hacc.1.trans hacc.2
  cases op
  case identity => exact .inl rfl
  case abs => exact .inr (.inl rfl)
  case integer | float | symbol | boolTrue | boolFalse => exact absurd hband (by decide)
  case lshift | rshift | ceilToInt | floorToInt | truncToInt | roundToInt | bitwiseAnd |
      bitwiseOr | bitwiseXor | powByNatural | isNonOverlappingAndDense =>
    exact .inr (.inr fun _ => silent_numericFlags)
  case floatTrueDiv | intTrueDiv | toFloat | truncToFloat | floatPow | roundDecimal | sqrt |
      cos | sin | tan | cosh | sinh | tanh | asin | acos | atan | exp | log | asinh | log2 =>
    exact .inr (.inr fun _ => silent_real.2)
  -- the others are methods
  all_goals
    exfalso
    rw [Ctor.named.eq_def] at hnone
    split at hnone <;> simp_all

theorem flagSafe_unnamed {op : Op} {args : List Expr} (hnone : Ctor.named op args.length = none)
    (hacc : (Ctor.make op).Accepts args.length) (hargs : ∀ a ∈ args, FlagSafe σ a) :
    FlagSafe σ (.composite op args) := by
  have hplain := plain_of_unnamed hnone hacc
  have hsafe : IndexSafe σ (.composite op args) :=
    indexSafe_of_other hplain.2.1 hplain.2.2.2.2.1 hplain.2.2.2.2.2.1
  refine ⟨?_, hsafe⟩
  rcases unnamed_cases hnone hacc with rfl | rfl | hsil
  · obtain ⟨a, rfl⟩ := length_eq_one_iff.mp (le_antisymm hacc.2 hacc.1)
    exact (hargs a mem_cons_self).1
  · obtain ⟨a, rfl⟩ := length_eq_one_iff.mp (le_antisymm hacc.2 hacc.1)
    show FlagsHold (a.flags &&& numericFlags ||| .isNonnegative) |σ.intOf a|
    rw [BitVec.or_comm]
    exact (flagsHold_nonnegative (abs_nonneg _)).or_silent (silent_numericFlags.and_left _)
  · exact (hsil args).hold _

end Nodes

/-! ### One call -/

/-- What a call expects of the values of its operands. -/
def InDomain (op : Op) (ints : List Int) : Prop :=
  match op, ints with
  | .floorDiv, [_, r] | .cleanDiv, [_, r] | .ceilDiv, [_, r] | .pythonMod, [_, r] => 0 < r
  | .mod, [l, r] => 0 ≤ l ∧ 0 < r
  | .modularIndexing, [_, div, modulus] => 0 < div ∧ 0 < modulus
  | _, _ => True

/-- A constant, given or folded, that is not at the edge of the type. -/
def Inside (v : Int) : Prop := v.natAbs < 2 ^ 63 - 1

instance (v : Int) : Decidable (Inside v) := inferInstanceAs (Decidable (_ < _))

theorem Inside.inRange (v : Int) (h : Inside v) : InRange v := by
  rw [Inside] at h
  rw [InRange]
  omega

theorem inside_of_half (v : Int) (h : v.natAbs ≤ 2 ^ 62) : Inside v := by
  rw [Inside]
  omega

section Calls
variable {env : ExprEnv} {σ : Assignment} {args : List Expr}

/-- A call within its domain returns the value of the operation, with flags that hold. -/
def Respects (env : ExprEnv) (σ : Assignment) (op : Op) (args : List Expr) (x : Building Expr) :
    Prop :=
  Fold.Yields Inside x (WellFormed env) fun e =>
    (∀ a ∈ args, Everywhere (FlagSafe σ) a) → InDomain op (args.map σ.intOf) →
      Returns σ op args e ∧ Everywhere (FlagSafe σ) e

variable {l r : Expr}

theorem respects_floorDiv {op : Op} (hop : op = .floorDiv ∨ op = .cleanDiv)
    (hl : WellFormed env l) (hr : WellFormed env r) :
    Respects env σ op [l, r] (env.floorDiv l r) := by
  refine (floorDiv_divides Inside.inRange inside_of_half hl hr).weaken ?_
  intro e _ hQ hargs hdom
  have hpos : 0 < σ.intOf r := by
    rcases hop with rfl | rfl <;> exact hdom
  obtain ⟨hval, hpe⟩ := hQ σ _ (tame_flagSafe σ).toTame (hargs l (by simp)) (hargs r (by simp)) hpos
  refine ⟨?_, hpe⟩
  rcases hop with rfl | rfl <;> rw [Returns, if_neg (by decide), if_pos (by decide)] <;> exact hval

theorem respects_ceilDiv (hl : WellFormed env l) (hr : WellFormed env r) :
    Respects env σ .ceilDiv [l, r] (env.ceilDiv l r) := by
  refine (ceilDiv_yields Inside.inRange inside_of_half hl hr).weaken ?_
  intro e _ hQ hargs hpos
  obtain ⟨hval, hpe⟩ := hQ σ _ (tame_flagSafe σ).toTame (hargs l (by simp)) (hargs r (by simp)) hpos
  refine ⟨?_, hpe⟩
  rw [Returns, if_neg (by decide), if_pos (by decide), hval, add_sub_one_fdiv hpos]
  rfl

theorem respects_mod (hl : WellFormed env l) (hr : WellFormed env r) :
    Respects env σ .mod [l, r] (pure (env.mod l r)) := by
  obtain ⟨hwf, hvalue⟩ := mod_spec inside_of_half hl hr
  refine .pure hwf fun hargs hdom => ?_
  obtain ⟨hnon, hpos⟩ : 0 ≤ σ.intOf l ∧ 0 < σ.intOf r := hdom
  have hpar := flagSafe_parity (hargs l (by simp)).here
  obtain ⟨hval, hpe⟩ := hvalue σ hpar hnon hpos
  refine ⟨?_, hpe _ (tame_flagSafe σ).toClosed ?_ hargs⟩
  · rw [Returns, if_neg (by decide), if_pos (by decide)]
    exact hval
  · refine flagSafe_of_nonnegative rfl ?_ (by rintro ⟨⟩) (by rintro ⟨⟩) (by rintro ⟨⟩)
    exact Int.tmod_nonneg _ hnon

theorem respects_pythonMod (hl : WellFormed env l) (hr : WellFormed env r) :
    Respects env σ .pythonMod [l, r] (env.pythonMod l r) := by
  refine (pythonMod_yields Inside.inRange inside_of_half hl hr).weaken ?_
  intro e _ hQ hargs hpos
  have hpar := flagSafe_parity (hargs l (by simp)).here
  obtain ⟨hval, hpe⟩ := hQ σ hpar hpos
  refine ⟨?_, hpe _ (tame_flagSafe σ).toClosed ?_ hargs⟩
  · rw [Returns, if_neg (by decide), if_pos (by decide)]
    exact hval
  · exact flagSafe_of_silent silent_isInteger (by rintro ⟨⟩) (by rintro ⟨⟩) (by rintro ⟨⟩)

theorem respects_modularIndexing {base div modulus : Expr} (hb : WellFormed env base)
    (hd : WellFormed env div) (hm : WellFormed env modulus) :
    Respects env σ .modularIndexing [base, div, modulus]
    (env.modularIndexing base div modulus) := by
  refine (modularIndexing_indexes Inside.inRange inside_of_half hb hd hm).weaken ?_
  intro e _ hQ hargs hdom
  obtain ⟨hposd, hposm⟩ : 0 < σ.intOf div ∧ 0 < σ.intOf modulus := hdom
  obtain ⟨hval, hpe⟩ := hQ σ _ (tame_flagSafe σ) (hargs base (by simp)) (hargs div (by simp))
    hposd hposm
  refine ⟨?_, hpe (fun b d hd => ?_) (hargs modulus (by simp))⟩
  · rw [Returns, if_neg (by decide), if_pos (by decide)]
    exact hval
  · refine flagSafe_of_nonnegative rfl ?_ (by rintro ⟨⟩) (by rintro ⟨⟩) (by rintro ⟨⟩)
    exact (fmod_bounds _ hposm).1

/-- **The methods respect the flags.** -/
theorem method_respects {c : Ctor} (hmake : ∀ op, c ≠ .make op)
    (hacc : c.Accepts args.length) (hwf : ∀ a ∈ args, WellFormed env a) :
    Respects env σ c.op args (c.run env args) := by
  by_cases hval : c.op ∈ valueOps
  · refine (run_sound Inside.inRange hval hmake hacc hwf).weaken ?_
    intro e _ hQ hargs _
    exact ⟨hQ.1 σ, hQ.2 _ (tame_flagSafe σ).toClosed (closedLogic_flagSafe σ) hargs⟩
  obtain ⟨hleast, hmost⟩ := hacc
  cases c
  case make op => exact absurd rfl (hmake op)
  case modularIndexing =>
    obtain ⟨base, div, modulus, rfl⟩ := length_eq_three.mp (le_antisymm hmost hleast)
    exact respects_modularIndexing (hwf base (by simp)) (hwf div (by simp)) (hwf modulus (by simp))
  all_goals try exact absurd (show _ ∈ valueOps by decide) hval
  all_goals obtain ⟨l, r, rfl, hl, hr⟩ := two_operands hwf ⟨hleast, hmost⟩
  case floorDiv => exact respects_floorDiv (.inl rfl) hl hr
  case cleanDiv => exact respects_floorDiv (.inr rfl) hl hr
  case ceilDiv => exact respects_ceilDiv hl hr
  case mod => exact respects_mod hl hr
  case pythonMod => exact respects_pythonMod hl hr

/-- **Every constructor respects the flags.** -/
theorem run_respects {c : Ctor} (hacc : c.Accepts args.length)
    (hwf : ∀ a ∈ args, WellFormed env a) : Respects env σ c.op args (c.run env args) := by
  by_cases hmake : ∀ op, c ≠ .make op
  · exact method_respects hmake hacc hwf
  · obtain ⟨op, rfl⟩ : ∃ op, c = .make op := by
      simpa using hmake
    have hlen : args.length ≤ maxArgs := by
      refine hacc.2.trans ?_
      cases op <;> decide
    show Respects env σ op args (env.make op args)
    rcases make_cases env hacc with ⟨c, -, rfl, hmake, hacc', hrun⟩ | ⟨hnone, hrun⟩
    · rw [hrun]
      exact method_respects hmake hacc' hwf
    · rw [hrun]
      refine .pure (.plain (plain_of_unnamed hnone hacc) hlen hwf) fun hargs _ => ⟨?_, ?_⟩
      · have hnode : σ.eval (.composite op args) = σ.apply op 0 0 (args.map σ.eval) := by
          rw [Expr.composite, σ.eval_mk]
        rw [Returns, boolOf, intOf, hnode]
        split_ifs <;> rfl
      · refine .composite (flagSafe_unnamed hnone hacc fun a ha => (hargs a ha).here) hargs

end Calls

/-! ### Kinds -/

/-- What a value is used as. -/
inductive Kind where
  | int | bool
deriving DecidableEq

def arithmeticOps : List Op := .abs :: integerOps

/-- The operations whose operands and value have kinds. -/
inductive Typed : Op → List Kind → Kind → Prop where
  | arithmetic {op : Op} {ks : List Kind} : op ∈ arithmeticOps → (∀ k ∈ ks, k = .int) →
    Typed op ks .int
  | relation {op : Op} {ks : List Kind} : op ∈ [Op.eq, .ne, .lt, .le, .gt, .ge] →
    (∀ k ∈ ks, k = .int) → Typed op ks .bool
  | logic {op : Op} {ks : List Kind} : op ∈ [Op.and, .or, .not] → (∀ k ∈ ks, k = .bool) →
    Typed op ks .bool
  | either (k : Kind) : Typed .whereOp [.bool, k, k] k
  | identity (k : Kind) : Typed .identity [k] k
  | unknown {op : Op} {ks : List Kind} (k : Kind) :
    op ∉ arithmeticOps → op ∉ truthOps → op ∉ [Op.whereOp, .identity, .integer, .symbol] →
    Typed op ks k

/-- Two values are the same as far as the kind goes. -/
def Agree : Kind → Value → Value → Prop
  | .int, v, w => v.int = w.int
  | .bool, v, w => v.bool = w.bool

/-- Two lists of values agree, each pair in its kind. -/
inductive Agreeing : List Kind → List Value → List Value → Prop where
  | nil : Agreeing [] [] []
  | cons {k : Kind} {v w : Value} {ks : List Kind} {vs ws : List Value} :
    Agree k v w → Agreeing ks vs ws → Agreeing (k :: ks) (v :: vs) (w :: ws)

theorem agreeing_map {ι : Type} {f : ι → Kind} {g h : ι → Value} {l : List ι}
    (hall : ∀ i ∈ l, Agree (f i) (g i) (h i)) : Agreeing (l.map f) (l.map g) (l.map h) := by
  induction l with
  | nil => exact .nil
  | cons i l ih =>
    exact .cons (hall i mem_cons_self) (ih fun j hj => hall j (mem_cons_of_mem _ hj))

section Agree
variable {ks : List Kind} {vs ws : List Value}

theorem Agreeing.map_eq {k : Kind} {β : Type} {f : Value → β} (h : Agreeing ks vs ws)
    (hks : ∀ k' ∈ ks, k' = k) (hf : ∀ v w, Agree k v w → f v = f w) : vs.map f = ws.map f := by
  induction h with
  | nil => rfl
  | cons hagr _ ih =>
    rw [forall_mem_cons] at hks
    obtain ⟨rfl, hks⟩ := hks
    rw [map_cons, map_cons, hf _ _ hagr, ih hks]

theorem Agreeing.ints (h : Agreeing ks vs ws) (hks : ∀ k ∈ ks, k = .int) :
    vs.map Value.int = ws.map Value.int := h.map_eq hks fun _ _ hagr => hagr

theorem Agreeing.bools (h : Agreeing ks vs ws) (hks : ∀ k ∈ ks, k = .bool) :
    vs.map Value.bool = ws.map Value.bool := h.map_eq hks fun _ _ hagr => hagr

theorem nth_int (vs : List Value) (i : Nat) :
    (vs[i]?.getD ⟨0, false⟩).int = (vs.map Value.int)[i]?.getD 0 := by
  rw [getElem?_map]
  cases vs[i]? <;> rfl

theorem nth_bool (vs : List Value) (i : Nat) :
    (vs[i]?.getD ⟨0, false⟩).bool = (vs.map Value.bool)[i]?.getD false := by
  rw [getElem?_map]
  cases vs[i]? <;> rfl

variable {op : Op}

theorem apply_int_congr (σ : Assignment) (hop : op ∈ arithmeticOps)
    (h : vs.map Value.int = ws.map Value.int) :
    (σ.apply op 0 0 vs).int = (σ.apply op 0 0 ws).int := by
  simp only [arithmeticOps, integerOps, mem_cons, not_mem_nil, or_false] at hop
  rcases hop with rfl | rfl | rfl | rfl | rfl | rfl | rfl | rfl | rfl | rfl | rfl | rfl | rfl <;>
    simp only [apply, nth_int, h]

theorem apply_relation_congr (σ : Assignment)
    (hop : op ∈ [Op.eq, .ne, .lt, .le, .gt, .ge]) (h : vs.map Value.int = ws.map Value.int) :
    (σ.apply op 0 0 vs).bool = (σ.apply op 0 0 ws).bool := by
  simp only [mem_cons, not_mem_nil, or_false] at hop
  rcases hop with rfl | rfl | rfl | rfl | rfl | rfl <;> simp only [apply, nth_int, h]

theorem apply_logic_congr (σ : Assignment) (hop : op ∈ [Op.and, .or, .not])
    (h : vs.map Value.bool = ws.map Value.bool) :
    (σ.apply op 0 0 vs).bool = (σ.apply op 0 0 ws).bool := by
  have hall : vs.all Value.bool = ws.all Value.bool := by
    have := congrArg (all · id) h
    simpa only [all_map, Function.id_comp] using this
  have hany : vs.any Value.bool = ws.any Value.bool := by
    have := congrArg (any · id) h
    simpa only [any_map, Function.id_comp] using this
  simp only [mem_cons, not_mem_nil, or_false] at hop
  rcases hop with rfl | rfl | rfl
  · exact hall
  · exact hany
  · simp only [apply, nth_bool, h]

variable {k : Kind}

/-- **Operands that agree give values that agree**, for an operation on kinds. -/
theorem Typed.agree (ints : BitVec 32 → Int) (htyp : Typed op ks k) (h : Agreeing ks vs ws) :
    Agree k ((ofInts ints).apply op 0 0 vs)
      ((ofInts ints).apply op 0 0 ws) := by
  cases htyp with
  | arithmetic hop hks => exact apply_int_congr _ hop (h.ints hks)
  | relation hop hks => exact apply_relation_congr _ hop (h.ints hks)
  | logic hop hks => exact apply_logic_congr _ hop (h.bools hks)
  | either =>
    obtain _ | ⟨hcond, _ | ⟨hthen, _ | ⟨helse, ⟨⟩⟩⟩⟩ := h
    simp only [Agree] at hcond
    simp only [apply, getElem?_cons_zero, getElem?_cons_succ, Option.getD_some, hcond]
    split
    · exact hthen
    · exact helse
  | identity =>
    obtain _ | ⟨hone, ⟨⟩⟩ := h
    exact hone
  | unknown k harith htruth hrest =>
    have hoth : ∀ vs, (ofInts ints).apply op 0 0 vs = ⟨0, false⟩ := by
      intro vs
      cases op <;> first | rfl | exact absurd (by decide) harith | exact absurd (by decide) htruth |
        exact absurd (by decide) hrest
    rw [hoth, hoth]
    cases k <;> rfl

theorem Agree.of_eq {v w : Value} (h : v = w) (k : Kind) : Agree k v w := by
  subst h
  cases k <;> rfl

theorem Returns.agree {σ : Assignment} {args : List Expr} {e : Expr}
    (h : Returns σ op args e) (htyp : Typed op ks k) :
    Agree k (σ.eval e) (σ.apply op 0 0 (args.map σ.eval)) := by
  rw [Returns] at h
  cases htyp with
  | arithmetic hop _ =>
    rcases mem_cons.mp hop with rfl | hop
    · rw [if_neg (by decide), if_neg (by decide)] at h
      exact .of_eq h _
    · have hnot : ∀ op ∈ integerOps, op ∉ truthOps := by decide
      rw [if_neg (hnot op hop), if_pos hop] at h
      exact h
  | relation hop _ =>
    have htruth : ∀ op ∈ [Op.eq, .ne, .lt, .le, .gt, .ge], op ∈ truthOps := by decide
    rw [if_pos (htruth op hop)] at h
    exact h
  | logic hop _ =>
    have htruth : ∀ op ∈ [Op.and, .or, .not], op ∈ truthOps := by decide
    rw [if_pos (htruth op hop)] at h
    exact h
  | either =>
    exact .of_eq h _
  | identity =>
    exact .of_eq h _
  | unknown k harith htruth _ =>
    rw [if_neg htruth, if_neg fun hop => harith (mem_cons_of_mem _ hop)] at h
    exact .of_eq h _

theorem inDomain_of_not_mem (h : op ∉ integerOps) (ints : List Int) : InDomain op ints := by
  rw [InDomain.eq_def]
  split <;> trivial

theorem Typed.inDomain (htyp : Typed op ks k) (h : Agreeing ks vs ws)
    (hdom : InDomain op (vs.map Value.int)) : InDomain op (ws.map Value.int) := by
  cases htyp with
  | arithmetic _ hks =>
    rw [← h.ints hks]
    exact hdom
  | relation hop _ =>
    have hnot : ∀ op ∈ [Op.eq, .ne, .lt, .le, .gt, .ge], op ∉ integerOps := by decide
    exact inDomain_of_not_mem (hnot op hop) _
  | logic hop _ =>
    have hnot : ∀ op ∈ [Op.and, .or, .not], op ∉ integerOps := by decide
    exact inDomain_of_not_mem (hnot op hop) _
  | either => exact inDomain_of_not_mem (by decide) _
  | identity => exact inDomain_of_not_mem (by decide) _
  | unknown _ harith _ _ =>
    exact inDomain_of_not_mem (fun hop => harith (mem_cons_of_mem _ hop)) _

theorem Agree.symm {v w : Value} (h : Agree k v w) : Agree k w v := by
  cases k with
  | int => exact Eq.symm h
  | bool => exact Eq.symm h

theorem Agree.trans {u v w : Value} (h : Agree k u v) (h' : Agree k v w) : Agree k u w := by
  cases k with
  | int => exact Eq.trans h h'
  | bool => exact Eq.trans h h'

end Agree

/-! ### Sequences of calls -/

/-- One step of a sequence: an atom, or a call whose operands are earlier results. -/
inductive BuildStep where
  | integer (v : Int)
  | symbol (id : BitVec 32) (flags : Flags) (name : Int)
  | truth (b : Bool)
  | call (c : Ctor) (operands : List Nat)

namespace BuildStep

def operandsOf (nodes : List Expr) (operands : List Nat) : List Expr :=
  operands.map fun i => nodes[i]?.getD .boolFalse

def run (env : ExprEnv) (nodes : List Expr) : BuildStep → Building Expr
  | integer v => pure (.integer v)
  | symbol id flags name => pure (.symbol id flags name)
  | truth b => pure (if b then .boolTrue else .boolFalse)
  | call c operands => c.run env (operandsOf nodes operands)

def withInts (ints : BitVec 32 → Int) : BuildStep → BuildStep
  | symbol id _ _ => integer (ints id)
  | s => s

/-- A step that can be taken after `n` others: constants are in the range of the type, the
integer of a symbol respects its flags, and the operands of a call are there. -/
def Legal (ints : BitVec 32 → Int) (n : Nat) : BuildStep → Prop
  | integer v => InRange v
  | symbol id flags _ => InRange (ints id) ∧ FlagsHold flags (ints id)
  | truth _ => True
  | call c operands => c.Accepts operands.length ∧ ∀ i ∈ operands, i < n

/-- The condition on a step: no constant is at the edge of the type, the operands of a call have
the kinds of its operation, and their values are in its domain. -/
def Mild (ints : BitVec 32 → Int) (ks : List Kind) (nodes : List Expr) (k : Kind) : BuildStep → Prop
  | integer v => k = .int ∧ Inside v
  | symbol id _ _ => k = .int ∧ Inside (ints id)
  | truth _ => k = .bool
  | call c operands => Typed c.op (operands.map fun i => ks[i]?.getD .int) k ∧
      InDomain c.op ((operandsOf nodes operands).map (Assignment.ofInts ints).intOf)

end BuildStep
open BuildStep

/-- Two runs of one sequence of steps, with the symbols and with integers in their place: the
results of both, and a kind for each.  Each step meets the condition, which is about the state
before it and the folds of its two calls. -/
inductive Rebuilt (env : ExprEnv) (ints : BitVec 32 → Int)
    (cond : List Kind → List Expr → Kind → BuildStep → List Int → Prop) :
    List Kind → List Expr → List Expr → Prop where
  | start : Rebuilt env ints cond [] [] []
  | step {ks : List Kind} {nodes nodes' : List Expr} {s : BuildStep} {k : Kind} {e e' : Expr}
      {log log' : List Int} :
    Rebuilt env ints cond ks nodes nodes' → s.Legal ints nodes.length →
    s.run env nodes = .ok (e, log) → (s.withInts ints).run env nodes' = .ok (e', log') →
    cond ks nodes k s (log ++ log') →
    Rebuilt env ints cond (ks ++ [k]) (nodes ++ [e]) (nodes' ++ [e'])

/-- The condition of `Mild`, and that no fold is at the edge of the type or saturates. -/
def MildStep (ints : BitVec 32 → Int) (ks : List Kind) (nodes : List Expr) (k : Kind)
    (s : BuildStep) (log : List Int) : Prop :=
  s.Mild ints ks nodes k ∧ ∀ v ∈ log, Inside v

/-- A result of the right shape, with flags that hold. -/
structure Flagged (env : ExprEnv) (σ : Assignment) (e : Expr) : Prop where
  wellFormed : WellFormed env e
  safe : Everywhere (FlagSafe σ) e

/-- What the two runs know of one result. -/
structure Tracked (env : ExprEnv) (σ : Assignment) (k : Kind) (e e' : Expr) : Prop where
  symbolic : Flagged env σ e
  constant : Flagged env σ e'
  agree : Agree k (σ.eval e) (σ.eval e')

section Runs
variable {env : ExprEnv} {ints : BitVec 32 → Int} {ks : List Kind} {nodes nodes' : List Expr}

theorem flagged_integer {v : Int} (hv : Inside v) : Flagged env (.ofInts ints) (.integer v) :=
  ⟨.integer hv.inRange, .integer (flagSafe_integer hv)⟩

theorem flagged_symbol {id : BitVec 32} {flags : Flags} {name : Int}
    (hflags : FlagsHold flags (ints id)) :
    Flagged env (.ofInts ints) (.symbol id flags name) :=
  ⟨.plain (by decide) zero_le nofun, .node (flagSafe_symbol hflags) nofun⟩

theorem flagged_truth (b : Bool) :
    Flagged env (.ofInts ints) (if b then .boolTrue else .boolFalse) := by
  have hlog := closedLogic_flagSafe (.ofInts ints)
  cases b with
  | true => exact ⟨wellFormed_boolTrue, hlog.everywhere_true⟩
  | false => exact ⟨wellFormed_boolFalse, hlog.everywhere_false⟩

theorem flagged_call {σ : Assignment} {c : Ctor} {operands : List Nat} {e : Expr}
    {log : List Int} (hacc : c.Accepts operands.length)
    (hflag : ∀ i ∈ operands, Flagged env σ (nodes[i]?.getD .boolFalse))
    (hdom : InDomain c.op ((operandsOf nodes operands).map σ.intOf))
    (hrun : c.run env (operandsOf nodes operands) = .ok (e, log))
    (hlog : ∀ v ∈ log, Inside v) :
    Returns σ c.op (operandsOf nodes operands) e ∧ Flagged env σ e := by
  have hmem : ∀ a ∈ operandsOf nodes operands, Flagged env σ a := by
    intro a ha
    obtain ⟨i, hi, rfl⟩ := mem_map.mp ha
    exact hflag i hi
  have hlen : c.Accepts (operandsOf nodes operands).length := by
    rw [BuildStep.operandsOf, length_map]
    exact hacc
  obtain ⟨hwf, hres⟩ := (run_respects (σ := σ) hlen fun a ha => (hmem a ha).wellFormed).of_eq hrun
  obtain ⟨hval, hsafe⟩ := hres hlog (fun a ha => (hmem a ha).safe) hdom
  exact ⟨hval, hwf, hsafe⟩

/-- The state of the two runs: every pair of results is tracked. -/
def AllTracked (env : ExprEnv) (σ : Assignment) (ks : List Kind) (nodes nodes' : List Expr) :
    Prop :=
  ks.length = nodes.length ∧ nodes'.length = nodes.length ∧
    ∀ i < nodes.length, Tracked env σ (ks[i]?.getD .int) (nodes[i]?.getD .boolFalse)
      (nodes'[i]?.getD .boolFalse)

theorem AllTracked.append {σ : Assignment} {k : Kind} {e e' : Expr}
    (h : AllTracked env σ ks nodes nodes') (hnew : Tracked env σ k e e') :
    AllTracked env σ (ks ++ [k]) (nodes ++ [e]) (nodes' ++ [e']) := by
  obtain ⟨hks, hlen, hall⟩ := h
  refine ⟨by simp [hks], by simp [hlen], fun i hi => ?_⟩
  rw [length_append, length_singleton] at hi
  by_cases hlast : i = nodes.length
  · rw [getElem?_append_right (by omega), getElem?_append_right (by omega),
      getElem?_append_right (by omega), hlast, hks, hlen, Nat.sub_self]
    exact hnew
  · rw [getElem?_append_left (by omega), getElem?_append_left (by omega),
      getElem?_append_left (by omega)]
    exact hall i (by omega)

theorem tracked_call {c : Ctor} {operands : List Nat} {k : Kind} {e e' : Expr}
    {log log' : List Int} (h : AllTracked env (.ofInts ints) ks nodes nodes')
    (hacc : c.Accepts operands.length) (hoper : ∀ i ∈ operands, i < nodes.length)
    (htyp : Typed c.op (operands.map fun i => ks[i]?.getD .int) k)
    (hdom : InDomain c.op
      ((operandsOf nodes operands).map (ofInts ints).intOf))
    (hrun : c.run env (operandsOf nodes operands) = .ok (e, log))
    (hrun' : c.run env (operandsOf nodes' operands) = .ok (e', log'))
    (hlog : ∀ v ∈ log, Inside v) (hlog' : ∀ v ∈ log', Inside v) :
    Tracked env (.ofInts ints) k e e' := by
  have htrac := fun i hi => h.2.2 i (hoper i hi)
  have hagr : Agreeing (operands.map fun i => ks[i]?.getD .int)
      ((operandsOf nodes operands).map (ofInts ints).eval)
      ((operandsOf nodes' operands).map (ofInts ints).eval) := by
    rw [operandsOf, operandsOf, map_map, map_map]
    exact agreeing_map fun i hi => (htrac i hi).agree
  have hdom' : InDomain c.op
      ((operandsOf nodes' operands).map (ofInts ints).intOf) := by
    rw [← map_intOf] at hdom ⊢
    exact htyp.inDomain hagr hdom
  obtain ⟨hval, hflag⟩ := flagged_call hacc (fun i hi => (htrac i hi).symbolic) hdom hrun hlog
  obtain ⟨hval', hflag'⟩ := flagged_call hacc (fun i hi => (htrac i hi).constant) hdom' hrun' hlog'
  refine ⟨hflag, hflag', ?_⟩
  -- both results have the value of the operation, on operands that agree
  exact ((hval.agree htyp).trans (htyp.agree ints hagr)).trans (hval'.agree htyp).symm

theorem allTracked_of_rebuilt (h : Rebuilt env ints (MildStep ints) ks nodes nodes') :
    AllTracked env (.ofInts ints) ks nodes nodes' := by
  induction h with
  | start => exact ⟨rfl, rfl, nofun⟩
  | @step ks nodes nodes' s k e e' log log' _ hleg hrun hrun' hcond ih =>
    obtain ⟨hmild, hlog⟩ := hcond
    refine ih.append ?_
    cases s with
    | integer v =>
      obtain ⟨rfl, hv⟩ := hmild
      cases hrun
      cases hrun'
      exact ⟨flagged_integer hv, flagged_integer hv, rfl⟩
    | symbol id flags name =>
      obtain ⟨rfl, hv⟩ := hmild
      cases hrun
      cases hrun'
      exact ⟨flagged_symbol hleg.2, flagged_integer hv, rfl⟩
    | truth b =>
      obtain rfl : k = .bool := hmild
      cases hrun
      cases hrun'
      exact ⟨flagged_truth b, flagged_truth b, rfl⟩
    | call c operands =>
      obtain ⟨htyp, hdom⟩ := hmild
      refine tracked_call ih hleg.1 hleg.2 htyp hdom hrun hrun' ?_ ?_
      · exact fun v hv => hlog v (mem_append_left _ hv)
      · exact fun v hv => hlog v (mem_append_right _ hv)

/-- **The flags of a symbolic node are true of the constant that the integers give**, in every
pair of runs whose steps all meet the condition. -/
theorem flags_hold_of_rebuilt (env : ExprEnv) (ints : BitVec 32 → Int) {ks : List Kind}
    {nodes nodes' : List Expr} (h : Rebuilt env ints (MildStep ints) ks nodes nodes') {i : Nat}
    {e e' : Expr} (hk : ks[i]? = some .int) (he : nodes[i]? = some e) (he' : nodes'[i]? = some e')
    (hint : e'.op = .integer) : FlagsHold e.flags e'.payload := by
  obtain ⟨hi, -⟩ := List.getElem?_eq_some_iff.mp he
  have htracked := (allTracked_of_rebuilt h).2.2 i hi
  rw [hk, he, he', Option.getD_some, Option.getD_some, Option.getD_some] at htracked
  have hvalue : (Assignment.ofInts ints).intOf e = e'.payload := by
    rw [← (Assignment.ofInts ints).intOf_of_integer hint]
    exact htracked.agree
  rw [← hvalue]
  exact htracked.symbolic.safe.here.1

theorem Rebuilt.integer {cond : List Kind → List Expr → Kind → BuildStep → List Int → Prop}
    (h : Rebuilt env ints cond ks nodes nodes') (v : Int) (hv : InRange v)
    (hcond : cond ks nodes .int (.integer v) []) :
    Rebuilt env ints cond (ks ++ [.int]) (nodes ++ [.integer v]) (nodes' ++ [.integer v]) :=
  .step (s := .integer v) h hv rfl rfl hcond

/-- The remainder of a symbol by three is flagged as non-negative; at minus one the constructor
folds it to minus one. -/
theorem mod_flag_negative :
    ∃ e e', Rebuilt .numbered (fun _ => -1) (fun _ _ _ _ _ => True) [.int, .int, .int]
        [.symbol 0 0 0, .integer 3, e] [.integer (-1), .integer 3, e'] ∧
      e'.op = .integer ∧ e'.payload = -1 ∧ e.flags &&& .isNonnegative ≠ 0 ∧
      ¬ FlagsHold e.flags e'.payload := by
  have hsymbol : Rebuilt .numbered (fun _ => -1) (fun _ _ _ _ _ => True) _ _ _ :=
    .step (s := .symbol 0 0 0) (k := .int) .start ⟨by decide, by decide⟩ rfl rfl trivial
  have hthree := hsymbol.integer 3 (by decide) trivial
  refine ⟨modNode (.symbol 0 0 0) (.integer 3), .integer (-1), ?_, rfl, rfl, by decide, ?_⟩
  · exact .step (s := .call .mod [0, 1]) (k := .int) hthree ⟨by decide, by decide⟩ rfl rfl trivial
  · rintro ⟨-, -, hnonneg, -⟩
    exact absurd (hnonneg (by decide)) (by decide)

theorem flags_hold_of_rebuilt_index :
    FlagsHold (indexNode (.symbol 0 0 0) (.integer 2) (.integer 3)).flags 2 := by
  have hsymbol : Rebuilt .numbered (fun _ => -1) (MildStep fun _ => -1) _ _ _ :=
    .step (s := .symbol 0 0 0) .start ⟨by decide, by decide⟩ rfl rfl
      ⟨⟨rfl, by decide⟩, nofun⟩
  have htwo := hsymbol.integer 2 (by decide) ⟨⟨rfl, by decide⟩, nofun⟩
  have hthree := htwo.integer 3 (by decide) ⟨⟨rfl, by decide⟩, nofun⟩
  have hrun : run .numbered [.symbol 0 0 0, .integer 2, .integer 3]
      (.call .modularIndexing [0, 1, 2]) =
        .ok (indexNode (.symbol 0 0 0) (.integer 2) (.integer 3), []) := rfl
  have hrun' : run .numbered [.integer (-1), .integer 2, .integer 3]
      (.call .modularIndexing [0, 1, 2]) = .ok (.integer 2, [2]) := rfl
  have hindex : Rebuilt .numbered (fun _ => -1) (MildStep fun _ => -1) [.int, .int, .int, .int]
      [.symbol 0 0 0, .integer 2, .integer 3, indexNode (.symbol 0 0 0) (.integer 2) (.integer 3)]
      [.integer (-1), .integer 2, .integer 3, .integer 2] :=
    .step (s := .call .modularIndexing [0, 1, 2]) (k := .int) hthree ⟨by decide, by decide⟩
      hrun hrun' ⟨⟨.arithmetic (by decide) (by decide), ⟨by decide, by decide⟩⟩, by decide⟩
  exact flags_hold_of_rebuilt .numbered (fun _ => -1) hindex (i := 3) rfl rfl rfl rfl

end Runs

end Crucible
