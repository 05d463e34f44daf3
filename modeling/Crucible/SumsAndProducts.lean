import Crucible.ExprMeaning

/-! # Sums and products

The loops that `add_n` and `mul_n` share: operands of the same operation are taken apart, the
integers among the operands are folded, and the folded constant is put back.  Each loop is
described once, by the operands that are left and by the constant; values, weights and shapes
follow from that.
-/
namespace Crucible
open List
open Saturating

/-- The two operations, with their units. -/
inductive Combines : Op → Int → (Int → Int → Int) → Prop where
  | add : Combines .add 0 (· + ·)
  | mul : Combines .mul 1 (· * ·)

def total (comb : Int → Int → Int) (unit : Int) (l : List Int) : Int := l.foldr comb unit

theorem total_add (l : List Int) : total (· + ·) 0 l = l.sum := rfl

theorem total_mul (l : List Int) : total (· * ·) 1 l = l.prod := rfl

namespace Combines
variable {op : Op} {unit : Int} {comb : Int → Int → Int} (h : Combines op unit comb)
include h

theorem op_eq : op = .add ∨ op = .mul := by
  cases h with
  | add => exact .inl rfl
  | mul => exact .inr rfl

theorem ne_integer : op ≠ .integer := by
  cases h <;> nofun

theorem comm (x y : Int) : comb x y = comb y x := by
  cases h with
  | add => exact Int.add_comm x y
  | mul => exact Int.mul_comm x y

theorem assoc (x y z : Int) : comb (comb x y) z = comb x (comb y z) := by
  cases h with
  | add => exact Int.add_assoc x y z
  | mul => exact Int.mul_assoc x y z

theorem unit_comb (x : Int) : comb unit x = x := by
  cases h with
  | add => exact Int.zero_add x
  | mul => exact Int.one_mul x

theorem comb_unit (x : Int) : comb x unit = x := by rw [h.comm, h.unit_comb]

theorem total_append (l l' : List Int) :
    total comb unit (l ++ l') = comb (total comb unit l) (total comb unit l') := by
  cases h with
  | add => exact sum_append
  | mul => exact prod_append

theorem total_perm {l l' : List Int} (hperm : l.Perm l') :
    total comb unit l = total comb unit l' := by
  cases h with
  | add => exact hperm.sum_eq
  | mul => exact hperm.prod_eq

theorem foldl_eq (l : List Int) (c : Int) : l.foldl comb c = comb c (total comb unit l) := by
  induction l generalizing c with
  | nil => exact (h.comb_unit c).symm
  | cons v l ih =>
    show l.foldl comb (comb c v) = comb c (comb v (total comb unit l))
    rw [ih, h.assoc]

theorem intOf_eq (σ : Assignment) {e : Expr} (hop : e.op = op) :
    σ.intOf e = total comb unit (e.args.map σ.intOf) := by
  cases h with
  | add => exact σ.intOf_add hop
  | mul => exact σ.intOf_mul hop

theorem weight_eq {e : Expr} (hop : e.op = op) : weight e = weightAll e.args :=
  weight_of_combination (hop ▸ h.op_eq)

theorem operands {env : ExprEnv} {e : Expr} (hwf : WellFormed env e) (hop : e.op = op) :
    Operands env unit e.args := by
  cases h with
  | add => exact (hwf.sum_eq hop).2
  | mul => exact (hwf.product_eq hop).2

theorem composite {env : ExprEnv} {args : List Expr} (hoper : Operands env unit args)
    (hlen : args.length ≤ maxArgs) (hargs : ∀ a ∈ args, WellFormed env a) :
    WellFormed env (.composite op args) := by
  cases h with
  | add =>
    exact .node
      { arity := hlen
        notFloat := nofun
        integer := nofun
        sum := fun _ => ⟨hoper, rfl, rfl, rfl⟩
        product := nofun
        quotient := nofun
        negation := nofun
        choice := nofun } hargs
  | mul =>
    exact .node
      { arity := hlen
        notFloat := nofun
        integer := nofun
        sum := nofun
        product := fun _ => ⟨hoper, rfl, rfl, rfl⟩
        quotient := nofun
        negation := nofun
        choice := nofun } hargs

end Combines

/-! ### Integers among the operands -/

theorem nonIntegers_append (l l' : List Expr) :
    nonIntegers (l ++ l') = nonIntegers l ++ nonIntegers l' := filter_append ..

theorem integersOf_append (l l' : List Expr) :
    integersOf (l ++ l') = integersOf l ++ integersOf l' := by
  rw [integersOf, filter_append, map_append]
  rfl

variable {e : Expr}

theorem nonIntegers_cons_integer (h : e.op = .integer) (l : List Expr) :
    nonIntegers (e :: l) = nonIntegers l := by
  rw [nonIntegers, filter_cons_of_neg (by simp [h])]
  rfl

theorem integersOf_cons_integer (h : e.op = .integer) (l : List Expr) :
    integersOf (e :: l) = e.payload :: integersOf l := by
  rw [integersOf, filter_cons_of_pos (by simp [h])]
  rfl

theorem nonIntegers_cons_other (h : e.op ≠ .integer) (l : List Expr) :
    nonIntegers (e :: l) = e :: nonIntegers l := by
  rw [nonIntegers, filter_cons_of_pos (by simp [h])]
  rfl

theorem integersOf_cons_other (h : e.op ≠ .integer) (l : List Expr) :
    integersOf (e :: l) = integersOf l := by
  rw [integersOf, filter_cons_of_neg (by simp [h])]
  rfl

variable {l : List Expr}

theorem mem_nonIntegers : e ∈ nonIntegers l ↔ e ∈ l ∧ e.op ≠ .integer := by
  rw [nonIntegers, mem_filter, decide_eq_true_iff]

variable {v unit : Int}

theorem mem_integersOf : v ∈ integersOf l ↔ ∃ e ∈ l, e.op = .integer ∧ e.payload = v := by
  simp only [integersOf, mem_map, mem_filter, decide_eq_true_iff]
  constructor
  · rintro ⟨e, ⟨he, hop⟩, hv⟩
    exact ⟨e, he, hop, hv⟩
  · rintro ⟨e, he, hop, hv⟩
    exact ⟨e, ⟨he, hop⟩, hv⟩

theorem integersOf_eq_nil (h : ∀ e ∈ l, e.op ≠ .integer) : integersOf l = [] := by
  rw [eq_nil_iff_forall_not_mem]
  intro v hv
  obtain ⟨e, he, hop, -⟩ := mem_integersOf.mp hv
  exact h e he hop

theorem integersOf_perm {l' : List Expr} (h : l.Perm l') :
    (integersOf l).Perm (integersOf l') := (h.filter _).map _

variable {comb : Int → Int → Int}

theorem Combines.total_split {op : Op}
    (h : Combines op unit comb) (σ : Assignment) (l : List Expr) :
    total comb unit (l.map σ.intOf) =
      comb (total comb unit ((nonIntegers l).map σ.intOf)) (total comb unit (integersOf l)) := by
  induction l with
  | nil => exact (h.unit_comb _).symm
  | cons e l ih =>
    show comb (σ.intOf e) (total comb unit (l.map σ.intOf)) = _
    by_cases hop : e.op = .integer
    · rw [nonIntegers_cons_integer hop, integersOf_cons_integer hop, ih, σ.intOf_of_integer hop]
      show _ = comb _ (comb e.payload (total comb unit (integersOf l)))
      rw [← h.assoc, ← h.assoc, h.comm e.payload]
    · rw [nonIntegers_cons_other hop, integersOf_cons_other hop, ih]
      exact (h.assoc _ _ _).symm

theorem weightAll_split (l : List Expr) :
    weightAll l = weightAll (nonIntegers l) + ((integersOf l).map bits).sum := by
  induction l with
  | nil => rfl
  | cons e l ih =>
    rw [weightAll, ih]
    by_cases hop : e.op = .integer
    · rw [nonIntegers_cons_integer hop, integersOf_cons_integer hop, weight_of_integer hop,
        map_cons, sum_cons, add_left_comm]
    · rw [nonIntegers_cons_other hop, integersOf_cons_other hop, weightAll, add_assoc]

/-! ### Folding the constant -/

/-- The weight of a constant that is left out if it is the unit. -/
def cost (unit c : Int) : Nat := if c = unit then 0 else bits c

theorem cost_le_bits (unit c : Int) : cost unit c ≤ bits c := by
  rw [cost]
  split
  · exact zero_le
  · exact le_rfl

theorem bits_add_le (x y : Int) : bits (x + y) ≤ bits x + bits y := by
  have hx := natAbs_lt_two_pow x
  have hy := natAbs_lt_two_pow y
  have hposx := one_le_bits x
  have hposy := one_le_bits y
  refine bits_le ?_ (by omega)
  have hpow : 2 ^ bits x + 2 ^ bits y ≤ 2 ^ (bits x + bits y) := by
    obtain ⟨i, hi⟩ : ∃ i, bits x = i + 1 := ⟨bits x - 1, by omega⟩
    obtain ⟨j, hj⟩ : ∃ j, bits y = j + 1 := ⟨bits y - 1, by omega⟩
    have h1 : 1 ≤ 2 ^ i := Nat.one_le_two_pow
    have h2 : 1 ≤ 2 ^ j := Nat.one_le_two_pow
    have h3 : 2 ^ i ≤ 2 ^ i * 2 ^ j := Nat.le_mul_of_pos_right _ h2
    have h4 : 2 ^ j ≤ 2 ^ i * 2 ^ j := Nat.le_mul_of_pos_left _ h1
    have h5 : 2 ^ (i + 1 + (j + 1)) = 4 * (2 ^ i * 2 ^ j) := by ring
    rw [hi, hj]
    omega
  omega

theorem bits_mul_le (x y : Int) : bits (x * y) ≤ bits x + bits y := by
  have hposx := one_le_bits x
  refine bits_le ?_ (by omega)
  rw [Int.natAbs_mul, pow_add]
  exact Nat.mul_lt_mul'' (natAbs_lt_two_pow x) (natAbs_lt_two_pow y)

theorem Combines.cost_comb {op : Op} (h : Combines op unit comb) (x y : Int) :
    cost unit (clamp (comb x y)) ≤ cost unit x + bits y := by
  refine le_trans (cost_le_bits _ _) ?_
  refine le_trans (bits_mono (natAbs_clamp_le _)) ?_
  by_cases hx : x = unit
  · rw [hx, h.unit_comb]
    exact le_add_self
  · rw [cost, if_neg hx]
    cases h with
    | add => exact bits_add_le x y
    | mul => exact bits_mul_le x y

theorem clamp_ne_zero (h : v ≠ 0) : clamp v ≠ 0 := by
  rw [clamp]
  omega

/-! ### Taking operands apart -/

section Loops
variable {op : Op} {unit : Int} {comb : Int → Int → Int} {P : Int → Prop}

/-- What a loop did with some of the operands: those that are not integers are at the end of
the list, and the integers are in the constant. -/
structure Gathered (unit : Int) (pieces : List Expr) (s s' : List Expr × Int) : Prop where
  terms : s'.1 = s.1 ++ nonIntegers pieces
  range : InRange s.2 → InRange s'.2
  cost_le : cost unit s'.2 ≤ cost unit s.2 + ((integersOf pieces).map bits).sum
  nonzero : unit = 1 → s.2 ≠ 0 → (∀ v ∈ integersOf pieces, v ≠ 0) → s'.2 ≠ 0

/-- The constant is exact. -/
structure Exactly (comb : Int → Int → Int) (P : Int → Prop) (pieces : List Expr)
    (s s' : List Expr × Int) : Prop where
  constant : s'.2 = (integersOf pieces).foldl comb s.2
  folded : s'.2 = s.2 ∨ P s'.2

theorem Gathered.refl (s : List Expr × Int) : Gathered unit [] s s :=
  ⟨(append_nil _).symm, id, le_rfl, fun _ h _ => h⟩

theorem Exactly.refl (s : List Expr × Int) : Exactly comb P [] s s := ⟨rfl, .inl rfl⟩

variable {l l' : List Expr} {s s' s'' : List Expr × Int}

theorem Gathered.trans (h : Gathered unit l s s') (h' : Gathered unit l' s' s'') :
    Gathered unit (l ++ l') s s'' := by
  refine ⟨?_, fun hs => h'.range (h.range hs), ?_, ?_⟩
  · rw [h'.terms, h.terms, nonIntegers_append, append_assoc]
  · have h₁ := h.cost_le
    have h₂ := h'.cost_le
    rw [integersOf_append, map_append, sum_append]
    omega
  · intro hunit hs hall
    rw [integersOf_append] at hall
    refine h'.nonzero hunit (h.nonzero hunit hs fun v hv => ?_) fun v hv => ?_
    · exact hall v (mem_append_left _ hv)
    · exact hall v (mem_append_right _ hv)

theorem Exactly.trans (h : Exactly comb P l s s') (h' : Exactly comb P l' s' s'') :
    Exactly comb P (l ++ l') s s'' := by
  refine ⟨?_, ?_⟩
  · rw [h'.constant, h.constant, integersOf_append, foldl_append]
  · rcases h'.folded with heq | hP
    · rw [heq]
      exact h.folded
    · exact .inr hP

variable {e : Expr}

theorem Gathered.other (hop : e.op ≠ .integer) (s : List Expr × Int) :
    Gathered unit [e] s (s.1 ++ [e], s.2) := by
  refine ⟨?_, id, le_self_add, fun _ h _ => h⟩
  rw [nonIntegers_cons_other hop]
  rfl

theorem Exactly.other (hop : e.op ≠ .integer) (s : List Expr × Int) :
    Exactly comb P [e] s (s.1 ++ [e], s.2) := by
  refine ⟨?_, .inl rfl⟩
  rw [integersOf_cons_other hop]
  rfl

theorem Gathered.integer (h : Combines op unit comb) (hop : e.op = .integer)
    (s : List Expr × Int) : Gathered unit [e] s (s.1, clamp (comb s.2 e.payload)) := by
  refine ⟨?_, fun _ => clamp_inRange _, ?_, ?_⟩
  · rw [nonIntegers_cons_integer hop]
    exact (append_nil _).symm
  · rw [integersOf_cons_integer hop]
    exact h.cost_comb _ _
  · intro hunit hs hall
    rw [integersOf_cons_integer hop] at hall
    have hv := hall e.payload mem_cons_self
    apply clamp_ne_zero
    cases h with
    | add => cases hunit
    | mul => exact Int.mul_ne_zero hs hv

theorem Exactly.integer (hP : ∀ v, P v → InRange v) (hop : e.op = .integer)
    (s : List Expr × Int) (hv : P (comb s.2 e.payload)) :
    Exactly comb P [e] s (s.1, clamp (comb s.2 e.payload)) := by
  have hclamp := clamp_of_inRange (hP _ hv)
  refine ⟨?_, .inr ?_⟩
  · rw [integersOf_cons_integer hop, hclamp]
    rfl
  · rw [hclamp]
    exact hv

variable {fold : Int → Int → Building Int}

theorem splice_yields (h : Combines op unit comb) (hP : ∀ v, P v → InRange v)
    (hfold : ∀ x y, fold x y = Fold.folded (comb x y)) (l : List Expr) (s : List Expr × Int)
    (hroom : s.1.length + (nonIntegers l).length ≤ maxArgs) :
    Fold.Yields P (l.foldlM (ExprEnv.splice fold) s) (Gathered unit l s) (Exactly comb P l s) := by
  induction l generalizing s with
  | nil => exact .pure (.refl s) (.refl s)
  | cons e l ih =>
    have hstep : Fold.Yields P (ExprEnv.splice fold s e) (Gathered unit [e] s)
        (Exactly comb P [e] s) := by
      by_cases hop : e.op = .integer
      · rw [ExprEnv.splice, if_pos hop, hfold]
        refine (Fold.Yields.folded _).bind fun c hc => ?_
        subst hc
        exact .pure (.integer h hop s) fun hv => .integer hP hop s hv
      · rw [nonIntegers_cons_other hop, length_cons] at hroom
        rw [ExprEnv.splice, if_neg hop, if_neg (by omega)]
        exact .pure (.other hop s) (.other hop s)
    refine hstep.bind fun s' hs' => ?_
    have hroom' : s'.1.length + (nonIntegers l).length ≤ maxArgs := by
      rwa [hs'.terms, length_append, add_assoc, ← length_append, ← nonIntegers_append]
    exact (ih s' hroom').imp (fun _ hg => hs'.trans hg) fun _ _ hx hy => hy.trans hx

/-- The operands that `flatten` sees when it has `n` terms so far: those of an operand that it
takes apart, and the operand itself otherwise. -/
def opened (op : Op) : Nat → List Expr → List Expr
  | _, [] => []
  | n, e :: rest =>
    if e.op = op ∧ n + e.args.length + rest.length ≤ maxArgs then
      e.args ++ opened op (n + (nonIntegers e.args).length) rest
    else e :: opened op (if e.op = .integer then n else n + 1) rest

theorem mem_opened {a : Expr} {n : Nat} (h : a ∈ opened op n l) :
    a ∈ l ∨ ∃ e ∈ l, e.op = op ∧ a ∈ e.args := by
  induction l generalizing n with
  | nil => cases h
  | cons e l ih =>
    rw [opened] at h
    split at h
    case isTrue hopen =>
      rcases mem_append.mp h with ha | ha
      · exact .inr ⟨e, mem_cons_self, hopen.1, ha⟩
      · rcases ih ha with ha | ⟨e', he', hop, ha⟩
        · exact .inl (mem_cons_of_mem _ ha)
        · exact .inr ⟨e', mem_cons_of_mem _ he', hop, ha⟩
    case isFalse =>
      rcases mem_cons.mp h with rfl | ha
      · exact .inl mem_cons_self
      · rcases ih ha with ha | ⟨e', he', hop, ha⟩
        · exact .inl (mem_cons_of_mem _ ha)
        · exact .inr ⟨e', mem_cons_of_mem _ he', hop, ha⟩

theorem opened_keeps {M : Type} {f : List Expr → M} {m : M → M → M}
    (happ : ∀ l l', f (l ++ l') = m (f l) (f l'))
    (hopen : ∀ e ∈ l, e.op = op → f e.args = f [e]) (n : Nat) : f (opened op n l) = f l := by
  induction l generalizing n with
  | nil => rfl
  | cons e l ih =>
    have htail := fun n => ih (fun e' he' => hopen e' (mem_cons_of_mem _ he')) n
    rw [opened]
    split
    case isTrue h =>
      rw [happ, htail, hopen e mem_cons_self h.1, ← happ]
      rfl
    case isFalse =>
      rw [← singleton_append, happ, htail, ← happ]
      rfl

theorem flatten_yields (h : Combines op unit comb) (hP : ∀ v, P v → InRange v)
    (hfold : ∀ x y, fold x y = Fold.folded (comb x y)) (l : List Expr) (s : List Expr × Int)
    (hroom : s.1.length + l.length ≤ maxArgs) :
    Fold.Yields P (ExprEnv.flatten op fold l s)
      (fun s' => Gathered unit (opened op s.1.length l) s s' ∧ s'.1.length ≤ maxArgs)
      (Exactly comb P (opened op s.1.length l) s) := by
  induction l generalizing s with
  | nil => exact .pure ⟨.refl s, hroom⟩ (.refl s)
  | cons e l ih =>
    rw [length_cons] at hroom
    rw [ExprEnv.flatten, opened]
    by_cases hopen : e.op = op ∧ s.1.length + e.args.length + l.length ≤ maxArgs
    · rw [if_pos hopen, if_pos hopen]
      have hfew : (nonIntegers e.args).length ≤ e.args.length := length_filter_le _ _
      refine (splice_yields h hP hfold e.args s (by omega)).bind fun s' hs' => ?_
      have hlen : s'.1.length = s.1.length + (nonIntegers e.args).length := by
        rw [hs'.terms, length_append]
      have hnext := ih s' (by omega)
      rw [hlen] at hnext
      exact hnext.imp (fun _ hg => ⟨hs'.trans hg.1, hg.2⟩) fun _ _ hx hy => hy.trans hx
    · rw [if_neg hopen, if_neg hopen]
      by_cases hop : e.op = .integer
      · rw [if_pos hop, if_pos hop, hfold]
        refine (Fold.Yields.folded _).bind fun c hc => ?_
        subst hc
        refine (ih (s.1, clamp (comb s.2 e.payload)) (by simp only; omega)).imp ?_ ?_
        · intro s' hs'
          exact ⟨(Gathered.integer h hop s).trans hs'.1, hs'.2⟩
        · intro s' _ hexact hv
          exact (Exactly.integer hP hop s hv).trans hexact
      · rw [if_neg hop, if_neg hop, if_neg (by omega)]
        have hlen : (s.1 ++ [e]).length = s.1.length + 1 := by rw [length_append]; rfl
        have hnext := ih (s.1 ++ [e], s.2) (by simp only [hlen]; omega)
        simp only [hlen] at hnext
        exact hnext.imp (fun _ hg => ⟨(Gathered.other hop s).trans hg.1, hg.2⟩)
          fun _ _ hx => (Exactly.other hop s).trans hx

end Loops
end Crucible
