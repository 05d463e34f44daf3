import Crucible.ExprBuild
import Mathlib.Algebra.Order.BigOperators.Group.List

/-! # What expressions mean

The value of an expression under an assignment of the symbols, the shape that every interned
node has, and the weight of an expression, which no rewrite of a sum or a product increases.
-/
namespace Crucible
open List
open Saturating

/-! ### Values -/

/-- The integer and the truth value of an expression.  Only one of the two is meant. -/
structure Value where
  int : Int
  bool : Bool

/-- Values for the symbols, and for the operations that have no rule of their own. -/
structure Assignment where
  int : BitVec 32 → Int
  bool : BitVec 32 → Bool
  other : Op → List Value → Value

namespace Assignment

def ofInts (ints : BitVec 32 → Int) : Assignment where
  int := ints
  bool := fun _ => false
  other := fun _ _ => ⟨0, false⟩

variable (σ : Assignment)

/-- A power.  The code leaves a negative exponent alone, so its value is open. -/
def power (x n : Int) : Int :=
  if 0 ≤ n then x ^ n.toNat else (σ.other .pow [⟨x, false⟩, ⟨n, false⟩]).int

def apply (op : Op) (symbolId : BitVec 32) (payload : Int) (values : List Value) : Value :=
  let ints := values.map Value.int
  let nth (i : Nat) : Value := values[i]?.getD ⟨0, false⟩
  match op with
  | .integer => ⟨payload, false⟩
  | .symbol => ⟨σ.int symbolId, σ.bool symbolId⟩
  | .boolTrue => ⟨0, true⟩
  | .boolFalse => ⟨0, false⟩
  | .add => ⟨ints.sum, false⟩
  | .mul => ⟨ints.prod, false⟩
  | .pow => ⟨σ.power (nth 0).int (nth 1).int, false⟩
  | .eq => ⟨0, (nth 0).int = (nth 1).int⟩
  | .ne => ⟨0, (nth 0).int ≠ (nth 1).int⟩
  | .lt => ⟨0, (nth 0).int < (nth 1).int⟩
  | .le => ⟨0, (nth 0).int ≤ (nth 1).int⟩
  | .gt => ⟨0, (nth 0).int > (nth 1).int⟩
  | .ge => ⟨0, (nth 0).int ≥ (nth 1).int⟩
  | .and => ⟨0, values.all Value.bool⟩
  | .or => ⟨0, values.any Value.bool⟩
  | .not => ⟨0, !(nth 0).bool⟩
  | .neg => ⟨-(nth 0).int, false⟩
  | .floorDiv | .cleanDiv => ⟨(nth 0).int.fdiv (nth 1).int, false⟩
  | .ceilDiv => ⟨-(-(nth 0).int).fdiv (nth 1).int, false⟩
  | .mod => ⟨(nth 0).int.tmod (nth 1).int, false⟩
  | .pythonMod => ⟨(nth 0).int.fmod (nth 1).int, false⟩
  | .modularIndexing => ⟨((nth 0).int.fdiv (nth 1).int).fmod (nth 2).int, false⟩
  | .whereOp => if (nth 0).bool then nth 1 else nth 2
  | .identity => nth 0
  | .abs => ⟨|(nth 0).int|, false⟩
  | .min => ⟨ints.min?.getD 0, false⟩
  | .max => ⟨ints.max?.getD 0, false⟩
  | op => σ.other op values

mutual

def eval : Expr → Value
  | .mk op _ symbolId payload args => σ.apply op symbolId payload (evalAll args)

def evalAll : List Expr → List Value
  | [] => []
  | e :: l => eval e :: evalAll l

end

theorem evalAll_eq (l : List Expr) : σ.evalAll l = l.map σ.eval := by
  induction l with
  | nil => rfl
  | cons e l ih => rw [evalAll, ih, map_cons]

theorem eval_mk (op : Op) (flags : Flags) (s : BitVec 32) (payload : Int) (args : List Expr) :
    σ.eval (.mk op flags s payload args) = σ.apply op s payload (args.map σ.eval) := by
  rw [eval, evalAll_eq]

def intOf (e : Expr) : Int := (σ.eval e).int

def boolOf (e : Expr) : Bool := (σ.eval e).bool

theorem map_intOf (args : List Expr) : (args.map σ.eval).map Value.int = args.map σ.intOf := by
  rw [map_map]
  rfl

@[simp] theorem intOf_integer (v : Int) : σ.intOf (.integer v) = v := by
  rfl

theorem intOf_of_integer {e : Expr} (h : e.op = .integer) : σ.intOf e = e.payload := by
  obtain ⟨op, flags, s, payload, args⟩ := e
  obtain rfl : op = .integer := h
  rfl

theorem intOf_add {e : Expr} (h : e.op = .add) : σ.intOf e = (e.args.map σ.intOf).sum := by
  obtain ⟨op, flags, s, payload, args⟩ := e
  obtain rfl : op = .add := h
  rw [intOf, eval_mk, ← map_intOf]
  rfl

theorem intOf_mul {e : Expr} (h : e.op = .mul) : σ.intOf e = (e.args.map σ.intOf).prod := by
  obtain ⟨op, flags, s, payload, args⟩ := e
  obtain rfl : op = .mul := h
  rw [intOf, eval_mk, ← map_intOf]
  rfl

@[simp] theorem boolOf_boolTrue : σ.boolOf .boolTrue = true := by
  rfl

@[simp] theorem boolOf_boolFalse : σ.boolOf .boolFalse = false := by
  rfl

end Assignment

/-! ### Shape -/

def nonIntegers (l : List Expr) : List Expr := l.filter fun e => e.op ≠ .integer

def integersOf (l : List Expr) : List Int := (l.filter fun e => e.op = .integer).map Expr.payload

/-- The operands of an interned sum (with the unit zero) or product (with the unit one). -/
structure Operands (env : ExprEnv) (unit : Int) (args : List Expr) : Prop where
  two_le : 2 ≤ args.length
  sorted : args.Pairwise fun a b => env.addr a ≤ env.addr b
  one_integer : (integersOf args).length ≤ 1
  integer_ne : ∀ v ∈ integersOf args, v ≠ 0 ∧ v ≠ unit

/-- What the constructors make sure of at each node.  There are no floats. -/
structure Shape (env : ExprEnv) (op : Op) (flags : Flags) (symbolId : BitVec 32) (payload : Int)
    (args : List Expr) : Prop where
  arity : args.length ≤ maxArgs
  notFloat : op ≠ .float
  integer : op = .integer → InRange payload ∧ flags = integerFlags payload ∧ symbolId = 0 ∧
    args = []
  sum : op = .add → Operands env 0 args ∧ flags = compositeFlags .add args ∧ symbolId = 0 ∧
    payload = 0
  product : op = .mul → Operands env 1 args ∧ flags = compositeFlags .mul args ∧ symbolId = 0 ∧
    payload = 0
  quotient : op = .floorDiv ∨ op = .cleanDiv → args.length = 2
  negation : op = .not → args.length = 1
  choice : op = .min ∨ op = .max → args ≠ []

/-- Every node of an expression has the shape of an interned one. -/
inductive WellFormed (env : ExprEnv) : Expr → Prop where
  | node {op : Op} {flags : Flags} {symbolId : BitVec 32} {payload : Int} {args : List Expr} :
    Shape env op flags symbolId payload args → (∀ a ∈ args, WellFormed env a) →
    WellFormed env (.mk op flags symbolId payload args)

namespace WellFormed
variable {env : ExprEnv} {e : Expr}

section
variable (h : WellFormed env e)
include h

theorem arg {a : Expr} (ha : a ∈ e.args) : WellFormed env a := by
  cases h with
  | node _ hargs => exact hargs a ha

theorem arity : e.args.length ≤ maxArgs := by
  cases h with
  | node hshape _ => exact hshape.arity

theorem notFloat : e.op ≠ .float := by
  cases h with
  | node hshape _ => exact hshape.notFloat

theorem integer_eq (hop : e.op = .integer) : e = .integer e.payload ∧ InRange e.payload := by
  cases h with
  | node hshape _ =>
    obtain ⟨hran, rfl, rfl, rfl⟩ := hshape.integer hop
    obtain rfl : _ = Op.integer := hop
    exact ⟨rfl, hran⟩

theorem sum_eq (hop : e.op = .add) : e = .composite .add e.args ∧ Operands env 0 e.args := by
  cases h with
  | node hshape _ =>
    obtain ⟨hoper, rfl, rfl, rfl⟩ := hshape.sum hop
    obtain rfl : _ = Op.add := hop
    exact ⟨rfl, hoper⟩

theorem product_eq (hop : e.op = .mul) : e = .composite .mul e.args ∧ Operands env 1 e.args := by
  cases h with
  | node hshape _ =>
    obtain ⟨hoper, rfl, rfl, rfl⟩ := hshape.product hop
    obtain rfl : _ = Op.mul := hop
    exact ⟨rfl, hoper⟩

theorem quotient_length (hop : e.op = .floorDiv ∨ e.op = .cleanDiv) : e.args.length = 2 := by
  cases h with
  | node hshape _ => exact hshape.quotient hop

end

theorem integer {v : Int} (hv : InRange v) : WellFormed env (.integer v) :=
  .node
    { arity := zero_le
      notFloat := nofun
      integer := fun _ => ⟨hv, rfl, rfl, rfl⟩
      sum := nofun
      product := nofun
      quotient := nofun
      negation := nofun
      choice := nofun } nofun

theorem plain {op : Op} {flags : Flags} {s : BitVec 32} {payload : Int} {args : List Expr}
    (hop : op ≠ .float ∧ op ≠ .integer ∧ op ≠ .add ∧ op ≠ .mul ∧ op ≠ .floorDiv ∧
      op ≠ .cleanDiv ∧ op ≠ .not ∧ op ≠ .min ∧ op ≠ .max)
    (hlen : args.length ≤ maxArgs) (hargs : ∀ a ∈ args, WellFormed env a) :
    WellFormed env (.mk op flags s payload args) := by
  obtain ⟨hfloat, hint, hadd, hmul, hdiv, hclean, hnot, hmin, hmax⟩ := hop
  exact .node
    { arity := hlen
      notFloat := hfloat
      integer := fun h => absurd h hint
      sum := fun h => absurd h hadd
      product := fun h => absurd h hmul
      quotient := fun h => (h.elim hdiv hclean).elim
      negation := fun h => absurd h hnot
      choice := fun h => (h.elim hmin hmax).elim } hargs

end WellFormed

/-! ### Weight -/

def bits (v : Int) : Nat := v.natAbs.log2 + 1

mutual

/-- The weight of an expression: the bits of its integers, and two for every other atom or
operation that is not a sum or a product. -/
def weight : Expr → Nat
  | .mk op _ _ payload args =>
    match op with
    | .integer => bits payload
    | .add | .mul => weightAll args
    | _ => 2 + weightAll args

def weightAll : List Expr → Nat
  | [] => 0
  | e :: l => weight e + weightAll l

end

theorem weightAll_append (l l' : List Expr) : weightAll (l ++ l') = weightAll l + weightAll l' := by
  induction l with
  | nil => exact (zero_add _).symm
  | cons e l ih => rw [cons_append, weightAll, weightAll, ih, add_assoc]

theorem weightAll_eq_sum (l : List Expr) : weightAll l = (l.map weight).sum := by
  induction l with
  | nil => rfl
  | cons e l ih => rw [weightAll, ih, map_cons, sum_cons]

theorem weightAll_perm {l l' : List Expr} (h : l.Perm l') : weightAll l = weightAll l' := by
  rw [weightAll_eq_sum, weightAll_eq_sum]
  exact (h.map weight).sum_eq

variable {e : Expr}

theorem weight_le_all {l : List Expr} (h : e ∈ l) : weight e ≤ weightAll l := by
  rw [weightAll_eq_sum]
  exact single_le_sum (fun _ _ => zero_le) _ (mem_map_of_mem h)

@[simp] theorem weight_integer (v : Int) : weight (.integer v) = bits v := rfl

theorem weight_of_integer (h : e.op = .integer) : weight e = bits e.payload := by
  obtain ⟨op, flags, s, payload, args⟩ := e
  obtain rfl : op = .integer := h
  rfl

theorem weight_of_combination (h : e.op = .add ∨ e.op = .mul) : weight e = weightAll e.args := by
  obtain ⟨op, flags, s, payload, args⟩ := e
  rcases h with h | h
  · obtain rfl : op = .add := h
    rfl
  · obtain rfl : op = .mul := h
    rfl

theorem weight_of_other (hint : e.op ≠ .integer) (hadd : e.op ≠ .add)
    (hmul : e.op ≠ .mul) : weight e = 2 + weightAll e.args := by
  obtain ⟨op, flags, s, payload, args⟩ := e
  cases op <;>
    first | rfl | exact absurd rfl hint | exact absurd rfl hadd | exact absurd rfl hmul

theorem one_le_bits (v : Int) : 1 ≤ bits v := Nat.le_add_left 1 _

theorem bits_le {v : Int} {k : Nat} (h : v.natAbs < 2 ^ k) (hk : 1 ≤ k) : bits v ≤ k := by
  rw [bits]
  by_cases hzero : v.natAbs = 0
  · rw [hzero]
    exact hk
  · exact (Nat.log2_lt hzero).mpr h

theorem natAbs_lt_two_pow (v : Int) : v.natAbs < 2 ^ bits v := Nat.lt_log2_self

theorem bits_mono {v w : Int} (h : v.natAbs ≤ w.natAbs) : bits v ≤ bits w :=
  bits_le (h.trans_lt (natAbs_lt_two_pow w)) (one_le_bits w)

theorem WellFormed.weight_pos {env : ExprEnv} (h : WellFormed env e) :
    1 ≤ weight e ∧ (e.op ≠ .integer → 2 ≤ weight e) := by
  induction h with
  | @node op flags s payload args hshape hargs ih =>
    have hall : ∀ l : List Expr, (∀ a ∈ l, 1 ≤ weight a) → l.length ≤ weightAll l := by
      intro l
      induction l with
      | nil => exact fun _ => le_rfl
      | cons a l ihl =>
        intro hl
        have hhead := hl a mem_cons_self
        have htail := ihl fun b hb => hl b (mem_cons_of_mem _ hb)
        rw [weightAll, length_cons]
        omega
    have hlen : args.length ≤ weightAll args := hall args fun a ha => (ih a ha).1
    have htwo : op ≠ .integer → 2 ≤ weight (.mk op flags s payload args) := by
      intro hop
      by_cases hadd : op = .add
      · have := (hshape.sum hadd).1.two_le
        rw [weight_of_combination (e := .mk op flags s payload args) (.inl hadd), Expr.args_mk]
        omega
      · by_cases hmul : op = .mul
        · have := (hshape.product hmul).1.two_le
          rw [weight_of_combination (e := .mk op flags s payload args) (.inr hmul), Expr.args_mk]
          omega
        · rw [weight_of_other (e := .mk op flags s payload args) hop hadd hmul]
          omega
    refine ⟨?_, htwo⟩
    by_cases hop : op = .integer
    · rw [weight_of_integer (e := .mk op flags s payload args) hop]
      exact one_le_bits _
    · exact Nat.le_of_succ_le (htwo hop)

/-! ### Properties of all the nodes of an expression -/

inductive Everywhere (p : Expr → Prop) : Expr → Prop where
  | node {op : Op} {flags : Flags} {symbolId : BitVec 32} {payload : Int} {args : List Expr} :
    p (.mk op flags symbolId payload args) → (∀ a ∈ args, Everywhere p a) →
    Everywhere p (.mk op flags symbolId payload args)

namespace Everywhere
variable {p : Expr → Prop} {e : Expr}

theorem here (h : Everywhere p e) : p e := by
  cases h with
  | node hp _ => exact hp

theorem arg (h : Everywhere p e) {a : Expr} (ha : a ∈ e.args) : Everywhere p a := by
  cases h with
  | node _ hargs => exact hargs a ha

theorem integer {v : Int} (h : p (.integer v)) : Everywhere p (.integer v) := .node h nofun

theorem composite {op : Op} {args : List Expr} (h : p (.composite op args))
    (hargs : ∀ a ∈ args, Everywhere p a) : Everywhere p (.composite op args) := .node h hargs

end Everywhere
end Crucible
