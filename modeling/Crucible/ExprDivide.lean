import Crucible.ExprMeaning

/-! # The constructors of quotients and remainders

`floor_div`, `ceil_div`, `mod`, `python_mod` and `modular_indexing`, with the helpers that read
and divide the integer coefficients of an expression, and the factory that takes an operation
and its operands.

`floor_div` and `modular_indexing` call themselves.  The calls here are counted, and the weight
of the dividend is a bound for their number.
-/
namespace Crucible
open Saturating

def int64Min : Int := -2 ^ 63

def int64Max : Int := 2 ^ 63 - 1

def isFoldableDivision (dividend divisor : Int) : Bool :=
  divisor ≠ 0 && !(dividend = int64Min && divisor = -1)

/-- The quotient of two constants, rounded down: the truncated one is adjusted if the remainder
and the divisor have opposite signs. -/
def floorQuotient (dividend divisor : Int) : Int :=
  let quotient := dividend.tdiv divisor
  let remainder := dividend.tmod divisor
  if remainder ≠ 0 ∧ ¬ (remainder < 0 ↔ divisor < 0) then quotient - 1 else quotient

/-- The quotient of two constants, rounded up.  The exclusive or of the remainder and the divisor
is positive if they differ and have the same sign. -/
def ceilQuotient (dividend divisor : Int) : Int :=
  let quotient := dividend.tdiv divisor
  let remainder := dividend.tmod divisor
  if remainder ≠ 0 ∧ (remainder < 0 ↔ divisor < 0) ∧ remainder ≠ divisor then quotient + 1
  else quotient

def integerCoefficient (e : Expr) : Int :=
  if e.op = .integer then e.payload
  else if e.op = .mul then
    match e.args.find? fun a => a.op = .integer with
    | some a => a.payload
    | none => 1
  else 1

def safeAbs (v : Int) : Int := if v = int64Min then int64Max else if v < 0 then -v else v

/-- `gcd_`.  The loop is the algorithm of Euclid. -/
def gcdOf (a b : Int) : Int := Nat.gcd (safeAbs a).toNat (safeAbs b).toNat

/-- The body of the loop of `integer_factor_`. -/
def factorStep (accumulated : Int) (e : Expr) : Int :=
  let coeff := safeAbs (integerCoefficient e)
  if accumulated = 0 then coeff else gcdOf accumulated coeff

def integerFactor (e : Expr) : Int :=
  if e.op = .add then
    let accumulated := e.args.foldl factorStep 0
    if accumulated = 0 then 1 else accumulated
  else safeAbs (integerCoefficient e)

def isDivisible (divisor : Int) (e : Expr) : Bool :=
  integerCoefficient e ≠ 0 && isFoldableDivision (integerCoefficient e) divisor &&
    (integerCoefficient e).tmod divisor = 0

namespace ExprEnv
open Crucible.Expr
variable (env : ExprEnv)

/-- `divide_coefficients_` on a product: the first integer factor is divided. -/
def divideProduct (divisor : Int) (e : Expr) : Building Expr :=
  match e.args.findIdx? fun a => a.op = .integer with
  | none => pure e
  | some i => do
    let coefficient ← e.arg i
    let quotient := coefficient.payload.tdiv divisor
    if quotient = 1 ∧ e.args.length = 2 then e.arg (1 - i)
    else env.mulN (e.args.set i (integer quotient))

mutual

def divideCoefficients (divisor : Int) : Expr → Building Expr
  | .mk op flags symbolId payload args =>
    if divisor ≤ 1 then pure (.mk op flags symbolId payload args)
    else
      match op with
      | .integer => pure (integer (payload.tdiv divisor))
      | .mul => env.divideProduct divisor (.mk .mul flags symbolId payload args)
      | .add => do
        let terms ← divideAll divisor args
        env.addN terms
      | op => pure (.mk op flags symbolId payload args)

def divideAll (divisor : Int) : List Expr → Building (List Expr)
  | [] => pure []
  | e :: rest => do
    let term ← divideCoefficients divisor e
    let terms ← divideAll divisor rest
    pure (term :: terms)

end

/-- A sum of some of the terms of a sum; one term alone is the sum. -/
def sumOf (terms : List Expr) : Building Expr :=
  match terms with
  | [e] => pure e
  | terms => env.addN terms

def quotientNode (l r : Expr) : Expr :=
  let sign := if l.has .isNonnegative ∧ r.has .isPositive then Flags.isNonnegative else 0
  Expr.mk .floorDiv (Flags.isInteger ||| sign) 0 0 [l, r]

/-- `floor_div`, for a number of calls. -/
def floorDivCalls : Nat → Expr → Expr → Building Expr
  | 0, _, _ => Fold.fail .endless
  | calls + 1, l, r =>
    if l.op = .integer ∧ r.op = .integer ∧ isFoldableDivision l.payload r.payload then
      pure (integer (floorQuotient l.payload r.payload))
    else if l.isZeroInt then pure (integer 0)
    else if r.isOne then pure l
    else if r.isNegOne then env.neg l
    else if env.same l r then pure (integer 1)
    else if l.op = .floorDiv ∨ l.op = .cleanDiv then do
      let dividend ← l.arg 0
      let divisor ← l.arg 1
      let product ← env.mul divisor r
      floorDivCalls calls dividend product
    else if l.op = .add ∧ r.op = .integer ∧ r.payload ≠ 0 ∧
        l.args.filter (isDivisible r.payload) ≠ [] then do
      let quotients ← env.divideAll r.payload (l.args.filter (isDivisible r.payload))
      let quotientSum ← env.sumOf quotients
      let remainders := l.args.filter fun a => !isDivisible r.payload a
      if remainders = [] then pure quotientSum
      else do
        let remainderSum ← env.sumOf remainders
        let quotient ← floorDivCalls calls remainderSum r
        env.add quotientSum quotient
    else
      let common := gcdOf (integerFactor l) (integerFactor r)
      if 1 < common then do
        let l' ← env.divideCoefficients common l
        let r' ← env.divideCoefficients common r
        floorDivCalls calls l' r'
      else pure (quotientNode l r)

def floorDiv (l r : Expr) : Building Expr := env.floorDivCalls (weight l + 1) l r

def cleanDiv (l r : Expr) : Building Expr := env.floorDiv l r

def ceilDiv (l r : Expr) : Building Expr :=
  if l.op = .integer ∧ r.op = .integer ∧ isFoldableDivision l.payload r.payload then
    pure (integer (ceilQuotient l.payload r.payload))
  else do
    let less ← env.add r (integer (-1))
    let sum ← env.add l less
    env.floorDiv sum r

/-- The parity that `mod` and `python_mod` read off the flags. -/
def parity (l r : Expr) : Option Int :=
  if r.op = .integer ∧ r.payload = 2 then
    if l.has .isEven then some 0
    else if l.has .isOdd then some 1
    else none
  else none

def mod (l r : Expr) : Expr :=
  if l.op = .integer ∧ r.op = .integer ∧ 0 < r.payload then integer (l.payload.tmod r.payload)
  else if l.isZeroInt ∨ env.same l r ∨ r.isOne then integer 0
  else
    match parity l r with
    | some v => integer v
    | none => Expr.mk .mod (Flags.isInteger ||| .isNonnegative) 0 0 [l, r]

def pythonMod (l r : Expr) : Building Expr :=
  if l.op = .integer ∧ r.op = .integer ∧ isFoldableDivision l.payload r.payload then
    let remainder := l.payload.tmod r.payload
    if remainder ≠ 0 ∧ ¬ (remainder < 0 ↔ r.payload < 0) then do
      let v ← addSat remainder r.payload
      pure (integer v)
    else pure (integer remainder)
  else if l.isZeroInt ∨ env.same l r ∨ r.isOne then pure (integer 0)
  else
    match parity l r with
    | some v => pure (integer v)
    | none => pure (Expr.mk .pythonMod .isInteger 0 0 [l, r])

/-- `modular_indexing`, for a number of calls.  The product of the modulus and the divisor is
clamped, and no fold of the expression. -/
def modularIndexingCalls : Nat → Expr → Expr → Expr → Building Expr
  | 0, _, _, _ => Fold.fail .endless
  | calls + 1, base, div, modulus =>
    if base.isZeroInt ∨ modulus.isOne then pure (integer 0)
    else if base.op = .integer ∧ div.op = .integer ∧ modulus.op = .integer ∧
        isFoldableDivision base.payload div.payload ∧
        isFoldableDivision (floorQuotient base.payload div.payload) modulus.payload then
      let result := (floorQuotient base.payload div.payload).tmod modulus.payload
      if result < 0 then do
        let v ← addSat result modulus.payload
        pure (integer v)
      else pure (integer result)
    else
      let common := gcdOf (integerFactor base) (integerFactor div)
      if ¬ (div.op = .integer ∧ div.payload = 1) ∧ 1 < common then do
        let base' ← env.divideCoefficients common base
        let div' ← env.divideCoefficients common div
        modularIndexingCalls calls base' div' modulus
      else
        let product := clamp (modulus.payload * div.payload)
        let isDropped (a : Expr) : Bool :=
          integerCoefficient a ≠ 0 && (integerCoefficient a).tmod product = 0
        if base.op = .add ∧ modulus.op = .integer ∧ div.op = .integer ∧ 0 < product ∧
            base.args.any isDropped then
          let kept := base.args.filter fun a => !isDropped a
          if kept = [] then pure (integer 0)
          else do
            let reduced ← env.sumOf kept
            modularIndexingCalls calls reduced div modulus
        else if base.op = .floorDiv ∨ base.op = .cleanDiv then do
          let dividend ← base.arg 0
          let divisor ← base.arg 1
          let product ← env.mul divisor div
          modularIndexingCalls calls dividend product modulus
        else
          pure (Expr.mk .modularIndexing (Flags.isInteger ||| .isNonnegative) 0 0
            [base, div, modulus])

def modularIndexing (base div modulus : Expr) : Building Expr :=
  env.modularIndexingCalls (weight base + 1) base div modulus

def make (op : Op) (args : List Expr) : Building Expr :=
  if args.length < (opArityBand op).1 ∨ (opArityBand op).2 < args.length then fatal
  else
    match op, args with
    | .add, [l, r] => env.add l r
    | .add, args => env.addN args
    | .mul, [l, r] => env.mul l r
    | .mul, args => env.mulN args
    | .and, [l, r] => env.and l r
    | .and, args => env.andN args
    | .or, [l, r] => env.or l r
    | .or, args => env.orN args
    | .pow, [l, r] => pow l r
    | .neg, [e] => env.neg e
    | .eq, [l, r] => pure (env.eq l r)
    | .ne, [l, r] => pure (env.ne l r)
    | .lt, [l, r] => pure (env.lt l r)
    | .le, [l, r] => pure (env.le l r)
    | .gt, [l, r] => pure (env.gt l r)
    | .ge, [l, r] => pure (env.ge l r)
    | .not, [e] => env.not e
    | .floorDiv, [l, r] => env.floorDiv l r
    | .cleanDiv, [l, r] => env.cleanDiv l r
    | .ceilDiv, [l, r] => env.ceilDiv l r
    | .mod, [l, r] => pure (env.mod l r)
    | .pythonMod, [l, r] => env.pythonMod l r
    | .modularIndexing, [base, div, modulus] => env.modularIndexing base div modulus
    | .whereOp, [c, a, b] => pure (env.whereExpr c a b)
    | .min, [l, r] => env.minExpr l r
    | .min, args => env.minN args
    | .max, [l, r] => env.maxExpr l r
    | .max, args => env.maxN args
    | op, args => pure (composite op args)

end ExprEnv
end Crucible
