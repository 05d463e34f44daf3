import Crucible.ExprTree
import Crucible.SaturatingFold

/-! # The constructors of expressions

The methods of `ExprPool` that build a node from others, over the trees that pointers stand for.
A comparison of two pointers is one of addresses; the arena gives an address to every tree, a
different one to each.  The constant folds saturate, and the exact results go to a record.

`CRUCIBLE_FATAL_INVARIANT` and the contracts of `Expr::arg` are faults.  The recursion of
`floor_div` and of `modular_indexing` stops here after as many calls as the weight of the
dividend, which is enough: every call that goes on has a lighter one.
-/
namespace Crucible
open Saturating

abbrev Building (α : Type) := Fold Fault α

/-- A `CRUCIBLE_FATAL_INVARIANT` that does not hold. -/
def fatal {α : Type} : Building α := Fold.fail .contract

def addSat (x y : Int) : Building Int := Fold.folded (x + y)

def subSat (x y : Int) : Building Int := Fold.folded (x - y)

def mulSat (x y : Int) : Building Int := Fold.folded (x * y)

/-- The addresses of interned nodes, and the arithmetic of doubles by their bits. -/
structure ExprEnv where
  addr : Expr → Nat
  addr_inj : Function.Injective addr
  floatAdd : Int → Int → Int := fun x _ => x
  floatMul : Int → Int → Int := fun x _ => x
  floatNeg : Int → Int := fun x => x
  floatPositive : Int → Bool := fun _ => false
  floatNegative : Int → Bool := fun _ => false
  floatZero : Int → Bool := fun _ => false

/-- A pool whose addresses are the numbers of the trees. -/
def ExprEnv.numbered : ExprEnv where
  addr := Expr.code
  addr_inj := Expr.code_injective

/-- `ArityBand`, the least and the greatest number of operands. -/
def opArityBand : Op → Nat × Nat
  | .add | .mul | .and | .or | .min | .max | .isNonOverlappingAndDense => (1, maxArgs)
  | .not | .neg | .identity | .abs | .ceilToInt | .floorToInt | .truncToFloat | .truncToInt
  | .roundToInt | .toFloat | .sqrt | .cos | .cosh | .sin | .sinh | .tan | .tanh | .asin | .acos
  | .atan | .exp | .log | .asinh | .log2 => (1, 1)
  | .pow | .eq | .ne | .lt | .le | .gt | .ge | .floorDiv | .cleanDiv | .ceilDiv | .intTrueDiv
  | .floatTrueDiv | .mod | .pythonMod | .roundDecimal | .lshift | .rshift | .powByNatural
  | .floatPow | .bitwiseAnd | .bitwiseOr | .bitwiseXor => (2, 2)
  | .modularIndexing | .whereOp => (3, 3)
  | .integer | .float | .symbol | .boolTrue | .boolFalse => (1, 0)

/-- The flags that an operation may take from its operands. -/
def numericFlags : Flags := .isInteger ||| .isReal ||| .isFinite ||| .isNumber

/-- `composite_flags`.  An atom has flags of its own, and never comes here. -/
def compositeFlags (op : Op) (args : List Expr) : Flags :=
  let flagsAt i := ((args[i]?).map Expr.flags).getD 0
  match op with
  | .add | .mul | .min | .max =>
    args.foldl (fun flags a => flags &&& a.flags) 0xFFFF &&& numericFlags
  | .pow => flagsAt 0 &&& flagsAt 1 &&& (Flags.isReal ||| .isFinite)
  | .eq | .ne | .lt | .le | .gt | .ge | .and | .or | .not => .isBoolean
  | .floorDiv | .cleanDiv | .ceilDiv | .mod | .pythonMod | .modularIndexing | .lshift | .rshift
  | .ceilToInt | .floorToInt | .truncToInt | .roundToInt | .bitwiseAnd | .bitwiseOr
  | .powByNatural | .isNonOverlappingAndDense | .bitwiseXor => numericFlags
  | .floatTrueDiv | .intTrueDiv | .toFloat | .truncToFloat | .floatPow | .roundDecimal | .sqrt
  | .cos | .sin | .tan | .cosh | .sinh | .tanh | .asin | .acos | .atan | .exp | .log | .asinh
  | .log2 => Flags.isReal ||| .isFinite ||| .isNumber
  | .whereOp => if 3 ≤ args.length then flagsAt 1 &&& flagsAt 2 &&& numericFlags else 0
  | .identity => if 1 ≤ args.length then flagsAt 0 else 0
  | .neg => if 1 ≤ args.length then flagsAt 0 &&& numericFlags else 0
  | .abs => if 1 ≤ args.length then flagsAt 0 &&& numericFlags ||| .isNonnegative else 0
  | .integer | .float | .symbol | .boolTrue | .boolFalse => 0

namespace Expr

def integer (v : Int) : Expr := mk .integer (integerFlags v) 0 v []

/-- `symbol`.  The payload is the address of the name. -/
def symbol (id : BitVec 32) (assumptionFlags : Flags) (name : Int) : Expr :=
  mk .symbol (assumptionFlags ||| .isSymbol) id name []

def boolTrue : Expr := mk .boolTrue .isBoolean 0 0 []

def boolFalse : Expr := mk .boolFalse .isBoolean 0 0 []

/-- A node with the flags of `composite_flags`. -/
def composite (op : Op) (args : List Expr) : Expr := mk op (compositeFlags op args) 0 0 args

def isZeroInt (e : Expr) : Bool := e.op = .integer && e.payload = 0

def isOne (e : Expr) : Bool := e.op = .integer && e.payload = 1

def isNegOne (e : Expr) : Bool := e.op = .integer && e.payload = -1

def has (e : Expr) (flag : Flags) : Bool := e.flags &&& flag ≠ 0

def arg (e : Expr) (i : Nat) : Building Expr :=
  match e.args[i]? with
  | some a => pure a
  | none => fatal

end Expr

namespace ExprEnv
open Crucible.Expr
variable (env : ExprEnv)

def same (e e' : Expr) : Bool := env.addr e = env.addr e'

/-- `sort` by address. -/
def sorted (l : List Expr) : List Expr := l.insertionSort fun a b => env.addr a ≤ env.addr b

variable (l r : Expr)

def ordered : List Expr := if env.addr r < env.addr l then [r, l] else [l, r]

def float (bits : Int) : Expr :=
  let sign :=
    if env.floatPositive bits then Flags.isPositive ||| .isNonnegative
    else if env.floatNegative bits then .isNegative ||| .isNonpositive
    else if env.floatZero bits then .isZero ||| .isNonnegative ||| .isNonpositive
    else 0
  Expr.mk .float (Flags.isReal ||| .isFinite ||| .isNumber ||| sign) 0 bits []

/-! ### Sums and products -/

/-- An operand of a sum or a product that is taken apart: an integer goes to the constant. -/
def splice (fold : Int → Int → Building Int) (s : List Expr × Int) (e : Expr) :
    Building (List Expr × Int) :=
  if e.op = .integer then do
    let constant ← fold s.2 e.payload
    pure (s.1, constant)
  else if maxArgs ≤ s.1.length then fatal
  else pure (s.1 ++ [e], s.2)

/-- The first loop of `add_n` and of `mul_n`.  An operand of the same operation is taken apart
if its own operands fit, with one place for each input that is still to come. -/
def flatten (op : Op) (fold : Int → Int → Building Int) :
    List Expr → List Expr × Int → Building (List Expr × Int)
  | [], s => pure s
  | e :: rest, s =>
    if e.op = op ∧ s.1.length + e.args.length + rest.length ≤ maxArgs then do
      let s ← e.args.foldlM (splice fold) s
      flatten op fold rest s
    else if e.op = .integer then do
      let constant ← fold s.2 e.payload
      flatten op fold rest (s.1, constant)
    else if maxArgs ≤ s.1.length + rest.length then fatal
    else flatten op fold rest (s.1 ++ [e], s.2)

def nestFoldedConstant (op : Op) (terms : List Expr) (constant : Int) : Expr :=
  composite op (env.ordered (composite op terms) (integer constant))

/-- The end of the n-ary constructors: a single operand is the result. -/
def intern (op : Op) (terms : List Expr) : Building Expr :=
  match terms with
  | [e] => pure e
  | _ => if maxArgs < terms.length then fatal else pure (composite op (env.sorted terms))

/-- The end of `add_n` and of `mul_n`: the constant is put back unless it is the unit. -/
def reattach (op : Op) (unit : Int) (terms : List Expr) (constant : Int) : Building Expr :=
  if constant ≠ unit ∨ terms = [] then
    if terms.length = maxArgs then pure (env.nestFoldedConstant op (env.sorted terms) constant)
    else env.intern op (terms ++ [integer constant])
  else env.intern op terms

variable (inputs : List Expr)

def mulN : Building Expr :=
  if maxArgs < inputs.length then fatal
  else do
    let s ← flatten .mul mulSat inputs ([], 1)
    if s.2 = 0 then pure (integer 0) else env.reattach .mul 1 s.1 s.2

def mul : Building Expr :=
  if l.op ≠ .mul ∧ r.op ≠ .mul ∧ l.op ≠ .integer ∧ r.op ≠ .integer ∧ l.op ≠ .float ∧
      r.op ≠ .float then
    pure (composite .mul (env.ordered l r))
  else if l.op = .integer ∧ r.op = .integer then do
    let v ← mulSat l.payload r.payload
    pure (integer v)
  else if l.op = .float ∧ r.op = .float then pure (env.float (env.floatMul l.payload r.payload))
  else if l.isZeroInt ∨ r.isZeroInt then pure (integer 0)
  else if l.isOne then pure r
  else if r.isOne then pure l
  else env.mulN [l, r]

/-- The coefficient of a product: the loop keeps the last integer factor. -/
def combinedCoefficient (e : Expr) : Int :=
  e.args.foldl (fun c a => if a.op = .integer then a.payload else c) 1

def mulFactors (e : Expr) : List Expr := e.args.filter fun a => a.op ≠ .integer

/-- A term of a sum as a coefficient and a base; a product of integers has no base. -/
def decompose (e : Expr) : Int × Option Expr :=
  if e.op = .mul then
    match mulFactors e with
    | [] => (combinedCoefficient e, none)
    | [b] => (combinedCoefficient e, some b)
    | factors => (combinedCoefficient e, some (composite .mul factors))
  else (1, some e)

/-- The loop that takes the terms of a sum apart. -/
def decomposeTerms : List Expr → List (Int × Expr) × Int → Building (List (Int × Expr) × Int)
  | [], s => pure s
  | e :: rest, s =>
    match decompose e with
    | (c, some b) => decomposeTerms rest (s.1 ++ [(c, b)], s.2)
    | (c, none) => do
      let constant ← addSat s.2 c
      decomposeTerms rest (s.1, constant)

/-- The term of a base with its coefficient, at the end of the terms so far. -/
def emit (total : Int) (base : Expr) (terms : List Expr) : Building (List Expr) :=
  if total = 0 then pure terms
  else if total = 1 then pure (terms ++ [base])
  else do
    let term ← env.mulN [integer total, base]
    pure (terms ++ [term])

/-- The loop that adds the coefficients of equal bases, at the base that it is at. -/
def collectTerms (total : Int) (base : Expr) : List (Int × Expr) → List Expr → Building (List Expr)
  | [], terms => env.emit total base terms
  | (c, b) :: rest, terms =>
    if env.same b base then do
      let total ← addSat total c
      collectTerms total base rest terms
    else do
      let terms ← env.emit total base terms
      collectTerms c b rest terms

/-- The terms of a sum, sorted by base and collected. -/
def collect (decomposed : List (Int × Expr)) : Building (List Expr) :=
  match decomposed.insertionSort fun s t => env.addr s.2 ≤ env.addr t.2 with
  | [] => pure []
  | (c, b) :: rest => env.collectTerms c b rest []

def addN : Building Expr :=
  if maxArgs < inputs.length then fatal
  else do
    let s ← flatten .add addSat inputs ([], 0)
    if s.1 = [] then pure (integer s.2)
    else do
      let d ← decomposeTerms s.1 ([], s.2)
      let terms ← env.collect d.1
      env.reattach .add 0 terms d.2

def add : Building Expr :=
  if l.op ≠ .add ∧ r.op ≠ .add ∧ l.op ≠ .mul ∧ r.op ≠ .mul ∧ l.op ≠ .integer ∧
      r.op ≠ .integer ∧ l.op ≠ .float ∧ r.op ≠ .float then
    if env.same l r then env.mul (integer 2) l
    else pure (composite .add (env.ordered l r))
  else if l.op = .integer ∧ r.op = .integer then do
    let v ← addSat l.payload r.payload
    pure (integer v)
  else if l.op = .float ∧ r.op = .float then pure (env.float (env.floatAdd l.payload r.payload))
  else if l.isZeroInt then pure r
  else if r.isZeroInt then pure l
  else env.addN [l, r]

def neg (e : Expr) : Building Expr :=
  if e.op = .integer then do
    let v ← subSat 0 e.payload
    pure (integer v)
  else if e.op = .float then pure (env.float (env.floatNeg e.payload))
  else env.mul (integer (-1)) e

/-- The product loop of `pow`. -/
def powLoop (base : Int) : Nat → Int → Building Int
  | 0, product => pure product
  | n + 1, product => do
    let product ← mulSat product base
    powLoop base n product

def pow (base exp : Expr) : Building Expr :=
  if exp.isZeroInt then pure (integer 1)
  else if exp.isOne then pure base
  else if base.op = .integer ∧ exp.op = .integer ∧ 0 ≤ exp.payload ∧ exp.payload ≤ 62 then do
    let v ← powLoop base.payload exp.payload.toNat 1
    pure (integer v)
  else pure (composite .pow [base, exp])

/-! ### Relations -/

/-- The relations: equal pointers and two integers fold. -/
def relation (op : Op) (onSame : Bool) (holds : Int → Int → Bool) (operands : List Expr)
    (l r : Expr) : Expr :=
  let truth (b : Bool) := if b then boolTrue else boolFalse
  if env.same l r then truth onSame
  else if l.op = .integer ∧ r.op = .integer then truth (holds l.payload r.payload)
  else Expr.mk op .isBoolean 0 0 operands

def eq : Expr := env.relation .eq true (fun x y => x = y) (env.ordered l r) l r

def ne : Expr := env.relation .ne false (fun x y => x ≠ y) (env.ordered l r) l r

def lt : Expr := env.relation .lt false (fun x y => x < y) [l, r] l r

def le : Expr := env.relation .le true (fun x y => x ≤ y) [l, r] l r

def gt : Expr := env.relation .gt false (fun x y => x > y) [l, r] l r

def ge : Expr := env.relation .ge true (fun x y => x ≥ y) [l, r] l r

/-! ### Logic -/

/-- The operands of one `AND` or `OR` that is taken apart.  `none` is the early return. -/
def spliceLogic (absorbing unit : Expr) : List Expr → List Expr → Building (Option (List Expr))
  | [], terms => pure (some terms)
  | e :: rest, terms =>
    if env.same e absorbing then pure none
    else if env.same e unit then spliceLogic absorbing unit rest terms
    else if maxArgs ≤ terms.length then fatal
    else spliceLogic absorbing unit rest (terms ++ [e])

/-- The loop of `and_n` and of `or_n`. -/
def flattenLogic (op : Op) (absorbing unit : Expr) :
    List Expr → List Expr → Building (Option (List Expr))
  | [], terms => pure (some terms)
  | e :: rest, terms =>
    if env.same e absorbing then pure none
    else if env.same e unit then flattenLogic op absorbing unit rest terms
    else if e.op = op ∧ terms.length + e.args.length + rest.length ≤ maxArgs then do
      match ← env.spliceLogic absorbing unit e.args terms with
      | none => pure none
      | some terms => flattenLogic op absorbing unit rest terms
    else if maxArgs ≤ terms.length + rest.length then fatal
    else flattenLogic op absorbing unit rest (terms ++ [e])

/-- `and_n` and `or_n`. -/
def logicN (op : Op) (absorbing unit : Expr) (inputs : List Expr) : Building Expr :=
  if maxArgs < inputs.length then fatal
  else do
    match ← env.flattenLogic op absorbing unit inputs [] with
    | none => pure absorbing
    | some [] => pure unit
    | some terms => env.intern op terms

def andN : Building Expr := env.logicN .and boolFalse boolTrue inputs

def orN : Building Expr := env.logicN .or boolTrue boolFalse inputs

/-- `and_` and `or_`. -/
def logic (op : Op) (absorbing unit l r : Expr) : Building Expr :=
  if env.same l absorbing ∨ env.same r absorbing then pure absorbing
  else if env.same l unit then pure r
  else if env.same r unit then pure l
  else if env.same l r then pure l
  else env.logicN op absorbing unit [l, r]

def and : Building Expr := env.logic .and boolFalse boolTrue l r

def or : Building Expr := env.logic .or boolTrue boolFalse l r

def not (e : Expr) : Building Expr :=
  if env.same e boolTrue then pure boolFalse
  else if env.same e boolFalse then pure boolTrue
  else if e.op = .not then e.arg 0
  else pure (Expr.mk .not .isBoolean 0 0 [e])

/-! ### Choices -/

/-- `where`. -/
def whereExpr (cond thenBranch elseBranch : Expr) : Expr :=
  if env.same cond boolTrue then thenBranch
  else if env.same cond boolFalse then elseBranch
  else if env.same thenBranch elseBranch then thenBranch
  else Expr.mk .whereOp (thenBranch.flags &&& elseBranch.flags) 0 0 [cond, thenBranch, elseBranch]

/-- The loop of `min_n` and of `max_n`. -/
def flattenChoice (op : Op) : List Expr → List Expr → Building (List Expr)
  | [], terms => pure terms
  | e :: rest, terms =>
    if e.op = op ∧ terms.length + e.args.length + rest.length ≤ maxArgs then
      flattenChoice op rest (terms ++ e.args)
    else if maxArgs ≤ terms.length + rest.length then fatal
    else flattenChoice op rest (terms ++ [e])

/-- The loop that drops an operand equal to the one before. -/
def dropRepeats (last : Expr) : List Expr → List Expr
  | [] => []
  | e :: rest => if env.same e last then dropRepeats last rest else e :: dropRepeats e rest

/-- `min_n` and `max_n`. -/
def choiceN (op : Op) (inputs : List Expr) : Building Expr :=
  if inputs = [] ∨ maxArgs < inputs.length then fatal
  else do
    let terms ← flattenChoice op inputs []
    match env.sorted terms with
    | [] => fatal
    | e :: rest =>
      match env.dropRepeats e rest with
      | [] => pure e
      | rest => if maxArgs < rest.length + 1 then fatal else pure (composite op (e :: rest))

def minN : Building Expr := env.choiceN .min inputs

def maxN : Building Expr := env.choiceN .max inputs

/-- `min_expr` and `max_expr`. -/
def choice (op : Op) (pick : Int → Int → Int) (l r : Expr) : Building Expr :=
  if env.same l r then pure l
  else if l.op = .integer ∧ r.op = .integer then pure (integer (pick l.payload r.payload))
  else env.choiceN op [l, r]

def minExpr : Building Expr := env.choice .min min l r

def maxExpr : Building Expr := env.choice .max max l r

end ExprEnv
end Crucible
