import Crucible.ContentHash

/-! # Nodes of symbolic expressions

The operations, the assumption flags and the fields of an interned node, over any type of
pointers, and the hash of the fields.  The four small fields are packed into one word, which
`packed_inj` shows to lose nothing.
-/
namespace Crucible

/-- `Op`, without the sentinel. -/
inductive Op where
  | integer | float | symbol | boolTrue | boolFalse
  | add | mul | pow
  | eq | ne | lt | le | gt | ge
  | and | or | not
  | floorDiv | cleanDiv | ceilDiv | intTrueDiv | floatTrueDiv | mod | pythonMod | modularIndexing
  | ceilToInt | floorToInt | truncToFloat | truncToInt | roundToInt | roundDecimal | toFloat
  | lshift | rshift
  | powByNatural | floatPow
  | whereOp
  | identity
  | min | max
  | isNonOverlappingAndDense
  | sqrt | cos | cosh | sin | sinh | tan | tanh | asin | acos | atan | exp | log | asinh | log2
  | abs
  | bitwiseAnd | bitwiseOr | bitwiseXor
  | neg
deriving DecidableEq

/-- `std::to_underlying` of an operation. -/
def Op.code (op : Op) : Nat := op.ctorIdx

theorem Op.code_lt (op : Op) : op.code < 2 ^ 8 := by cases op <;> decide

theorem Op.code_inj {op op' : Op} (h : op.code = op'.code) : op = op' := by
  have hall : ∀ op : Op, Op.ofNat op.code = op := by
    intro op
    cases op <;> rfl
  rw [← hall op, ← hall op', h]

/-- `ExprFlags`. -/
abbrev Flags := BitVec 16

namespace Flags

def isInteger : Flags := 1 <<< 0
def isReal : Flags := 1 <<< 1
def isFinite : Flags := 1 <<< 2
def isPositive : Flags := 1 <<< 3
def isNegative : Flags := 1 <<< 4
def isNonnegative : Flags := 1 <<< 5
def isNonpositive : Flags := 1 <<< 6
def isZero : Flags := 1 <<< 7
def isEven : Flags := 1 <<< 8
def isOdd : Flags := 1 <<< 9
def isNumber : Flags := 1 <<< 10
def isSymbol : Flags := 1 <<< 11
def isBoolean : Flags := 1 <<< 12

end Flags

def integerFlags (value : Int) : Flags :=
  let numeric := Flags.isInteger ||| .isReal ||| .isFinite ||| .isNumber
  let sign :=
    if 0 < value then Flags.isPositive ||| .isNonnegative
    else if value < 0 then .isNegative ||| .isNonpositive
    else .isZero ||| .isNonnegative ||| .isNonpositive
  numeric ||| sign ||| if value % 2 = 0 then .isEven else .isOdd

/-- `Expr::kMaxArgs`. -/
def maxArgs : Nat := 255

/-- The fields of an interned node.  The hash is not one of them: it is computed from the
others. -/
structure Node (P : Type) where
  op : Op
  flags : Flags := 0
  symbolId : BitVec 32 := 0
  payload : Int := 0
  args : List P := []
  args_le : args.length ≤ maxArgs := by decide
deriving DecidableEq

namespace Node
variable {P : Type}

theorem ext_fields {n n' : Node P} (hop : n.op = n'.op) (hflags : n.flags = n'.flags)
    (hsym : n.symbolId = n'.symbolId) (hpay : n.payload = n'.payload)
    (hargs : n.args = n'.args) : n = n' := by
  cases n
  subst hop hflags hsym hpay hargs
  rfl

def packed (n : Node P) : Nat :=
  n.op.code ||| n.args.length <<< 8 ||| n.flags.toNat <<< 16 ||| n.symbolId.toNat <<< 32

theorem or_shiftLeft {a k : Nat} (b : Nat) (h : a < 2 ^ k) : a ||| b <<< k = a + 2 ^ k * b := by
  rw [Nat.or_comm, ← Nat.shiftLeft_add_eq_or_of_lt h, Nat.shiftLeft_eq, mul_comm, add_comm]

theorem packed_eq (n : Node P) :
    n.packed = n.op.code + 2 ^ 8 * n.args.length + 2 ^ 16 * n.flags.toNat +
      2 ^ 32 * n.symbolId.toNat := by
  have hop := n.op.code_lt
  have hargs : n.args.length < 2 ^ 8 := n.args_le.trans_lt (by decide)
  have hlow : n.op.code + 2 ^ 8 * n.args.length < 2 ^ 16 := by omega
  have hmid : n.op.code + 2 ^ 8 * n.args.length + 2 ^ 16 * n.flags.toNat < 2 ^ 32 := by omega
  rw [packed, or_shiftLeft _ hop, or_shiftLeft _ hlow, or_shiftLeft _ hmid]

/-- **The metadata word determines the four fields.** -/
theorem packed_inj {n n' : Node P} (h : n.packed = n'.packed) :
    n.op = n'.op ∧ n.args.length = n'.args.length ∧ n.flags = n'.flags ∧
      n.symbolId = n'.symbolId := by
  have hop := n.op.code_lt
  have hop' := n'.op.code_lt
  have hargs : n.args.length < 2 ^ 8 := n.args_le.trans_lt (by decide)
  have hargs' : n'.args.length < 2 ^ 8 := n'.args_le.trans_lt (by decide)
  rw [packed_eq, packed_eq] at h
  refine ⟨Op.code_inj ?_, ?_, BitVec.eq_of_toNat_eq ?_, BitVec.eq_of_toNat_eq ?_⟩ <;> omega

/-- `expr_hash`, for the addresses that the arena gives. -/
def hash (addr : P → Nat) (n : Node P) : Nat :=
  let mixed :=
    fmix64 (n.packed ^^^ 0x9E3779B97F4A7C15 ^^^ (word64 n.payload ^^^ 0x517CC1B727220A95))
  n.args.foldl (fun hash p => combineIds hash (addr p)) mixed

end Node
end Crucible
