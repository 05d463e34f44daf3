import Mathlib.Algebra.Order.Ring.Nat

/-! # Words, enumerations and tensor slots

The types that the recording pipeline and the memory planner share.  A machine
word is a `Nat`, and an operation that can leave the word says so with `wrap32`
or `wrap64`.  The largest value of an index word is its none value.
-/
namespace Crucible

/-- The largest value of `uint32_t`, which is also the none value of `OpIndex`,
`SlotId` and `MetaIndex`. -/
def u32Max : Nat := 2 ^ 32 - 1

/-- The largest value of `uint64_t`. -/
def u64Max : Nat := 2 ^ 64 - 1

/-- Truncation to `uint32_t`. -/
def wrap32 (x : Nat) : Nat := x % 2 ^ 32

/-- Truncation to `uint64_t`. -/
def wrap64 (x : Nat) : Nat := x % 2 ^ 64

theorem wrap64_of_lt {x : Nat} (h : x < 2 ^ 64) : wrap64 x = x := Nat.mod_eq_of_lt h

theorem wrap64_lt (x : Nat) : wrap64 x < 2 ^ 64 := Nat.mod_lt _ (by decide)

theorem wrap32_of_lt {x : Nat} (h : x < 2 ^ 32) : wrap32 x = x := Nat.mod_eq_of_lt h

/-- What ends a call without an answer. -/
inductive Fault where
  /-- A contract or a fatal check fails. -/
  | contract
  /-- A loop never ends. -/
  | endless
deriving DecidableEq

inductive ScalarType where
  | byte | char | short | int | long | half | float | double
  | complexHalf | complexFloat | complexDouble | bool | bfloat16
  | float8E5m2 | float8E4m3fn | float8E5m2fnuz | float8E4m3fnuz | undefined
deriving DecidableEq

/-- `element_size`.  Only the undefined type has size zero. -/
def elementSize : ScalarType → Nat
  | .bool | .byte | .char | .float8E5m2 | .float8E4m3fn | .float8E5m2fnuz | .float8E4m3fnuz => 1
  | .short | .half | .bfloat16 => 2
  | .int | .float | .complexHalf => 4
  | .long | .double | .complexFloat => 8
  | .complexDouble => 16
  | .undefined => 0

inductive DeviceType where
  | cpu | cuda | mkldnn | hip | xla | mps | metaDevice | privateUse1
deriving DecidableEq

inductive Layout where
  | strided | sparse | sparseCsr | sparseCsc | sparseBsr | sparseBsc
deriving DecidableEq

/-- `TensorSlot`.  The identifiers are raw words, so `u32Max` is the none value of
`birthOp`, `deathOp` and `slotId`. -/
structure TensorSlot where
  offsetBytes : Nat := 0
  nbytes : Nat := 0
  birthOp : Nat := u32Max
  deathOp : Nat := u32Max
  dtype : ScalarType := .undefined
  deviceType : DeviceType := .cpu
  deviceIdx : Int := -1
  layout : Layout := .strided
  isExternal : Bool := false
  slotId : Nat := u32Max
deriving DecidableEq, Inhabited

end Crucible
