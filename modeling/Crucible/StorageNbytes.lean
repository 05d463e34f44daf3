import Crucible.Loops
import Crucible.Types

/-! # The storage span of a tensor

`compute_storage_nbytes_scalar`: the bytes between the lowest and the highest
offset that a tensor reaches, with every step of the signed arithmetic checked.
Any overflow ends the computation with the largest word and the clamped flag.
-/
namespace Crucible

/-- The fields of `TensorMeta` that the trace builder reads.  `dataPtr` is the
storage address, and the null address is zero. -/
structure TensorMeta where
  sizes : List Int := []
  strides : List Int := []
  dataPtr : Nat := 0
  ndim : Nat := 0
  dtype : ScalarType := .undefined
  deviceType : DeviceType := .cpu
  deviceIdx : Int := -1
  layout : Layout := .strided
deriving DecidableEq, Inhabited

/-- `Saturated<uint64_t>`. -/
structure Saturated where
  value : Nat
  clamped : Bool := false
deriving DecidableEq

def Saturated.overflow : Saturated := { value := u64Max, clamped := true }

/-- A result of the checked `int64_t` builtins: none on overflow. -/
def checkedI64 (x : Int) : Option Int :=
  if -(2 ^ 63) ≤ x ∧ x < 2 ^ 63 then some x else none

/-- `size - 1` in modular `int64_t` arithmetic, which takes `INT64_MIN` to `INT64_MAX`. -/
def sizeMinusOne (size : Int) : Int :=
  if size = -(2 ^ 63) then 2 ^ 63 - 1 else size - 1

/-- One dimension of the span loop.  An error is an early return. -/
def spanDim (offsets : Int × Int) (size stride : Int) : Except Saturated (Int × Int) :=
  let (maxOffset, minOffset) := offsets
  if size = 0 then .error { value := 0 }
  else
    match checkedI64 (sizeMinusOne size * stride) with
    | none => .error .overflow
    | some extent =>
      if extent > 0 then
        match checkedI64 (maxOffset + extent) with
        | none => .error .overflow
        | some maxOffset => .ok (maxOffset, minOffset)
      else
        match checkedI64 (minOffset + extent) with
        | none => .error .overflow
        | some minOffset => .ok (maxOffset, minOffset)

def spanBytes (offsets : Int × Int) (dtype : ScalarType) : Saturated :=
  match checkedI64 (offsets.1 - offsets.2) with
  | none => .overflow
  | some span =>
    match checkedI64 (span + 1) with
    | none => .overflow
    | some span =>
      let total := span.toNat * elementSize dtype
      if total < 2 ^ 64 then { value := total } else .overflow

/-- `compute_storage_nbytes_scalar`. -/
def computeStorageNbytes (tensor : TensorMeta) : Saturated :=
  if tensor.ndim = 0 then { value := elementSize tensor.dtype }
  else
    let offsets := (List.range tensor.ndim).foldlM (fun acc d =>
      spanDim acc (tensor.sizes.getD d 0) (tensor.strides.getD d 0)) (0, 0)
    match offsets with
    | .error early => early
    | .ok offsets => spanBytes offsets tensor.dtype

/-- `compute_storage_nbytes_det(...).peek().value()`, which drops the clamped flag. -/
def storageNbytes (tensor : TensorMeta) : Nat := (computeStorageNbytes tensor).value

theorem elementSize_lt (dtype : ScalarType) : elementSize dtype < 2 ^ 64 := by
  cases dtype <;> decide

end Crucible
