import Crucible.ByteStream
import Crucible.ContentHash
import Crucible.MemoryPlan

/-! # The stored image of a region

`serialize_region` writes a region field after field.  A null array of an op is written as
default values.  `Cipher::store` sums an upper bound of the image size by hand and hands a
buffer of that size to the writer.  The image of an op is one byte longer than the bound
counts, so the spare bytes of the fixed parts are used up after a few hundred ops.
-/
namespace Crucible
open List

/-! ### Regions as the writer reads them -/

/-- `std::to_underlying` of a `Layout`. -/
def Layout.code : Layout → Int
  | .strided => 0
  | .sparse => 1
  | .sparseCsr => 2
  | .sparseCsc => 3
  | .sparseBsr => 4
  | .sparseBsc => 5

/-- `std::to_underlying` of a `TrainingPhase`. -/
def TrainingPhase.code : TrainingPhase → Nat
  | .forward => 0
  | .backward => 1
  | .optimizer => 2
  | .other => 3

/-- `TensorMeta` with the fields that only the image carries. -/
structure StoredMeta extends TensorMeta where
  requiresGrad : Bool := false
  flags : Nat := 0
  outputNr : Nat := 0
  storageOffset : Int := 0
  version : Nat := 0
  storageNbytes : Nat := 0
  gradFnHash : Nat := 0
deriving DecidableEq, Inhabited

/-- `TraceEntry` with its counts and its arrays, where a null array is `none`.  The kernel
id is its raw byte. -/
structure StoredEntry where
  schemaHash : Nat := 0
  shapeHash : Nat := 0
  scopeHash : Nat := 0
  callsiteHash : Nat := 0
  inputMetas : Option (List StoredMeta) := none
  outputMetas : Option (List StoredMeta) := none
  numInputs : Nat := 0
  numOutputs : Nat := 0
  scalarArgs : Option (List Int) := none
  numScalarArgs : Nat := 0
  gradEnabled : Bool := false
  inferenceMode : Bool := false
  kernelId : Nat := 0
  isMutable : Bool := false
  trainingPhase : TrainingPhase := .forward
  torchFunction : Bool := false
  inputTraceIndices : Option (List Nat) := none
  inputSlotIds : Option (List Nat) := none
  outputSlotIds : Option (List Nat) := none
deriving DecidableEq

/-- `RegionNode` without its links and its compiled kernel.  `measuredMs` is the bit
pattern of the float. -/
structure StoredRegion where
  merkleHash : Nat := 0
  contentHash : Nat := 0
  ops : List StoredEntry := []
  firstOpSchema : Nat := 0
  measuredMs : Nat := 0
  variantId : Nat := 0
  plan : Option MemoryPlan := none
deriving DecidableEq

/-- Element `j` of an array that may be null. -/
def arrayAt {α : Type} (array : Option (List α)) (absent : α) (j : Nat) : α :=
  match array with
  | some elements => elements.getD j absent
  | none => absent

/-! ### The fields in the order of the writer -/

def cdagMagic : Nat := 0x43444147

def cdagVersion : Nat := 10

/-- `kMaxTensorNDim` lanes of a size or stride block. -/
def dimBytes (dims : List Int) : List UInt8 :=
  (range maxTensorNDim).flatMap fun d => intBytes 8 (dims.getD d 0)

/-- A `bool` takes one byte. -/
def boolBytes (b : Bool) : List UInt8 := leBytes 1 b.toNat

/-- `write_header`. -/
def headerFields (kind merkleHash contentHash : Nat) : List (List UInt8) :=
  [leBytes 4 cdagMagic, leBytes 4 cdagVersion, leBytes 1 kind, zeroBytes 7,
    leBytes 8 merkleHash, leBytes 8 contentHash]

/-- `write_meta`.  The data pointer and the gradient-function hash go out as zero. -/
def metaFields (m : StoredMeta) : List (List UInt8) :=
  [dimBytes m.sizes, dimBytes m.strides, zeroBytes 8, leBytes 1 m.ndim,
    intBytes 1 m.dtype.code, intBytes 1 m.deviceType.code, intBytes 1 m.deviceIdx,
    intBytes 1 m.layout.code, boolBytes m.requiresGrad, leBytes 1 m.flags,
    leBytes 1 m.outputNr, intBytes 8 m.storageOffset, leBytes 4 m.version,
    leBytes 4 m.storageNbytes, zeroBytes 8]

/-- `write_slot`. -/
def slotFields (slot : TensorSlot) : List (List UInt8) :=
  [leBytes 8 slot.offsetBytes, leBytes 8 slot.nbytes, leBytes 4 slot.birthOp,
    leBytes 4 slot.deathOp, intBytes 1 slot.dtype.code, intBytes 1 slot.deviceType.code,
    intBytes 1 slot.deviceIdx, intBytes 1 slot.layout.code, boolBytes slot.isExternal,
    zeroBytes 3, leBytes 4 slot.slotId, zeroBytes 4]

def planFields (plan : MemoryPlan) : List (List UInt8) :=
  [leBytes 8 plan.poolBytes, leBytes 4 plan.numSlots, leBytes 4 plan.numExternal,
    intBytes 1 plan.deviceType.code, intBytes 1 plan.deviceIdx, zeroBytes 2,
    leBytes 8 plan.deviceCapability, intBytes 4 plan.rank, intBytes 4 plan.worldSize] ++
  (range plan.numSlots).flatMap fun s => slotFields (plan.slots.getD s {})

/-- The flags byte of an op, laid out as in the recording ring. -/
def opFlags (te : StoredEntry) : Nat :=
  te.inferenceMode.toNat ||| te.isMutable.toNat <<< 1 ||| te.trainingPhase.code <<< 2 |||
    te.torchFunction.toNat <<< 4

def opFixedFields (te : StoredEntry) : List (List UInt8) :=
  [leBytes 8 te.schemaHash, leBytes 8 te.shapeHash, leBytes 8 te.scopeHash,
    leBytes 8 te.callsiteHash, leBytes 2 te.numInputs, leBytes 2 te.numOutputs,
    leBytes 2 te.numScalarArgs, boolBytes te.gradEnabled, leBytes 1 (opFlags te),
    leBytes 1 te.kernelId]

def opFields (te : StoredEntry) : List (List UInt8) :=
  opFixedFields te ++
  ((range te.numInputs).flatMap fun j => metaFields (arrayAt te.inputMetas {} j)) ++
  ((range te.numOutputs).flatMap fun j => metaFields (arrayAt te.outputMetas {} j)) ++
  ((range te.numScalarArgs).map fun j => intBytes 8 (arrayAt te.scalarArgs 0 j)) ++
  ((range te.numInputs).map fun j => leBytes 4 (arrayAt te.inputTraceIndices u32Max j)) ++
  ((range te.numInputs).map fun j => leBytes 4 (arrayAt te.inputSlotIds u32Max j)) ++
  ((range te.numOutputs).map fun j => leBytes 4 (arrayAt te.outputSlotIds u32Max j))

variable (region : StoredRegion)

/-- The fields of `serialize_region`.  The kind of a region is zero. -/
def regionFields : List (List UInt8) :=
  headerFields 0 region.merkleHash region.contentHash ++
  [leBytes 4 region.ops.length, leBytes 8 region.firstOpSchema, leBytes 4 region.measuredMs,
    leBytes 4 region.variantId, boolBytes region.plan.isSome] ++
  region.plan.elim [] planFields ++
  region.ops.flatMap opFields

/-- The writer after `serialize_region` on a buffer of `max` bytes. -/
def regionWriter (max : Nat) : Writer :=
  Writer.writeAll { max := max } (regionFields region)

/-- `serialize_region`: the byte count, or zero if a field did not fit. -/
def serializeRegion (max : Nat) : Nat :=
  if (regionWriter region max).ok then (regionWriter region max).out.length else 0

def regionImage : List UInt8 := (regionFields region).flatten

/-! ### The bound that the store sums by hand -/

/-- `sizeof(TensorMeta)`: two blocks of eight lanes, five words and eight single bytes. -/
def sizeofTensorMeta : Nat := 168

/-- `sizeof(TensorSlot)`. -/
def sizeofTensorSlot : Nat := 40

/-- The terms that `estimate_serial_size` adds for one op. -/
def opEstimate (te : StoredEntry) : Nat :=
  40 + (te.numInputs + te.numOutputs) * sizeofTensorMeta + te.numScalarArgs * 8 +
    te.numInputs * 4 + te.numInputs * 4 + te.numOutputs * 4

def estimateSerialSize : Nat :=
  let sz := 64
  let sz := sz + 32
  let sz := match region.plan with
    | some plan => sz + (64 + plan.numSlots * sizeofTensorSlot)
    | none => sz
  let sz := region.ops.foldl (fun sz te => sz + opEstimate te) sz
  sz + 256

/-- The ceilings that the loader holds an image to. -/
structure StoredRegion.WithinCeilings : Prop where
  ops_le : region.ops.length ≤ 2 ^ 22
  slots_le : ∀ plan ∈ region.plan, plan.numSlots ≤ 2 ^ 20
  inputs_le : ∀ te ∈ region.ops, te.numInputs ≤ 1024
  outputs_le : ∀ te ∈ region.ops, te.numOutputs ≤ 1024
  scalars_le : ∀ te ∈ region.ops, te.numScalarArgs ≤ 256

/-! ### The size of an image -/

variable {size max : Nat}

theorem length_flatten_flatMap_const {α : Type} {fields : α → List (List UInt8)}
    (h : ∀ a, (fields a).flatten.length = size) (elements : List α) :
    (elements.flatMap fields).flatten.length = elements.length * size := by
  induction elements with
  | nil => rw [flatMap_nil, flatten_nil, length_nil, length_nil, zero_mul]
  | cons a elements ih =>
    rw [flatMap_cons, flatten_append, length_append, h, ih, length_cons, Nat.succ_mul, add_comm]

theorem length_flatten_map_const {α : Type} {field : α → List UInt8}
    (h : ∀ a, (field a).length = size) (elements : List α) :
    (elements.map field).flatten.length = elements.length * size := by
  simp [length_flatten, show length ∘ field = fun _ => size from funext h]

@[simp] theorem length_dimBytes (dims : List Int) : (dimBytes dims).length = 64 := by
  simp [dimBytes, maxTensorNDim, range_succ]

@[simp] theorem length_boolBytes (b : Bool) : (boolBytes b).length = 1 := length_leBytes 1 _

theorem headerFields_length (kind merkleHash contentHash : Nat) :
    (headerFields kind merkleHash contentHash).flatten.length = 32 := by
  simp [headerFields]

theorem metaFields_length (m : StoredMeta) : (metaFields m).flatten.length = sizeofTensorMeta := by
  simp [metaFields, sizeofTensorMeta]

theorem slotFields_length (slot : TensorSlot) :
    (slotFields slot).flatten.length = sizeofTensorSlot := by
  simp [slotFields, sizeofTensorSlot]

theorem planFields_length (plan : MemoryPlan) :
    (planFields plan).flatten.length = 36 + plan.numSlots * sizeofTensorSlot := by
  rw [planFields, flatten_append, length_append,
    length_flatten_flatMap_const fun s => slotFields_length _]
  simp

theorem opFixedFields_length (te : StoredEntry) : (opFixedFields te).flatten.length = 41 := by
  simp [opFixedFields]

theorem opFields_length (te : StoredEntry) : (opFields te).flatten.length = opEstimate te + 1 := by
  simp only [opFields, flatten_append, length_append, opFixedFields_length,
    length_flatten_flatMap_const fun j => metaFields_length _,
    length_flatten_map_const fun j => length_leBytes 4 _,
    length_flatten_map_const fun j => length_intBytes 8 _, length_range, opEstimate]
  ring

theorem opsFields_length (ops : List StoredEntry) :
    (ops.flatMap opFields).flatten.length = (ops.map opEstimate).sum + ops.length := by
  induction ops with
  | nil => rfl
  | cons te ops ih =>
    rw [flatMap_cons, flatten_append, length_append, opFields_length, map_cons, sum_cons, length_cons]
    omega

def planBytes (plan : Option MemoryPlan) : Nat :=
  plan.elim 0 fun plan => 36 + plan.numSlots * sizeofTensorSlot

theorem regionImage_length : (regionImage region).length =
      53 + planBytes region.plan + (region.ops.map opEstimate).sum + region.ops.length := by
  have hplan : (region.plan.elim [] planFields).flatten.length = planBytes region.plan := by
    cases region.plan with
    | none => rfl
    | some plan => exact planFields_length plan
  simp only [regionImage, regionFields, flatten_append, length_append,
    headerFields_length, hplan, opsFields_length]
  simp
  omega

theorem foldl_opEstimate (ops : List StoredEntry) (sz : Nat) :
    ops.foldl (fun sz te => sz + opEstimate te) sz = sz + (ops.map opEstimate).sum := by
  induction ops generalizing sz with
  | nil => rfl
  | cons te ops ih => rw [foldl_cons, ih, map_cons, sum_cons, add_assoc]

/-- The ops that the spare bytes of the fixed parts pay for. -/
def spareBytes : Nat := if region.plan.isSome then 327 else 299

theorem estimateSerialSize_eq : estimateSerialSize region =
      53 + planBytes region.plan + (region.ops.map opEstimate).sum + spareBytes region := by
  rw [estimateSerialSize, foldl_opEstimate]
  cases hplan : region.plan with
  | none =>
    simp only [planBytes, spareBytes, hplan, Option.elim_none, Option.isSome_none,
      Bool.false_eq_true, if_false]
    omega
  | some plan =>
    simp only [planBytes, spareBytes, hplan, Option.elim_some, Option.isSome_some, if_true]
    omega

theorem serializeRegion_fits {region : StoredRegion} (h : (regionImage region).length ≤ max) :
    serializeRegion region max = (regionImage region).length := by
  have hwrit : regionWriter region max = { out := regionImage region, max := max } :=
    Writer.writeAll_fits (by rw [length_nil, zero_add]; exact h)
  rw [serializeRegion, hwrit, if_pos rfl]

theorem serializeRegion_refuses {region : StoredRegion}
    (h : max < (regionImage region).length) : serializeRegion region max = 0 := by
  have hmar : (regionWriter region max).ok = false :=
    Writer.writeAll_overflows zero_le (by rw [length_nil, zero_add]; exact h)
  rw [serializeRegion, hmar, if_neg Bool.false_ne_true]

theorem regionImage_le_estimate :
    (regionImage region).length ≤ estimateSerialSize region ↔
      region.ops.length ≤ spareBytes region := by
  rw [regionImage_length, estimateSerialSize_eq]
  omega

/-- **The buffer that the store allocates holds the image exactly when the region has at
most 299 ops, or at most 327 ops if it carries a plan**, whatever the inputs, outputs,
scalars and slots are.  A region with more ops is refused. -/
theorem store_buffer_suffices_iff :
    ((regionImage region).length ≤ estimateSerialSize region ↔
      region.ops.length ≤ if region.plan.isSome then 327 else 299) ∧
    (serializeRegion region (estimateSerialSize region) ≠ 0 ↔
      region.ops.length ≤ if region.plan.isSome then 327 else 299) := by
  refine ⟨regionImage_le_estimate region, ?_⟩
  constructor
  · intro hstored
    by_contra hmany
    apply hstored
    apply serializeRegion_refuses
    rw [← not_le, regionImage_le_estimate]
    exact hmany
  · intro hfew
    rw [serializeRegion_fits ((regionImage_le_estimate region).mpr hfew), regionImage_length]
    omega

/-- 300 ops without tensors and scalars. -/
def bareOps : StoredRegion := { ops := replicate 300 {} }

/-- A region of 300 bare ops is within every ceiling, and its image is one byte too long
for the buffer, so the store refuses it. -/
theorem store_refuses_bareOps : bareOps.WithinCeilings ∧
    (regionImage bareOps).length = estimateSerialSize bareOps + 1 ∧
    serializeRegion bareOps (estimateSerialSize bareOps) = 0 := by
  have hops : bareOps.ops.length = 300 := length_replicate
  have hspare : spareBytes bareOps = 299 := rfl
  have hlong : (regionImage bareOps).length = estimateSerialSize bareOps + 1 := by
    rw [regionImage_length, estimateSerialSize_eq, hops, hspare]
  refine ⟨?_, hlong, serializeRegion_refuses (by omega)⟩
  constructor
  · rw [hops]
    decide
  · intro plan hplan
    cases hplan
  all_goals
    intro te hte
    rw [eq_of_mem_replicate hte]
    decide

end Crucible
