import Crucible.OpenAddressing
import Crucible.StorageNbytes

/-! # The trace builder

`build_trace_from` turns the ops of one iteration into a graph: it gives every
tensor occurrence a storage slot, finds the producer of every input, and emits the
data-flow and alias edges.  Addresses are resolved over an open-addressing table that a
generation counter clears.

The record of the log at index `i` is `log i`.  The fatal checks of the source end the
process, which is the result `fatal`.
-/
namespace Crucible
open OpenAddressing (Probe find BoundedMap)

/-! ### Ring entries and recorded ops -/

inductive TrainingPhase where
  | forward | backward | optimizer | other
deriving DecidableEq

def TrainingPhase.ofBits : Nat → TrainingPhase
  | 0 => .forward
  | 1 => .backward
  | 2 => .optimizer
  | _ => .other

/-- `TraceRing::Entry`. -/
structure RingEntry where
  schemaHash : Nat
  shapeHash : Nat
  numInputs : Nat := 0
  numOutputs : Nat := 0
  numScalarArgs : Nat := 0
  opFlags : Nat := 0
  scalarValues : List Int := []
deriving DecidableEq, Inhabited

/-- One op of the pipeline: the ring entry with its parallel columns.  An op without
a metadata index was recorded without tensors, or while the log was full. -/
structure RecordedOp where
  entry : RingEntry
  metaIndex : Option Nat := none
  scopeHash : Nat := 0
  callsiteHash : Nat := 0
deriving DecidableEq, Inhabited

/-! ### The pointer map -/

/-- `PtrSlot`.  The none value of `OpIndex` is `none`. -/
structure PtrSlot where
  key : Nat := 0
  opIndex : Option Nat := none
  slotId : Nat := u32Max
  port : Nat := 0
  gen : Nat := 0
deriving DecidableEq, Inhabited

def hashPtr (ptr : Nat) : Nat := wrap64 (ptr * 0x9E3779B97F4A7C15) / 2 ^ 32

/-- The cell of a probe: `(bucket_idx + probe) & mask`. -/
def ptrPos (mask key probe : Nat) : Nat := ((hashPtr key &&& mask) + probe) &&& mask

/-- The key of a cell.  A stale generation means that the cell is empty. -/
def ptrKey (gen : Nat) (slot : PtrSlot) : Option Nat :=
  if slot.gen = gen then some slot.key else none

/-- The probe loop that `ptr_map_insert` and `ptr_map_lookup` share. -/
def ptrFind (map : Nat → PtrSlot) (gen mask key : Nat) : Probe :=
  find (ptrKey gen) (ptrPos mask) (mask + 1) map key

/-- `InsertResult`.  `slot` is the cell of the entry. -/
structure InsertResult where
  slot : Option Nat := none
  wasAlias : Bool := false
  oldOp : Option Nat := none
  oldPort : Nat := 0
  oldSlot : Nat := u32Max
deriving DecidableEq

/-- `ptr_map_insert`.  An entry that exists keeps its slot id. -/
def ptrMapInsert (map : Nat → PtrSlot) (gen mask key : Nat) (opIndex : Option Nat)
    (port slotId : Nat) : (Nat → PtrSlot) × InsertResult :=
  match ptrFind map gen mask key with
  | .free c => (Function.update map c { key, opIndex, slotId, port, gen }, { slot := some c })
  | .hit c =>
    (Function.update map c { map c with opIndex, port },
      { slot := some c
        wasAlias := (map c).opIndex ≠ opIndex
        oldOp := (map c).opIndex
        oldPort := (map c).port
        oldSlot := (map c).slotId })
  | .full => (map, {})

structure PtrLookup where
  opIndex : Option Nat := none
  slotId : Nat := u32Max
  port : Nat := 0
deriving DecidableEq

def ptrMapLookup (map : Nat → PtrSlot) (gen mask key : Nat) : PtrLookup :=
  if key = 0 then {}
  else
    match ptrFind map gen mask key with
    | .hit c => { opIndex := (map c).opIndex, slotId := (map c).slotId, port := (map c).port }
    | _ => {}

/-! ### Scratch buffers -/

/-- `MIN_PTR_MAP_CAP`, `MAX_PTR_MAP_CAP`, `MIN_SCRATCH_SLOT_CAP` and
`MIN_SCRATCH_EDGE_CAP`. -/
def minPtrMapCap : Nat := 4096
def maxPtrMapCap : Nat := 2 ^ 30
def minScratchSlotCap : Nat := 8192
def minScratchEdgeCap : Nat := 16384

/-- `MetaLog::CAPACITY`. -/
def metaLogCapacity : Nat := 2 ^ 20

/-- `add_sat` and `mul_sat` on `uint32_t`. -/
def addSat32 (a b : Nat) : Nat := min (a + b) u32Max
def mulSat32 (a b : Nat) : Nat := min (a * b) u32Max

def bitCeil (x : Nat) : Nat := if x ≤ 1 then 1 else 2 ^ ((x - 1).log2 + 1)

/-- The scratch state that the builder keeps across calls. -/
structure Scratch where
  mapCap : Nat := 0
  slotCapMax : Nat := 0
  edgeCapMax : Nat := 0
  map : Nat → PtrSlot := fun _ => {}
  mapGen : Nat := 0

/-- The map capacity that `ensure_scratch_buffers` asks for. -/
def neededMap (totalOutputs : Nat) : Nat :=
  let raw := max minPtrMapCap (mulSat32 (addSat32 totalOutputs 256) 2)
  if raw ≥ maxPtrMapCap then maxPtrMapCap else bitCeil raw

/-- `ensure_scratch_buffers`.  A buffer that grows is fresh. -/
def ensureScratchBuffers (sc : Scratch) (totalInputs totalOutputs : Nat) : Scratch :=
  let needed := neededMap totalOutputs
  let sc := if needed > sc.mapCap then
    { sc with mapCap := needed, map := fun _ => {}, mapGen := 0 } else sc
  { sc with
    slotCapMax := max sc.slotCapMax (max minScratchSlotCap (addSat32 totalOutputs 1024))
    edgeCapMax := max sc.edgeCapMax (max minScratchEdgeCap (addSat32 totalInputs totalOutputs)) }

/-- The generation bump at the start of a build.  A wrapped counter clears the table. -/
def nextGeneration (sc : Scratch) : Scratch :=
  let gen := (sc.mapGen + 1) % 2 ^ 8
  if gen = 0 then { sc with map := fun _ => {}, mapGen := 1 } else { sc with mapGen := gen }

/-! ### Slots, edges and the resolution of one op -/

/-- `SlotInfo`, the part of a `TensorSlot` that the builder fills. -/
structure SlotInfo where
  nbytes : Nat := 0
  birthOp : Nat := u32Max
  deathOp : Nat := u32Max
  dtype : ScalarType := .undefined
  deviceType : DeviceType := .cpu
  deviceIdx : Int := -1
  layout : Layout := .strided
  isExternal : Bool := false
deriving DecidableEq, Inhabited

/-- A slot first seen as `tensor`. -/
def SlotInfo.ofTensor (tensor : TensorMeta) (birthOp deathOp : Nat) (isExternal : Bool) :
    SlotInfo :=
  { nbytes := storageNbytes tensor
    birthOp, deathOp, isExternal
    dtype := tensor.dtype
    deviceType := tensor.deviceType
    deviceIdx := tensor.deviceIdx
    layout := tensor.layout }

/-- The bulk copy of a `SlotInfo` into the slot array. -/
def SlotInfo.toTensorSlot (info : SlotInfo) (slotId : Nat) : TensorSlot :=
  { offsetBytes := 0
    nbytes := info.nbytes
    birthOp := info.birthOp
    deathOp := info.deathOp
    dtype := info.dtype
    deviceType := info.deviceType
    deviceIdx := info.deviceIdx
    layout := info.layout
    isExternal := info.isExternal
    slotId }

inductive EdgeKind where
  | dataFlow | alias | controlFlow | scalarFlow
deriving DecidableEq

structure Edge where
  src : Nat
  dst : Nat
  srcPort : Nat
  dstPort : Nat
  kind : EdgeKind
deriving DecidableEq

/-- The values that the loop over the ops reads and does not change. -/
structure BuildEnv where
  gen : Nat
  mask : Nat
  slotCap : Nat
  edgeCap : Nat

/-- The state of the loop over the ops.  `num_edges` is the length of `edges`. -/
structure BuildState where
  map : Nat → PtrSlot
  slots : Nat → SlotInfo := fun _ => {}
  nextSlot : Nat := 0
  edges : List Edge := []

/-- A port as the edge keeps it, `static_cast<uint8_t>(j)`. -/
def portOf (j : Nat) : Nat := j % 2 ^ 8

/-- Extend the life of a slot to op `i`, when the id is inside the slot array. -/
def BuildState.touch (st : BuildState) (env : BuildEnv) (slotId : Nat)
    (update : SlotInfo → SlotInfo) : BuildState :=
  if slotId < env.slotCap then
    { st with slots := Function.update st.slots slotId (update (st.slots slotId)) }
  else st

def BuildState.newSlot (st : BuildState) (info : SlotInfo) : BuildState :=
  { st with
    slots := Function.update st.slots st.nextSlot info
    nextSlot := st.nextSlot + 1 }

/-- Append an edge.  The check of the edge buffer is fatal. -/
def BuildState.addEdge (st : BuildState) (env : BuildEnv) (edge : Edge) : Option BuildState :=
  if st.edges.length < env.edgeCap then some { st with edges := st.edges ++ [edge] } else none

/-- One input of op `i`: the new state, the producer and the slot id. -/
def resolveInput (env : BuildEnv) (i j : Nat) (tensor : TensorMeta) (st : BuildState) :
    Option (BuildState × Option Nat × Nat) :=
  let lookup := ptrMapLookup st.map env.gen env.mask tensor.dataPtr
  match lookup.opIndex with
  | some src => do
    let st ← st.addEdge env ⟨src, i, lookup.port, portOf j, .dataFlow⟩
    let st := st.touch env lookup.slotId fun info => { info with deathOp := max info.deathOp i }
    some (st, some src, lookup.slotId)
  | none =>
    if tensor.dataPtr ≠ 0 ∧ st.nextSlot < env.slotCap then
      let slot := st.nextSlot
      let st := st.newSlot (.ofTensor tensor 0 i true)
      let map := (ptrMapInsert st.map env.gen env.mask tensor.dataPtr none 0 slot).1
      some ({ st with map }, none, slot)
    else some (st, none, u32Max)

/-- One output of op `i`: the new state and the slot id. -/
def resolveOutput (env : BuildEnv) (i j : Nat) (tensor : TensorMeta) (st : BuildState) :
    Option (BuildState × Nat) :=
  if tensor.dataPtr = 0 then some (st, u32Max)
  else
    let (map, result) :=
      ptrMapInsert st.map env.gen env.mask tensor.dataPtr (some i) (portOf j) 0
    let st := { st with map }
    if result.wasAlias then
      let st := st.touch env result.oldSlot fun info =>
        { info with
          deathOp := max info.deathOp i
          nbytes := max info.nbytes (storageNbytes tensor) }
      match result.oldOp with
      | some src => do
        let st ← st.addEdge env ⟨src, i, result.oldPort, portOf j, .alias⟩
        some (st, result.oldSlot)
      | none => some (st, result.oldSlot)
    else if st.nextSlot < env.slotCap then
      let slot := st.nextSlot
      let st := st.newSlot (.ofTensor tensor i i false)
      match result.slot with
      | some c =>
        some ({ st with map := Function.update st.map c { st.map c with slotId := slot } }, slot)
      | none => some (st, slot)
    else some (st, u32Max)

/-- The loop over the inputs of op `i`, from input `j` on. -/
def resolveInputs (env : BuildEnv) (i : Nat) :
    Nat → List TensorMeta → BuildState → Option (BuildState × List (Option Nat × Nat))
  | _, [], st => some (st, [])
  | j, tensor :: rest, st => do
    let (st, found) ← resolveInput env i j tensor st
    let (st, others) ← resolveInputs env i (j + 1) rest st
    some (st, found :: others)

/-- The loop over the outputs of op `i`, from output `j` on. -/
def resolveOutputs (env : BuildEnv) (i : Nat) :
    Nat → List TensorMeta → BuildState → Option (BuildState × List Nat)
  | _, [], st => some (st, [])
  | j, tensor :: rest, st => do
    let (st, slot) ← resolveOutput env i j tensor st
    let (st, others) ← resolveOutputs env i (j + 1) rest st
    some (st, slot :: others)

/-! ### The whole build -/

/-- `TraceEntry`.  The arrays of an op without metadata are empty. -/
structure TraceEntry where
  schemaHash : Nat
  shapeHash : Nat
  scopeHash : Nat
  callsiteHash : Nat
  inputMetas : List TensorMeta
  outputMetas : List TensorMeta
  scalarArgs : List Int
  numScalarArgs : Nat
  gradEnabled : Bool
  inferenceMode : Bool
  isMutable : Bool
  trainingPhase : TrainingPhase
  torchFunction : Bool
  inputTraceIndices : List (Option Nat)
  inputSlotIds : List Nat
  outputSlotIds : List Nat
deriving DecidableEq

structure TraceScan where
  maxMetaEnd : Nat := 0
  firstMeta : Option Nat := none
  totalInputs : Nat := 0
  totalOutputs : Nat := 0
deriving DecidableEq

/-- One op of the scan.  The error is the overflow on an op that had tensors. -/
def scanTraceOp (acc : TraceScan) (op : RecordedOp) : Except Nat TraceScan :=
  match op.metaIndex with
  | none =>
    if op.entry.numInputs + op.entry.numOutputs > 0 then .error acc.maxMetaEnd
    else .ok acc
  | some start =>
    .ok {
      maxMetaEnd := max acc.maxMetaEnd (start + op.entry.numInputs + op.entry.numOutputs)
      firstMeta := acc.firstMeta.or (some start)
      totalInputs := wrap32 (acc.totalInputs + op.entry.numInputs)
      totalOutputs := wrap32 (acc.totalOutputs + op.entry.numOutputs) }

def scanTrace (ops : List RecordedOp) : Except Nat TraceScan := ops.foldlM scanTraceOp {}

/-- The copy of the run `[first, last)` of the log. -/
def copyRun (log : Nat → TensorMeta) (first last : Nat) : List TensorMeta :=
  (List.range (last - first)).map fun i => log (first + i)

/-- The metadata of an op in the copied run, from its offset on. -/
def runSlice (run : List TensorMeta) (offset n : Nat) : List TensorMeta :=
  (List.range n).map fun j => run.getD (offset + j) default

/-- `te.input_metas` and `te.output_metas` of an op. -/
def opInputs (run : List TensorMeta) (first : Nat) (op : RecordedOp) : List TensorMeta :=
  match op.metaIndex with
  | none => []
  | some start => runSlice run (start - first) op.entry.numInputs

def opOutputs (run : List TensorMeta) (first : Nat) (op : RecordedOp) : List TensorMeta :=
  match op.metaIndex with
  | none => []
  | some start => runSlice run (start - first + op.entry.numInputs) op.entry.numOutputs

/-- The scalar arguments that fit the fixed array of the entry. -/
def numScalars (entry : RingEntry) : Nat := min entry.numScalarArgs 5

/-- The entry of op `op` around the arrays that the loops resolved. -/
def TraceEntry.ofOp (op : RecordedOp) (inputs outputs : List TensorMeta)
    (ins : List (Option Nat × Nat)) (outs : List Nat) : TraceEntry :=
  { schemaHash := op.entry.schemaHash
    shapeHash := op.entry.shapeHash
    scopeHash := op.scopeHash
    callsiteHash := op.callsiteHash
    inputMetas := inputs
    outputMetas := outputs
    scalarArgs :=
      if op.metaIndex.isSome then op.entry.scalarValues.take (numScalars op.entry) else []
    numScalarArgs := numScalars op.entry
    gradEnabled := op.entry.opFlags.testBit 5
    inferenceMode := op.entry.opFlags.testBit 0
    isMutable := op.entry.opFlags.testBit 1
    trainingPhase := .ofBits ((op.entry.opFlags &&& 0xC) >>> 2)
    torchFunction := op.entry.opFlags.testBit 4
    inputTraceIndices := ins.map Prod.fst
    inputSlotIds := ins.map Prod.snd
    outputSlotIds := outs }

/-- The body of the loop over the ops. -/
def buildOp (env : BuildEnv) (run : List TensorMeta) (first i : Nat) (op : RecordedOp)
    (st : BuildState) : Option (BuildState × TraceEntry) := do
  let (st, ins) ← resolveInputs env i 0 (opInputs run first op) st
  let (st, outs) ← resolveOutputs env i 0 (opOutputs run first op) st
  some (st, .ofOp op (opInputs run first op) (opOutputs run first op) ins outs)

/-- The loop over the ops, from op `i` on. -/
def buildOps (env : BuildEnv) (run : List TensorMeta) (first : Nat) :
    Nat → List RecordedOp → BuildState → Option (BuildState × List TraceEntry)
  | _, [], st => some (st, [])
  | i, op :: rest, st => do
    let (st, entry) ← buildOp env run first i op st
    let (st, others) ← buildOps env run first (i + 1) rest st
    some (st, entry :: others)

/-- The graph of a build with the parts of its region. -/
structure BuiltTrace where
  ops : List TraceEntry
  slots : List TensorSlot
  edges : List Edge
  maxMetaEnd : Nat
deriving DecidableEq

/-- What a call of `build_trace_from` ends with. -/
inductive BuildResult where
  /-- An op with tensors had no metadata index. -/
  | overflow (metaEnd : Nat)
  /-- A fatal check failed. -/
  | fatal
  | built (sc : Scratch) (trace : BuiltTrace)

/-- The scratch buffers as a build uses them: grown, and with a new generation. -/
def openScratch (sc : Scratch) (scan : TraceScan) : Scratch :=
  nextGeneration (ensureScratchBuffers sc scan.totalInputs scan.totalOutputs)

/-- The loop constants of a build. -/
def buildEnv (sc : Scratch) (scan : TraceScan) : BuildEnv :=
  { gen := sc.mapGen
    mask := sc.mapCap - 1
    slotCap := min sc.slotCapMax (max 256 (wrap32 (scan.totalInputs + scan.totalOutputs)))
    edgeCap := sc.edgeCapMax }

/-- `BackgroundThread::build_trace_from`. -/
def buildTraceFrom (sc : Scratch) (log : Nat → TensorMeta) (ops : List RecordedOp) : BuildResult :=
  match scanTrace ops with
  | .error metaEnd => .overflow metaEnd
  | .ok scan =>
    let first := scan.firstMeta.getD 0
    if scan.maxMetaEnd - first > metaLogCapacity then .fatal
    else
      let sc := openScratch sc scan
      match buildOps (buildEnv sc scan) (copyRun log first scan.maxMetaEnd) first 0 ops
          { map := sc.map } with
      | none => .fatal
      | some (st, entries) =>
        .built { sc with map := st.map }
          { ops := entries
            slots := (List.range (min st.nextSlot (buildEnv sc scan).slotCap)).map fun s =>
              (st.slots s).toTensorSlot s
            edges := st.edges
            maxMetaEnd := scan.maxMetaEnd }

end Crucible
