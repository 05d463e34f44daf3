import Crucible.IterationDetector
import Crucible.TraceBuild

/-! # The detect stage

The detect stage pushes each op into `PendingOps`, gives its key to the detector, and
cuts a work item out of the pending ops when the detector reports a boundary.  After
each op it drops the ops that no later boundary can claim.  The four columns of `PendingOps`
are one column of ops here.
-/
namespace Crucible

structure PendingOps where
  slots : Nat → RecordedOp := fun _ => default
  mask : Nat := 0
  head : Nat := 0
  count : Nat := 0

namespace PendingOps

/-- `PendingOps::MIN_CAPACITY`. -/
def minCapacity : Nat := 2 ^ 12

variable (q : PendingOps)

/-- `entry`, with the other columns at the same index. -/
def entry (index : Nat) : RecordedOp := q.slots ((q.head + index) &&& q.mask)

/-- `grow_`.  A ring past the history of the detector is fatal. -/
def grow : Except Fault PendingOps :=
  let newCapacity := if q.mask = 0 then minCapacity else (q.mask + 1) * 2
  if historyMaxCapacity < newCapacity then .error .contract
  else .ok { q with
    slots := fun index => if index < q.count then q.entry index else default
    mask := newCapacity - 1
    head := 0 }

/-- The first statement of `push`: a full ring grows. -/
def growIfFull : Except Fault PendingOps :=
  if q.mask = 0 ∨ q.count = q.mask + 1 then q.grow else .ok q

def push (op : RecordedOp) : Except Fault PendingOps := do
  let q ← q.growIfFull
  .ok { q with
    slots := Function.update q.slots ((q.head + q.count) &&& q.mask) op
    count := q.count + 1 }

def dropOldest (n : Nat) : PendingOps :=
  let dropped := if n < q.count then n else q.count
  { q with head := q.head + dropped, count := q.count - dropped }

def clear : PendingOps := q.dropOldest q.count

def toList : List RecordedOp := (List.range q.count).map q.entry

end PendingOps

/-- `BgBuildWork`, when it is not a commit marker. -/
structure BuildWork where
  ops : List RecordedOp
  epoch : Nat
deriving DecidableEq

/-- The state that the detect stage owns.  `epoch` is `reset_epoch`. -/
structure DetectStage where
  detector : IterationDetector := {}
  pending : PendingOps := {}
  epoch : Nat := 0
  iterationsCompleted : Nat := 0

namespace DetectStage
variable (st : DetectStage)

def dropUnclaimableOps : DetectStage :=
  let firstHeld := st.detector.pos - st.pending.count
  let oldestClaimable := st.detector.oldestClaimable
  if oldestClaimable > firstHeld then
    { st with pending := st.pending.dropOldest (oldestClaimable - firstHeld) }
  else st

def prepareIterationBuildWork : Except Fault (DetectStage × Option BuildWork) := do
  let total := wrap32 st.pending.count
  let iterLen := st.detector.lastCompletedLen
  let warmup := total - detectorK - iterLen
  let pending := st.pending.dropOldest warmup
  let total := total - warmup
  let completedLen := total - detectorK
  let iterationsCompleted ← bump32 st.iterationsCompleted
  let work :=
    if completedLen > 0 then
      some { ops := (List.range completedLen).map pending.entry, epoch := st.epoch }
    else none
  .ok ({ st with pending := pending.dropOldest completedLen, iterationsCompleted }, work)

/-- One op of the loop of `DetectIterationFn`.  The answer is the length that the
detector reports, and the work item. -/
def detectOp (op : RecordedOp) : Except Fault (DetectStage × Option (Nat × Option BuildWork)) := do
  let pending ← st.pending.push op
  let (detector, boundary) ← st.detector.check op.entry.schemaHash op.entry.shapeHash
  let st := { st with pending, detector }
  if boundary then
    let (st, work) ← st.prepareIterationBuildWork
    .ok (st.dropUnclaimableOps, some (detector.lastCompletedLen, work))
  else .ok (st.dropUnclaimableOps, none)

/-- `do_reset` of `DetectIterationFn`. -/
def doReset : Except Fault DetectStage := do
  let detector ← st.detector.restartAfterDivergence
  let epoch ← bump32 st.epoch
  .ok { st with detector, pending := st.pending.clear, epoch }

end DetectStage

/-- What the detect stage handles: an op, or a reset that the foreground requested. -/
inductive DetectEvent where
  | op (op : RecordedOp)
  | reset
deriving DecidableEq

def detectEvent (st : DetectStage) :
    DetectEvent → Except Fault (DetectStage × Option (Nat × Option BuildWork))
  | .op op => st.detectOp op
  | .reset => do
    let st ← st.doReset
    .ok (st, none)

def runDetect : DetectStage → List DetectEvent →
    Except Fault (DetectStage × List (Option (Nat × Option BuildWork)))
  | st, [] => .ok (st, [])
  | st, e :: events => do
    let (st, answer) ← detectEvent st e
    let (st, answers) ← runDetect st events
    .ok (st, answer :: answers)

end Crucible
